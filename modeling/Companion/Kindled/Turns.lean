import Companion.Kindled.Hostile
import Companion.Tasks

/-!
# The turns of a poll

An item of the mailbox in its turn, behind the consent gate. `Effect` lists what an item may commit;
everything later is derived from it. An item is `Spent` where its checks reject it, and `Onward`
says what of another sender's rows has to stay for that to last.
-/

namespace Companion.Kindled.Poll

open Companion.Memory Companion.Kindled.Handshake Companion.Tasks

variable {κ ε : Type} {L : Library κ ε} {s s' : Store κ ε} {now : Instant} {it : Item}

/-- An item in its turn. -/
def turn (L : Library κ ε) (now : Instant) (s : Store κ ε) (it : Item) : Outcome κ :=
  if blocked s it.sender then drop else ingest L s it.sender it now

/-- A poll takes its items in turn. -/
def worker (L : Library κ ε) (now : Instant) : Worker (Store κ ε) Item (Write κ) where
  apply := Write.apply
  work s it := if (turn L now s it).raised then none else some (turn L now s it).writes

/-- The checks of an item reject it. -/
def Spent (L : Library κ ε) (now : Instant) (s : Store κ ε) (it : Item) : Prop :=
  if isSessionOpen it.envelope then
    bindable (sessionIdOrEmpty it.envelope) = true ∧
      readHandshake L s it.envelope now = .error .rejects
  else if isKeyRotationNotice it.envelope then
    readNotice L s it.sender it.envelope now = .error .rejects
  else readMessage L s it.sender it.envelope now = .error .rejects

theorem ingest_of_spent (h : Spent L now s it) : ingest L s it.sender it now = drop := by
  unfold Spent at h
  unfold ingest
  split_ifs at h ⊢ with hopen hnotice
  · obtain ⟨hbindable, hreject⟩ := h
    unfold ingestSessionOpen
    rw [hbindable]
    split_ifs
    · contradiction
    · rw [onSessionOpen, hreject]
      rfl
    · rw [completeSession, hreject]
      rfl
  · rw [handleKeyRotationNotice, h]
    rfl
  · rw [ingestMessage, h]
    rfl

/-! ## What an item commits -/

/-- A peer id is the sender itself. -/
theorem peerId_eq_some {v : Value} {p : Points} : peerId v = some p ↔ v = .str p := by
  cases v with
  | str s => exact ⟨fun h => congrArg Json.str (Option.some.inj h), fun h => by cases h; rfl⟩
  | _ => exact iff_of_false nofun nofun

theorem getPeer_ok {id : Value} {peer : Points} {row : PeerRow} :
    getPeer s id = .ok (peer, row) ↔ id.truthy = true ∧ bindable id = true ∧ id = .str peer ∧
      s.peers.get? peer = some row := by
  unfold getPeer
  constructor
  · intro h
    split_ifs at h with htruthy hbindable
    split at h
    · next found hfound =>
      obtain rfl := Except.ok.inj h
      obtain ⟨p, hp, hrow⟩ := Option.bind_eq_some_iff.mp hfound
      obtain ⟨row', hrow', heq⟩ := Option.map_eq_some_iff.mp hrow
      obtain ⟨rfl, rfl⟩ := Prod.mk.inj heq
      exact ⟨by simpa using htruthy, by simpa using hbindable, peerId_eq_some.mp hp, hrow'⟩
    · cases h
  · rintro ⟨htruthy, hbindable, rfl, hrow⟩
    simp [htruthy, hbindable, peerId, hrow]

/-- What is read of a handshake comes from a peer, and its session has no key. -/
theorem readHandshake_ok {e : Value} {peer : Points} {row : PeerRow} {body : Value} :
    readHandshake L s e now = .ok (peer, row, body) ↔
      getPeer s (senderKeyId e) = .ok (peer, row) ∧
        parseSessionOpen L row.identityPub e now = .ok body ∧
        row? s.keys (some peer) (sqlText L (sessionId e)) = none := by
  unfold readHandshake
  cases hpeer : getPeer s (senderKeyId e) with
  | error why => simp [bind, Except.bind]
  | ok found =>
    obtain ⟨p, r⟩ := found
    cases hparse : parseSessionOpen L r.identityPub e now with
    | error why =>
      refine iff_of_false (by simp [bind, Except.bind, hparse]) ?_
      rintro ⟨heq, hok, -⟩
      obtain ⟨rfl, rfl⟩ := Prod.mk.inj (Except.ok.inj heq)
      rw [hparse] at hok
      cases hok
    | ok b =>
      simp only [bind, Except.bind, hparse]
      constructor
      · intro h
        split_ifs at h with hkey
        obtain ⟨rfl, rfl, rfl⟩ : p = peer ∧ r = row ∧ b = body := by simpa using h
        exact ⟨rfl, hparse, by simpa using hkey⟩
      · rintro ⟨heq, hok, hkey⟩
        obtain ⟨rfl, rfl⟩ := Prod.mk.inj (Except.ok.inj heq)
        obtain rfl := Except.ok.inj (hparse.symm.trans hok)
        rw [hkey, Option.isSome_none, if_neg Bool.false_ne_true]

/-- The sender of a handshake that is read. -/
theorem senderKeyId_of_readHandshake {e : Value} {peer : Points} {row : PeerRow} {body : Value}
    (h : readHandshake L s e now = .ok (peer, row, body)) : senderKeyId e = .str peer :=
  (getPeer_ok.mp (readHandshake_ok.mp h).1).2.2.1

theorem respondedKey_some {peer : Points} {body session : Value} {key : κ} {sid : Points}
    {nonce : List ℕ} (h : respondedKey L peer body session = some (key, sid, nonce)) :
    session = .str sid := by
  unfold respondedKey at h
  split at h
  · simp only [Option.bind_eq_bind, Option.bind_eq_some_iff] at h
    obtain ⟨eph, -, nonce', -, key', -, heq⟩ := h
    cases heq
    rfl
  · cases h

theorem initiatedKey_some {pending : Pending ε} {peer : Points} {body session : Value} {key : κ}
    {sid : Points} (h : initiatedKey L pending peer body session = some (key, sid)) :
    session = .str sid := by
  unfold initiatedKey at h
  split at h
  · simp only [Option.bind_eq_bind, Option.bind_eq_some_iff] at h
    obtain ⟨eph, -, key', -, heq⟩ := h
    cases heq
    rfl
  · cases h

/-- A field that is read as a text is there. -/
theorem sender_of_senderKeyId {p : Points} (h : senderKeyId it.envelope = .str p) :
    it.sender = .str p := by
  unfold senderKeyId at h
  unfold Item.sender
  cases hfield : it.envelope.field "sender_key_id" with
  | none =>
    rw [hfield] at h
    cases h
  | some v =>
    rw [hfield] at h
    exact h

theorem sessionIdOrEmpty_of_sessionId {e : Value} {sid : Points} (h : sessionId e = .str sid) :
    sessionIdOrEmpty e = .str sid := by
  unfold sessionId at h
  unfold sessionIdOrEmpty
  cases hfield : e.field "session_id" with
  | none =>
    rw [hfield] at h
    cases h
  | some v =>
    rw [hfield] at h
    exact h

/-- What an item may commit, and whether it raises after that. -/
inductive Effect (L : Library κ ε) (now : Instant) (s : Store κ ε) (it : Item) :
    List (Write κ) → Bool → Prop
  | nothing {raised : Bool} : (raised = false → Spent L now s it) → Effect L now s it [] raised
  | learned {peer : Points} {mailbox : Option Points} : it.sender = .str peer →
      Effect L now s it [.upsertPeer peer mailbox] true
  | answered {peer session : Points} {row : PeerRow} {body : Value} {key : KeyRow κ}
      (mailbox : List (Option Points)) {raised : Bool} :
      isSessionOpen it.envelope = true → bindable (sessionIdOrEmpty it.envelope) = true →
      mailbox.length ≤ 1 → (mailbox ≠ [] → (senderMailbox it.envelope).truthy = true) →
      readHandshake L s it.envelope now = .ok (peer, row, body) →
      sessionId it.envelope = .str session → s.pending.get? (peer, session) = none →
      Effect L now s it (mailbox.map (.upsertPeer peer ·) ++
        [.saveSessionKey peer session key, .createSession peer session]) raised
  | completed {peer session : Points} {row : PeerRow} {body : Value} {key : KeyRow κ} :
      isSessionOpen it.envelope = true → bindable (sessionIdOrEmpty it.envelope) = true →
      readHandshake L s it.envelope now = .ok (peer, row, body) →
      sessionId it.envelope = .str session → (s.pending.get? (peer, session)).isSome →
      Effect L now s it [.saveSessionKey peer session key, .createSession peer session,
        .clearPendingHandshake peer session] false
  | followed {peer newPub newKeyId : Points} : isSessionOpen it.envelope = false →
      isKeyRotationNotice it.envelope = true → it.sender = .str peer →
      (∃ row, s.peers.get? peer = some row) →
      (updatePeerIdentity s peer newPub newKeyId).isSome →
      Effect L now s it [.updatePeerIdentity peer newPub newKeyId] false
  | accepted {peer session : Points} {seq : ℤ} {payload text : Value} :
      isSessionOpen it.envelope = false → isKeyRotationNotice it.envelope = false →
      readMessage L s it.sender it.envelope now = .ok (peer, session, seq, payload) →
      s.transcript.get? (peer, session, seq) = none →
      Effect L now s it [.appendTranscript peer session seq text,
        .setSeqHighWater peer session seq] false

/-- A check that does not pass: the item is spent, or it raises. -/
theorem Effect.of_stop {why : Stop} (h : why = .rejects → Spent L now s it) :
    Effect L now s it (stop why : Outcome κ).writes (stop why : Outcome κ).raised := by
  cases why with
  | rejects => exact .nothing fun _ => h rfl
  | raises => exact .nothing nofun

theorem onSessionOpen_effect (hopen : isSessionOpen it.envelope = true)
    (hbindable : bindable (sessionIdOrEmpty it.envelope) = true)
    (hpending : row? s.pending (peerId it.sender) (sqlText L (sessionIdOrEmpty it.envelope)) = none) :
    Effect L now s it (onSessionOpen L s it.envelope now).writes
      (onSessionOpen L s it.envelope now).raised := by
  unfold onSessionOpen
  cases hread : readHandshake L s it.envelope now with
  | error why =>
    refine .of_stop ?_
    rintro rfl
    rw [Spent, if_pos hopen]
    exact ⟨hbindable, hread⟩
  | ok found =>
    obtain ⟨peer, row, body⟩ := found
    have hsender := senderKeyId_of_readHandshake hread
    simp only
    by_cases hmailbox : ((senderMailbox it.envelope).truthy && !bindable (senderMailbox it.envelope)) = true
    · rw [if_pos hmailbox]
      exact .nothing nofun
    · rw [if_neg hmailbox]
      cases hkey : respondedKey L peer body (sessionId it.envelope) with
      | none =>
        simp only
        split_ifs
        · exact .learned (sender_of_senderKeyId hsender)
        · exact .nothing nofun
      | some found =>
        obtain ⟨key, session, nonce⟩ := found
        have hsession := respondedKey_some hkey
        have hnone : s.pending.get? (peer, session) = none := by
          rwa [sender_of_senderKeyId hsender, sessionIdOrEmpty_of_sessionId hsession] at hpending
        -- The mailbox is learned first, where there is one.
        have hanswered (raised : Bool) : Effect L now s it
            ((if (senderMailbox it.envelope).truthy = true then
              [.upsertPeer peer (sqlText L (senderMailbox it.envelope))] else []) ++
              [.saveSessionKey peer session ⟨key, .responder, .initiator⟩,
                .createSession peer session]) raised := by
          split_ifs with htruthy
          · exact .answered [_] hopen hbindable (Nat.le_refl _) (fun _ => htruthy) hread
              hsession hnone
          · exact .answered [] hopen hbindable (Nat.zero_le _) (absurd rfl) hread hsession
              hnone
        by_cases hsends : L.sends (replyMailbox row (senderMailbox it.envelope)) = true
        · simp only [hsends, if_true]
          exact hanswered false
        · simp only [hsends]
          exact hanswered true

/-- No handshake is pending under the empty session id. -/
def Named (s : Store κ ε) : Prop := ∀ p, s.pending.get? (p, []) = none

theorem completeSession_effect (hnamed : Named s)
    (hopen : isSessionOpen it.envelope = true)
    (hbindable : bindable (sessionIdOrEmpty it.envelope) = true)
    (hpending : (row? s.pending (peerId it.sender)
      (sqlText L (sessionIdOrEmpty it.envelope))).isSome = true) :
    Effect L now s it (completeSession L s it.envelope now).writes
      (completeSession L s it.envelope now).raised := by
  unfold completeSession
  cases hread : readHandshake L s it.envelope now with
  | error why =>
    refine .of_stop ?_
    rintro rfl
    rw [Spent, if_pos hopen]
    exact ⟨hbindable, hread⟩
  | ok found =>
    obtain ⟨peer, row, body⟩ := found
    have hsender := senderKeyId_of_readHandshake hread
    have hpeer := sender_of_senderKeyId hsender
    simp only
    cases hrow : row? s.pending (some peer) (sqlText L (sessionId it.envelope)) with
    | none =>
      -- Without a session id, the handshake would be pending under the empty one.
      refine .nothing fun _ => ?_
      unfold sessionIdOrEmpty at hpending
      unfold sessionId at hrow
      rw [hpeer] at hpending
      cases hfield : it.envelope.field "session_id" with
      | none =>
        rw [hfield] at hpending
        have hempty : row? s.pending (some peer) (some []) = none := hnamed peer
        change (row? s.pending (some peer) (some [])).isSome = true at hpending
        rw [hempty] at hpending
        cases hpending
      | some v =>
        rw [hfield] at hpending hrow
        change (row? s.pending (some peer) (sqlText L v)).isSome = true at hpending
        change row? s.pending (some peer) (sqlText L v) = none at hrow
        rw [hrow] at hpending
        cases hpending
    | some pending =>
      simp only
      cases hkey : initiatedKey L pending peer body (sessionId it.envelope) with
      | none => exact .nothing nofun
      | some found =>
        obtain ⟨key, session⟩ := found
        have hsession := initiatedKey_some hkey
        refine .completed hopen hbindable hread hsession ?_
        rw [hsession] at hrow
        exact Option.isSome_iff_exists.mpr ⟨pending, hrow⟩

theorem readNotice_ok {sender e : Value} {peer newPub newKeyId : Points} :
    readNotice L s sender e now = .ok (peer, newPub, newKeyId) ↔
      sender = .str peer ∧ ∃ row, s.peers.get? peer = some row ∧
        parseKeyRotationNotice L row.identityPub e now = .ok (newPub, newKeyId) ∧
        newPub ≠ row.identityPub ∧ newPub ≠ row.previousIdentityPub.getD [] := by
  rw [← peerId_eq_some]
  unfold readNotice
  cases hpeer : peerId sender with
  | none => simp
  | some p =>
    cases hrow : s.peers.get? p with
    | none =>
      refine iff_of_false (by simp [hrow]) ?_
      rintro ⟨heq, row, hrow', -⟩
      obtain rfl := Option.some.inj heq
      rw [hrow] at hrow'
      cases hrow'
    | some row =>
      simp only [Option.bind_some, hrow, Option.map_some]
      constructor
      · intro h
        cases hparse : parseKeyRotationNotice L row.identityPub e now with
        | error why =>
          rw [hparse] at h
          cases h
        | ok found =>
          obtain ⟨pub, id⟩ := found
          rw [hparse] at h
          simp only [bind, Except.bind] at h
          split_ifs at h with hsame hback
          obtain ⟨rfl, rfl, rfl⟩ : p = peer ∧ pub = newPub ∧ id = newKeyId := by simpa using h
          exact ⟨rfl, row, hrow, hparse, hsame, hback⟩
      · rintro ⟨heq, row', hrow', hparse, hsame, hback⟩
        obtain rfl := Option.some.inj heq
        obtain rfl := Option.some.inj (hrow.symm.trans hrow')
        simp [bind, Except.bind, hparse, hsame, hback]

/-- What an item commits is one of the effects. -/
theorem ingest_effect (L : Library κ ε) (now : Instant) (hnamed : Named s) (it : Item) :
    Effect L now s it (ingest L s it.sender it now).writes
      (ingest L s it.sender it now).raised := by
  unfold ingest
  -- An item opens a session, tells of a new key or is a message.
  by_cases hopen : isSessionOpen it.envelope = true
  · rw [if_pos hopen]
    unfold ingestSessionOpen
    by_cases hbindable : bindable (sessionIdOrEmpty it.envelope) = true
    · rw [if_neg (by simp [hbindable])]
      split_ifs with hpending
      · exact onSessionOpen_effect hopen hbindable (by simpa using hpending)
      · exact completeSession_effect hnamed hopen hbindable
          (Option.isSome_iff_ne_none.mpr (by simpa using hpending))
    · rw [if_pos (by simpa using hbindable)]
      exact .nothing nofun
  · have hclosed : isSessionOpen it.envelope = false := by simpa using hopen
    rw [if_neg hopen]
    by_cases hnotice : isKeyRotationNotice it.envelope = true
    · rw [if_pos hnotice]
      unfold handleKeyRotationNotice
      cases hread : readNotice L s it.sender it.envelope now with
      | error why =>
        refine .of_stop ?_
        rintro rfl
        rw [Spent, if_neg hopen, if_pos hnotice]
        exact hread
      | ok found =>
        obtain ⟨peer, newPub, newKeyId⟩ := found
        obtain ⟨hsender, row, hrow, -⟩ := readNotice_ok.mp hread
        simp only
        split_ifs with hnone
        · exact .nothing nofun
        · exact .followed hclosed hnotice hsender ⟨row, hrow⟩
            (by simpa [Option.isSome_iff_ne_none] using hnone)
    · rw [if_neg hnotice]
      unfold ingestMessage
      cases hread : readMessage L s it.sender it.envelope now with
      | error why =>
        refine .of_stop ?_
        rintro rfl
        rw [Spent, if_neg hopen, if_neg hnotice]
        exact hread
      | ok found =>
        obtain ⟨peer, session, seq, payload⟩ := found
        simp only
        split_ifs with hbad
        · exact .nothing nofun
        · refine .accepted hclosed (by simpa using hnotice) hread ?_
          simp only [Bool.or_eq_true, not_or] at hbad
          simpa using hbad.2

/-! ## What stays of a sender -/

/-- A row of a peer but for its mailbox, which no check reads. -/
def PeerRow.known (row : PeerRow) : PeerRow := { row with relayMailbox := none }

/-- What the checks read under a peer has not gone back. -/
structure Kept (p : Points) (s s' : Store κ ε) : Prop where
  peer : (s'.peers.get? p).map PeerRow.known = (s.peers.get? p).map PeerRow.known
  keys : ∀ session row, s.keys.get? (p, session) = some row → s'.keys.get? (p, session) = some row
  highWater : ∀ session,
    (s.highWater.get? (p, session)).getD 0 ≤ (s'.highWater.get? (p, session)).getD 0

/-- A peer is not known, and has no sessions. -/
structure Gone (p : Points) (s : Store κ ε) : Prop where
  peer : s.peers.get? p = none
  keys : ∀ session, s.keys.get? (p, session) = none

/-- The rows of a sender are kept, or it is gone. -/
def Onward (sender : Value) (s s' : Store κ ε) : Prop :=
  ∀ p, sender = .str p → Kept p s s' ∨ Gone p s'

theorem Kept.refl (p : Points) (s : Store κ ε) : Kept p s s :=
  ⟨rfl, fun _ _ h => h, fun _ => Int.le_refl _⟩

theorem Kept.trans {p : Points} {r : Store κ ε} (h : Kept p r s) (h' : Kept p s s') : Kept p r s' where
  peer := h'.peer.trans h.peer
  keys session row hrow := h'.keys session row (h.keys session row hrow)
  highWater session := Int.le_trans (h.highWater session) (h'.highWater session)

/-- A row that is there now was there before, but for its mailbox. -/
theorem Onward.peer {sender : Value} (h : Onward sender s s') {p : Points} (hp : sender = .str p)
    {row : PeerRow} (hrow : s'.peers.get? p = some row) :
    Kept p s s' ∧ ∃ row₀, s.peers.get? p = some row₀ ∧ row₀.known = row.known := by
  rcases h p hp with hkept | hgone
  · refine ⟨hkept, ?_⟩
    have hmap := hkept.peer
    rw [hrow] at hmap
    obtain ⟨row₀, hrow₀, heq⟩ := Option.map_eq_some_iff.mp hmap.symm
    exact ⟨row₀, hrow₀, heq⟩
  · rw [hgone.peer] at hrow
    cases hrow

theorem PeerRow.known_inj {row row₀ : PeerRow} (h : row₀.known = row.known) :
    row₀.identityPub = row.identityPub ∧ row₀.previousIdentityPub = row.previousIdentityPub ∧
      row₀.consent = row.consent := by
  simp only [PeerRow.known, PeerRow.mk.injEq] at h
  exact ⟨h.1, h.2.1, h.2.2.1⟩

/-- A check that raises or passes later would have raised or passed before. -/
structure Later {α : Type} (x x' : Except Stop α) : Prop where
  raises : x' = .error .raises → x = .error .raises
  passes : ∀ a, x' = .ok a → ∃ b, x = .ok b

theorem Later.rejects {α : Type} {x x' : Except Stop α} (h : Later x x') (hx : x = .error .rejects) :
    x' = .error .rejects := by
  subst hx
  cases hx' : x' with
  | error why =>
    cases why with
    | rejects => rfl
    | raises => cases h.raises hx'
  | ok a =>
    obtain ⟨b, hb⟩ := h.passes a hx'
    cases hb

/-- The peer that a handshake comes from. -/
theorem Onward.getPeer (h : Onward it.sender s s') {peer : Points} {row : PeerRow}
    (hok : Poll.getPeer s' (senderKeyId it.envelope) = .ok (peer, row)) :
    Kept peer s s' ∧ ∃ row₀, Poll.getPeer s (senderKeyId it.envelope) = .ok (peer, row₀) ∧
      row₀.identityPub = row.identityPub := by
  obtain ⟨htruthy, hbindable, hid, hrow⟩ := getPeer_ok.mp hok
  obtain ⟨hkept, row₀, hrow₀, heq⟩ := h.peer (sender_of_senderKeyId hid) hrow
  exact ⟨hkept, row₀, getPeer_ok.mpr ⟨htruthy, hbindable, hid, hrow₀⟩, (PeerRow.known_inj heq).1⟩

theorem readHandshake_later (L : Library κ ε) (now : Instant) (h : Onward it.sender s s') :
    Later (readHandshake L s it.envelope now) (readHandshake L s' it.envelope now) where
  raises hraises := by
    rw [readHandshake_raises] at hraises ⊢
    rcases hraises with hbad | ⟨peer, row, hpeer, hunreadable⟩
    · exact .inl hbad
    · obtain ⟨-, row₀, hpeer₀, hpub⟩ := h.getPeer hpeer
      exact .inr ⟨peer, row₀, hpeer₀, hpub ▸ hunreadable⟩
  passes := by
    rintro ⟨peer, row, body⟩ hok
    obtain ⟨hpeer, hparse, hkey⟩ := readHandshake_ok.mp hok
    obtain ⟨hkept, row₀, hpeer₀, hpub⟩ := h.getPeer hpeer
    refine ⟨(peer, row₀, body), readHandshake_ok.mpr ⟨hpeer₀, hpub ▸ hparse, ?_⟩⟩
    cases hsession : sqlText L (sessionId it.envelope) with
    | none => rfl
    | some session =>
      rw [hsession] at hkey
      refine Option.eq_none_iff_forall_ne_some.mpr fun row' hrow' => ?_
      have hlater := hkept.keys session row' hrow'
      change s'.keys.get? (peer, session) = none at hkey
      rw [hkey] at hlater
      cases hlater

theorem readNotice_later (h : Onward it.sender s s') :
    Later (readNotice L s it.sender it.envelope now) (readNotice L s' it.sender it.envelope now) where
  raises hraises := by
    rw [readNotice_raises] at hraises ⊢
    obtain ⟨peer, row, hpeer, hrow, hunreadable⟩ := hraises
    obtain ⟨-, row₀, hrow₀, heq⟩ := h.peer (peerId_eq_some.mp hpeer) hrow
    exact ⟨peer, row₀, hpeer, hrow₀, (PeerRow.known_inj heq).1 ▸ hunreadable⟩
  passes := by
    rintro ⟨peer, newPub, newKeyId⟩ hok
    obtain ⟨hpeer, row, hrow, hparse, hsame, hback⟩ := readNotice_ok.mp hok
    obtain ⟨-, row₀, hrow₀, heq⟩ := h.peer hpeer hrow
    obtain ⟨hpub, hprevious, -⟩ := PeerRow.known_inj heq
    rw [← hpub] at hparse hsame
    rw [← hprevious] at hback
    exact ⟨(peer, newPub, newKeyId), readNotice_ok.mpr ⟨hpeer, row₀, hrow₀, hparse, hsame, hback⟩⟩

/-- What comes after a check passes where the check does. -/
theorem check_ok {α : Type} {x : Except Stop Unit} {y : Except Stop α} {a : α} :
    (do x; y) = .ok a ↔ x = .ok () ∧ y = .ok a := by
  cases x with
  | error why => simp [bind, Except.bind]
  | ok u => simp [bind, Except.bind]

theorem verifyAndOpen_ok {e : Value} {pub : Option Points} {key : κ} {role : Role} {highWater n : ℤ}
    {payload : Value} :
    verifyAndOpen L pub key role highWater e now = .ok (n, payload) ↔
      checkProtocol e = .ok () ∧ checkSignature L pub e = .ok () ∧
        (e.field "recipient_key_id").any (·.equals (.str L.keyId)) = true ∧
        readSequence L e = .ok n ∧ highWater < n ∧ checkExpiry L e now = .ok () ∧
        L.decrypt key role n e = some payload := by
  unfold verifyAndOpen
  rw [check_ok, check_ok, check_ok, require_eq_ok]
  refine and_congr_right fun _ => and_congr_right fun _ => and_congr_right fun _ => ?_
  cases hsequence : readSequence L e with
  | error why => simp [bind, Except.bind]
  | ok m =>
    refine Iff.trans check_ok ?_
    rw [check_ok, require_eq_ok, decide_eq_true_eq]
    constructor
    · rintro ⟨hlt, hexpiry, hopen⟩
      cases hdecrypt : L.decrypt key role m e with
      | none =>
        rw [hdecrypt] at hopen
        cases hopen
      | some v =>
        rw [hdecrypt] at hopen
        obtain ⟨rfl, rfl⟩ : m = n ∧ v = payload := by simpa using hopen
        exact ⟨rfl, hlt, hexpiry, hdecrypt⟩
    · rintro ⟨heq, hlt, hexpiry, hdecrypt⟩
      obtain rfl := Except.ok.inj heq
      exact ⟨hlt, hexpiry, by rw [hdecrypt]; rfl⟩

theorem readMessage_ok {sender e : Value} {peer session : Points} {n : ℤ} {payload : Value} :
    readMessage L s sender e now = .ok (peer, session, n, payload) ↔
      bindable (sessionIdOrEmpty e) = true ∧ sender = .str peer ∧
        sqlText L (sessionIdOrEmpty e) = some session ∧
        ∃ row, s.keys.get? (peer, session) = some row ∧
          verifyAndOpen L ((s.peers.get? peer).map PeerRow.identityPub) row.key row.peerRole
            ((s.highWater.get? (peer, session)).getD 0) e now = .ok (n, payload) := by
  rw [← peerId_eq_some]
  unfold readMessage
  by_cases hbindable : bindable (sessionIdOrEmpty e) = true
  · rw [if_neg (by simp [hbindable]), and_iff_right hbindable]
    cases hpeer : peerId sender with
    | none => simp
    | some p =>
      cases hsession : sqlText L (sessionIdOrEmpty e) with
      | none => simp
      | some sid =>
        simp only
        constructor
        · intro h
          cases hrow : s.keys.get? (p, sid) with
          | none =>
            rw [hrow] at h
            cases h
          | some row =>
            rw [hrow] at h
            cases hopen : verifyAndOpen L ((s.peers.get? p).map PeerRow.identityPub) row.key
                row.peerRole ((s.highWater.get? (p, sid)).getD 0) e now with
            | error why => simp [bind, Except.bind, hopen] at h
            | ok found =>
              obtain ⟨m, v⟩ := found
              obtain ⟨rfl, rfl, rfl, rfl⟩ : p = peer ∧ sid = session ∧ m = n ∧ v = payload := by
                simpa [bind, Except.bind, hopen] using h
              exact ⟨rfl, rfl, row, hrow, hopen⟩
        · rintro ⟨heq, heq', row, hrow, hopen⟩
          obtain rfl := Option.some.inj heq
          obtain rfl := Option.some.inj heq'
          simp [bind, Except.bind, hrow, hopen]
  · rw [if_pos (by simpa using hbindable)]
    exact iff_of_false (by rintro ⟨⟩) fun h => hbindable h.1

/-- No session key is new. -/
def Unopened (sender : Value) (s s' : Store κ ε) : Prop :=
  ∀ p session row, sender = .str p → s'.keys.get? (p, session) = some row →
    s.keys.get? (p, session) = some row

/-- The session of a message that is read later, or raises later, was there before. -/
theorem Onward.session {sender : Value} (h : Onward sender s s') (hkeys : Unopened sender s s')
    {peer session : Points} {row : KeyRow κ} (hpeer : sender = .str peer)
    (hrow : s'.keys.get? (peer, session) = some row) :
    s.keys.get? (peer, session) = some row ∧
      (s'.peers.get? peer).map PeerRow.identityPub = (s.peers.get? peer).map PeerRow.identityPub ∧
      (s.highWater.get? (peer, session)).getD 0 ≤ (s'.highWater.get? (peer, session)).getD 0 := by
  rcases h peer hpeer with hkept | hgone
  · refine ⟨hkeys peer session row hpeer hrow, ?_, hkept.highWater session⟩
    have hmap := congrArg (Option.map PeerRow.identityPub) hkept.peer
    rwa [Option.map_map, Option.map_map] at hmap
  · rw [hgone.keys] at hrow
    cases hrow

theorem readMessage_later (L : Library κ ε) (now : Instant) (h : Onward it.sender s s')
    (hkeys : Unopened it.sender s s') :
    Later (readMessage L s it.sender it.envelope now)
      (readMessage L s' it.sender it.envelope now) where
  raises hraises := by
    rw [readMessage_raises] at hraises ⊢
    refine hraises.imp_right ?_
    rintro ⟨peer, session, row, hpeer, hsession, hrow, hunopenable⟩
    obtain ⟨hrow₀, hpub, hle⟩ := h.session hkeys (peerId_eq_some.mp hpeer) hrow
    refine ⟨peer, session, row, hpeer, hsession, hrow₀, ?_⟩
    rw [hpub] at hunopenable
    obtain ⟨hprotocol, hgarbled | ⟨hsignature, hrecipient, hrest⟩⟩ := hunopenable
    · exact ⟨hprotocol, .inl hgarbled⟩
    · refine ⟨hprotocol, .inr ⟨hsignature, hrecipient, hrest.imp_right ?_⟩⟩
      rintro ⟨n, hn, hlt, hbeyond⟩
      exact ⟨n, hn, Int.lt_of_le_of_lt hle hlt, hbeyond⟩
  passes := by
    rintro ⟨peer, session, n, payload⟩ hok
    obtain ⟨hbindable, hpeer, hsession, row, hrow, hopen⟩ := readMessage_ok.mp hok
    obtain ⟨hrow₀, hpub, hle⟩ := h.session hkeys hpeer hrow
    rw [hpub] at hopen
    obtain ⟨hprotocol, hsignature, hrecipient, hn, hlt, hexpiry, hdecrypt⟩ := verifyAndOpen_ok.mp hopen
    exact ⟨(peer, session, n, payload), readMessage_ok.mpr ⟨hbindable, hpeer, hsession, row, hrow₀,
      verifyAndOpen_ok.mpr ⟨hprotocol, hsignature, hrecipient, hn, Int.lt_of_le_of_lt hle hlt,
        hexpiry, hdecrypt⟩⟩⟩

/-- An item that is spent stays so: its sender is kept or gone, and has no new sessions unless the
item is a handshake. -/
theorem Spent.later (hspent : Spent L now s it) (h : Onward it.sender s s')
    (hkeys : isSessionOpen it.envelope = false → Unopened it.sender s s') : Spent L now s' it := by
  unfold Spent at hspent ⊢
  split_ifs at hspent ⊢ with hopen hnotice
  · exact ⟨hspent.1, (readHandshake_later L now h).rejects hspent.2⟩
  · exact (readNotice_later h).rejects hspent
  · exact (readMessage_later L now h (hkeys (by simpa using hopen))).rejects hspent

/-! ## What the writes keep -/

/-- A peer that changes its identity is renamed in every table. -/
theorem updatePeerIdentity_some {peer newPub newKeyId : Points}
    (h : updatePeerIdentity s peer newPub newKeyId = some s') :
    (∃ peers, s.peers.rekey? (rename peer newKeyId) = some peers ∧
      s'.peers = match s.peers.get? peer with
        | some row => peers.set newKeyId
            { row with identityPub := newPub, previousIdentityPub := some row.identityPub }
        | none => peers) ∧
    s.pending.rekey? (Prod.map (rename peer newKeyId) id) = some s'.pending ∧
    s.keys.rekey? (Prod.map (rename peer newKeyId) id) = some s'.keys ∧
    s.sessions.rekey? (Prod.map (rename peer newKeyId) id) = some s'.sessions ∧
    s.transcript.rekey? (Prod.map (rename peer newKeyId) id) = some s'.transcript ∧
    s.highWater.rekey? (Prod.map (rename peer newKeyId) id) = some s'.highWater := by
  simp only [updatePeerIdentity, Option.bind_eq_bind, Option.bind_eq_some_iff] at h
  obtain ⟨peers, hpeers, pending, hpending, keys, hkeys, sessions, hsessions, transcript, htranscript,
    highWater, hhighWater, heq⟩ := h
  obtain rfl := Option.some.inj heq
  exact ⟨⟨peers, hpeers, rfl⟩, hpending, hkeys, hsessions, htranscript, hhighWater⟩

/-- A renaming that is committed. -/
theorem commit_updatePeerIdentity {peer newPub newKeyId : Points}
    (h : updatePeerIdentity s peer newPub newKeyId = some s') :
    s.commit [.updatePeerIdentity peer newPub newKeyId] = s' := by
  simp [Store.commit, Write.apply, h]

/-- What has a name after a renaming. -/
theorem rename_eq {old new p q : Points} (h : new ≠ p) : rename old new q = p ↔ q = p ∧ p ≠ old := by
  unfold rename
  split_ifs with hq
  · exact iff_of_false h fun hp => hp.2 (hp.1 ▸ hq)
  · exact ⟨fun hp => ⟨hp, hp ▸ hq⟩, And.left⟩

/-- The rows of a table under a peer whose id is not the new one. -/
theorem get?_rename {β α : Type} [DecidableEq β] {d d' : Dict (Points × β) α} {old new p : Points}
    (h : d.rekey? (Prod.map (rename old new) id) = some d') (hne : new ≠ p) (b : β) :
    d'.get? (p, b) = if p = old then none else d.get? (p, b) := by
  refine Option.ext fun v => ?_
  rw [Dict.get?_rekey_fst h]
  constructor
  · rintro ⟨q, hq, hv⟩
    obtain ⟨rfl, hold⟩ := (rename_eq hne).mp hq
    rwa [if_neg hold]
  · intro hv
    split_ifs at hv with hold
    exact ⟨p, (rename_eq hne).mpr ⟨rfl, hold⟩, hv⟩

/-- The row of a peer whose id is not the new one. -/
theorem get?_peers_updatePeerIdentity {peer newPub newKeyId p : Points}
    (h : updatePeerIdentity s peer newPub newKeyId = some s') (hne : newKeyId ≠ p) :
    s'.peers.get? p = if p = peer then none else s.peers.get? p := by
  obtain ⟨⟨peers, hpeers, heq⟩, -⟩ := updatePeerIdentity_some h
  have hget : peers.get? p = if p = peer then none else s.peers.get? p := by
    refine Option.ext fun row => ?_
    rw [Dict.get?_rekey hpeers]
    constructor
    · rintro ⟨q, hq, hrow⟩
      obtain ⟨rfl, hold⟩ := (rename_eq hne).mp hq
      rwa [if_neg hold]
    · intro hrow
      split_ifs at hrow with hold
      exact ⟨p, (rename_eq hne).mpr ⟨rfl, hold⟩, hrow⟩
  rw [heq, ← hget]
  split
  · rw [Dict.get?_set, if_neg (Ne.symm hne)]
  · rfl

/-- A peer that is not the one renamed, nor what it is renamed to, is kept. -/
theorem kept_updatePeerIdentity {peer newPub newKeyId p : Points}
    (h : updatePeerIdentity s peer newPub newKeyId = some s') (hne : newKeyId ≠ p)
    (hother : p ≠ peer) : Kept p s s' ∧ Unopened (.str p) s s' := by
  obtain ⟨-, -, hkeys, -, -, hhigh⟩ := updatePeerIdentity_some h
  have hkey : ∀ session, s'.keys.get? (p, session) = s.keys.get? (p, session) := by
    intro session
    rw [get?_rename hkeys hne, if_neg hother]
  refine ⟨⟨?_, fun session row hrow => ?_, fun session => ?_⟩, ?_⟩
  · rw [get?_peers_updatePeerIdentity h hne, if_neg hother]
  · rw [hkey, hrow]
  · rw [get?_rename hhigh hne, if_neg hother]
  · rintro q session row heq hrow
    obtain rfl := Json.str.inj heq
    rwa [hkey] at hrow

/-- The peer that is renamed is gone. -/
theorem gone_updatePeerIdentity {peer newPub newKeyId : Points}
    (h : updatePeerIdentity s peer newPub newKeyId = some s') (hne : newKeyId ≠ peer) :
    Gone peer s' := by
  obtain ⟨-, -, hkeys, -⟩ := updatePeerIdentity_some h
  refine ⟨?_, fun session => ?_⟩
  · rw [get?_peers_updatePeerIdentity h hne, if_pos rfl]
  · rw [get?_rename hkeys hne, if_pos rfl]

/-- A write that renames no peer. -/
def Write.Plain : Write κ → Prop
  | updatePeerIdentity _ _ _ => False
  | _ => True

/-- Only the peers change. -/
theorem apply_upsertPeer (s : Store κ ε) (peer : Points) (mailbox : Option Points) :
    Write.apply s (.upsertPeer peer mailbox) =
      { s with
        peers := (s.peers.get? peer).elim s.peers fun row =>
          s.peers.set peer { row with relayMailbox := mailbox.orElse fun _ => row.relayMailbox } } := by
  simp only [Write.apply]
  cases s.peers.get? peer with
  | none => rfl
  | some row => rfl

/-- Only the session keys change. -/
theorem apply_saveSessionKey (s : Store κ ε) (peer session : Points) (row : KeyRow κ) :
    Write.apply s (.saveSessionKey peer session row) =
      { s with keys := if (s.keys.get? (peer, session)).isSome then s.keys
          else s.keys.set (peer, session) row } := by
  simp only [Write.apply]
  split_ifs
  · rfl
  · rfl

/-- Only the sessions change. -/
theorem apply_createSession (s : Store κ ε) (peer session : Points) :
    Write.apply s (.createSession peer session) =
      { s with sessions := if (s.sessions.get? (peer, session)).isSome then s.sessions
          else s.sessions.set (peer, session) true } := by
  simp only [Write.apply]
  split_ifs
  · rfl
  · rfl

/-- The row of a peer after another's, or its own, mailbox is learned. -/
theorem known_upsertPeer (s : Store κ ε) (peer p : Points) (mailbox : Option Points) :
    ((Write.apply s (.upsertPeer peer mailbox)).peers.get? p).map PeerRow.known =
      (s.peers.get? p).map PeerRow.known := by
  rw [apply_upsertPeer]
  cases hrow : s.peers.get? peer with
  | none => rfl
  | some row =>
    simp only [Option.elim_some, Dict.get?_set]
    split_ifs with hp
    · rw [hp, hrow]
      rfl
    · rfl

/-- The key of a session after one is saved, which overwrites none. -/
theorem get?_saveSessionKey (s : Store κ ε) (peer session p sid : Points) (row : KeyRow κ) :
    (Write.apply s (.saveSessionKey peer session row)).keys.get? (p, sid) =
      (s.keys.get? (p, sid)).orElse fun _ =>
        if (p, sid) = (peer, session) then some row else none := by
  rw [apply_saveSessionKey]
  by_cases hp : (p, sid) = (peer, session)
  · rw [hp]
    cases hkey : s.keys.get? (peer, session) with
    | none => simp [Dict.get?_set]
    | some old => simp [hkey]
  · cases hkey : s.keys.get? (peer, session) with
    | none => simp [Dict.get?_set, hp]
    | some old => simp [hp]

/-- A write that renames no peer keeps them all, unless it lowers a high-water mark. -/
theorem Write.kept {w : Write κ} (hplain : w.Plain) {p : Points}
    (hhigh : ∀ session seq, w = .setSeqHighWater p session seq →
      (s.highWater.get? (p, session)).getD 0 ≤ seq) : Kept p s (w.apply s) := by
  cases w with
  | upsertPeer peer mailbox =>
    refine ⟨known_upsertPeer s peer p mailbox, fun _ _ h => ?_, fun _ => ?_⟩
    · rwa [apply_upsertPeer]
    · rw [apply_upsertPeer]
  | saveSessionKey peer session key =>
    refine ⟨?_, fun session' row hrow => ?_, fun _ => ?_⟩
    · rw [apply_saveSessionKey]
    · rw [get?_saveSessionKey, hrow]
      rfl
    · rw [apply_saveSessionKey]
  | createSession peer session =>
    rw [apply_createSession]
    exact ⟨rfl, fun _ _ h => h, fun _ => Int.le_refl _⟩
  | clearPendingHandshake peer session => exact ⟨rfl, fun _ _ h => h, fun _ => Int.le_refl _⟩
  | appendTranscript peer session seq text =>
    exact ⟨rfl, fun _ _ h => h, fun _ => Int.le_refl _⟩
  | setSeqHighWater peer session seq =>
    refine ⟨rfl, fun _ _ h => h, fun session' => ?_⟩
    simp only [Write.apply, Dict.get?_set]
    split_ifs with hp
    · obtain ⟨rfl, rfl⟩ := Prod.mk.inj hp
      exact hhigh _ _ rfl
    · exact Int.le_refl _
  | updatePeerIdentity _ _ _ => exact hplain.elim

/-- A write that renames no peer and saves no session key of one gives it none. -/
theorem Write.unopened {w : Write κ} (hplain : w.Plain) {p : Points}
    (hkey : ∀ session row, w ≠ .saveSessionKey p session row) :
    Unopened (.str p) s (w.apply s) := by
  intro q sid row heq hrow
  obtain rfl := Json.str.inj heq
  cases w with
  | upsertPeer peer mailbox => rwa [apply_upsertPeer] at hrow
  | saveSessionKey peer session key =>
    rw [get?_saveSessionKey] at hrow
    have hne : (p, sid) ≠ (peer, session) := by
      intro hp
      obtain ⟨rfl, rfl⟩ := Prod.mk.inj hp
      exact hkey _ _ rfl
    rw [if_neg hne] at hrow
    simpa using hrow
  | createSession peer session => rwa [apply_createSession] at hrow
  | clearPendingHandshake peer session => exact hrow
  | appendTranscript peer session seq text => exact hrow
  | setSeqHighWater peer session seq => exact hrow
  | updatePeerIdentity _ _ _ => exact hplain.elim

theorem commit_append (s : Store κ ε) (vs ws : List (Write κ)) :
    s.commit (vs ++ ws) = (s.commit vs).commit ws :=
  List.foldl_append

/-- Writes that rename no peer and set no high-water mark keep every peer. -/
theorem kept_commit {ws : List (Write κ)} {p : Points} (hplain : ∀ w ∈ ws, w.Plain)
    (hhigh : ∀ session seq, .setSeqHighWater p session seq ∉ ws) : Kept p s (s.commit ws) := by
  induction ws generalizing s with
  | nil => exact .refl p s
  | cons w ws ih =>
    refine Kept.trans (Write.kept (hplain w List.mem_cons_self) ?_)
      (ih (fun v hv => hplain v (List.mem_cons_of_mem _ hv)) fun session seq hmem =>
        hhigh session seq (List.mem_cons_of_mem _ hmem))
    rintro session seq rfl
    exact absurd List.mem_cons_self (hhigh session seq)

/-- Writes that rename no peer and save no session key of one give it none. -/
theorem unopened_commit {ws : List (Write κ)} {p : Points} (hplain : ∀ w ∈ ws, w.Plain)
    (hkey : ∀ session row, .saveSessionKey p session row ∉ ws) :
    Unopened (.str p) s (s.commit ws) := by
  induction ws generalizing s with
  | nil => exact fun _ _ _ _ h => h
  | cons w ws ih =>
    intro q session row hq hrow
    refine Write.unopened (hplain w List.mem_cons_self) ?_ q session row hq
      (ih (fun v hv => hplain v (List.mem_cons_of_mem _ hv)) (fun session row hmem =>
        hkey session row (List.mem_cons_of_mem _ hmem)) q session row hq hrow)
    rintro session row rfl
    exact hkey session row List.mem_cons_self

/-- A handshake that is answered renames no peer. -/
theorem plain_answered (peer session : Points) (key : KeyRow κ) (mailbox : List (Option Points)) :
    ∀ w ∈ mailbox.map (Write.upsertPeer peer ·) ++
      [.saveSessionKey peer session key, .createSession peer session], w.Plain := by
  intro w hw
  rcases List.mem_append.mp hw with hmailbox | hopened
  · obtain ⟨m, -, rfl⟩ := List.mem_map.mp hmailbox
    trivial
  · rcases List.mem_pair.mp hopened with rfl | rfl
    · trivial
    · trivial

/-- What an item commits renames no peer, or its sender alone. -/
theorem Effect.plain_or_followed {ws : List (Write κ)} {raised : Bool}
    (h : Effect L now s it ws raised) :
    (∀ w ∈ ws, w.Plain) ∨ ∃ peer newPub newKeyId s',
      ws = [.updatePeerIdentity peer newPub newKeyId] ∧ isKeyRotationNotice it.envelope = true ∧
        it.sender = .str peer ∧ updatePeerIdentity s peer newPub newKeyId = some s' := by
  cases h with
  | nothing _ => exact .inl fun _ hw => absurd hw List.not_mem_nil
  | learned _ => exact .inl (by simp [Write.Plain])
  | answered mailbox _ _ _ _ _ _ _ => exact .inl (plain_answered _ _ _ mailbox)
  | completed _ _ _ _ _ => exact .inl (by simp [Write.Plain])
  | @followed peer newPub newKeyId _ hnotice hsender _ hsome =>
    obtain ⟨s', hs'⟩ := Option.isSome_iff_exists.mp hsome
    exact .inr ⟨peer, newPub, newKeyId, s', rfl, hnotice, hsender, hs'⟩
  | accepted _ _ _ _ => exact .inl (by simp [Write.Plain])

/-- A write that renames no peer makes no handshake pending. -/
theorem Named.apply (h : Named s) {w : Write κ} (hplain : w.Plain) : Named (w.apply s) := by
  cases w with
  | upsertPeer peer mailbox => rwa [apply_upsertPeer]
  | saveSessionKey peer session key => rwa [apply_saveSessionKey]
  | createSession peer session => rwa [apply_createSession]
  | clearPendingHandshake peer session =>
    intro p
    simp only [Write.apply, Dict.get?_pop]
    split_ifs
    · rfl
    · exact h p
  | appendTranscript peer session seq text => exact h
  | setSeqHighWater peer session seq => exact h
  | updatePeerIdentity _ _ _ => exact hplain.elim

theorem Named.commit (h : Named s) {ws : List (Write κ)} (hplain : ∀ w ∈ ws, w.Plain) :
    Named (s.commit ws) := by
  induction ws generalizing s with
  | nil => exact h
  | cons w ws ih =>
    exact ih (h.apply (hplain w List.mem_cons_self)) fun v hv => hplain v (List.mem_cons_of_mem _ hv)

/-- A handshake that is pending after a renaming was pending before it. -/
theorem Named.followed (h : Named s) {peer newPub newKeyId : Points}
    (hs' : updatePeerIdentity s peer newPub newKeyId = some s') : Named s' := by
  obtain ⟨-, hpending, -⟩ := updatePeerIdentity_some hs'
  intro p
  refine Option.not_isSome_iff_eq_none.mp fun hrow => ?_
  obtain ⟨q, -, hq⟩ := (Dict.isSome_rekey_fst hpending).mp hrow
  rw [h q] at hq
  cases hq

theorem Effect.named {ws : List (Write κ)} {raised : Bool} (h : Effect L now s it ws raised)
    (hs : Named s) : Named (s.commit ws) := by
  rcases h.plain_or_followed with hplain | ⟨peer, newPub, newKeyId, s', rfl, -, -, hs'⟩
  · exact hs.commit hplain
  · rw [commit_updatePeerIdentity hs']
    exact hs.followed hs'

/-- A peer with which an item is compared: what it commits keeps the peer, or the peer is its sender
and is gone; and unless the item is a handshake of the peer, it gives it no session key. -/
theorem Effect.onward {ws : List (Write κ)} {raised : Bool} (h : Effect L now s it ws raised)
    {p : Points} (hfresh : ∀ peer newPub newKeyId,
      .updatePeerIdentity peer newPub newKeyId ∈ ws → newKeyId ≠ p) :
    (Kept p s (s.commit ws) ∨ it.sender = .str p ∧ Gone p (s.commit ws)) ∧
      (isSessionOpen it.envelope = false ∨ it.sender ≠ .str p →
        Unopened (.str p) s (s.commit ws)) := by
  -- Only the sender's own handshake opens a session with it.
  have hopened {peer : Points} {row : PeerRow} {body : Value}
      (hopen : isSessionOpen it.envelope = true)
      (hread : readHandshake L s it.envelope now = .ok (peer, row, body))
      (hor : isSessionOpen it.envelope = false ∨ it.sender ≠ .str p) : p ≠ peer := by
    rintro rfl
    rcases hor with hclosed | hne
    · rw [hopen] at hclosed
      cases hclosed
    · exact hne (sender_of_senderKeyId (senderKeyId_of_readHandshake hread))
  cases h with
  | nothing _ => exact ⟨.inl (.refl p s), fun _ _ _ _ _ hrow => hrow⟩
  | learned _ =>
    exact ⟨.inl (kept_commit (by simp [Write.Plain]) (by simp)),
      fun _ => unopened_commit (by simp [Write.Plain]) (by simp)⟩
  | @answered peer session row body key mailbox _ hopen _ _ _ hread _ _ =>
    have hplain := plain_answered peer session key mailbox
    refine ⟨.inl (kept_commit hplain (by simp)), fun hor => unopened_commit hplain ?_⟩
    have hne := hopened hopen hread hor
    simp [hne]
  | completed hopen _ hread _ _ =>
    refine ⟨.inl (kept_commit (by simp [Write.Plain]) (by simp)), fun hor =>
      unopened_commit (by simp [Write.Plain]) ?_⟩
    have hne := hopened hopen hread hor
    simp [hne]
  -- The rows of the old key go to the new one.
  | @followed peer newPub newKeyId _ _ hsender _ hsome =>
    obtain ⟨s', hs'⟩ := Option.isSome_iff_exists.mp hsome
    have hne := hfresh peer newPub newKeyId List.mem_cons_self
    rw [commit_updatePeerIdentity hs']
    by_cases hp : p = peer
    · subst hp
      have hgone := gone_updatePeerIdentity hs' hne
      refine ⟨.inr ⟨hsender, hgone⟩, fun _ q session row heq hrow => ?_⟩
      obtain rfl := Json.str.inj heq
      rw [hgone.keys] at hrow
      cases hrow
    · obtain ⟨hkept, hkeys⟩ := kept_updatePeerIdentity hs' hne hp
      exact ⟨.inl hkept, fun _ => hkeys⟩
  | @accepted peer session seq payload text _ _ hread _ =>
    refine ⟨.inl ?_, fun _ => unopened_commit (by simp [Write.Plain]) (by simp)⟩
    obtain ⟨-, -, -, row, -, hopen⟩ := readMessage_ok.mp hread
    have hlt := (verifyAndOpen_ok.mp hopen).2.2.2.2.1
    refine Kept.trans (Write.kept (w := .appendTranscript peer session seq text) trivial nofun)
      (Write.kept (w := .setSeqHighWater peer session seq) trivial ?_)
    intro session' seq' heq
    cases heq
    exact Int.le_of_lt hlt

/-- What an item commits lets its sender stay or go. -/
theorem Effect.onward_sender {ws : List (Write κ)} {raised : Bool} (h : Effect L now s it ws raised)
    {sender : Value} (hfresh : ∀ peer newPub newKeyId,
      .updatePeerIdentity peer newPub newKeyId ∈ ws → sender ≠ .str newKeyId) :
    Onward sender s (s.commit ws) := by
  rintro p rfl
  refine (h.onward (p := p) fun peer newPub newKeyId hmem heq => ?_).1.imp_right And.right
  exact hfresh peer newPub newKeyId hmem (congrArg _ heq.symm)

/-- A session has a key once one is saved. -/
theorem isSome_keys_commit (s : Store κ ε) (peer session : Points) (key : KeyRow κ) :
    ((s.commit [.saveSessionKey peer session key, .createSession peer session]).keys.get?
      (peer, session)).isSome := by
  have hcommit : s.commit [.saveSessionKey peer session key, .createSession peer session] =
      Write.apply (Write.apply s (.saveSessionKey peer session key)) (.createSession peer session) :=
    rfl
  rw [hcommit, apply_createSession]
  show ((Write.apply s (.saveSessionKey peer session key)).keys.get? (peer, session)).isSome
  rw [get?_saveSessionKey]
  cases s.keys.get? (peer, session) with
  | none => simp
  | some row => rfl

/-- A handshake whose session has a key is spent. -/
theorem spent_of_keys {peer session : Points} {row : PeerRow} {body : Value}
    (hopen : isSessionOpen it.envelope = true)
    (hbindable : bindable (sessionIdOrEmpty it.envelope) = true)
    (hread : readHandshake L s it.envelope now = .ok (peer, row, body))
    (hsession : sessionId it.envelope = .str session) (h : Onward it.sender s s')
    (hkey : (s'.keys.get? (peer, session)).isSome) : Spent L now s' it := by
  rw [Spent, if_pos hopen]
  refine ⟨hbindable, ?_⟩
  have hlater := readHandshake_later L now h
  have hpeer := senderKeyId_of_readHandshake hread
  cases hread' : readHandshake L s' it.envelope now with
  | error why =>
    cases why with
    | rejects => rfl
    | raises =>
      rw [hlater.raises hread'] at hread
      cases hread
  | ok found =>
    obtain ⟨peer', row', body'⟩ := found
    have hpeer' := senderKeyId_of_readHandshake hread'
    obtain rfl := Json.str.inj (hpeer.symm.trans hpeer')
    obtain ⟨-, -, hnone⟩ := readHandshake_ok.mp hread'
    rw [hsession] at hnone
    change s'.keys.get? (peer, session) = none at hnone
    rw [hnone] at hkey
    cases hkey

/-- An item is spent by what it commits. -/
theorem Effect.spent {ws : List (Write κ)} (h : Effect L now s it ws false)
    (hfresh : ∀ peer newPub newKeyId, .updatePeerIdentity peer newPub newKeyId ∈ ws →
      it.sender ≠ .str newKeyId) : Spent L now (s.commit ws) it := by
  have honward := h.onward_sender hfresh
  cases h with
  | nothing hspent => exact hspent rfl
  | answered _ hopen hbindable _ _ hread hsession _ =>
    refine spent_of_keys hopen hbindable hread hsession honward ?_
    rw [commit_append]
    exact isSome_keys_commit _ _ _ _
  | completed hopen hbindable hread hsession _ =>
    refine spent_of_keys hopen hbindable hread hsession honward ?_
    exact isSome_keys_commit _ _ _ _
  | @followed peer newPub newKeyId hclosed hnotice hsender _ hsome =>
    obtain ⟨s', hs'⟩ := Option.isSome_iff_exists.mp hsome
    have hne : newKeyId ≠ peer := by
      rintro rfl
      exact hfresh _ _ _ List.mem_cons_self hsender
    have hgone := gone_updatePeerIdentity hs' hne
    rw [commit_updatePeerIdentity hs', Spent, hclosed, if_neg Bool.false_ne_true, if_pos hnotice,
      readNotice, hsender]
    simp [peerId, hgone.peer]
  | @accepted peer session seq payload text hclosed hnotice hread _ =>
    rw [Spent, hclosed, hnotice, if_neg Bool.false_ne_true, if_neg Bool.false_ne_true]
    have hkeys : Unopened it.sender s (s.commit [.appendTranscript peer session seq text,
        .setSeqHighWater peer session seq]) := by
      obtain ⟨-, hpeer, -⟩ := readMessage_ok.mp hread
      rw [hpeer]
      exact unopened_commit (by simp [Write.Plain]) (by simp)
    have hlater := readMessage_later L now honward hkeys
    cases hread' : readMessage L (s.commit [.appendTranscript peer session seq text,
        .setSeqHighWater peer session seq]) it.sender it.envelope now with
    | error why =>
      cases why with
      | rejects => rfl
      | raises =>
        rw [hlater.raises hread'] at hread
        cases hread
    | ok found =>
      -- Its sequence is the high-water mark now.
      obtain ⟨peer', session', n, v⟩ := found
      obtain ⟨-, hpeer, hsession, row, -, hopen⟩ := readMessage_ok.mp hread
      obtain ⟨-, hpeer', hsession', row', -, hopen'⟩ := readMessage_ok.mp hread'
      obtain rfl := Json.str.inj (hpeer.symm.trans hpeer')
      obtain rfl := Option.some.inj (hsession.symm.trans hsession')
      obtain ⟨-, -, -, hseq, -⟩ := verifyAndOpen_ok.mp hopen
      obtain ⟨-, -, -, hseq', hlt, -⟩ := verifyAndOpen_ok.mp hopen'
      obtain rfl := Except.ok.inj (hseq.symm.trans hseq')
      have hhigh : (s.commit [.appendTranscript peer session seq text,
          .setSeqHighWater peer session seq]).highWater.get? (peer, session) = some seq := by
        simp [Store.commit, Write.apply, Dict.get?_set]
      rw [hhigh] at hlt
      exact absurd hlt (Int.lt_irrefl _)

end Companion.Kindled.Poll

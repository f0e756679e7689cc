import Companion.Kindled.Poll

/-!
# Hostile mailboxes

Any list of JSON values may come from the relay, and a paired peer may sign and encrypt what it
likes. An item without an envelope or an id is skipped, but no exception is caught after that: a
poll does what it should just in case none of the items that it processes makes it raise
(`resilient_iff`). The ways in which one may are listed in `Malformed`.
-/

namespace Companion.Kindled.Poll

open Companion.Memory Companion.Kindled.Handshake

variable {κ ε : Type} {L : Library κ ε} {s : Store κ ε} {e : Value} {now : Instant}

/-! ## Checks that raise -/

/-- A signature is to be verified over strings that have surrogates in them. -/
def Garbled (e : Value) : Prop :=
  ∃ hex signature, e.field "signature" = some (.str hex) ∧ fromHex hex = some signature ∧
    canonical (sigInput e) = false

/-- It expires within the skew of the end of time. -/
def BeyondTime (L : Library κ ε) (e : Value) : Prop :=
  ∃ text expires, e.field "expires_at" = some (.str text) ∧ L.strptime text = some expires ∧
    maxInstant < expires + skew

/-- Its sequence is an infinite float. -/
def Endless (e : Value) : Prop := ∃ negative, e.field "sequence" = some (.float (.infinite negative))

theorem require_ne_raises (b : Bool) : require b ≠ .error .raises := by
  unfold require
  split_ifs
  · exact nofun
  · exact nofun

theorem checkProtocol_ne_raises (e : Value) : checkProtocol e ≠ .error .raises :=
  require_ne_raises _

theorem checkSignature_raises {pub : Option Points} :
    checkSignature L pub e = .error .raises ↔ Garbled e := by
  unfold checkSignature Garbled
  constructor
  · intro h
    split at h
    · next hex hfield =>
      split at h
      · cases h
      · next signature hsignature =>
        split_ifs at h with hcanonical
        · exact ⟨hex, signature, hfield, hsignature, by simpa using hcanonical⟩
        · exact absurd h (require_ne_raises _)
    · cases h
  · rintro ⟨hex, signature, hfield, hsignature, hcanonical⟩
    simp [hfield, hsignature, hcanonical]

theorem checkExpiry_raises : checkExpiry L e now = .error .raises ↔ BeyondTime L e := by
  unfold checkExpiry BeyondTime
  constructor
  · intro h
    split at h
    · next text hfield =>
      split at h
      · cases h
      · next expires hexpires =>
        split_ifs at h with hbeyond
        · exact ⟨text, expires, hfield, hexpires, hbeyond⟩
        · exact absurd h (require_ne_raises _)
    · cases h
  · rintro ⟨text, expires, hfield, hexpires, hbeyond⟩
    simp [hfield, hexpires, hbeyond]

theorem readSequence_raises : readSequence L e = .error .raises ↔ Endless e := by
  unfold readSequence Endless
  constructor
  · intro h
    split at h
    · cases h
    · cases h
    · cases h
    · next negative hfield => exact ⟨negative, hfield⟩
    · next text hfield =>
      cases htext : L.intOfText text with
      | none =>
        rw [htext] at h
        cases h
      | some n =>
        rw [htext] at h
        cases h
    · cases h
  · rintro ⟨negative, hfield⟩
    simp [hfield]

/-- What comes after a check raises where the check passes. -/
theorem check_raises {α : Type} {x : Except Stop Unit} {y : Except Stop α} :
    (do x; y) = .error .raises ↔ x = .error .raises ∨ x = .ok () ∧ y = .error .raises := by
  cases x with
  | error why => simp [bind, Except.bind]
  | ok a => simp [bind, Except.bind]

/-- A signed envelope whose checks raise. -/
def Unreadable (L : Library κ ε) (pub : Points) (e : Value) : Prop :=
  checkProtocol e = .ok () ∧
    (Garbled e ∨ checkSignature L (some pub) e = .ok () ∧ BeyondTime L e)

theorem parseSessionOpen_raises {pub : Points} :
    parseSessionOpen L pub e now = .error .raises ↔ Unreadable L pub e := by
  have hlast : sessionOpenBody e ≠ .error .raises := by
    unfold sessionOpenBody
    split
    · exact nofun
    · exact nofun
  unfold parseSessionOpen Unreadable
  rw [check_raises, check_raises, check_raises, checkSignature_raises, checkExpiry_raises]
  simp only [hlast, and_false, or_false]
  exact or_iff_right (checkProtocol_ne_raises e)

theorem parseKeyRotationNotice_raises {pub : Points} :
    parseKeyRotationNotice L pub e now = .error .raises ↔ Unreadable L pub e := by
  have hlast : keyRotationBody L e ≠ .error .raises := by
    unfold keyRotationBody
    split
    · split_ifs
      · exact nofun
      · exact nofun
    · exact nofun
  unfold parseKeyRotationNotice Unreadable
  rw [check_raises, check_raises, check_raises, checkSignature_raises, checkExpiry_raises]
  simp only [hlast, and_false, or_false]
  exact or_iff_right (checkProtocol_ne_raises e)

/-- A message whose checks raise. -/
def Unopenable (L : Library κ ε) (pub : Option Points) (highWater : ℤ) (e : Value) : Prop :=
  checkProtocol e = .ok () ∧
    (Garbled e ∨ checkSignature L pub e = .ok () ∧
      (e.field "recipient_key_id").any (·.equals (.str L.keyId)) = true ∧
        (Endless e ∨ ∃ sequence, readSequence L e = .ok sequence ∧ highWater < sequence ∧
          BeyondTime L e))

theorem require_eq_ok {b : Bool} : require b = .ok () ↔ b = true := by
  unfold require
  split_ifs with hb
  · exact iff_of_true rfl hb
  · exact iff_of_false nofun hb

theorem verifyAndOpen_raises {pub : Option Points} {key : κ} {role : Role} {highWater : ℤ} :
    verifyAndOpen L pub key role highWater e now = .error .raises ↔
      Unopenable L pub highWater e := by
  have hlast : ∀ sequence, (do
      require (decide (highWater < sequence))
      checkExpiry L e now
      (L.decrypt key role sequence e).elim (.error .rejects) fun payload =>
        .ok (sequence, payload) : Except Stop (ℤ × Value)) = .error .raises ↔
      highWater < sequence ∧ BeyondTime L e := by
    intro sequence
    rw [check_raises, check_raises, checkExpiry_raises, require_eq_ok, decide_eq_true_eq]
    have hdecrypt : (L.decrypt key role sequence e).elim (.error .rejects)
        (fun payload => .ok (sequence, payload)) ≠ (.error .raises : Except Stop (ℤ × Value)) := by
      cases L.decrypt key role sequence e with
      | none => exact nofun
      | some payload => exact nofun
    simp only [hdecrypt, and_false, or_false]
    exact or_iff_right (require_ne_raises _)
  unfold verifyAndOpen Unopenable
  rw [check_raises, check_raises, check_raises, checkSignature_raises, require_eq_ok]
  rw [or_iff_right (require_ne_raises _), or_iff_right (checkProtocol_ne_raises e)]
  refine and_congr_right fun _ => or_congr_right (and_congr_right fun _ => and_congr_right fun _ => ?_)
  rw [← readSequence_raises]
  cases hsequence : readSequence L e with
  | error why => simp [bind, Except.bind]
  | ok n =>
    refine Iff.trans (hlast n) ?_
    simp

/-! ## Items that make a poll raise -/

theorem getPeer_raises {id : Value} :
    getPeer s id = .error .raises ↔ id.truthy = true ∧ bindable id = false := by
  unfold getPeer
  split_ifs with htruthy hbindable
  · exact iff_of_false (by rintro ⟨⟩) fun h => by simp [h.1] at htruthy
  · exact iff_of_true rfl ⟨by simpa using htruthy, by simpa using hbindable⟩
  · refine iff_of_false ?_ fun h => by simp [h.2] at hbindable
    split
    · rintro ⟨⟩
    · rintro ⟨⟩

/-- A `session_open` with which neither leg comes to an end of its checks. -/
def Unread (L : Library κ ε) (s : Store κ ε) (e : Value) : Prop :=
  (senderKeyId e).truthy = true ∧ bindable (senderKeyId e) = false ∨
    ∃ peer row, getPeer s (senderKeyId e) = .ok (peer, row) ∧ Unreadable L row.identityPub e

theorem readHandshake_raises : readHandshake L s e now = .error .raises ↔ Unread L s e := by
  unfold readHandshake Unread
  rw [← getPeer_raises]
  cases hpeer : getPeer s (senderKeyId e) with
  | error why => simp [bind, Except.bind]
  | ok found =>
    obtain ⟨peer, row⟩ := found
    have hunreadable := @parseSessionOpen_raises κ ε L e now row.identityPub
    cases hparse : parseSessionOpen L row.identityPub e now with
    | error why =>
      rw [hparse] at hunreadable
      simpa [bind, Except.bind, hparse] using hunreadable
    | ok body =>
      rw [hparse] at hunreadable
      simp only [bind, Except.bind, hparse]
      refine iff_of_false ?_ ?_
      · split_ifs
        · exact nofun
        · exact nofun
      · rintro (h | ⟨peer', row', heq, h⟩)
        · cases h
        · obtain ⟨rfl, rfl⟩ := Prod.mk.inj (Except.ok.inj heq)
          cases hunreadable.mpr h

/-- A first leg that cannot be answered: a check raises, the mailbox cannot be stored, the handshake
makes no key, or the answer cannot be sent. -/
def Unanswerable (L : Library κ ε) (s : Store κ ε) (e : Value) (now : Instant) : Prop :=
  Unread L s e ∨ ∃ peer row body, readHandshake L s e now = .ok (peer, row, body) ∧
    ((senderMailbox e).truthy = true ∧ bindable (senderMailbox e) = false ∨
      respondedKey L peer body (sessionId e) = none ∨
      L.sends (replyMailbox row (senderMailbox e)) = false)

theorem raised_stop {why : Stop} : (stop why : Outcome κ).raised = true ↔ why = .raises := by
  cases why with
  | rejects => exact iff_of_false nofun nofun
  | raises => exact iff_of_true rfl rfl

theorem onSessionOpen_raised :
    (onSessionOpen L s e now).raised = true ↔ Unanswerable L s e now := by
  unfold onSessionOpen Unanswerable
  rw [← readHandshake_raises]
  cases hread : readHandshake L s e now with
  | error why => simp [raised_stop]
  | ok found =>
    obtain ⟨peer, row, body⟩ := found
    simp only [reduceCtorEq, false_or, Except.ok.injEq, Prod.mk.injEq, and_assoc, exists_and_left,
      exists_eq_left']
    by_cases hmailbox : (senderMailbox e).truthy = true ∧ bindable (senderMailbox e) = false
    · rw [if_pos (by simp [hmailbox])]
      exact iff_of_true rfl (.inl hmailbox)
    · rw [if_neg (by simpa using hmailbox)]
      simp only [hmailbox, false_or]
      cases hkey : respondedKey L peer body (sessionId e) with
      | none => exact iff_of_true rfl (.inl rfl)
      | some found =>
        simp only [reduceCtorEq, false_or]
        by_cases hsends : L.sends (replyMailbox row (senderMailbox e)) = true
        · rw [if_pos hsends]
          simp [hsends]
        · rw [if_neg hsends]
          exact iff_of_true rfl (by simpa using hsends)

/-- A second leg that cannot be completed: a check raises, or the handshake makes no key. -/
def Incompletable (L : Library κ ε) (s : Store κ ε) (e : Value) (now : Instant) : Prop :=
  Unread L s e ∨ ∃ peer row body pending, readHandshake L s e now = .ok (peer, row, body) ∧
    row? s.pending (some peer) (sqlText L (sessionId e)) = some pending ∧
    initiatedKey L pending peer body (sessionId e) = none

theorem completeSession_raised :
    (completeSession L s e now).raised = true ↔ Incompletable L s e now := by
  unfold completeSession Incompletable
  rw [← readHandshake_raises]
  cases hread : readHandshake L s e now with
  | error why => simp [raised_stop]
  | ok found =>
    obtain ⟨peer, row, body⟩ := found
    simp only [reduceCtorEq, false_or, Except.ok.injEq, Prod.mk.injEq, and_assoc, exists_and_left,
      exists_eq_left']
    cases hpending : row? s.pending (some peer) (sqlText L (sessionId e)) with
    | none => simp [drop]
    | some pending =>
      simp only [Option.some.injEq, exists_eq_left']
      cases hkey : initiatedKey L pending peer body (sessionId e) with
      | none => exact iff_of_true rfl rfl
      | some found => exact iff_of_false nofun nofun

/-- A notice that cannot be followed: a check raises, or rows are there under the new key already.
-/
def Unfollowable (L : Library κ ε) (s : Store κ ε) (sender e : Value) (now : Instant) : Prop :=
  (∃ peer row, peerId sender = some peer ∧ s.peers.get? peer = some row ∧
      Unreadable L row.identityPub e) ∨
    ∃ peer newPub newKeyId, readNotice L s sender e now = .ok (peer, newPub, newKeyId) ∧
      updatePeerIdentity s peer newPub newKeyId = none

theorem readNotice_raises {sender : Value} :
    readNotice L s sender e now = .error .raises ↔
      ∃ peer row, peerId sender = some peer ∧ s.peers.get? peer = some row ∧
        Unreadable L row.identityPub e := by
  unfold readNotice
  cases hpeer : peerId sender with
  | none => simp
  | some peer =>
    cases hrow : s.peers.get? peer with
    | none => simp [hrow]
    | some row =>
      have hiff := @parseKeyRotationNotice_raises κ ε L e now row.identityPub
      simp only [Option.bind_some, hrow, Option.map_some]
      cases hparse : parseKeyRotationNotice L row.identityPub e now with
      | error why =>
        rw [hparse] at hiff
        simpa [bind, Except.bind, hrow] using hiff
      | ok found =>
        rw [hparse] at hiff
        refine iff_of_false ?_ ?_
        · simp only [bind, Except.bind]
          split_ifs
          · rintro ⟨⟩
          · rintro ⟨⟩
          · rintro ⟨⟩
        · rintro ⟨peer', row', heq, hrow', hunreadable⟩
          obtain rfl := Option.some.inj heq
          rw [hrow] at hrow'
          obtain rfl := Option.some.inj hrow'
          cases hiff.mpr hunreadable

theorem handleKeyRotationNotice_raised {sender : Value} :
    (handleKeyRotationNotice L s sender e now).raised = true ↔ Unfollowable L s sender e now := by
  unfold handleKeyRotationNotice Unfollowable
  rw [← readNotice_raises]
  cases hread : readNotice L s sender e now with
  | error why => simp [raised_stop]
  | ok found =>
    obtain ⟨peer, newPub, newKeyId⟩ := found
    simp only
    split_ifs with hnone
    · exact iff_of_true rfl (.inr ⟨peer, newPub, newKeyId, rfl, by simpa using hnone⟩)
    · refine iff_of_false nofun ?_
      rintro (h | ⟨peer', newPub', newKeyId', heq, hnone'⟩)
      · cases h
      · obtain ⟨rfl, rfl, rfl⟩ := by simpa using heq
        simp [hnone'] at hnone

/-- A message that cannot be kept: its session id cannot be looked up, a check raises, its payload
is no object, its text or its sequence cannot be stored, or the transcript has one with its
sequence. -/
def Unkeepable (L : Library κ ε) (s : Store κ ε) (sender e : Value) (now : Instant) : Prop :=
  bindable (sessionIdOrEmpty e) = false ∨
    (∃ peer session row, peerId sender = some peer ∧ sqlText L (sessionIdOrEmpty e) = some session ∧
      s.keys.get? (peer, session) = some row ∧
      Unopenable L ((s.peers.get? peer).map PeerRow.identityPub)
        ((s.highWater.get? (peer, session)).getD 0) e) ∨
    ∃ peer session seq payload, readMessage L s sender e now = .ok (peer, session, seq, payload) ∧
      (payload.isObject = false ∨ bindable ((payload.field "text").getD (.str [])) = false ∨
        isNull ((payload.field "text").getD (.str [])) = true ∨ bindable (.int seq) = false ∨
        (s.transcript.get? (peer, session, seq)).isSome = true)

theorem readMessage_raises {sender : Value} :
    readMessage L s sender e now = .error .raises ↔
      bindable (sessionIdOrEmpty e) = false ∨
        ∃ peer session row, peerId sender = some peer ∧
          sqlText L (sessionIdOrEmpty e) = some session ∧ s.keys.get? (peer, session) = some row ∧
          Unopenable L ((s.peers.get? peer).map PeerRow.identityPub)
            ((s.highWater.get? (peer, session)).getD 0) e := by
  unfold readMessage
  by_cases hbindable : bindable (sessionIdOrEmpty e) = true
  · simp only [hbindable, Bool.not_true, Bool.false_eq_true, if_false, reduceCtorEq, false_or]
    cases hpeer : peerId sender with
    | none => simp
    | some peer =>
      cases hsession : sqlText L (sessionIdOrEmpty e) with
      | none => simp
      | some session =>
        simp only
        cases hrow : s.keys.get? (peer, session) with
        | none => simp [hrow]
        | some row =>
          have hiff := @verifyAndOpen_raises κ ε L e now
            ((s.peers.get? peer).map PeerRow.identityPub) row.key row.peerRole
            ((s.highWater.get? (peer, session)).getD 0)
          simp only
          cases hopen : verifyAndOpen L ((s.peers.get? peer).map PeerRow.identityPub) row.key
              row.peerRole ((s.highWater.get? (peer, session)).getD 0) e now with
          | error why =>
            rw [hopen] at hiff
            simpa [bind, Except.bind, hrow] using hiff
          | ok found =>
            rw [hopen] at hiff
            refine iff_of_false (by rintro ⟨⟩) ?_
            rintro ⟨peer', session', row', heq, heq', -, hunopenable⟩
            obtain rfl := Option.some.inj heq
            obtain rfl := Option.some.inj heq'
            cases hiff.mpr hunopenable
  · have hfalse : bindable (sessionIdOrEmpty e) = false := by simpa using hbindable
    simp [hfalse]

theorem ingestMessage_raised {sender : Value} :
    (ingestMessage L s sender e now).raised = true ↔ Unkeepable L s sender e now := by
  unfold ingestMessage Unkeepable
  rw [← or_assoc, ← readMessage_raises]
  cases hread : readMessage L s sender e now with
  | error why => simp [raised_stop]
  | ok found =>
    obtain ⟨peer, session, seq, payload⟩ := found
    simp only [reduceCtorEq, false_or, Except.ok.injEq, Prod.mk.injEq, and_assoc, exists_and_left,
      exists_eq_left']
    split_ifs with hbad
    · refine iff_of_true rfl ?_
      simpa [or_assoc] using hbad
    · refine iff_of_false (by rintro ⟨⟩) ?_
      simpa [or_assoc] using hbad

/-- What makes an item raise where it is processed. -/
def Malformed (L : Library κ ε) (s : Store κ ε) (sender : Value) (it : Item) (now : Instant) :
    Prop :=
  if isSessionOpen it.envelope then
    bindable (sessionIdOrEmpty it.envelope) = false ∨
      if (row? s.pending (peerId sender) (sqlText L (sessionIdOrEmpty it.envelope))).isNone then
        Unanswerable L s it.envelope now
      else Incompletable L s it.envelope now
  else if isKeyRotationNotice it.envelope then Unfollowable L s sender it.envelope now
  else Unkeepable L s sender it.envelope now

theorem ingest_raised {sender : Value} {it : Item} :
    (ingest L s sender it now).raised = true ↔ Malformed L s sender it now := by
  unfold ingest Malformed
  by_cases hopen : isSessionOpen it.envelope = true
  · rw [if_pos hopen, if_pos hopen]
    unfold ingestSessionOpen
    by_cases hbindable : bindable (sessionIdOrEmpty it.envelope) = true
    · simp only [hbindable, Bool.not_true, Bool.false_eq_true, if_false, reduceCtorEq, false_or]
      split_ifs
      · exact onSessionOpen_raised
      · exact completeSession_raised
    · have hfalse : bindable (sessionIdOrEmpty it.envelope) = false := by simpa using hbindable
      simp [hfalse, raise]
  · rw [if_neg hopen, if_neg hopen]
    split_ifs
    · exact handleKeyRotationNotice_raised
    · exact ingestMessage_raised

/-! ## The poll -/

/-- The store after some items of a group. -/
def afterItems (L : Library κ ε) (now : Instant) (sender : Value) (s : Store κ ε) (items : List Item) :
    Store κ ε :=
  items.foldl (fun s it => s.commit (ingest L s sender it now).writes) s

/-- The store after a group. -/
def afterGroup (L : Library κ ε) (now : Instant) (s : Store κ ε) (g : Value × List Item) : Store κ ε :=
  if blocked s g.1 then s else afterItems L now g.1 s (taken g.2)

/-- None of the items is malformed at its turn. -/
def SoundItems (L : Library κ ε) (now : Instant) (sender : Value) : Store κ ε → List Item → Prop
  | _, [] => True
  | s, it :: its => ¬ Malformed L s sender it now ∧
      SoundItems L now sender (s.commit (ingest L s sender it now).writes) its

/-- Each sender can be looked up, and none of the items that are processed is malformed at its turn.
-/
def SoundGroups (L : Library κ ε) (now : Instant) : Store κ ε → List (Value × List Item) → Prop
  | _, [] => True
  | s, g :: gs => bindable g.1 = true ∧
      (blocked s g.1 = true ∨ SoundItems L now g.1 s (taken g.2)) ∧
      SoundGroups L now (afterGroup L now s g) gs

/-- The items that a poll comes to an end of: those of the blocked senders, and the others within
the flood cap. -/
def finished (L : Library κ ε) (now : Instant) : Store κ ε → List (Value × List Item) → List Item
  | _, [] => []
  | s, g :: gs => (if blocked s g.1 then g.2 else taken g.2) ++
      finished L now (afterGroup L now s g) gs

/-- A poll returns, treats the items as if those without an envelope or an id were not there, and
acks what it has come to an end of. -/
def Resilient (L : Library κ ε) (s : Store κ ε) (fetched : List Value) (now : Instant) : Prop :=
  (pollAndIngest L s fetched now).raised = false ∧
    pollAndIngest L s fetched now =
      pollAndIngest L s (fetched.filter fun v => (item? v).isSome) now ∧
    ∀ gs, groups (fetched.filterMap item?) = some gs →
      (pollAndIngest L s fetched now).acked = (finished L now s gs).map Item.id

/-- The senders have hashes, none of the items that are processed is malformed, and the
acknowledgement goes through. -/
def Handled (L : Library κ ε) (s : Store κ ε) (fetched : List Value) (now : Instant) : Prop :=
  ∃ gs, groups (fetched.filterMap item?) = some gs ∧ SoundGroups L now s gs ∧
    (finished L now s gs = [] ∨ L.acks ((finished L now s gs).map Item.id) = true)

theorem foldl_item_raised {sender : Value} {r : Run κ ε} (hr : r.raised = true) (items : List Item) :
    items.foldl (Run.item L now sender) r = r := by
  induction items with
  | nil => rfl
  | cons it items ih =>
    rw [List.foldl_cons, Run.item, if_pos hr]
    exact ih

theorem foldl_group_raised {r : Run κ ε} (hr : r.raised = true) (gs : List (Value × List Item)) :
    gs.foldl (Run.group L now) r = r := by
  induction gs with
  | nil => rfl
  | cons g gs ih =>
    rw [List.foldl_cons, Run.group, if_pos hr]
    exact ih

/-- An item is ingested where no exception has left the poll. -/
theorem Run.item_eq (L : Library κ ε) (now : Instant) {r : Run κ ε} (hr : r.raised = false)
    (sender : Value) (it : Item) :
    Run.item L now sender r it =
      { store := r.store.commit (ingest L r.store sender it now).writes
        writes := r.writes ++ (ingest L r.store sender it now).writes
        raised := (ingest L r.store sender it now).raised
        acked := if (ingest L r.store sender it now).raised then r.acked else r.acked ++ [it.id]
        pushed := r.pushed ++ (ingest L r.store sender it now).reply.toList } := by
  rw [Run.item, if_neg (by simp [hr])]

/-- What a run of items comes to, by induction on the items. -/
theorem foldl_item (L : Library κ ε) (now : Instant) (sender : Value) (items : List Item)
    {r : Run κ ε} (hr : r.raised = false) :
    ((items.foldl (Run.item L now sender) r).raised = false ↔
        SoundItems L now sender r.store items) ∧
      ((items.foldl (Run.item L now sender) r).raised = false →
        (items.foldl (Run.item L now sender) r).store = afterItems L now sender r.store items ∧
        (items.foldl (Run.item L now sender) r).acked = r.acked ++ items.map Item.id) := by
  induction items generalizing r with
  | nil =>
    exact ⟨iff_of_true hr trivial, fun _ => ⟨rfl, (List.append_nil _).symm⟩⟩
  | cons it items ih =>
    have hstep := Run.item_eq L now hr sender it
    rw [List.foldl_cons]
    cases hraised : (ingest L r.store sender it now).raised with
    | true =>
      have hnext : (Run.item L now sender r it).raised = true := by rw [hstep, hraised]
      rw [foldl_item_raised hnext, hnext]
      exact ⟨iff_of_false nofun fun h => h.1 (ingest_raised.mp hraised), nofun⟩
    | false =>
      have hsound : ¬ Malformed L r.store sender it now := by
        rw [← ingest_raised, hraised]
        exact Bool.false_ne_true
      have hnext : (Run.item L now sender r it).raised = false := by rw [hstep, hraised]
      obtain ⟨hiff, hrest⟩ := ih hnext
      refine ⟨hiff.trans ?_, fun h => ?_⟩
      · rw [hstep]
        exact (and_iff_right hsound).symm
      · obtain ⟨hstore, hacked⟩ := hrest h
        refine ⟨hstore.trans (by rw [hstep]; rfl), hacked.trans ?_⟩
        rw [hstep]
        simp [hraised]

/-- What a run of groups comes to, by induction on the groups. -/
theorem foldl_group (L : Library κ ε) (now : Instant) (gs : List (Value × List Item))
    {r : Run κ ε} (hr : r.raised = false) :
    ((gs.foldl (Run.group L now) r).raised = false ↔ SoundGroups L now r.store gs) ∧
      ((gs.foldl (Run.group L now) r).raised = false →
        (gs.foldl (Run.group L now) r).acked =
          r.acked ++ (finished L now r.store gs).map Item.id) := by
  induction gs generalizing r with
  | nil =>
    exact ⟨iff_of_true hr trivial, fun _ => (List.append_nil _).symm⟩
  | cons g gs ih =>
    rw [List.foldl_cons]
    by_cases hbindable : bindable g.1 = true
    · by_cases hblocked : blocked r.store g.1 = true
      · have hstep : Run.group L now r g = { r with acked := r.acked ++ g.2.map Item.id } := by
          rw [Run.group, if_neg (by simp [hr]), if_neg (by simp [hbindable]), if_pos hblocked]
        obtain ⟨hiff, hacked⟩ := ih (r := Run.group L now r g) (by rw [hstep]; exact hr)
        have hafter : afterGroup L now r.store g = r.store := if_pos hblocked
        refine ⟨hiff.trans ?_, fun h => (hacked h).trans ?_⟩
        · simp [SoundGroups, hstep, hbindable, hblocked, hafter]
        · simp [finished, hstep, hblocked, hafter]
      · have hstep : Run.group L now r g = (taken g.2).foldl (Run.item L now g.1) r := by
          rw [Run.group, if_neg (by simp [hr]), if_neg (by simp [hbindable]), if_neg hblocked]
        obtain ⟨hsound, hitems⟩ := foldl_item L now g.1 (taken g.2) hr
        have hafter : afterGroup L now r.store g = afterItems L now g.1 r.store (taken g.2) :=
          if_neg hblocked
        cases hraised : (Run.group L now r g).raised with
        | true =>
          rw [foldl_group_raised hraised, hraised]
          refine ⟨iff_of_false nofun ?_, nofun⟩
          rintro ⟨-, h | h, -⟩
          · exact hblocked h
          · have := hsound.mpr h
            rw [← hstep, hraised] at this
            cases this
        | false =>
          rw [hstep] at hraised
          obtain ⟨hstore, hacks⟩ := hitems hraised
          obtain ⟨hiff, hacked⟩ := ih (r := Run.group L now r g) (by rw [hstep]; exact hraised)
          refine ⟨hiff.trans ?_, fun h => (hacked h).trans ?_⟩
          · simp [SoundGroups, hstep, hbindable, hstore, hafter, hsound.mp hraised]
          · simp [finished, hstep, hblocked, hstore, hacks, hafter]
    · have hstep : (Run.group L now r g).raised = true := by
        rw [Run.group, if_neg (by simp [hr]), if_pos (by simpa using hbindable)]
      rw [foldl_group_raised hstep, hstep]
      exact ⟨iff_of_false nofun fun h => hbindable h.1, nofun⟩

/-- An item without an envelope or an id makes no difference. -/
theorem pollAndIngest_filter (L : Library κ ε) (s : Store κ ε) (fetched : List Value)
    (now : Instant) :
    pollAndIngest L s (fetched.filter fun v => (item? v).isSome) now =
      pollAndIngest L s fetched now := by
  have hitems : (fetched.filter fun v => (item? v).isSome).filterMap item? =
      fetched.filterMap item? := by
    rw [List.filterMap_filter]
    refine congrArg (List.filterMap · fetched) (funext fun v => ?_)
    cases item? v with
    | none => rfl
    | some it => rfl
  unfold pollAndIngest
  rw [hitems]

theorem resilient_iff (L : Library κ ε) (s : Store κ ε) (fetched : List Value) (now : Instant) :
    Resilient L s fetched now ↔ Handled L s fetched now := by
  unfold Resilient Handled
  rw [pollAndIngest_filter, eq_self_iff_true, true_and]
  unfold pollAndIngest
  cases hgroups : groups (fetched.filterMap item?) with
  | none => simp
  | some gs =>
    obtain ⟨hsound, hacked⟩ := foldl_group L now gs
      (r := ⟨s, [], false, [], []⟩) rfl
    simp only [Option.some.injEq, exists_eq_left', forall_eq']
    cases hraised : (gs.foldl (Run.group L now) ⟨s, [], false, [], []⟩).raised with
    | true =>
      have hunsound : ¬ SoundGroups L now s gs := fun h => by
        rw [hsound.mpr h] at hraised
        cases hraised
      simp [hraised, hunsound]
    | false =>
      have hacks := hacked hraised
      rw [List.nil_append] at hacks
      simp only [Bool.not_false, Bool.true_and, hacks, hsound.mp hraised, true_and]
      cases hfinished : finished L now s gs with
      | nil => simp [hraised, hacks, hfinished]
      | cons it its =>
        rw [hfinished] at hacks
        cases hrelay : L.acks ((it :: its).map Item.id) with
        | true => simp_all
        | false => simp_all

/-- A library of plain texts: every signature is good, and a ciphertext is its payload. -/
def plain : Library ℕ Unit where
  keyId := pts "kid_self"
  verify _ _ _ := true
  decrypt _ _ _ e := e.field "ciphertext"
  fingerprint _ := []
  draw _ _ := ()
  deriveSessionKey _ _ _ _ _ := none
  strptime text := some (if text = pts "last" then maxInstant else 3600000000)
  intOfText _ := none
  textOfFloat _ := []
  sends _ := true
  acks _ := true

/-- A store with one peer and one session. -/
def paired : Store ℕ Unit where
  peers := (∅ : Dict _ _).set (pts "kid_peer") ⟨[], none, .paired, none⟩
  pending := ∅
  keys := (∅ : Dict _ _).set (pts "kid_peer", pts "s") ⟨0, .responder, .initiator⟩
  sessions := (∅ : Dict _ _).set (pts "kid_peer", pts "s") true
  transcript := ∅
  highWater := ∅

def sent (fields : List (String × Value)) : Value :=
  .obj [(pts "id", .str (pts "a")),
    (pts "envelope", .obj (fields.map fun f => (pts f.1, f.2)))]

/-- What the peer signs. -/
def signed (sequence expires : Value) (fields : List (String × Value)) : Value :=
  sent ([("protocol", .str (pts "kindled-link/1")), ("signature", .str (pts "00")),
    ("sender_key_id", .str (pts "kid_peer")), ("recipient_key_id", .str (pts "kid_self")),
    ("sequence", sequence), ("expires_at", expires)] ++ fields)

/-- A message of the session. -/
def message (sequence expires payload : Value) : Value :=
  signed sequence expires [("session_id", .str (pts "s")), ("ciphertext", payload)]

def hello : Value := .obj [(pts "text", .str (pts "hello"))]

/-- Items of the relay, and items that the peer has signed. -/
def hostile : List Value :=
  [sent [("sender_key_id", .arr [])], sent [("sender_key_id", .str [0xD800])],
    sent [("sender_key_id", .int (2 ^ 63))],
    sent [("sender_key_id", .str (pts "kid_peer")), ("session_id", .obj [])],
    sent [("session_open", .null), ("session_id", .arr [])],
    message (.int 1) (.str (pts "soon")) (.arr []),
    message (.int 1) (.str (pts "soon")) (.obj [(pts "text", .null)]),
    message (.float (.infinite false)) (.str (pts "soon")) hello,
    message (.int (2 ^ 63)) (.str (pts "soon")) hello, message (.int 1) (.str (pts "last")) hello,
    signed .null (.str (pts "soon")) [("session_id", .str (pts "t")), ("session_open", .obj [])]]

/-- A message behind an item is not read. -/
def Stops (bad : Value) : Prop :=
  ¬ Resilient plain paired [bad, message (.int 7) (.str (pts "soon")) hello] 0 ∧
    (pollAndIngest plain paired [bad, message (.int 7) (.str (pts "soon")) hello] 0).writes.length = 0 ∧
    (pollAndIngest plain paired [message (.int 7) (.str (pts "soon")) hello] 0).writes.length = 2

theorem hostile_stops : hostile.Forall Stops := by
  have hraises : ∀ bad ∈ hostile,
      (pollAndIngest plain paired [bad, message (.int 7) (.str (pts "soon")) hello] 0).raised = true ∧
      (pollAndIngest plain paired [bad, message (.int 7) (.str (pts "soon")) hello] 0).writes.length = 0 := by
    decide +kernel
  refine List.forall_iff_forall_mem.mpr fun bad hbad => ?_
  obtain ⟨hraised, hwrites⟩ := hraises bad hbad
  refine ⟨fun h => ?_, hwrites, by decide +kernel⟩
  rw [h.1] at hraised
  cases hraised

end Companion.Kindled.Poll

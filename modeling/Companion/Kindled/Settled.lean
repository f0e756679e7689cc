import Companion.Kindled.Turns

/-!
# Stores in which no write is missing

`Settled` is an invariant of whole turns. A turn that is stopped before a write that ends what
another has begun leaves a message that raises when it comes again, or a session that nothing mends
(`Torn`); one that is stopped anywhere else is taken again to the same effect (`turn_again`). An
item is `Over` once it has had its turn, and stays so.
-/

namespace Companion.Kindled.Poll

open Companion.Memory Companion.Kindled.Handshake Companion.Tasks

variable {κ ε : Type} {L : Library κ ε} {s s' : Store κ ε} {now : Instant} {it : Item}

/-- No write is missing: a session has a row just in case it has a key, no handshake is pending once
it has, and the high-water mark is the largest sequence of the transcript. -/
structure Settled (s : Store κ ε) : Prop where
  known : ∀ p session, (s.keys.get? (p, session)).isSome → (s.peers.get? p).isSome
  awaited : ∀ p session, (s.pending.get? (p, session)).isSome → (s.peers.get? p).isSome
  sessions : ∀ p session, (s.keys.get? (p, session)).isSome ↔ (s.sessions.get? (p, session)).isSome
  pending : ∀ p session, (s.pending.get? (p, session)).isSome → s.keys.get? (p, session) = none
  named : Named s
  transcript : ∀ p session n, (s.transcript.get? (p, session, n)).isSome →
    ∃ h, s.highWater.get? (p, session) = some h ∧ n ≤ h
  highWater : ∀ p session h, s.highWater.get? (p, session) = some h →
    (s.transcript.get? (p, session, h)).isSome

/-- A write that ends what another has begun. -/
def Write.ends : Write κ → Bool
  | createSession _ _ => true
  | clearPendingHandshake _ _ => true
  | setSeqHighWater _ _ _ => true
  | _ => false

theorem Settled.upsertPeer (h : Settled s) (peer : Points) (mailbox : Option Points) :
    Settled (Write.apply s (.upsertPeer peer mailbox)) := by
  have hknown (p : Points) : ((Write.apply s (.upsertPeer peer mailbox)).peers.get? p).isSome =
      (s.peers.get? p).isSome := by
    have hmap := congrArg Option.isSome (known_upsertPeer s peer p mailbox)
    rwa [Option.isSome_map, Option.isSome_map] at hmap
  rw [apply_upsertPeer] at hknown ⊢
  exact ⟨fun p session hkey => (hknown p).trans (h.known p session hkey),
    fun p session hsome => (hknown p).trans (h.awaited p session hsome), h.sessions, h.pending,
    h.named, h.transcript, h.highWater⟩

theorem Settled.upserts (h : Settled s) (peer : Points) (mailbox : List (Option Points)) :
    Settled (s.commit (mailbox.map (.upsertPeer peer ·))) := by
  induction mailbox generalizing s with
  | nil => exact h
  | cons m mailbox ih => exact ih (h.upsertPeer peer m)

/-- A key and a row that are both new. -/
theorem commit_opened {peer session : Points} (hkey : s.keys.get? (peer, session) = none)
    (hsession : (s.sessions.get? (peer, session)).isSome → (s.keys.get? (peer, session)).isSome)
    (key : KeyRow κ) :
    s.commit [.saveSessionKey peer session key, .createSession peer session] =
      { s with
        keys := s.keys.set (peer, session) key
        sessions := s.sessions.set (peer, session) true } := by
  have hnone : s.sessions.get? (peer, session) = none := by
    refine Option.not_isSome_iff_eq_none.mp fun hsome => ?_
    have hsome' := hsession hsome
    rw [hkey] at hsome'
    cases hsome'
  simp [Store.commit, Write.apply, hkey, hnone]

/-- A key and a row that are both new, of a handshake that was pending. -/
theorem commit_completed {peer session : Points} (hkey : s.keys.get? (peer, session) = none)
    (hsession : (s.sessions.get? (peer, session)).isSome → (s.keys.get? (peer, session)).isSome)
    (key : KeyRow κ) :
    s.commit [.saveSessionKey peer session key, .createSession peer session,
      .clearPendingHandshake peer session] =
      { s with
        pending := s.pending.pop (peer, session)
        keys := s.keys.set (peer, session) key
        sessions := s.sessions.set (peer, session) true } :=
  congrArg (Write.apply · (.clearPendingHandshake peer session)) (commit_opened hkey hsession key)

/-- A session is opened with a known peer, of which no handshake stays pending. -/
theorem Settled.opened (h : Settled s) {peer session : Points} (key : KeyRow κ)
    (hpeer : (s.peers.get? peer).isSome) {pending : Dict (Points × Points) (Pending ε)}
    (hpending : ∀ p sid, (pending.get? (p, sid)).isSome →
      (p, sid) ≠ (peer, session) ∧ (s.pending.get? (p, sid)).isSome) :
    Settled { s with
      pending := pending
      keys := s.keys.set (peer, session) key
      sessions := s.sessions.set (peer, session) true } where
  known p sid hkey := by
    simp only [Dict.get?_set] at hkey
    split_ifs at hkey with hp
    · exact (Prod.mk.inj hp).1 ▸ hpeer
    · exact h.known p sid hkey
  awaited p sid hsome := h.awaited p sid (hpending p sid hsome).2
  sessions p sid := by
    simp only [Dict.get?_set]
    split_ifs with hp
    · exact iff_of_true rfl rfl
    · exact h.sessions p sid
  pending p sid hsome := by
    obtain ⟨hne, hold⟩ := hpending p sid hsome
    simp only [Dict.get?_set, if_neg hne]
    exact h.pending p sid hold
  named p := by
    refine Option.not_isSome_iff_eq_none.mp fun hsome => ?_
    have hold := (hpending p [] hsome).2
    rw [h.named p] at hold
    cases hold
  transcript := h.transcript
  highWater := h.highWater

theorem Settled.accepted (h : Settled s) {peer session : Points} {seq : ℤ} (text : Value)
    (hlt : (s.highWater.get? (peer, session)).getD 0 < seq) :
    Settled (s.commit [.appendTranscript peer session seq text,
      .setSeqHighWater peer session seq]) where
  known := h.known
  awaited := h.awaited
  sessions := h.sessions
  pending := h.pending
  named := h.named
  transcript p sid n hsome := by
    simp only [Store.commit, List.foldl, Write.apply, Dict.get?_set] at hsome ⊢
    by_cases hp : (p, sid) = (peer, session)
    · refine ⟨seq, if_pos hp, ?_⟩
      obtain ⟨rfl, rfl⟩ := Prod.mk.inj hp
      split_ifs at hsome with hn
      · simp only [Prod.mk.injEq, true_and] at hn
        exact Int.le_of_eq hn
      · obtain ⟨high, hhigh, hle⟩ := h.transcript p sid n hsome
        rw [hhigh] at hlt
        exact Int.le_trans hle (Int.le_of_lt hlt)
    · have hne : (p, sid, n) ≠ (peer, session, seq) := fun heq => hp (by simp_all)
      rw [if_neg hne] at hsome
      rw [if_neg hp]
      exact h.transcript p sid n hsome
  highWater p sid high hhigh := by
    simp only [Store.commit, List.foldl, Write.apply, Dict.get?_set] at hhigh ⊢
    split_ifs at hhigh with hp
    · obtain rfl := Option.some.inj hhigh
      obtain ⟨rfl, rfl⟩ := Prod.mk.inj hp
      rw [if_pos rfl]
      rfl
    · split_ifs
      · rfl
      · exact h.highWater p sid high hhigh


/-- The peers after a renaming. -/
theorem isSome_peers_updatePeerIdentity {peer newPub newKeyId : Points}
    (h : updatePeerIdentity s peer newPub newKeyId = some s') {p : Points}
    (hp : (s.peers.get? p).isSome) : (s'.peers.get? (rename peer newKeyId p)).isSome := by
  obtain ⟨⟨peers, hpeers, heq⟩, -⟩ := updatePeerIdentity_some h
  obtain ⟨row, hrow⟩ := Option.isSome_iff_exists.mp hp
  have hmoved : peers.get? (rename peer newKeyId p) = some row :=
    (Dict.get?_rekey hpeers).mpr ⟨p, rfl, hrow⟩
  rw [heq]
  split
  · rw [Dict.get?_set]
    split_ifs
    · rfl
    · rw [hmoved]
      rfl
  · rw [hmoved]
    rfl

theorem Settled.followed (h : Settled s) {peer newPub newKeyId : Points}
    (hs' : updatePeerIdentity s peer newPub newKeyId = some s') : Settled s' := by
  obtain ⟨⟨peers, hpeers, -⟩, hpending, hkeys, hsessions, htranscript, hhigh⟩ :=
    updatePeerIdentity_some hs'
  refine ⟨fun p sid hkey => ?_, fun p sid hsome => ?_, fun p sid => ?_, fun p sid hsome => ?_,
    h.named.followed hs', fun p sid n hsome => ?_, fun p sid high hhigh' => ?_⟩
  · obtain ⟨q, rfl, hq⟩ := (Dict.isSome_rekey_fst hkeys).mp hkey
    exact isSome_peers_updatePeerIdentity hs' (h.known q sid hq)
  · obtain ⟨q, rfl, hq⟩ := (Dict.isSome_rekey_fst hpending).mp hsome
    exact isSome_peers_updatePeerIdentity hs' (h.awaited q sid hq)
  · rw [Dict.isSome_rekey_fst hkeys, Dict.isSome_rekey_fst hsessions]
    simp only [h.sessions]
  · -- Two peers that are known do not become one.
    obtain ⟨q, rfl, hq⟩ := (Dict.isSome_rekey_fst hpending).mp hsome
    refine Option.not_isSome_iff_eq_none.mp fun hkey => ?_
    obtain ⟨q', heq, hq'⟩ := (Dict.isSome_rekey_fst hkeys).mp hkey
    obtain rfl := Dict.eq_of_rekey hpeers (h.known q' sid hq') (h.awaited q sid hq) heq
    rw [h.pending q' sid hq] at hq'
    cases hq'
  · obtain ⟨q, rfl, hq⟩ := (Dict.isSome_rekey_fst htranscript).mp hsome
    obtain ⟨high, hq', hle⟩ := h.transcript q sid n hq
    exact ⟨high, (Dict.get?_rekey_fst hhigh).mpr ⟨q, rfl, hq'⟩, hle⟩
  · obtain ⟨q, rfl, hq⟩ := (Dict.get?_rekey_fst hhigh).mp hhigh'
    exact (Dict.isSome_rekey_fst htranscript).mpr ⟨q, rfl, h.highWater q sid high hq⟩

/-- Only the peers change. -/
theorem commit_upserts (s : Store κ ε) (peer : Points) (mailbox : List (Option Points)) :
    ∃ peers, s.commit (mailbox.map (.upsertPeer peer ·)) = { s with peers := peers } := by
  induction mailbox generalizing s with
  | nil => exact ⟨s.peers, rfl⟩
  | cons m mailbox ih =>
    obtain ⟨peers, hpeers⟩ := ih (Write.apply s (.upsertPeer peer m))
    refine ⟨peers, hpeers.trans ?_⟩
    rw [apply_upsertPeer]

/-- The session of a handshake that is read has no key, and its peer is known. -/
theorem keys_of_readHandshake {e : Value} {peer session : Points} {row : PeerRow} {body : Value}
    (hread : readHandshake L s e now = .ok (peer, row, body)) (hsession : sessionId e = .str session) :
    s.keys.get? (peer, session) = none ∧ s.peers.get? peer = some row := by
  obtain ⟨hpeer, -, hkey⟩ := readHandshake_ok.mp hread
  rw [hsession] at hkey
  exact ⟨hkey, (getPeer_ok.mp hpeer).2.2.2⟩

/-- A poll may stop before any write but one that ends what another has begun. -/
theorem Settled.effect (h : Settled s) {ws : List (Write κ)} {raised : Bool}
    (heffect : Effect L now s it ws raised) {k : ℕ} (hk : ws[k]?.any Write.ends = false) :
    Settled (s.commit (ws.take k)) := by
  cases heffect with
  | nothing _ => rwa [List.take_nil]
  | @learned peer mailbox _ =>
    cases k with
    | zero => exact h
    | succ k =>
      rw [List.take_of_length_le (by simp)]
      exact h.upsertPeer peer mailbox
  | @answered peer session row body key mailbox _ _ _ _ _ hread hsession hnone =>
    obtain ⟨hkey, hrow⟩ := keys_of_readHandshake hread hsession
    -- The writes up to the key are upserts, and the two after them belong together.
    by_cases hle : k ≤ mailbox.length
    · rw [List.take_append_of_le_length (by simpa using hle), ← List.map_take]
      exact h.upserts peer _
    · have hne : k ≠ mailbox.length + 1 := by
        rintro rfl
        simp [Write.ends] at hk
      rw [List.take_of_length_le (by simp; omega), commit_append]
      obtain ⟨peers, hpeers⟩ := commit_upserts s peer mailbox
      have hups := h.upserts peer mailbox
      rw [commit_opened (by rw [hpeers]; exact hkey) (hups.sessions peer session).mpr key]
      refine hups.opened key ?_ ?_
      · have hkept : Kept peer s (s.commit (mailbox.map (.upsertPeer peer ·))) :=
          kept_commit (by simp [Write.Plain]) (by simp)
        have hknown := congrArg Option.isSome hkept.peer
        rw [Option.isSome_map, Option.isSome_map, hrow] at hknown
        exact hknown
      · intro p sid hsome
        refine ⟨?_, hsome⟩
        rintro heq
        rw [hpeers, heq] at hsome
        change (s.pending.get? (peer, session)).isSome = true at hsome
        rw [hnone] at hsome
        cases hsome
  | @completed peer session row body key _ _ hread hsession hsome =>
    obtain ⟨hkey, hrow⟩ := keys_of_readHandshake hread hsession
    rcases k with _ | _ | _ | k
    · exact h
    · cases hk
    · cases hk
    · rw [List.take_of_length_le (by simp),
        commit_completed hkey (h.sessions peer session).mpr key]
      refine h.opened key (by rw [hrow]; rfl) fun p sid hsome' => ?_
      rw [Dict.get?_pop] at hsome'
      split_ifs at hsome' with hp
      · cases hsome'
      · exact ⟨hp, hsome'⟩
  | @followed peer newPub newKeyId _ _ _ _ hsome =>
    cases k with
    | zero => exact h
    | succ k =>
      obtain ⟨s', hs'⟩ := Option.isSome_iff_exists.mp hsome
      rw [List.take_of_length_le (by simp), commit_updatePeerIdentity hs']
      exact h.followed hs'
  | @accepted peer session seq payload text _ _ hread _ =>
    obtain ⟨-, -, -, row, -, hopen⟩ := readMessage_ok.mp hread
    have hlt := (verifyAndOpen_ok.mp hopen).2.2.2.2.1
    rcases k with _ | _ | k
    · exact h
    · cases hk
    · rw [List.take_of_length_le (by simp)]
      exact h.accepted text hlt

/-! ## Turns that are over -/

/-- An item is behind the gate, or spent. -/
def Over (L : Library κ ε) (now : Instant) (s : Store κ ε) (it : Item) : Prop :=
  blocked s it.sender = true ∨ Spent L now s it

theorem turn_of_over (h : Over L now s it) : turn L now s it = drop := by
  unfold turn
  split_ifs with hblocked
  · rfl
  · exact ingest_of_spent (h.resolve_left hblocked)

theorem work_of_over (h : Over L now s it) : (worker L now).work s it = some [] := by
  show (if (turn L now s it).raised then none else some (turn L now s it).writes) = some []
  rw [turn_of_over h]
  rfl

/-- What an item commits in its turn. -/
theorem work_cases (hnamed : Named s) {ws : List (Write κ)}
    (hwork : (worker L now).work s it = some ws) :
    blocked s it.sender = true ∧ ws = [] ∨
      blocked s it.sender = false ∧ Effect L now s it ws false := by
  have hwork' : (if (turn L now s it).raised then none else some (turn L now s it).writes) = some ws :=
    hwork
  cases hblocked : blocked s it.sender with
  | true =>
    rw [turn_of_over (.inl hblocked)] at hwork'
    exact .inl ⟨rfl, (Option.some.inj hwork').symm⟩
  | false =>
    have hturn : turn L now s it = ingest L s it.sender it now := if_neg (by simp [hblocked])
    rw [hturn] at hwork'
    have heffect := ingest_effect L now hnamed it
    split_ifs at hwork' with hraised
    rw [Option.some.inj hwork', (by simpa using hraised : (ingest L s it.sender it now).raised = false)]
      at heffect
    exact .inr ⟨rfl, heffect⟩

/-- A gate stays as it is for a sender that is kept. -/
theorem Kept.blocked {p : Points} (h : Kept p s s') : blocked s' (.str p) = blocked s (.str p) := by
  have hconsent (t : Store κ ε) : Poll.blocked t (.str p) =
      ((t.peers.get? p).map PeerRow.known).any fun row => inboundBlockedConsent.contains row.consent := by
    rw [Option.any_map]
    rfl
  rw [hconsent, hconsent, h.peer]

theorem Gone.not_blocked {p : Points} (h : Gone p s) : blocked s (.str p) = false := by
  show (s.peers.get? p).any _ = false
  rw [h.peer]
  rfl

/-- A sender that is no peer is not blocked. -/
theorem not_blocked {sender : Value} (h : ∀ p, sender ≠ .str p) : blocked s sender = false := by
  unfold blocked
  cases hp : peerId sender with
  | none => rfl
  | some p => exact absurd (peerId_eq_some.mp hp) (h p)

/-- No handshake comes after a message of its sender. -/
def Ordered (u it : Item) : Prop :=
  ∀ p, u.sender = .str p → it.sender = .str p → isSessionOpen it.envelope = true →
    isSessionOpen u.envelope = true

/-- A gate stays as it is in a turn that renames no peer to its sender. -/
theorem blocked_turn {sender : Value} (hnamed : Named s)
    {ws : List (Write κ)} (hwork : (worker L now).work s it = some ws)
    (hfresh : ∀ peer newPub newKeyId, .updatePeerIdentity peer newPub newKeyId ∈ ws →
      sender ≠ .str newKeyId) : blocked (s.commit ws) sender = blocked s sender := by
  obtain ⟨-, rfl⟩ | ⟨hopen, heffect⟩ := work_cases hnamed hwork
  · rfl
  · by_cases hpeer : ∃ p, sender = .str p
    · obtain ⟨p, rfl⟩ := hpeer
      rcases (heffect.onward (p := p) fun peer newPub newKeyId hmem heq =>
        hfresh peer newPub newKeyId hmem (heq ▸ rfl)).1 with hkept | ⟨hsender, hgone⟩
      · exact hkept.blocked
      · rw [hgone.not_blocked, ← hsender, hopen]
    · rw [not_blocked fun p hp => hpeer ⟨p, hp⟩, not_blocked fun p hp => hpeer ⟨p, hp⟩]

/-- An item that is over stays so in the turn of another. -/
theorem Over.turn {u : Item} (hover : Over L now s u) (h : Settled s) {ws : List (Write κ)}
    (hwork : (worker L now).work s it = some ws)
    (hfresh : ∀ peer newPub newKeyId, .updatePeerIdentity peer newPub newKeyId ∈ ws →
      u.sender ≠ .str newKeyId)
    (horder : Ordered u it) : Over L now (s.commit ws) u := by
  obtain hblocked | hspent := hover
  · exact .inl ((blocked_turn h.named hwork hfresh).trans hblocked)
  · obtain ⟨-, rfl⟩ | ⟨-, heffect⟩ := work_cases h.named hwork
    · exact .inr hspent
    · refine .inr (hspent.later (heffect.onward_sender hfresh) fun hclosed p session row hp hrow => ?_)
      refine (heffect.onward (p := p) fun peer newPub newKeyId hmem heq =>
        hfresh peer newPub newKeyId hmem (heq ▸ hp)).2 ?_ p session row rfl hrow
      -- A message is not followed by a handshake of its sender.
      by_cases hsender : it.sender = .str p
      · refine .inl (Bool.eq_false_iff.mpr fun hitem => ?_)
        rw [horder p hp hsender hitem] at hclosed
        cases hclosed
      · exact .inr hsender

/-- An item is over once it has had its turn. -/
theorem over_turn (h : Settled s) {ws : List (Write κ)} (hwork : (worker L now).work s it = some ws)
    (hfresh : ∀ peer newPub newKeyId, .updatePeerIdentity peer newPub newKeyId ∈ ws →
      it.sender ≠ .str newKeyId) : Over L now (s.commit ws) it := by
  obtain ⟨hblocked, rfl⟩ | ⟨-, heffect⟩ := work_cases h.named hwork
  · exact .inl hblocked
  · exact .inr (heffect.spent hfresh)

/-- A turn that is stopped, but not before a write that ends what another has begun, leaves no write
missing. -/
theorem Settled.stopped (h : Settled s) {ws : List (Write κ)}
    (hwork : (worker L now).work s it = some ws) {k : ℕ} (hk : ws[k]?.any Write.ends = false) :
    Settled (s.commit (ws.take k)) := by
  obtain ⟨-, rfl⟩ | ⟨-, heffect⟩ := work_cases h.named hwork
  · rwa [List.take_nil]
  · exact h.effect heffect hk

/-- A whole turn leaves no write missing. -/
theorem Settled.turn (h : Settled s) {ws : List (Write κ)}
    (hwork : (worker L now).work s it = some ws) : Settled (s.commit ws) := by
  rw [← List.take_length (l := ws)]
  exact h.stopped hwork (by simp)

/-! ## A turn that is stopped -/

/-- Checks that agree under a map stop alike, or both pass. -/
theorem map_eq_map {α β : Type} {f : α → β} {x y : Except Stop α} (h : x.map f = y.map f) :
    (∃ why, x = .error why ∧ y = .error why) ∨ ∃ a b, x = .ok a ∧ y = .ok b ∧ f a = f b := by
  cases x with
  | error why =>
    cases y with
    | error why' =>
      obtain rfl : why = why' := Except.error.inj h
      exact .inl ⟨why, rfl, rfl⟩
    | ok b => cases h
  | ok a =>
    cases y with
    | error why' => cases h
    | ok b => exact .inr ⟨a, b, rfl, rfl, Except.ok.inj h⟩

/-- What is read of a handshake does not depend on the mailbox. -/
theorem readHandshake_upsertPeer (L : Library κ ε) (now : Instant) (s : Store κ ε) (e : Value)
    (peer : Points) (mailbox : Option Points) :
    (readHandshake L (Write.apply s (.upsertPeer peer mailbox)) e now).map
        (fun found => (found.1, found.2.1.known, found.2.2)) =
      (readHandshake L s e now).map fun found => (found.1, found.2.1.known, found.2.2) := by
  have hpeer (id : Value) : (getPeer (Write.apply s (.upsertPeer peer mailbox)) id).map
      (fun found => (found.1, found.2.known)) =
        (getPeer s id).map fun found => (found.1, found.2.known) := by
    unfold getPeer
    split_ifs
    · rfl
    · rfl
    · cases hid : peerId id with
      | none => rfl
      | some p =>
        have hknown := known_upsertPeer s peer p mailbox
        cases hrow : s.peers.get? p with
        | none =>
          rw [hrow, Option.map_none, Option.map_eq_none_iff] at hknown
          simp [hknown, hrow]
        | some row =>
          rw [hrow] at hknown
          obtain ⟨row', hrow', heq⟩ := Option.map_eq_some_iff.mp hknown
          simp [hrow', hrow, heq, Except.map]
  have hkeys : (Write.apply s (.upsertPeer peer mailbox)).keys = s.keys := by rw [apply_upsertPeer]
  unfold readHandshake
  rw [hkeys]
  rcases map_eq_map (hpeer (senderKeyId e)) with ⟨why, hfound', hfound⟩ | ⟨⟨p, row'⟩, ⟨q, row⟩,
    hfound', hfound, heq⟩
  · rw [hfound', hfound]
  · obtain ⟨rfl, hknown⟩ : p = q ∧ row'.known = row.known := Prod.mk.inj heq
    rw [hfound', hfound]
    simp only [bind, Except.bind, (PeerRow.known_inj hknown).1]
    cases parseSessionOpen L row.identityPub e now with
    | error why => rfl
    | ok body =>
      simp only
      split_ifs
      · rfl
      · simp [Except.map, hknown]

/-- A handshake is answered in the same way once the mailbox that it names is learned. -/
theorem onSessionOpen_upsertPeer (s : Store κ ε) {e : Value}
    (htruthy : (senderMailbox e).truthy = true) (peer : Points) (mailbox : Option Points) :
    onSessionOpen L (Write.apply s (.upsertPeer peer mailbox)) e now = onSessionOpen L s e now := by
  unfold onSessionOpen
  rcases map_eq_map (readHandshake_upsertPeer L now s e peer mailbox) with
    ⟨why, hfound', hfound⟩ | ⟨⟨p, row', body⟩, ⟨q, row, body'⟩, hfound', hfound, heq⟩
  · rw [hfound', hfound]
  · obtain ⟨rfl, -, rfl⟩ : p = q ∧ row'.known = row.known ∧ body = body' := by simpa using heq
    rw [hfound', hfound]
    -- The reply goes to the mailbox that the handshake names, whatever the row has.
    have hreply (row : PeerRow) : replyMailbox row (senderMailbox e) = senderMailbox e :=
      if_pos htruthy
    simp only [hreply]

/-- A mailbox is learned once. -/
theorem apply_upsertPeer_twice (s : Store κ ε) (peer : Points) (mailbox : Option Points) :
    Write.apply (Write.apply s (.upsertPeer peer mailbox)) (.upsertPeer peer mailbox) =
      Write.apply s (.upsertPeer peer mailbox) := by
  conv_lhs => rw [apply_upsertPeer]
  cases hrow : s.peers.get? peer with
  | none =>
    have hnone : (Write.apply s (.upsertPeer peer mailbox)).peers.get? peer = none := by
      rw [apply_upsertPeer, hrow]
      exact hrow
    rw [hnone]
    rfl
  | some row =>
    have hsome : (Write.apply s (.upsertPeer peer mailbox)).peers.get? peer =
        some { row with relayMailbox := mailbox.orElse fun _ => row.relayMailbox } := by
      rw [apply_upsertPeer, hrow]
      simp [Dict.get?_set]
    rw [hsome, Option.elim_some]
    have hset : (Write.apply s (.upsertPeer peer mailbox)).peers.set peer
        { row with
          relayMailbox := mailbox.orElse fun _ => mailbox.orElse fun _ => row.relayMailbox } =
        (Write.apply s (.upsertPeer peer mailbox)).peers := by
      refine Dict.set_of_get? (hsome.trans ?_)
      cases mailbox with
      | none => rfl
      | some m => rfl
    rw [hset]

/-- No gate depends on a mailbox. -/
theorem blocked_upsertPeer (s : Store κ ε) (peer : Points) (mailbox : Option Points) (sender : Value) :
    blocked (Write.apply s (.upsertPeer peer mailbox)) sender = blocked s sender := by
  by_cases hpeer : ∃ p, sender = .str p
  · obtain ⟨p, rfl⟩ := hpeer
    exact (Write.kept (w := .upsertPeer peer mailbox) trivial nofun).blocked
  · rw [not_blocked fun p hp => hpeer ⟨p, hp⟩, not_blocked fun p hp => hpeer ⟨p, hp⟩]

/-- An item that is over stays so when a mailbox is learned. -/
theorem Over.upsertPeer {u : Item} (h : Over L now s u) (peer : Points) (mailbox : Option Points) :
    Over L now (Write.apply s (.upsertPeer peer mailbox)) u := by
  obtain hblocked | hspent := h
  · exact .inl ((blocked_upsertPeer s peer mailbox u.sender).trans hblocked)
  · refine .inr (hspent.later (fun p _ => .inl (Write.kept (w := .upsertPeer peer mailbox) trivial nofun))
      fun _ p session row _ hrow => ?_)
    rwa [apply_upsertPeer] at hrow

/-- A handshake is taken in the same way once the mailbox that it names is learned. -/
theorem turn_upsertPeer (L : Library κ ε) (now : Instant) (hopen : isSessionOpen it.envelope = true)
    (htruthy : (senderMailbox it.envelope).truthy = true) {peer session : Points}
    (hsender : it.sender = .str peer) (hsession : sessionId it.envelope = .str session)
    (hnone : s.pending.get? (peer, session) = none) (mailbox : Option Points) :
    turn L now (Write.apply s (.upsertPeer peer mailbox)) it = turn L now s it := by
  have hpending : (Write.apply s (.upsertPeer peer mailbox)).pending = s.pending := by
    rw [apply_upsertPeer]
  have hrow : row? s.pending (peerId it.sender) (sqlText L (sessionIdOrEmpty it.envelope)) = none := by
    rw [hsender, sessionIdOrEmpty_of_sessionId hsession]
    exact hnone
  unfold turn ingest ingestSessionOpen
  rw [hpending, hrow, onSessionOpen_upsertPeer s htruthy, blocked_upsertPeer]
  simp only [hopen, Option.isNone_none, if_true]

/-- The messages that some writes accept. -/
def appends (ws : List (Write κ)) : List (Points × Points × ℤ) :=
  ws.filterMap fun
    | .appendTranscript peer session seq _ => some (peer, session, seq)
    | _ => none

theorem appends_append (vs ws : List (Write κ)) : appends (vs ++ ws) = appends vs ++ appends ws :=
  List.filterMap_append

/-- A turn that is stopped, but not before a write that ends what another has begun, is taken again
to the same effect, and what was over stays so. -/
theorem turn_again (h : Settled s) {ws : List (Write κ)}
    (hwork : (worker L now).work s it = some ws) {k : ℕ} (hlt : k < ws.length)
    (hk : ws[k]?.any Write.ends = false) :
    (∀ u, Over L now s u → Over L now (s.commit (ws.take k)) u) ∧
      (∀ sender, blocked (s.commit (ws.take k)) sender = blocked s sender) ∧
      ∃ xs, (worker L now).work (s.commit (ws.take k)) it = some xs ∧
        (s.commit (ws.take k)).commit xs = s.commit ws ∧
        appends (ws.take k ++ xs) = appends ws := by
  -- Only a handshake that names a mailbox may stop after its first write.
  have hcases : k = 0 ∨ k = 1 ∧ isSessionOpen it.envelope = true ∧
      (senderMailbox it.envelope).truthy = true ∧ ∃ peer session mailbox ws', it.sender = .str peer ∧
        sessionId it.envelope = .str session ∧ s.pending.get? (peer, session) = none ∧
        ws = .upsertPeer peer mailbox :: ws' := by
    obtain ⟨-, rfl⟩ | ⟨-, heffect⟩ := work_cases h.named hwork
    · cases hlt
    · cases heffect with
      | nothing _ => cases hlt
      | @answered peer session row body key mailbox _ hopen _ hlength htruthy hread hsession hnone =>
        have hsender := sender_of_senderKeyId (senderKeyId_of_readHandshake hread)
        match mailbox with
        | [] =>
          match k with
          | 0 => exact .inl rfl
          | 1 => cases hk
          | k + 2 =>
            change k + 2 < 2 at hlt
            omega
        | [m] =>
          match k with
          | 0 => exact .inl rfl
          | 1 => exact .inr ⟨rfl, hopen, htruthy (by simp), peer, session, m, _, hsender, hsession,
              hnone, rfl⟩
          | 2 => cases hk
          | k + 3 =>
            change k + 3 < 3 at hlt
            omega
        | _ :: _ :: _ => simp at hlength
      | completed _ _ _ _ _ =>
        match k with
        | 0 => exact .inl rfl
        | 1 => cases hk
        | 2 => cases hk
        | k + 3 =>
          change k + 3 < 3 at hlt
          omega
      | followed _ _ _ _ _ =>
        match k with
        | 0 => exact .inl rfl
        | k + 1 =>
          change k + 1 < 1 at hlt
          omega
      | accepted _ _ _ _ =>
        match k with
        | 0 => exact .inl rfl
        | 1 => cases hk
        | k + 2 =>
          change k + 2 < 2 at hlt
          omega
  obtain rfl | ⟨rfl, hopen, htruthy, peer, session, mailbox, ws', hsender, hsession, hnone, rfl⟩ := hcases
  · exact ⟨fun u hu => hu, fun sender => rfl, ws, hwork, rfl, rfl⟩
  · refine ⟨fun u hu => hu.upsertPeer peer mailbox, blocked_upsertPeer s peer mailbox,
      .upsertPeer peer mailbox :: ws', ?_, ?_, rfl⟩
    · have hturn := turn_upsertPeer L now hopen htruthy hsender hsession hnone mailbox
      change (if (turn L now (Write.apply s (.upsertPeer peer mailbox)) it).raised then none
        else some (turn L now (Write.apply s (.upsertPeer peer mailbox)) it).writes) = _
      rw [hturn]
      exact hwork
    · show Store.commit (Write.apply (Write.apply s (.upsertPeer peer mailbox))
        (.upsertPeer peer mailbox)) ws' = Store.commit (Write.apply s (.upsertPeer peer mailbox)) ws'
      rw [apply_upsertPeer_twice]

/-- A session has a key, but no row, or a handshake that is pending still. -/
structure Torn (s : Store κ ε) : Prop where
  named : Named s
  keys : ∀ p session, (s.sessions.get? (p, session)).isSome → (s.keys.get? (p, session)).isSome
  torn : ∃ p session, (s.keys.get? (p, session)).isSome ∧
    ((s.sessions.get? (p, session)).isSome = false ∨ (s.pending.get? (p, session)).isSome)

theorem Torn.not_settled (h : Torn s) : ¬ Settled s := by
  intro hs
  obtain ⟨p, session, hkey, hsession | hpending⟩ := h.torn
  · rw [(hs.sessions p session).mp hkey] at hsession
    cases hsession
  · rw [hs.pending p session hpending] at hkey
    cases hkey

theorem Settled.torn (h : Settled s) (peer session : Points)
    (hkey : s.keys.get? (peer, session) = none) (key : KeyRow κ) :
    Torn (s.commit [.saveSessionKey peer session key]) := by
  have hcommit : s.commit [.saveSessionKey peer session key] =
      { s with keys := s.keys.set (peer, session) key } := by
    simp [Store.commit, Write.apply, hkey]
  rw [hcommit]
  refine ⟨h.named, fun p sid hsession => ?_, peer, session, ?_, .inl ?_⟩
  · simp only [Dict.get?_set]
    split_ifs
    · rfl
    · exact (h.sessions p sid).mpr hsession
  · simp [Dict.get?_set]
  · refine Bool.eq_false_iff.mpr fun hsession => ?_
    have hsome := (h.sessions peer session).mpr hsession
    rw [hkey] at hsome
    cases hsome

/-- A message that is stopped after it is in the transcript raises when it comes again, and a
handshake that is stopped after its key is saved is torn. -/
theorem turn_torn (h : Settled s) {ws : List (Write κ)}
    (hwork : (worker L now).work s it = some ws) {k : ℕ} (hk : ws[k]?.any Write.ends = true) :
    ((∀ u, Over L now s u → Over L now (s.commit (ws.take k)) u) ∧
        Named (s.commit (ws.take k)) ∧
        (worker L now).work (s.commit (ws.take k)) it = none) ∨ Torn (s.commit (ws.take k)) := by
  obtain ⟨-, rfl⟩ | ⟨hblocked, heffect⟩ := work_cases h.named hwork
  · cases hk
  · cases heffect with
    | nothing _ => cases hk
    | @answered peer session row body key mailbox _ _ _ hlength _ hread hsession _ =>
      obtain ⟨hkey, -⟩ := keys_of_readHandshake hread hsession
      -- Of these writes only the one after the key ends something.
      rcases mailbox with _ | ⟨m, _ | ⟨_, _⟩⟩
      · rcases k with _ | _ | k
        · cases hk
        · exact .inr (h.torn peer session hkey key)
        · cases hk
      · rcases k with _ | _ | _ | k
        · cases hk
        · cases hk
        · refine .inr ((h.upsertPeer peer m).torn peer session ?_ key)
          rwa [apply_upsertPeer]
        · cases hk
      · simp at hlength
    | @completed peer session row body key _ _ hread hsession hsome =>
      obtain ⟨hkey, -⟩ := keys_of_readHandshake hread hsession
      rcases k with _ | _ | _ | k
      · cases hk
      · exact .inr (h.torn peer session hkey key)
      · right
        show Torn (s.commit [.saveSessionKey peer session key, .createSession peer session])
        rw [commit_opened hkey (h.sessions peer session).mpr key]
        refine ⟨h.named, fun p sid hrow => ?_, peer, session, ?_, .inr hsome⟩
        · simp only [Dict.get?_set] at hrow ⊢
          split_ifs at hrow ⊢
          · rfl
          · exact (h.sessions p sid).mpr hrow
        · simp [Dict.get?_set]
      · cases hk
    | followed _ _ _ _ _ =>
      cases k <;> cases hk
    | @accepted peer session seq payload text hclosed hnotice hread hfresh =>
      rcases k with _ | _ | k
      · cases hk
      · refine .inl ⟨fun u hu => hu, h.named, ?_⟩
        -- The line is in the transcript now, so that the message is refused as one that was seen.
        have hturn : (turn L now (s.commit [.appendTranscript peer session seq text]) it).raised =
            true := by
          have hblocked' : blocked (s.commit [.appendTranscript peer session seq text]) it.sender =
              false := hblocked
          have hread' : readMessage L (s.commit [.appendTranscript peer session seq text]) it.sender
              it.envelope now = .ok (peer, session, seq, payload) := hread
          have hsome : ((s.commit [.appendTranscript peer session seq text]).transcript.get?
              (peer, session, seq)).isSome = true := by
            simp [Store.commit, Write.apply, Dict.get?_set]
          rw [turn, hblocked', ingest, hclosed, hnotice, ingestMessage, hread']
          simp [hsome, raise]
        exact if_pos hturn
      · cases hk

/-- A session that is opened is another one. -/
theorem Torn.opened (h : Torn s) {peer session : Points} (key : KeyRow κ)
    (hkey : s.keys.get? (peer, session) = none) {peers : Dict Points PeerRow}
    {pending : Dict (Points × Points) (Pending ε)}
    (hpending : ∀ k, pending.get? k = if k = (peer, session) then none else s.pending.get? k) :
    Torn { s with
      peers := peers
      pending := pending
      keys := s.keys.set (peer, session) key
      sessions := s.sessions.set (peer, session) true } := by
  obtain ⟨p, sid, hsome, htorn⟩ := h.torn
  have hne : (p, sid) ≠ (peer, session) := by
    intro heq
    rw [heq, hkey] at hsome
    cases hsome
  refine ⟨fun q => ?_, fun q sid' hsession => ?_, p, sid, ?_, ?_⟩
  · rw [hpending]
    split_ifs
    · rfl
    · exact h.named q
  · simp only [Dict.get?_set] at hsession ⊢
    split_ifs at hsession ⊢
    · rfl
    · exact h.keys q sid' hsession
  · simp only [Dict.get?_set, if_neg hne]
    exact hsome
  · simp only [Dict.get?_set, hpending, if_neg hne]
    exact htorn

/-- A turn mends nothing. -/
theorem Torn.turn (h : Torn s) {ws : List (Write κ)} (hwork : (worker L now).work s it = some ws) :
    Torn (s.commit ws) := by
  obtain ⟨-, rfl⟩ | ⟨-, heffect⟩ := work_cases h.named hwork
  · exact h
  · cases heffect with
    | nothing _ => exact h
    | @answered peer session row body key mailbox _ _ _ hlength _ hread hsession hnone =>
      obtain ⟨hkey, -⟩ := keys_of_readHandshake hread hsession
      obtain ⟨peers, hpeers⟩ := commit_upserts s peer mailbox
      rw [commit_append, hpeers, commit_opened (s := { s with peers := peers }) hkey
        (h.keys peer session) key]
      refine h.opened key hkey fun k => ?_
      split_ifs with hk
      · rw [hk]
        exact hnone
      · rfl
    | @completed peer session row body key _ _ hread hsession _ =>
      obtain ⟨hkey, -⟩ := keys_of_readHandshake hread hsession
      rw [commit_completed hkey (h.keys peer session) key]
      exact h.opened key hkey fun k => Dict.get?_pop _ _ _
    | @followed peer newPub newKeyId _ _ _ _ hsome =>
      obtain ⟨s', hs'⟩ := Option.isSome_iff_exists.mp hsome
      obtain ⟨-, hpending, hkeys, hsessions, -⟩ := updatePeerIdentity_some hs'
      rw [commit_updatePeerIdentity hs']
      obtain ⟨p, sid, hkey, htorn⟩ := h.torn
      refine ⟨h.named.followed hs', fun q sid' hsession => ?_, rename peer newKeyId p, sid, ?_, ?_⟩
      · obtain ⟨q', rfl, hq'⟩ := (Dict.isSome_rekey_fst hsessions).mp hsession
        exact (Dict.isSome_rekey_fst hkeys).mpr ⟨q', rfl, h.keys q' sid' hq'⟩
      · exact (Dict.isSome_rekey_fst hkeys).mpr ⟨p, rfl, hkey⟩
      · refine htorn.imp (fun hnone => ?_) fun hrow => ?_
        · -- Another session does not take the place of the one that has no row.
          refine Bool.eq_false_iff.mpr fun hsession => ?_
          obtain ⟨q, heq, hq⟩ := (Dict.isSome_rekey_fst hsessions).mp hsession
          have hsame : (q, sid) = (p, sid) :=
            Dict.eq_of_rekey hkeys (h.keys q sid hq) hkey (Prod.ext heq rfl)
          obtain ⟨rfl, -⟩ := Prod.mk.inj hsame
          rw [hnone] at hq
          cases hq
        · exact (Dict.isSome_rekey_fst hpending).mpr ⟨p, rfl, hrow⟩
    | accepted _ _ _ _ => exact ⟨h.named, h.keys, h.torn⟩

end Companion.Kindled.Poll

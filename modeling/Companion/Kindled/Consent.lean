import Companion.Dict
import Companion.Memory.Text
import Companion.Runs
import Mathlib

/-!
# The consent of a peer

The writers of `peers.consent_state` in `brain/kindled_link/`: `set_consent` of `store.py`, with
`confirm_local_fingerprint` and `mark_remote_paired` of `pairing.py`; `import_invite`; and
`on_session_open` of `session.py`, which writes back the row that it read. Each works in statements
that commit on their own, over one database and any number of connections.

A row remembers the states that it has had. `set_consent` alone looks at `_ALLOWED_TRANSITIONS`, and
`moved_iff` says which writes keep to it.
-/

namespace Companion.Kindled.Consent

open Companion.Memory Companion.Runs

/-- `CONSENT_STATES` -/
inductive State
  | pendingLocal
  | pendingRemote
  | paired
  | paused
  | revoked
  | blocked
  deriving DecidableEq

/-- `_ALLOWED_TRANSITIONS` -/
def allowedTransitions : State → List State
  | .pendingLocal => [.pendingRemote, .paired, .revoked, .blocked]
  | .pendingRemote => [.paired, .revoked, .blocked]
  | .paired => [.paused, .revoked, .blocked]
  | .paused => [.paired, .revoked, .blocked]
  | .revoked => [.blocked]
  | .blocked => []

/-- A row of `peers`. -/
structure Row where
  identityPub : Text
  fingerprint : Text
  consent : State
  relayUrl : Option Text
  relayMailbox : Option Text
  previousIdentityPub : Option Text
  /-- The states that it had before, the latest first. -/
  past : List State
  deriving DecidableEq

/-- A row with another state. -/
def Row.setConsent (row : Row) (consent : State) : Row :=
  if consent = row.consent then row
  else { row with consent := consent, past := row.consent :: row.past }

/-- The table `peers`, by `peer_id`. -/
abbrev Peers := Dict Text Row

/-- `upsert_peer` -/
def upsertPeer (peers : Peers) (peer identityPub fingerprint : Text) (consent : State)
    (relayUrl relayMailbox : Option Text) : Peers :=
  match peers.get? peer with
  | none => peers.set peer ⟨identityPub, fingerprint, consent, relayUrl, relayMailbox, none, []⟩
  | some row => peers.set peer
      { row.setConsent consent with
        identityPub := identityPub
        fingerprint := fingerprint
        relayUrl := relayUrl
        relayMailbox := relayMailbox.orElse fun _ => row.relayMailbox }

/-- The `UPDATE` of `set_consent`. -/
def updateConsent (peers : Peers) (peer : Text) (consent : State) : Peers :=
  match peers.get? peer with
  | none => peers
  | some row => peers.set peer (row.setConsent consent)

/-- `update_peer_identity`, which raises and changes nothing where the new id is that of another
row. -/
def updatePeerIdentity (peers : Peers) (peer newPub newFingerprint : Text) : Peers :=
  match peers.get? peer with
  | none => peers
  | some row =>
    if newFingerprint ≠ peer ∧ (peers.get? newFingerprint).isSome then peers
    else (peers.pop peer).set newFingerprint
      { row with
        previousIdentityPub := some row.identityPub
        identityPub := newPub
        fingerprint := newFingerprint }

/-- An invite. -/
structure Invite where
  id : Text
  fingerprint : Text
  identityPub : Text
  relayUrl : Option Text
  mailbox : Option Text
  /-- Its structure, signature, fingerprint and expiry are accepted. -/
  valid : Bool
  deriving DecidableEq

/-- What `on_session_open` is given. -/
structure SessionOpen where
  sender : Text
  mailbox : Text
  /-- The key under which `parse_session_open` accepts it, if any. -/
  signedBy : Option Text
  deriving DecidableEq

/-- Where a connection is, between the read of an operation and its write. -/
inductive Phase
  | idle
  | importing (invite : Invite)
  | setting (peer : Text) (consent : State)
  | opening (row : Row) (e : SessionOpen)
  deriving DecidableEq

/-- The store and its connections. -/
structure World where
  peers : Peers
  consumed : List Text
  phase : ℕ → Phase

/-- The statements of a connection `c`. A connection may also stop before its write. -/
inductive Act
  /-- `import_invite` consumes the invite. -/
  | importMark (c : ℕ) (invite : Invite)
  | importWrite (c : ℕ)
  /-- `set_consent` reads the peer and looks at the transition. -/
  | setRead (c : ℕ) (peer : Text) (consent : State)
  | setWrite (c : ℕ)
  /-- `on_session_open` reads the peer; `established` says whether there is a session key. -/
  | openRead (c : ℕ) (e : SessionOpen) (established : Bool)
  | openWrite (c : ℕ)
  | updateIdentity (peer newPub newFingerprint : Text)
  | stop (c : ℕ)

def World.enter (w : World) (c : ℕ) (p : Phase) : World :=
  { w with phase := Function.update w.phase c p }

def step (w : World) : Act → Option World
  | .importMark c invite =>
    if w.phase c = .idle then
      if invite.valid ∧ invite.id ∉ w.consumed then
        some { w.enter c (.importing invite) with consumed := invite.id :: w.consumed }
      else some w
    else none
  | .importWrite c =>
    match w.phase c with
    | .importing i =>
      some { w.enter c .idle with
        peers := upsertPeer w.peers i.fingerprint i.identityPub i.fingerprint .pendingLocal i.relayUrl
          i.mailbox }
    | _ => none
  | .setRead c peer consent =>
    if w.phase c = .idle then
      match w.peers.get? peer with
      | none => some w
      | some row =>
        if consent ∈ allowedTransitions row.consent then some (w.enter c (.setting peer consent))
        else some w
    else none
  | .setWrite c =>
    match w.phase c with
    | .setting peer consent =>
      some { w.enter c .idle with peers := updateConsent w.peers peer consent }
    | _ => none
  | .openRead c e established =>
    if w.phase c = .idle then
      match w.peers.get? e.sender with
      | none => some w
      | some row =>
        if e.signedBy = some row.identityPub ∧ established = false ∧ e.mailbox ≠ [] then
          some (w.enter c (.opening row e))
        else some w
    else none
  | .openWrite c =>
    match w.phase c with
    | .opening row e =>
      some { w.enter c .idle with
        peers := upsertPeer w.peers e.sender row.identityPub row.fingerprint row.consent row.relayUrl
          (some e.mailbox) }
    | _ => none
  | .updateIdentity peer newPub newFingerprint =>
    some { w with peers := updatePeerIdentity w.peers peer newPub newFingerprint }
  | .stop c => some (w.enter c .idle)

/-- Connections to a store without peers. -/
def start : World := ⟨∅, [], fun _ => .idle⟩

def machine : Machine World Act where
  init w := w = start
  step := step

/-- The write sets a state in which the peer already is, or to which it may change, if it exists. -/
def writable (peers : Peers) (peer : Text) (consent : State) : Bool :=
  (peers.get? peer).all fun row => consent = row.consent || consent ∈ allowedTransitions row.consent

/-- An invite is imported for a peer that is new, or still in its first state; and what
`set_consent` and `on_session_open` write is writable still, after what others wrote since they read
the peer. -/
def proper (w : World) : Act → Bool
  | .importWrite c =>
    match w.phase c with
    | .importing i => (w.peers.get? i.fingerprint).all (·.consent = .pendingLocal)
    | _ => true
  | .setWrite c =>
    match w.phase c with
    | .setting peer consent => writable w.peers peer consent
    | _ => true
  | .openWrite c =>
    match w.phase c with
    | .opening row e => writable w.peers e.sender row.consent
    | _ => true
  | _ => true

/-! ## Rows that keep to the transitions -/

/-- Each state of the row follows upon the one before by a transition that is allowed. -/
def Row.Moved (row : Row) : Prop :=
  (row.consent :: row.past).IsChain fun new old => new ∈ allowedTransitions old

def AllMoved (peers : Peers) : Prop := ∀ peer row, peers.get? peer = some row → row.Moved

/-- A peer that was blocked before is in no state now: it is blocked still. -/
theorem Row.Moved.blocked_notMem {row : Row} (h : row.Moved) : .blocked ∉ row.past := by
  have hall : ∀ (past : List State) (consent : State),
      (consent :: past).IsChain (fun new old => new ∈ allowedTransitions old) → .blocked ∉ past := by
    intro past
    induction past with
    | nil => exact fun _ _ => List.not_mem_nil
    | cons old past ih =>
      intro consent hchain hmem
      obtain ⟨hstep, hrest⟩ := List.isChain_cons_cons.mp hchain
      rcases List.mem_cons.mp hmem with rfl | hmem
      · cases hstep
      · exact ih old hrest hmem
  exact hall row.past row.consent h

/-- A peer that was revoked before is blocked now. -/
theorem Row.Moved.of_revoked_mem {row : Row} (h : row.Moved) (hmem : .revoked ∈ row.past) :
    row.consent = .blocked := by
  have hall : ∀ (past : List State) (consent : State),
      (consent :: past).IsChain (fun new old => new ∈ allowedTransitions old) → .revoked ∈ past →
        consent = .blocked := by
    intro past
    induction past with
    | nil => exact fun _ _ h => absurd h List.not_mem_nil
    | cons old past ih =>
      intro consent hchain hmem
      obtain ⟨hstep, hrest⟩ := List.isChain_cons_cons.mp hchain
      rcases List.mem_cons.mp hmem with rfl | hmem
      · exact List.mem_singleton.mp hstep
      · -- What follows upon a blocked state is no state at all.
        rw [ih old hrest hmem] at hstep
        cases hstep
  exact hall row.past row.consent h hmem

/-- A row keeps to the transitions with a new state just in case that state is its own or may
follow. -/
theorem moved_setConsent {row : Row} (h : row.Moved) (consent : State) :
    (row.setConsent consent).Moved ↔
      consent = row.consent ∨ consent ∈ allowedTransitions row.consent := by
  unfold Row.setConsent
  split_ifs with heq
  · exact iff_of_true h (.inl heq)
  · show (consent :: row.consent :: row.past).IsChain _ ↔ _
    rw [List.isChain_cons_cons, or_iff_right heq]
    exact and_iff_left h

theorem writable_iff {peers : Peers} {peer : Text} {consent : State} :
    writable peers peer consent = true ↔ ∀ row, peers.get? peer = some row →
      consent = row.consent ∨ consent ∈ allowedTransitions row.consent := by
  unfold writable
  cases peers.get? peer with
  | none => simp
  | some row => simp

/-- No state leads back to the first. -/
theorem writable_pendingLocal {peers : Peers} {peer : Text} :
    writable peers peer .pendingLocal = (peers.get? peer).all (·.consent = .pendingLocal) := by
  unfold writable
  cases peers.get? peer with
  | none => rfl
  | some row =>
    show (decide _ || decide _) = decide _
    cases row.consent <;> rfl

/-- A row that is set leaves all others as they are. -/
theorem allMoved_set {peers : Peers} (h : AllMoved peers) (peer : Text) (row : Row) :
    AllMoved (peers.set peer row) ↔ row.Moved := by
  constructor
  · intro hall
    exact hall peer row (by rw [Dict.get?_set, if_pos rfl])
  · intro hrow peer' row' hget
    rw [Dict.get?_set] at hget
    split_ifs at hget
    · cases hget
      exact hrow
    · exact h peer' row' hget

theorem allMoved_upsertPeer {peers : Peers} (h : AllMoved peers) (peer identityPub fingerprint : Text)
    (consent : State) (relayUrl relayMailbox : Option Text) :
    AllMoved (upsertPeer peers peer identityPub fingerprint consent relayUrl relayMailbox) ↔
      writable peers peer consent = true := by
  rw [writable_iff]
  unfold upsertPeer
  cases hget : peers.get? peer with
  | none =>
    refine iff_of_true ((allMoved_set h ..).mpr (List.isChain_singleton _)) ?_
    exact fun row hrow => nomatch hrow
  | some row =>
    refine (allMoved_set h ..).trans ((moved_setConsent (h peer row hget) consent).trans ?_)
    simp

theorem allMoved_updateConsent {peers : Peers} (h : AllMoved peers) (peer : Text) (consent : State) :
    AllMoved (updateConsent peers peer consent) ↔ writable peers peer consent = true := by
  rw [writable_iff]
  unfold updateConsent
  cases hget : peers.get? peer with
  | none => exact iff_of_true h fun row hrow => nomatch hrow
  | some row =>
    refine (allMoved_set h ..).trans ((moved_setConsent (h peer row hget) consent).trans ?_)
    simp

/-- A row that moves to another id keeps its state and its past. -/
theorem allMoved_updatePeerIdentity {peers : Peers} (h : AllMoved peers)
    (peer newPub newFingerprint : Text) :
    AllMoved (updatePeerIdentity peers peer newPub newFingerprint) := by
  unfold updatePeerIdentity
  cases hget : peers.get? peer with
  | none => exact h
  | some row =>
    dsimp only
    split_ifs
    · exact h
    · have hpop : AllMoved (peers.pop peer) := by
        intro peer' row' hget'
        rw [Dict.get?_pop] at hget'
        split_ifs at hget'
        exact h peer' row' hget'
      exact (allMoved_set hpop ..).mpr (h peer row hget)

/-- A step keeps every row to the transitions just in case it is proper. -/
theorem allMoved_step {w w' : World} {a : Act} (hw : AllMoved w.peers) (h : step w a = some w') :
    AllMoved w'.peers ↔ proper w a = true := by
  -- Reads and marks leave the rows. A write moves the row that it is about.
  cases a with
  | importMark c invite =>
    refine iff_of_true ?_ rfl
    simp only [step] at h
    split_ifs at h
    · cases h
      exact hw
    · cases h
      exact hw
  | importWrite c =>
    cases hphase : w.phase c with
    | importing i =>
      simp only [step, proper, hphase] at h ⊢
      cases h
      refine (allMoved_upsertPeer hw ..).trans ?_
      rw [writable_pendingLocal]
    | _ =>
      simp only [step, hphase] at h
      cases h
  | setRead c peer consent =>
    refine iff_of_true ?_ rfl
    simp only [step] at h
    split_ifs at h
    split at h
    · cases h
      exact hw
    · split_ifs at h
      · cases h
        exact hw
      · cases h
        exact hw
  | setWrite c =>
    cases hphase : w.phase c with
    | setting peer consent =>
      simp only [step, proper, hphase] at h ⊢
      cases h
      exact allMoved_updateConsent hw peer consent
    | _ =>
      simp only [step, hphase] at h
      cases h
  | openRead c e established =>
    refine iff_of_true ?_ rfl
    simp only [step] at h
    split_ifs at h
    split at h
    · cases h
      exact hw
    · split_ifs at h
      · cases h
        exact hw
      · cases h
        exact hw
  | openWrite c =>
    cases hphase : w.phase c with
    | opening row e =>
      simp only [step, proper, hphase] at h ⊢
      cases h
      exact allMoved_upsertPeer hw ..
    | _ =>
      simp only [step, hphase] at h
      cases h
  | updateIdentity peer newPub newFingerprint =>
    cases h
    exact iff_of_true (allMoved_updatePeerIdentity hw _ _ _) rfl
  | stop c =>
    cases h
    exact iff_of_true hw rfl

/-! ## Runs -/

/-- In every run whose writes are proper, every peer keeps to the transitions, so that one that was
blocked is blocked still and one that was revoked can only be blocked; and the next step keeps to
them just in case it is proper too. -/
theorem moved_iff (w : World) (hw : machine.Reach (fun w a => proper w a = true) w) :
    (∀ peer row, w.peers.get? peer = some row →
      row.Moved ∧ .blocked ∉ row.past ∧ (.revoked ∈ row.past → row.consent = .blocked)) ∧
      ∀ a w', step w a = some w' → (AllMoved w'.peers ↔ proper w a = true) := by
  have hmoved : AllMoved w.peers := by
    refine Machine.Reach.invariant (I := fun w => AllMoved w.peers) ?_ ?_ hw
    · rintro w rfl
      exact fun peer row h => nomatch h
    · intro w a w' hw hp h
      exact (allMoved_step hw h).mpr hp
  refine ⟨fun peer row hrow => ?_, fun a w' h => allMoved_step hmoved h⟩
  have hrow := hmoved peer row hrow
  exact ⟨hrow, hrow.blocked_notMem, hrow.of_revoked_mem⟩

def invite (id : Text) : Invite := ⟨id, "kid_a".toList, "aa".toList, none, none, true⟩

/-- A peer is paired, writes, and is blocked. -/
def pairedThenBlocked : List Act :=
  [.importMark 0 (invite "inv_1".toList), .importWrite 0, .setRead 0 "kid_a".toList .pendingRemote,
    .setWrite 0, .setRead 0 "kid_a".toList .paired, .setWrite 0,
    .openRead 1 ⟨"kid_a".toList, "mbx".toList, some "aa".toList⟩ false, .openWrite 1,
    .setRead 0 "kid_a".toList .blocked, .setWrite 0]

theorem moved_iff_pairedThenBlocked :
    ∃ w, machine.Reach (fun w a => proper w a = true) w ∧
      ((w.peers.get? "kid_a".toList).map (·.consent) = some .blocked) ∧
      (∀ peer row, w.peers.get? peer = some row →
        row.Moved ∧ .blocked ∉ row.past ∧ (.revoked ∈ row.past → row.consent = .blocked)) ∧
      ∀ a w', step w a = some w' → (AllMoved w'.peers ↔ proper w a = true) := by
  obtain ⟨w, hw, hp⟩ := Machine.exists_reach_of_runWithin (M := machine)
    (D := fun w a => proper w a = true) (fun _ _ h => h) rfl pairedThenBlocked
    (fun w => (w.peers.get? "kid_a".toList).map (·.consent) = some .blocked) (by decide +kernel)
  exact ⟨w, hw, of_decide_eq_true hp, moved_iff w hw⟩

/-- A second invite brings a blocked peer back to its first state. -/
theorem invite_unblocks :
    ∃ w, machine.Reachable w ∧ ∃ row, w.peers.get? "kid_a".toList = some row ∧
      row.consent = .pendingLocal ∧ .blocked ∈ row.past ∧ ¬AllMoved w.peers := by
  obtain ⟨w, hw, hp⟩ := Machine.exists_reach_of_runWithin (M := machine) (D := fun _ _ => True)
    (fun _ _ h => h) rfl
    (pairedThenBlocked ++ [.importMark 0 (invite "inv_2".toList), .importWrite 0])
    (fun w => (w.peers.get? "kid_a".toList).any fun row =>
      row.consent = .pendingLocal && .blocked ∈ row.past) (by decide +kernel)
  obtain ⟨row, hrow, hp⟩ := (Option.any_eq_true _ _).mp hp
  obtain ⟨hconsent, hpast⟩ := (Bool.and_eq_true _ _).mp hp
  have hpast : State.blocked ∈ row.past := of_decide_eq_true hpast
  exact ⟨w, hw, row, hrow, of_decide_eq_true hconsent, hpast,
    fun hall => (hall _ row hrow).blocked_notMem hpast⟩

end Companion.Kindled.Consent

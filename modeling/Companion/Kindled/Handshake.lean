import Companion.Dict
import Companion.Memory.Text
import Mathlib.Data.Sym.Sym2

/-!
# The session handshake

The three legs of `brain/kindled_link/session.py` over the tables of `store.py`, with the rotation
notices of `transport.py`. Each function yields the writes that it commits, in order, since each
commits on its own and the process may stop in between.

The cryptography is symbolic. A key id stands for its key pair, and an ephemeral key for both its
halves; two session keys are equal just in case they are derived from the same two ephemeral keys,
the same two key ids, the same session and the same salt. All envelopes are built by honest parties,
so that a signature verifies just in case the sender is known under the key id that signed.
-/

namespace Companion.Kindled.Handshake

open Companion.Memory

/-- The key id of a party, after so many rotations. -/
structure KeyId where
  party : ℕ
  generation : ℕ
  deriving DecidableEq

/-- `ROLE_INITIATOR` and `ROLE_RESPONDER` -/
inductive Role
  | initiator
  | responder
  deriving DecidableEq

/-- What a session key is derived from. -/
structure SessionKey where
  shared : Sym2 ℕ
  salt : ℕ
  fingerprints : Sym2 KeyId
  session : ℕ
  deriving DecidableEq

/-- `derive_session_key`, which sorts the two fingerprints. -/
def deriveSessionKey (mine other : ℕ) (sender recipient : KeyId) (session salt : ℕ) :
    SessionKey :=
  ⟨s(mine, other), salt, s(sender, recipient), session⟩

/-- A row of `peers`: the key that was rotated away last. -/
structure Peer where
  previous : Option KeyId
  deriving DecidableEq

/-- A row of `pending_handshakes`. -/
structure Pending where
  eph : ℕ
  nonce : ℕ
  deriving DecidableEq

/-- A row of `session_keys`. -/
structure KeyRow where
  key : SessionKey
  myRole : Role
  peerRole : Role
  deriving DecidableEq

/-- A row of `sessions`. -/
structure SessionRow where
  isOpen : Bool
  cooldownUntil : Option Instant
  deriving DecidableEq

/-- The tables that a handshake reads and writes. -/
structure Store where
  peers : Dict KeyId Peer
  pending : Dict (KeyId × ℕ) Pending
  keys : Dict (KeyId × ℕ) KeyRow
  sessions : Dict (KeyId × ℕ) SessionRow
  outboundSeq : Dict (KeyId × ℕ) ℕ
  deriving DecidableEq

/-- `_SESSION_OPEN_TTL`, which is that of messages and of rotation notices too. -/
def envelopeTtl : Instant := 7 * 24 * 3600 * 1000000

/-- `_SKEW` -/
def skew : Instant := 5 * 60 * 1000000

/-- A signed `session_open` envelope. -/
structure SessionOpen where
  sender : KeyId
  recipient : KeyId
  session : ℕ
  eph : ℕ
  nonce : ℕ
  expiresAt : Instant
  deriving DecidableEq

/-- A signed `key_rotation_notice`. -/
structure Notice where
  sender : KeyId
  recipient : KeyId
  newKey : KeyId
  expiresAt : Instant
  deriving DecidableEq

/-- `_expired` -/
def expired (expiresAt now : Instant) : Bool := expiresAt + skew < now

/-- One key id for another. -/
def rename (old new k : KeyId) : KeyId := if k = old then new else k

/-- `update_peer_identity`, or none where a primary key is there already. -/
def updatePeerIdentity (s : Store) (old new : KeyId) : Option Store := do
  let peers ← s.peers.rekey? (rename old new)
  let pending ← s.pending.rekey? (Prod.map (rename old new) id)
  let keys ← s.keys.rekey? (Prod.map (rename old new) id)
  let sessions ← s.sessions.rekey? (Prod.map (rename old new) id)
  let outboundSeq ← s.outboundSeq.rekey? (Prod.map (rename old new) id)
  some
    { peers := if (s.peers.get? old).isSome then peers.set new ⟨some old⟩ else peers
      pending := pending
      keys := keys
      sessions := sessions
      outboundSeq := outboundSeq }

/-- A transaction of the store. -/
inductive Write
  /-- `save_pending_handshake` -/
  | savePending (peer : KeyId) (session : ℕ) (row : Pending)
  /-- `save_session_key`, which keeps a row that is there. -/
  | saveKey (peer : KeyId) (session : ℕ) (row : KeyRow)
  /-- `create_session`, which keeps a row that is there. -/
  | createSession (peer : KeyId) (session : ℕ)
  /-- `clear_pending_handshake` -/
  | clearPending (peer : KeyId) (session : ℕ)
  /-- `next_outbound_sequence` -/
  | nextSequence (peer : KeyId) (session : ℕ)
  /-- `update_peer_identity` -/
  | updateIdentity (old new : KeyId)
  deriving DecidableEq

/-- The sequence number that comes next. -/
def Store.nextSequence (s : Store) (peer : KeyId) (session : ℕ) : ℕ :=
  (s.outboundSeq.get? (peer, session)).getD 0 + 1

def Write.apply (s : Store) : Write → Store
  | savePending peer session row => { s with pending := s.pending.set (peer, session) row }
  | saveKey peer session row =>
    if (s.keys.get? (peer, session)).isSome then s
    else { s with keys := s.keys.set (peer, session) row }
  | createSession peer session =>
    if (s.sessions.get? (peer, session)).isSome then s
    else { s with sessions := s.sessions.set (peer, session) ⟨true, none⟩ }
  | clearPending peer session => { s with pending := s.pending.pop (peer, session) }
  | nextSequence peer session =>
    { s with outboundSeq := s.outboundSeq.set (peer, session) (s.nextSequence peer session) }
  | updateIdentity old new => (updatePeerIdentity s old new).getD s

/-- The store after some transactions. -/
def Store.commit (s : Store) (writes : List Write) : Store := writes.foldl Write.apply s

/-- `open_session`, leg 1: a session, an ephemeral key and a nonce are drawn. None where it raises.
-/
def openSession (s : Store) (me peer : KeyId) (session eph nonce : ℕ) (now : Instant) :
    Option (List Write × SessionOpen) :=
  if (s.keys.get? (peer, session)).isSome then none
  else some ([.savePending peer session ⟨eph, nonce⟩],
    ⟨me, peer, session, eph, nonce, now + envelopeTtl⟩)

/-- `on_session_open`, leg 2: an ephemeral key is drawn. -/
def onSessionOpen (s : Store) (me : KeyId) (e : SessionOpen) (eph : ℕ) (now : Instant) :
    List Write × Option SessionOpen :=
  if (s.peers.get? e.sender).isNone then ([], none)
  else if expired e.expiresAt now then ([], none)
  else if (s.keys.get? (e.sender, e.session)).isSome then ([], none)
  else
    ([.saveKey e.sender e.session
        ⟨deriveSessionKey eph e.eph me e.sender e.session e.nonce, .responder, .initiator⟩,
      .createSession e.sender e.session],
      some ⟨me, e.sender, e.session, eph, e.nonce, now + envelopeTtl⟩)

/-- `complete_session`, leg 3. -/
def completeSession (s : Store) (me : KeyId) (e : SessionOpen) (now : Instant) : List Write :=
  if (s.peers.get? e.sender).isNone then []
  else if expired e.expiresAt now then []
  else
    match s.pending.get? (e.sender, e.session) with
    | none => []
    | some pending =>
      if (s.keys.get? (e.sender, e.session)).isSome then []
      else
        [.saveKey e.sender e.session
            ⟨deriveSessionKey pending.eph e.eph me e.sender e.session pending.nonce, .initiator,
              .responder⟩,
          .createSession e.sender e.session, .clearPending e.sender e.session]

/-- `_handle_key_rotation_notice` -/
def ingestNotice (s : Store) (n : Notice) (now : Instant) : List Write :=
  match s.peers.get? n.sender with
  | none => []
  | some peer =>
    if expired n.expiresAt now then []
    else if n.newKey = n.sender then []
    else if some n.newKey = peer.previous then []
    else [.updateIdentity n.sender n.newKey]

/-! ## What the functions write -/

/-- What each transaction keeps, a list of them keeps. -/
theorem Store.commit_of_forall {P : Store → Prop} (writes : List Write) {s : Store} (h : P s)
    (hwrites : ∀ x ∈ writes, ∀ t, P t → P (x.apply t)) : P (s.commit writes) := by
  unfold Store.commit
  induction writes generalizing s with
  | nil => exact h
  | cons x xs ih =>
    exact ih (hwrites x (by simp) s h) fun y hy => hwrites y (List.mem_cons_of_mem x hy)

/-- Where a function stops: before its first transaction, or after it and some of the others. -/
theorem Store.commit_take {P Q : Store → Prop} {s : Store} {x : Write} {writes : List Write}
    (hs : Q s) (hx : P (x.apply s)) (hwrites : ∀ y ∈ writes, ∀ t, P t → P (y.apply t))
    (hPQ : ∀ t, P t → Q t) (n : ℕ) : Q (s.commit ((x :: writes).take n)) := by
  cases n with
  | zero => exact hs
  | succ n =>
    rw [List.take_succ_cons]
    exact hPQ _ (Store.commit_of_forall (writes.take n) hx fun y hy =>
      hwrites y (List.mem_of_mem_take hy))

theorem rename_party {old new : KeyId} (h : new.party = old.party) (k : KeyId) :
    (rename old new k).party = k.party := by
  unfold rename
  split_ifs with hk
  · rw [hk, h]
  · rfl

/-- A peer that changes its identity is renamed in every table. -/
theorem updatePeerIdentity_some {s s' : Store} {old new : KeyId}
    (h : updatePeerIdentity s old new = some s') :
    s.pending.rekey? (Prod.map (rename old new) id) = some s'.pending ∧
      s.keys.rekey? (Prod.map (rename old new) id) = some s'.keys ∧
      s.outboundSeq.rekey? (Prod.map (rename old new) id) = some s'.outboundSeq ∧
      ∃ peers, s.peers.rekey? (rename old new) = some peers ∧
        s'.peers = if (s.peers.get? old).isSome then peers.set new ⟨some old⟩ else peers := by
  simp only [updatePeerIdentity, Option.bind_eq_bind, Option.bind_eq_some_iff] at h
  obtain ⟨peers, hpeers, pending, hpending, keys, hkeys, sessions, -, seq, hseq, heq⟩ := h
  obtain rfl := Option.some.inj heq
  exact ⟨hpending, hkeys, hseq, peers, hpeers, rfl⟩

/-- A pending handshake after one of the peers changed its identity. -/
theorem get?_pending_updatePeerIdentity {s s' : Store} {old new : KeyId}
    (h : updatePeerIdentity s old new = some s') {k : KeyId} {sid : ℕ} {row : Pending} :
    s'.pending.get? (k, sid) = some row ↔
      ∃ k₀, rename old new k₀ = k ∧ s.pending.get? (k₀, sid) = some row := by
  obtain ⟨hpending, -⟩ := updatePeerIdentity_some h
  exact Dict.get?_rekey_fst hpending

/-- A session key after one of the peers changed its identity. -/
theorem get?_keys_updatePeerIdentity {s s' : Store} {old new : KeyId}
    (h : updatePeerIdentity s old new = some s') {k : KeyId} {sid : ℕ} {row : KeyRow} :
    s'.keys.get? (k, sid) = some row ↔
      ∃ k₀, rename old new k₀ = k ∧ s.keys.get? (k₀, sid) = some row := by
  obtain ⟨-, hkeys, -⟩ := updatePeerIdentity_some h
  exact Dict.get?_rekey_fst hkeys

/-- The peers after one of them changed its identity. -/
theorem isSome_peers_updatePeerIdentity {s' : Store} {old new : KeyId}
    (h : updatePeerIdentity s old new = some s') (k : KeyId) :
    (s'.peers.get? k).isSome ↔ ∃ k₀, rename old new k₀ = k ∧ (s.peers.get? k₀).isSome := by
  obtain ⟨-, -, -, peers, hpeers, heq⟩ := updatePeerIdentity_some h
  rw [heq]
  split_ifs with hold
  · rw [Dict.get?_set]
    split_ifs with hk
    · -- The peer that was renamed is under its new key.
      exact iff_of_true rfl ⟨old, by simp [rename, hk], hold⟩
    · exact Dict.isSome_rekey hpeers
  · exact Dict.isSome_rekey hpeers

theorem openSession_some {s : Store} {me peer : KeyId} {session eph nonce : ℕ} {now : Instant}
    {writes : List Write} {e : SessionOpen}
    (h : openSession s me peer session eph nonce now = some (writes, e)) :
    s.keys.get? (peer, session) = none ∧ writes = [.savePending peer session ⟨eph, nonce⟩] ∧
      e = ⟨me, peer, session, eph, nonce, now + envelopeTtl⟩ := by
  unfold openSession at h
  split_ifs at h with hkey
  obtain ⟨rfl, rfl⟩ := Prod.mk.inj (Option.some.inj h)
  exact ⟨by simpa using hkey, rfl, rfl⟩

/-- An envelope that is from a known peer, is not expired and finds no key: it is accepted in either
role. -/
def Accepted (s : Store) (e : SessionOpen) (now : Instant) : Prop :=
  (s.peers.get? e.sender).isSome ∧ expired e.expiresAt now = false ∧
    s.keys.get? (e.sender, e.session) = none

instance (s : Store) (e : SessionOpen) (now : Instant) : Decidable (Accepted s e now) :=
  inferInstanceAs (Decidable (_ ∧ _ ∧ _))

/-- A responder drops the envelope, or answers it. -/
theorem onSessionOpen_cases (s : Store) (me : KeyId) (e : SessionOpen) (eph : ℕ) (now : Instant) :
    onSessionOpen s me e eph now = ([], none) ∨
      (Accepted s e now ∧ onSessionOpen s me e eph now =
        ([.saveKey e.sender e.session
            ⟨deriveSessionKey eph e.eph me e.sender e.session e.nonce, .responder, .initiator⟩,
          .createSession e.sender e.session],
          some ⟨me, e.sender, e.session, eph, e.nonce, now + envelopeTtl⟩)) := by
  unfold onSessionOpen
  split_ifs with hpeer hexp hkey
  · exact .inl rfl
  · exact .inl rfl
  · exact .inl rfl
  · refine .inr ⟨⟨?_, by simpa using hexp, by simpa using hkey⟩, rfl⟩
    simpa [Option.isSome_iff_ne_none] using hpeer

/-- An initiator drops the envelope, or completes a pending handshake. -/
theorem completeSession_cases (s : Store) (me : KeyId) (e : SessionOpen) (now : Instant) :
    completeSession s me e now = [] ∨
      ∃ pending, Accepted s e now ∧ s.pending.get? (e.sender, e.session) = some pending ∧
        completeSession s me e now =
          [.saveKey e.sender e.session
              ⟨deriveSessionKey pending.eph e.eph me e.sender e.session pending.nonce, .initiator,
                .responder⟩,
            .createSession e.sender e.session, .clearPending e.sender e.session] := by
  unfold completeSession
  cases hpending : s.pending.get? (e.sender, e.session) with
  | none =>
    refine .inl ?_
    dsimp only
    split_ifs
    · rfl
    · rfl
    · rfl
  | some pending =>
    dsimp only
    split_ifs with hpeer hexp hkey
    · exact .inl rfl
    · exact .inl rfl
    · exact .inl rfl
    · refine .inr ⟨pending, ⟨?_, by simpa using hexp, by simpa using hkey⟩, rfl, rfl⟩
      simpa [Option.isSome_iff_ne_none] using hpeer

/-- A notice is dropped, or renames a known peer. -/
theorem ingestNotice_cases (s : Store) (n : Notice) (now : Instant) :
    ingestNotice s n now = [] ∨
      ((s.peers.get? n.sender).isSome ∧ ingestNotice s n now = [.updateIdentity n.sender n.newKey]) := by
  unfold ingestNotice
  cases hpeer : s.peers.get? n.sender with
  | none => exact .inl rfl
  | some peer =>
    dsimp only
    split_ifs
    · exact .inl rfl
    · exact .inl rfl
    · exact .inl rfl
    · exact .inr ⟨rfl, rfl⟩

end Companion.Kindled.Handshake

import Companion.Memory.Text
import Mathlib.Data.List.Nodup
import Mathlib.Logic.Function.Basic

/-!
# A peer that is rekeyed

`update_peer_identity` of `brain/kindled_link/store.py`: one `UPDATE` of `peers` and one of each
table of `_PEER_ID_CHILD_TABLES`, in the implicit transaction of the connection, with a commit at
the end. An `UPDATE` whose rows would meet a primary key that is taken raises, and changes nothing
itself. What the statements before it have changed stays in the transaction, and the next commit on
the connection makes it visible: `rekeyed_or_untouched` says when that is nothing.
-/

namespace Companion.Kindled.Rekey

open Companion.Memory

/-! ## Tables with a primary key -/

/-- The rows of a table, no two of them with the same primary key. -/
structure Table {ρ κ : Type} (key : ρ → κ) where
  rows : List ρ
  nodup : (rows.map key).Nodup

namespace Table

variable {ρ κ : Type} {key : ρ → κ} {t t' : Table key} {f : ρ → ρ}

@[ext]
theorem ext (h : t.rows = t'.rows) : t = t' := by
  cases t
  cases t'
  cases h
  rfl

/-- The rows after an `UPDATE`, or none where it raises `IntegrityError`. -/
def update? [DecidableEq κ] (t : Table key) (f : ρ → ρ) : Option (Table key) :=
  if h : ((t.rows.map f).map key).Nodup then some ⟨t.rows.map f, h⟩ else none

theorem rows_of_update [DecidableEq κ] (h : t.update? f = some t') : t'.rows = t.rows.map f := by
  unfold update? at h
  split_ifs at h
  cases h
  rfl

/-- An `UPDATE` that keeps the primary keys does not raise. -/
theorem isSome_update [DecidableEq κ] (h : ∀ r ∈ t.rows, key (f r) = key r) :
    (t.update? f).isSome = true := by
  have hkeys : (t.rows.map f).map key = t.rows.map key := by
    rw [List.map_map]
    exact List.map_congr_left h
  have hnodup : ((t.rows.map f).map key).Nodup := by
    rw [hkeys]
    exact t.nodup
  rw [update?, dif_pos hnodup]
  rfl

end Table

/-! ## The store -/

/-- A row of `peers`. -/
structure PeerRow where
  peerId : Text
  identityPub : Text
  fingerprint : Text
  consentState : Text
  relayUrl : Option Text
  relayMailbox : Option Text
  createdAt : Instant
  updatedAt : Instant
  previousIdentityPub : Option Text
  deriving DecidableEq

/-- The tables besides `peers` whose rows are keyed on `peer_id`. -/
inductive Child
  | seqHighWater
  | sessions
  | peerCounters
  | outboundDrafts
  | transcript
  | disclosureBudget
  | relationshipState
  | peerEmotionWindow
  | outboundSeq
  | pendingHandshakes
  | sessionKeys
  | pendingRotationNotices
  deriving DecidableEq

/-- `_PEER_ID_CHILD_TABLES` -/
def childTables : List Child :=
  [.seqHighWater, .sessions, .peerCounters, .outboundDrafts, .transcript, .disclosureBudget,
    .relationshipState, .peerEmotionWindow, .outboundSeq, .pendingHandshakes, .sessionKeys,
    .pendingRotationNotices]

/-- What a primary key has beside the peer id. -/
inductive Rest
  | nothing
  | session (id : Text)
  /-- The session and the sequence of a row of `transcript`. -/
  | message (session : Text) (seq : ℤ)
  /-- The id of a row of `outbound_drafts`, which is the whole primary key. -/
  | draft (id : ℤ)
  deriving DecidableEq

/-- A row of a child table, with the columns that no statement here reads. -/
structure Row (α : Type) where
  peerId : Text
  rest : Rest
  columns : α
  deriving DecidableEq

/-- The primary key of a row. -/
def Row.key {α : Type} (r : Row α) : Option Text × Rest :=
  match r.rest with
  | .draft id => (none, .draft id)
  | rest => (some r.peerId, rest)

/-- The tables that have a peer id, where `α` is what a row has beside its key. -/
structure Tables (α : Type) where
  peers : Table PeerRow.peerId
  children : Child → Table (Row.key (α := α))

/-- The tables with another child table in the place of one. -/
def Tables.set {α : Type} (s : Tables α) (t : Child) (table : Table (Row.key (α := α))) :
    Tables α :=
  { s with children := Function.update s.children t table }

/-- A connection: what is committed, and what its open transaction has made of it. -/
structure Connection (α : Type) where
  committed : Tables α
  working : Tables α

/-- `commit` -/
def Connection.commit {α : Type} (c : Connection α) : Connection α := ⟨c.working, c.working⟩

/-- A rotation of a peer: the arguments of `update_peer_identity`. -/
structure Rotation where
  peerId : Text
  newPubHex : Text
  newFingerprint : Text
  now : Instant

namespace Rotation

variable (x : Rotation) {α : Type}

/-- The `SET` of `peers`. -/
def rotated (r : PeerRow) : PeerRow :=
  if r.peerId = x.peerId then
    { r with
      previousIdentityPub := some r.identityPub
      identityPub := x.newPubHex
      fingerprint := x.newFingerprint
      peerId := x.newFingerprint
      updatedAt := x.now }
  else r

/-- The `SET` of a child table. -/
def moved (r : Row α) : Row α :=
  if r.peerId = x.peerId then { r with peerId := x.newFingerprint } else r

/-- The loop over the child tables: what it leaves, and whether it raises. -/
def rekeyChildren : List Child → Tables α → Tables α × Bool
  | [], s => (s, false)
  | t :: ts, s =>
    match (s.children t).update? x.moved with
    | none => (s, true)
    | some table => rekeyChildren ts (s.set t table)

/-- `update_peer_identity`: the connection after it, and whether it raises. -/
def updatePeerIdentity (c : Connection α) : Connection α × Bool :=
  match c.working.peers.update? x.rotated with
  | none => (c, true)
  | some peers =>
    let s := { c.working with peers := peers }
    if x.newFingerprint ≠ x.peerId then
      match x.rekeyChildren childTables s with
      | (s', true) => ({ c with working := s' }, true)
      | (s', false) => (Connection.commit { c with working := s' }, false)
    else (Connection.commit { c with working := s }, false)

end Rotation

/-! ## Whole or not at all -/

/-- Every row of the peer is keyed by the new id, with the new identity in `peers`, and all other
rows and columns are as they were. -/
structure Rekeyed {α : Type} (x : Rotation) (s s' : Tables α) : Prop where
  peers : s'.peers.rows = s.peers.rows.map x.rotated
  children : ∀ t, (s'.children t).rows = (s.children t).rows.map x.moved

/-- The call has succeeded, with everything rekeyed and committed, or it has raised, and no commit
makes any part of the rekeying visible. -/
def Atomic {α : Type} (x : Rotation) (c c' : Connection α) (raised : Bool) : Prop :=
  (raised = false ∧ Rekeyed x c.working c'.working ∧ c'.committed = c'.working) ∨
    (raised = true ∧ c'.committed = c.committed ∧ c'.commit = c.commit)

/-- A child table has a row of the peer. -/
def Holds {α : Type} (x : Rotation) (s : Tables α) (t : Child) : Prop :=
  ∃ r ∈ (s.children t).rows, r.peerId = x.peerId

/-- A row of the peer would meet a row of the new id in a child table. -/
def Collides {α : Type} (x : Rotation) (s : Tables α) (t : Child) : Prop :=
  (s.children t).update? x.moved = none

/-- No table collides, or the first one to collide comes before all rows of the peer: it is `peers`,
or neither `peers` nor a child table before it has one. -/
def Whole {α : Type} (x : Rotation) (s : Tables α) : Prop :=
  s.peers.update? x.rotated = none ∨ (∀ t, ¬ Collides x s t) ∨
    ((∀ r ∈ s.peers.rows, r.peerId ≠ x.peerId) ∧
      ∃ before t after, childTables = before ++ t :: after ∧ Collides x s t ∧
        ∀ b ∈ before, ¬ Holds x s b)

variable {α : Type} {x : Rotation} {s s' : Tables α} {t t' : Child} {ts : List Child}
  {table : Table (Row.key (α := α))}

@[simp]
theorem set_self : (s.set t table).children t = table := by
  simp [Tables.set]

theorem set_of_ne (h : t' ≠ t) : (s.set t table).children t' = s.children t' := by
  simp [Tables.set, h]

theorem set_children_self : s.set t (s.children t) = s := by
  unfold Tables.set
  rw [Function.update_eq_self]

/-- A table without rows of the peer stays as it is. -/
theorem map_moved_eq_iff (hne : x.newFingerprint ≠ x.peerId) {rows : List (Row α)} :
    rows.map x.moved = rows ↔ ∀ r ∈ rows, r.peerId ≠ x.peerId := by
  calc rows.map x.moved = rows
      ↔ rows.map x.moved = rows.map id := by rw [List.map_id]
    _ ↔ ∀ r ∈ rows, x.moved r = r := List.map_inj_left
    _ ↔ ∀ r ∈ rows, r.peerId ≠ x.peerId := ?_
  refine forall₂_congr fun r _ => ?_
  unfold Rotation.moved
  split_ifs with h
  · have hmoved : { r with peerId := x.newFingerprint } ≠ r := by
      intro heq
      have hid : x.newFingerprint = r.peerId := congrArg Row.peerId heq
      exact hne (hid.trans h)
    exact iff_of_false hmoved (fun hno => hno h)
  · exact iff_of_true rfl h

/-- `peers` without a row of the peer stays as it is. -/
theorem map_rotated_eq_iff (hne : x.newFingerprint ≠ x.peerId) {rows : List PeerRow} :
    rows.map x.rotated = rows ↔ ∀ r ∈ rows, r.peerId ≠ x.peerId := by
  calc rows.map x.rotated = rows
      ↔ rows.map x.rotated = rows.map id := by rw [List.map_id]
    _ ↔ ∀ r ∈ rows, x.rotated r = r := List.map_inj_left
    _ ↔ ∀ r ∈ rows, r.peerId ≠ x.peerId := ?_
  refine forall₂_congr fun r _ => ?_
  unfold Rotation.rotated
  split_ifs with h
  · refine iff_of_false (fun heq => ?_) (fun hno => hno h)
    have hid : x.newFingerprint = r.peerId := congrArg PeerRow.peerId heq
    exact hne (hid.trans h)
  · exact iff_of_true rfl h

theorem moved_of_eq (heq : x.newFingerprint = x.peerId) (r : Row α) : x.moved r = r := by
  unfold Rotation.moved
  split_ifs with h
  · rw [heq, ← h]
  · rfl

/-! ### The loop over the child tables -/

theorem collides_congr (h : s'.children t = s.children t) : Collides x s' t ↔ Collides x s t := by
  unfold Collides
  rw [h]

/-- The loop leaves `peers`, and every table that is not among its own. -/
theorem rekeyChildren_frame (x : Rotation) (ts : List Child) (s : Tables α) :
    (x.rekeyChildren ts s).1.peers = s.peers ∧
      ∀ t ∉ ts, (x.rekeyChildren ts s).1.children t = s.children t := by
  induction ts generalizing s with
  | nil => exact ⟨rfl, fun _ _ => rfl⟩
  | cons t ts ih =>
    unfold Rotation.rekeyChildren
    split
    · exact ⟨rfl, fun _ _ => rfl⟩
    · next table _ =>
      obtain ⟨hpeers, hrest⟩ := ih (s.set t table)
      refine ⟨hpeers, fun t' ht' => ?_⟩
      have hne : t' ≠ t := fun heq => ht' (heq ▸ List.mem_cons_self)
      have hnotMem : t' ∉ ts := fun hmem => ht' (List.mem_cons_of_mem t hmem)
      rw [hrest t' hnotMem, set_of_ne hne]

/-- The loop raises when one of its tables collides. -/
theorem rekeyChildren_raised (hts : ts.Nodup) (s : Tables α) :
    (x.rekeyChildren ts s).2 = true ↔ ∃ t ∈ ts, Collides x s t := by
  induction ts generalizing s with
  | nil => simp [Rotation.rekeyChildren]
  | cons t ts ih =>
    obtain ⟨hnotMem, hts⟩ := List.nodup_cons.mp hts
    unfold Rotation.rekeyChildren
    split
    · next hnone => exact iff_of_true rfl ⟨t, List.mem_cons_self, hnone⟩
    · next table hsome =>
      have hno : ¬ Collides x s t := by simp [Collides, hsome]
      have hsame : ∀ t' ∈ ts, (s.set t table).children t' = s.children t' :=
        fun t' ht' => set_of_ne (ne_of_mem_of_not_mem ht' hnotMem)
      rw [ih hts, List.exists_mem_cons_iff, or_iff_right hno]
      exact exists_congr fun t' => and_congr_right fun ht' => collides_congr (hsame t' ht')

/-- A loop that does not raise has moved every row of its tables. -/
theorem rekeyChildren_done (hts : ts.Nodup) (s : Tables α) (h : (x.rekeyChildren ts s).2 = false) :
    ∀ t ∈ ts, ((x.rekeyChildren ts s).1.children t).rows = (s.children t).rows.map x.moved := by
  induction ts generalizing s with
  | nil => exact fun t ht => absurd ht List.not_mem_nil
  | cons t ts ih =>
    obtain ⟨hnotMem, hts⟩ := List.nodup_cons.mp hts
    unfold Rotation.rekeyChildren at h ⊢
    split at h
    · cases h
    · next table hsome =>
      intro t' ht'
      rcases List.mem_cons.mp ht' with rfl | ht'
      · rw [(rekeyChildren_frame x ts _).2 t' hnotMem, set_self]
        exact Table.rows_of_update hsome
      · rw [ih hts _ h t' ht', set_of_ne (ne_of_mem_of_not_mem ht' hnotMem)]

/-- A table whose `UPDATE` goes through stays as it is when the peer has no row in it. -/
theorem table_eq_iff (hne : x.newFingerprint ≠ x.peerId)
    (h : (s.children t).update? x.moved = some table) : table = s.children t ↔ ¬ Holds x s t := by
  have hrows := Table.rows_of_update h
  calc table = s.children t
      ↔ table.rows = (s.children t).rows := ⟨congrArg Table.rows, Table.ext⟩
    _ ↔ ∀ r ∈ (s.children t).rows, r.peerId ≠ x.peerId := by rw [hrows, map_moved_eq_iff hne]
    _ ↔ ¬ Holds x s t := by simp [Holds]

/-- The loop raises and has changed nothing when the first table to collide comes before all rows
of the peer. -/
theorem rekeyChildren_untouched (hne : x.newFingerprint ≠ x.peerId) (hts : ts.Nodup)
    (s : Tables α) :
    x.rekeyChildren ts s = (s, true) ↔
      ∃ before t after, ts = before ++ t :: after ∧ Collides x s t ∧
        ∀ b ∈ before, ¬ Holds x s b := by
  induction ts generalizing s with
  | nil => simp [Rotation.rekeyChildren]
  | cons t ts ih =>
    obtain ⟨hnotMem, hts⟩ := List.nodup_cons.mp hts
    unfold Rotation.rekeyChildren
    split
    · next hnone => exact iff_of_true rfl ⟨[], t, ts, rfl, hnone, fun _ hb => nomatch hb⟩
    · next table hsome =>
      constructor
      · intro h
        -- later tables leave this one, so it was as it is at the end
        have hat : table = s.children t := by
          have hframe := (rekeyChildren_frame x ts (s.set t table)).2 t hnotMem
          rw [h, set_self] at hframe
          exact hframe.symm
        rw [hat, set_children_self] at h
        obtain ⟨before, t', after, hsplit, hcollides, hbefore⟩ := (ih hts s).mp h
        refine ⟨t :: before, t', after, congrArg (t :: ·) hsplit, hcollides, ?_⟩
        rintro b (_ | ⟨_, hb⟩)
        · exact (table_eq_iff hne hsome).mp hat
        · exact hbefore b hb
      · rintro ⟨before, t', after, hsplit, hcollides, hbefore⟩
        cases before with
        | nil =>
          cases hsplit
          exact absurd hcollides (by simp [Collides, hsome])
        | cons b before =>
          cases hsplit
          have hat : table = s.children t :=
            (table_eq_iff hne hsome).mpr (hbefore t List.mem_cons_self)
          rw [hat, set_children_self]
          exact (ih hts s).mpr ⟨before, t', after, rfl, hcollides,
            fun b hb => hbefore b (List.mem_cons_of_mem t hb)⟩

/-! ### The whole call -/

theorem nodup_childTables : childTables.Nodup := by decide

theorem mem_childTables (t : Child) : t ∈ childTables := by
  cases t <;> decide

variable {c : Connection α} {peers : Table PeerRow.peerId}

/-- A call that raises is atomic when it has left the open transaction as it was. -/
theorem atomic_raised_iff {s : Tables α} :
    Atomic x c { c with working := s } true ↔ s = c.working := by
  have hcommit : Connection.commit { c with working := s } = c.commit ↔ s = c.working :=
    ⟨congrArg Connection.working, fun h => by rw [h]⟩
  simp [Atomic, hcommit]

theorem rekeyed_of_eq (heq : x.newFingerprint = x.peerId)
    (hpeers : c.working.peers.update? x.rotated = some peers) :
    Rekeyed x c.working { c.working with peers := peers } where
  peers := Table.rows_of_update hpeers
  children t := by
    have hmap : (c.working.children t).rows.map x.moved = (c.working.children t).rows.map id :=
      List.map_congr_left fun r _ => moved_of_eq heq r
    rw [hmap, List.map_id]

theorem not_collides_of_eq (heq : x.newFingerprint = x.peerId) (t : Child) : ¬ Collides x s t := by
  have hsome := Table.isSome_update (t := s.children t) (f := x.moved)
    (fun r _ => congrArg Row.key (moved_of_eq heq r))
  intro h
  rw [h] at hsome
  cases hsome

/-- What the loop makes of the working tables is what they were when `peers` has no row of the peer
and the loop has changed nothing. -/
theorem untouched_iff (hne : x.newFingerprint ≠ x.peerId)
    (hpeers : c.working.peers.update? x.rotated = some peers)
    (hraised : (x.rekeyChildren childTables { c.working with peers := peers }).2 = true) :
    (x.rekeyChildren childTables { c.working with peers := peers }).1 = c.working ↔
      (∀ r ∈ c.working.peers.rows, r.peerId ≠ x.peerId) ∧
        ∃ before t after, childTables = before ++ t :: after ∧ Collides x c.working t ∧
          ∀ b ∈ before, ¬ Holds x c.working b := by
  have hrows : peers = c.working.peers ↔ ∀ r ∈ c.working.peers.rows, r.peerId ≠ x.peerId := by
    calc peers = c.working.peers
        ↔ peers.rows = c.working.peers.rows := ⟨congrArg Table.rows, Table.ext⟩
      _ ↔ _ := by rw [Table.rows_of_update hpeers, map_rotated_eq_iff hne]
  rw [← hrows, ← rekeyChildren_untouched hne nodup_childTables]
  have hframe := (rekeyChildren_frame x childTables { c.working with peers := peers }).1
  constructor
  · intro h
    rw [h] at hframe
    cases hframe
    exact ⟨rfl, Prod.ext h hraised⟩
  · rintro ⟨rfl, h⟩
    exact congrArg Prod.fst h

/-- A rekeying happens as a whole or not at all when the first table to collide, if there is one,
comes before all rows of the peer. -/
theorem rekeyed_or_untouched (x : Rotation) (c : Connection α) :
    Atomic x c (x.updatePeerIdentity c).1 (x.updatePeerIdentity c).2 ↔ Whole x c.working := by
  unfold Rotation.updatePeerIdentity
  split
  · next hnone => exact iff_of_true (.inr ⟨rfl, rfl, rfl⟩) (.inl hnone)
  · next peers hpeers =>
    dsimp only
    split_ifs with hne
    · split
      · next s' hloop =>
        have hraised : (x.rekeyChildren childTables { c.working with peers := peers }).2 = true := by
          rw [hloop]
        -- a child table collides: the rows moved before it stay moved
        have huntouched := untouched_iff hne hpeers hraised
        have hcollides := (rekeyChildren_raised nodup_childTables _).mp hraised
        rw [hloop] at huntouched
        rw [atomic_raised_iff, huntouched]
        constructor
        · exact fun h => .inr (.inr h)
        · rintro (hnone | hno | h)
          · rw [hnone] at hpeers
            cases hpeers
          · obtain ⟨t, -, ht⟩ := hcollides
            exact absurd ht (hno t)
          · exact h
      · next s' hloop =>
        -- no table collides, and all rows are moved
        have hdone : (x.rekeyChildren childTables { c.working with peers := peers }).2 = false := by
          rw [hloop]
        have hchildren := rekeyChildren_done nodup_childTables _ hdone
        have hframe := (rekeyChildren_frame x childTables { c.working with peers := peers }).1
        rw [hloop] at hchildren hframe
        refine iff_of_true (.inl ⟨rfl, ?_, rfl⟩) (.inr (.inl fun t ht => ?_))
        · exact {
            peers := by
              rw [show (Connection.commit { c with working := s' }).working.peers = peers
                from hframe]
              exact Table.rows_of_update hpeers
            children := fun t => hchildren t (mem_childTables t) }
        · have hraised : (x.rekeyChildren childTables { c.working with peers := peers }).2 = true :=
            (rekeyChildren_raised nodup_childTables _).mpr ⟨t, mem_childTables t, ht⟩
          rw [hdone] at hraised
          cases hraised
    · have heq : x.newFingerprint = x.peerId := not_not.mp hne
      exact iff_of_true (.inl ⟨rfl, rekeyed_of_eq heq hpeers, rfl⟩)
        (.inr (.inl (not_collides_of_eq heq)))

/-- A peer `old`, whose counters are kept under the new id as well. -/
def bothIds : Tables Unit where
  peers := ⟨[⟨"old".toList, "a1".toList, "old".toList, "paired".toList, none, none, 0, 0, none⟩],
    by decide⟩
  children
    | .peerCounters => ⟨[⟨"old".toList, .nothing, ()⟩, ⟨"new".toList, .nothing, ()⟩], by decide⟩
    | _ => ⟨[], by decide⟩

/-- The `UPDATE` of the counters raises, and the next commit shows the peer under its new id with
the counters still under the old one. -/
theorem torn_at_counters :
    let x : Rotation := ⟨"old".toList, "b2".toList, "new".toList, 1⟩
    let after := x.updatePeerIdentity ⟨bothIds, bothIds⟩
    after.2 = true ∧
      after.1.commit.committed.peers.rows.map PeerRow.peerId = ["new".toList] ∧
      ¬ Atomic x ⟨bothIds, bothIds⟩ after.1 after.2 := by
  intro x after
  have hraised : after.2 = true := by decide
  have hpeers : after.1.commit.committed.peers.rows.map PeerRow.peerId = ["new".toList] := by decide
  refine ⟨hraised, hpeers, ?_⟩
  rintro (⟨hdone, -⟩ | ⟨-, -, hcommit⟩)
  · exact absurd (hraised.symm.trans hdone) (by decide)
  · rw [hcommit] at hpeers
    exact absurd hpeers (by decide)

end Companion.Kindled.Rekey

import Companion.Dict
import Companion.Runs
import Mathlib

/-!
# The edges between memories

The table `hebbian_edges` of `brain/memory/hebbian.py` and its six writers: `strengthen`,
`decay_all`, `garbage_collect`, `remove_memory`, `ensure_edge` and `set_edge_weight`. An edge is
stored once, with the lower id first (`_canonical`).

The weights are to lie in `[0, MAX_WEIGHT]`. Five of the writers see to it by a check of the sign, a
cap, or both; `ensure_edge` stores what it is given. `valid_iff_checked` says that a run keeps the
table in order exactly as long as the weights of the edges that `ensure_edge` creates are in the
range.

The ids are any linear order, which is that of Python's strings, and the weights any ordered field.
-/

namespace Companion.Memory.Hebbian

open Companion.Runs

variable {ι 𝕜 : Type*} [LinearOrder ι] [Field 𝕜]

local instance atLeastTwo_ten : Nat.AtLeastTwo 10 := ⟨by decide⟩

/-- `MAX_WEIGHT` -/
def maxWeight : 𝕜 := 10

/-- The rows, at their primary key. -/
abbrev Table (ι 𝕜 : Type*) := Dict (ι × ι) 𝕜

/-- `_canonical` -/
def canonical (a b : ι) : ι × ι := if a ≤ b then (a, b) else (b, a)

theorem canonical_comm (a b : ι) : canonical a b = canonical b a := by
  rcases lt_trichotomy a b with h | rfl | h
  · rw [canonical, canonical, if_pos h.le, if_neg h.not_ge]
  · rfl
  · rw [canonical, canonical, if_neg h.not_ge, if_pos h.le]

theorem canonical_lt {a b : ι} (h : a ≠ b) : (canonical a b).1 < (canonical a b).2 := by
  unfold canonical
  split_ifs with hle
  · exact lt_of_le_of_ne hle h
  · exact lt_of_not_ge hle

namespace Table

/-! ## Reads -/

/-- `weight` -/
def weight (t : Table ι 𝕜) (a b : ι) : 𝕜 :=
  if a = b then 0 else (t.get? (canonical a b)).getD 0

theorem weight_comm (t : Table ι 𝕜) (a b : ι) : t.weight a b = t.weight b a := by
  unfold weight
  rw [canonical_comm]
  by_cases h : a = b
  · rw [if_pos h, if_pos h.symm]
  · rw [if_neg h, if_neg (Ne.symm h)]

/-- `neighbors`, in the order of the rows. -/
def neighbors (t : Table ι 𝕜) (a : ι) : List (ι × 𝕜) :=
  (t.entries.filter fun e => e.1.1 = a).map (fun e => (e.1.2, e.2)) ++
    (t.entries.filter fun e => e.1.2 = a).map fun e => (e.1.1, e.2)

end Table

/-! ## Writes -/

variable [LinearOrder 𝕜]

namespace Table

/-- `strengthen`, or none where it raises. -/
def strengthen (t : Table ι 𝕜) (a b : ι) (delta : 𝕜) : Option (Table ι 𝕜) :=
  if a = b then some t
  else if delta ≤ 0 then none
  else
    let key := canonical a b
    let excluded := min delta maxWeight
    match t.get? key with
    | none => some (t.set key excluded)
    | some weight => some (t.set key (min (weight + excluded) maxWeight))

/-- `decay_all`, or none where it raises. -/
def decayAll (t : Table ι 𝕜) (rate : 𝕜) : Option (Table ι 𝕜) :=
  if rate < 0 then none else some (t.map fun _ weight => max (weight - rate) 0)

/-- The rows without those of a `DELETE`, and how many it was. -/
def deleted (t : Table ι 𝕜) (p : ι × ι → 𝕜 → Prop) [∀ key weight, Decidable (p key weight)] :
    Table ι 𝕜 × ℕ :=
  let kept := t.filterMap fun key weight => if p key weight then none else some weight
  (kept, t.entries.length - kept.entries.length)

/-- `garbage_collect` -/
def garbageCollect (t : Table ι 𝕜) (threshold : 𝕜) : Table ι 𝕜 × ℕ :=
  t.deleted fun _ weight => weight < threshold

/-- `remove_memory` -/
def removeMemory (t : Table ι 𝕜) (a : ι) : Table ι 𝕜 × ℕ :=
  t.deleted fun key _ => key.1 = a ∨ key.2 = a

/-- `ensure_edge`, with whether it has inserted. -/
def ensureEdge (t : Table ι 𝕜) (a b : ι) (weight : 𝕜) : Table ι 𝕜 × Bool :=
  if a = b then (t, false)
  else
    match t.get? (canonical a b) with
    | none => (t.set (canonical a b) weight, true)
    | some _ => (t, false)

/-- `set_edge_weight`, or none where it raises. -/
def setEdgeWeight (t : Table ι 𝕜) (a b : ι) (weight : 𝕜) : Option (Table ι 𝕜) :=
  if a = b then some t
  else if weight ≤ 0 then none
  else
    let key := canonical a b
    let capped := min weight maxWeight
    match t.get? key with
    | none => some (t.set key capped)
    | some existing => some (t.set key (max existing capped))

end Table

/-- A call of a writer. -/
inductive Call (ι 𝕜 : Type*)
  | strengthen (a b : ι) (delta : 𝕜)
  | decayAll (rate : 𝕜)
  | garbageCollect (threshold : 𝕜)
  | removeMemory (a : ι)
  | ensureEdge (a b : ι) (weight : 𝕜)
  | setEdgeWeight (a b : ι) (weight : 𝕜)
  deriving DecidableEq

/-- The table after a call, or none where it raises. -/
def Table.exec (t : Table ι 𝕜) : Call ι 𝕜 → Option (Table ι 𝕜)
  | .strengthen a b delta => t.strengthen a b delta
  | .decayAll rate => t.decayAll rate
  | .garbageCollect threshold => some (t.garbageCollect threshold).1
  | .removeMemory a => some (t.removeMemory a).1
  | .ensureEdge a b weight => some (t.ensureEdge a b weight).1
  | .setEdgeWeight a b weight => t.setEdgeWeight a b weight

/-- The calls on a table without rows. A call that raises has changed nothing. -/
def machine (ι 𝕜 : Type*) [LinearOrder ι] [Field 𝕜] [LinearOrder 𝕜] :
    Machine (Table ι 𝕜) (Call ι 𝕜) where
  init t := t = ∅
  step t c := some ((t.exec c).getD t)

/-! ## The invariant -/

/-- A row is canonical, and its weight in the range. -/
def ValidEdge (key : ι × ι) (weight : 𝕜) : Prop :=
  key.1 < key.2 ∧ 0 ≤ weight ∧ weight ≤ maxWeight

/-- The table is in order. -/
structure Table.Valid (t : Table ι 𝕜) : Prop where
  edge : ∀ key weight, t.get? key = some weight → ValidEdge key weight
  /-- There is at most one row for two ids. -/
  unique : ∀ e ∈ t.entries, ∀ e' ∈ t.entries, s(e.1.1, e.1.2) = s(e'.1.1, e'.1.2) → e = e'
  symm : ∀ a b, t.weight a b = t.weight b a

/-- The weight of an edge that `ensure_edge` creates is in the range. -/
def Checked (t : Table ι 𝕜) : Call ι 𝕜 → Prop
  | .ensureEdge a b weight =>
    a ≠ b → t.get? (canonical a b) = none → 0 ≤ weight ∧ weight ≤ maxWeight
  | _ => True

instance (t : Table ι 𝕜) (c : Call ι 𝕜) : Decidable (Checked t c) := by
  unfold Checked
  split <;> infer_instance

namespace Table

/-- The order of the ids in a row is what makes it the only one for them. -/
theorem Valid.of_edge {t : Table ι 𝕜}
    (h : ∀ key weight, t.get? key = some weight → ValidEdge key weight) : t.Valid where
  edge := h
  unique e he e' he' hs := by
    obtain ⟨key, w⟩ := e
    obtain ⟨key', w'⟩ := e'
    have hget := Dict.get?_of_mem_entries he
    have hget' := Dict.get?_of_mem_entries he'
    have hkey : key = key' := by
      rcases Sym2.eq_iff.mp hs with ⟨h1, h2⟩ | ⟨h1, h2⟩
      · exact Prod.ext h1 h2
      · -- The other way round, one of the two rows would have its ids in the wrong order.
        have hlt := (h key w hget).1
        have hlt' := (h key' w' hget').1
        rw [h1, h2] at hlt
        exact absurd hlt hlt'.not_gt
    subst hkey
    obtain rfl := Option.some.inj (hget.symm.trans hget')
    rfl
  symm := t.weight_comm

end Table

/-! ## What each writer does to the rows -/

section Writers

variable {t t' : Table ι 𝕜} {a b : ι}

theorem Table.valid_empty : (∅ : Table ι 𝕜).Valid := .of_edge fun key weight hget => by cases hget

/-- The rows that are there stay, but for one that is set. -/
theorem Table.Valid.set (ht : t.Valid) {key : ι × ι} {weight : 𝕜} (h : ValidEdge key weight) :
    Table.Valid (t.set key weight) :=
  .of_edge fun key' weight' hget => by
    rw [Dict.get?_set] at hget
    split_ifs at hget with hkey
    · obtain rfl := Option.some.inj hget
      rw [hkey]
      exact h
    · exact ht.edge key' weight' hget

theorem Table.Valid.deleted (ht : t.Valid) (p : ι × ι → 𝕜 → Prop)
    [∀ key weight, Decidable (p key weight)] : (t.deleted p).1.Valid := by
  refine .of_edge fun key weight hget => ?_
  rw [Table.deleted, Dict.get?_filterMap] at hget
  obtain ⟨old, hold, hkept⟩ := Option.bind_eq_some_iff.mp hget
  split_ifs at hkept
  obtain rfl := Option.some.inj hkept
  exact ht.edge _ _ hold

/-- `ensure_edge` keeps the table in order just in case the weight that it stores is in the range.
-/
theorem Table.Valid.ensureEdge_iff {weight : 𝕜} (ht : t.Valid) :
    (t.ensureEdge a b weight).1.Valid ↔ Checked t (.ensureEdge a b weight) := by
  unfold Table.ensureEdge Checked
  by_cases hab : a = b
  · rw [if_pos hab]
    exact iff_of_true ht fun hne => absurd hab hne
  · rw [if_neg hab]
    cases hget : t.get? (canonical a b) with
    | some existing => exact iff_of_true ht fun _ hnone => by rw [hget] at hnone; cases hnone
    | none =>
      -- The row is new, and its weight is stored as it is given.
      constructor
      · intro hvalid _ _
        exact (hvalid.edge (canonical a b) weight (by rw [Dict.get?_set, if_pos rfl])).2
      · intro hchecked
        exact ht.set ⟨canonical_lt hab, hchecked hab hget⟩

/-- A call that raises leaves the table in order. -/
theorem Table.Valid.getD {o : Option (Table ι 𝕜)} (ht : t.Valid) (h : ∀ t', o = some t' → t'.Valid) :
    (o.getD t).Valid := by
  cases o with
  | none => exact ht
  | some t' => exact h t' rfl

variable [IsStrictOrderedRing 𝕜]

theorem maxWeight_nonneg : (0 : 𝕜) ≤ maxWeight := by
  unfold maxWeight
  norm_num

theorem Table.Valid.strengthen {delta : 𝕜} (ht : t.Valid)
    (h : t.strengthen a b delta = some t') : t'.Valid := by
  unfold Table.strengthen at h
  split_ifs at h with hab hdelta
  · obtain rfl := Option.some.inj h
    exact ht
  · -- What is inserted, and what is added, is capped from above and was checked from below.
    have hexcluded : 0 ≤ min delta maxWeight := le_min (le_of_not_ge hdelta) maxWeight_nonneg
    cases hget : t.get? (canonical a b) with
    | none =>
      simp only [hget] at h
      obtain rfl := Option.some.inj h
      exact ht.set ⟨canonical_lt hab, hexcluded, min_le_right _ _⟩
    | some weight =>
      simp only [hget] at h
      obtain rfl := Option.some.inj h
      obtain ⟨hlt, hnonneg, -⟩ := ht.edge _ _ hget
      exact ht.set ⟨hlt, le_min (add_nonneg hnonneg hexcluded) maxWeight_nonneg, min_le_right _ _⟩

theorem Table.Valid.decayAll {rate : 𝕜} (ht : t.Valid) (h : t.decayAll rate = some t') :
    t'.Valid := by
  unfold Table.decayAll at h
  split_ifs at h with hrate
  obtain rfl := Option.some.inj h
  refine .of_edge fun key weight hget => ?_
  rw [Dict.get?_map] at hget
  obtain ⟨old, hold, rfl⟩ := Option.map_eq_some_iff.mp hget
  obtain ⟨hlt, -, hle⟩ := ht.edge _ _ hold
  -- Nothing is subtracted that is below zero, so that the weight stays below its maximum.
  have hless : old - rate ≤ old := sub_le_self old (le_of_not_gt hrate)
  exact ⟨hlt, le_max_right _ _, max_le (hless.trans hle) maxWeight_nonneg⟩

theorem Table.Valid.setEdgeWeight {weight : 𝕜} (ht : t.Valid)
    (h : t.setEdgeWeight a b weight = some t') : t'.Valid := by
  unfold Table.setEdgeWeight at h
  split_ifs at h with hab hweight
  · obtain rfl := Option.some.inj h
    exact ht
  · have hcapped : 0 ≤ min weight maxWeight := le_min (le_of_not_ge hweight) maxWeight_nonneg
    cases hget : t.get? (canonical a b) with
    | none =>
      simp only [hget] at h
      obtain rfl := Option.some.inj h
      exact ht.set ⟨canonical_lt hab, hcapped, min_le_right _ _⟩
    | some existing =>
      simp only [hget] at h
      obtain rfl := Option.some.inj h
      obtain ⟨hlt, -, hle⟩ := ht.edge _ _ hget
      exact ht.set ⟨hlt, le_max_of_le_right hcapped, max_le hle (min_le_right _ _)⟩

/-- A call keeps the table in order just in case it is checked. -/
theorem Table.Valid.exec_iff {c : Call ι 𝕜} (ht : t.Valid) :
    ((t.exec c).getD t).Valid ↔ Checked t c := by
  cases c with
  | strengthen a b delta => exact iff_of_true (ht.getD fun _ h => ht.strengthen h) trivial
  | decayAll rate => exact iff_of_true (ht.getD fun _ h => ht.decayAll h) trivial
  | garbageCollect threshold => exact iff_of_true (ht.deleted _) trivial
  | removeMemory a => exact iff_of_true (ht.deleted _) trivial
  | ensureEdge a b weight => exact ht.ensureEdge_iff
  | setEdgeWeight a b weight => exact iff_of_true (ht.getD fun _ h => ht.setEdgeWeight h) trivial

/-- In a run that is checked, the next call leaves the table in order just in case it is checked
too. -/
theorem valid_iff_checked {c : Call ι 𝕜} (h : (machine ι 𝕜).Reach Checked t)
    (hstep : (machine ι 𝕜).step t c = some t') : t'.Valid ↔ Checked t c := by
  -- So far all calls were checked, and each kept the table in order.
  have hvalid : t.Valid := by
    refine h.invariant (fun t hinit => ?_) fun t c t' ht hc hs => ?_
    · obtain rfl : t = ∅ := hinit
      exact Table.valid_empty
    · obtain rfl := Option.some.inj hs
      exact ht.exec_iff.mpr hc
  obtain rfl := Option.some.inj hstep
  exact hvalid.exec_iff

end Writers

theorem valid_iff_checked_first :
    (((∅ : Table ℕ ℚ).exec (.ensureEdge 2 1 3)).getD ∅).Valid ↔
      Checked (∅ : Table ℕ ℚ) (.ensureEdge 2 1 3) :=
  valid_iff_checked (.init rfl) rfl

/-- `ensure_edge` stores a weight below zero. -/
theorem ensureEdge_negative :
    ∃ t c t', (machine ℕ ℚ).Reachable t ∧ (machine ℕ ℚ).step t c = some t' ∧
      t'.weight 1 2 = -1 ∧ ¬t'.Valid := by
  refine ⟨∅, .ensureEdge 1 2 (-1), Dict.set ∅ (1, 2) (-1), .init rfl, rfl, by decide, fun h => ?_⟩
  have hedge := h.edge (1, 2) (-1) (by decide)
  exact absurd hedge.2.1 (by decide)

end Companion.Memory.Hebbian

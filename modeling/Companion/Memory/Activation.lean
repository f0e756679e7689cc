import Companion.Memory.Hebbian
import Companion.Walks
import Mathlib.Data.List.Perm.Basic

/-!
# Spreading activation

`spreading_activation` of `brain/memory/hebbian.py`: from the seeds on, each hop gives the
neighbours of the nodes in the frontier what their activation leaves, and those that it raises are
the next frontier. The order in which a hop goes through the frontier, a set, and through the
neighbours of a node, the rows of a query without `ORDER BY`, is arbitrary (`Orders`).

The activation is raised in place, so that a node of the frontier that an earlier one of the same
hop raises gives away what is one edge further. `best_iff_settled` says when the result is the best
product over the walks of at most `depth` edges, whatever the orders: just in case no node that a
hop raises again has, with that, something to give that its neighbours do not get in the same number
of hops.
-/

namespace Companion.Memory.Hebbian

open Companion.Walks

variable {ι 𝕜 : Type*} [LinearOrder ι] [Field 𝕜] [LinearOrder 𝕜]

/-- The orders in which the hops go through the frontier, and through the neighbours of a node. -/
structure Orders (ι 𝕜 : Type*) where
  frontier : ℕ → List ι → List ι
  frontier_perm : ∀ i l, (frontier i l).Perm l
  neighbors : ℕ → ι → List (ι × 𝕜) → List (ι × 𝕜)
  neighbors_perm : ∀ i a l, (neighbors i a l).Perm l

/-- The locals of a hop: `activation` and `next_frontier`. -/
structure Hop (ι 𝕜 : Type*) where
  activation : Dict ι 𝕜
  next : List ι

namespace Hop

/-- `activation.get(a, 0.0)` -/
def value (s : Hop ι 𝕜) (a : ι) : 𝕜 := (s.activation.get? a).getD 0

/-- The body of the inner loop, for the neighbour and the weight `e` of `node`. -/
def relaxEdge (decay : 𝕜) (node : ι) (s : Hop ι 𝕜) (e : ι × 𝕜) : Hop ι 𝕜 :=
  let propagated := s.value node * e.2 * decay
  if s.value e.1 < propagated then
    ⟨s.activation.set e.1 propagated, if e.1 ∈ s.next then s.next else s.next ++ [e.1]⟩
  else s

end Hop

namespace Table

variable (t : Table ι 𝕜) (decay : 𝕜) (o : Orders ι 𝕜)

/-- The hop `i`, from the activation and the frontier that the one before has left. -/
def hop (i : ℕ) (s : Hop ι 𝕜) : Hop ι 𝕜 :=
  (o.frontier i s.next).foldl
    (fun s node => (o.neighbors i node (t.neighbors node)).foldl (Hop.relaxEdge decay node) s)
    ⟨s.activation, []⟩

/-- The loop over the hops, of which `n` are left. -/
def hops (i : ℕ) : ℕ → Hop ι 𝕜 → Dict ι 𝕜
  | 0, s => s.activation
  | n + 1, s =>
    let s' := t.hop decay o i s
    if s'.next = [] then s'.activation else hops (i + 1) n s'

/-- The activation before the first hop, and the frontier, `set(activation)`. -/
def seeded (seeds : List ι) : Hop ι 𝕜 :=
  let activation := seeds.foldl (fun d sid => d.set sid 1) ∅
  ⟨activation, activation.entries.map Prod.fst⟩

/-- `spreading_activation` -/
def spreadingActivation (seeds : List ι) (depth : ℕ) : Dict ι 𝕜 :=
  t.hops decay o 0 depth (seeded seeds)

/-- The edges in both directions, with what they leave of an activation. -/
def arcs : List (Arc ι 𝕜) :=
  t.entries.flatMap fun e =>
    [⟨e.1.1, e.1.2, e.2 * decay⟩, ⟨e.1.2, e.1.1, e.2 * decay⟩]

end Table

/-! ## One hop, edge by edge -/

namespace Hop

variable {decay : 𝕜} {s : Hop ι 𝕜}

/-- The visits of a hop, each to a neighbour of a node: the node, and the neighbour with the weight.
-/
def visit (decay : 𝕜) (s : Hop ι 𝕜) (visits : List (ι × ι × 𝕜)) : Hop ι 𝕜 :=
  visits.foldl (fun s p => relaxEdge decay p.1 s p.2) s

theorem visit_append (before later : List (ι × ι × 𝕜)) :
    s.visit decay (before ++ later) = (s.visit decay before).visit decay later :=
  List.foldl_append

/-- What a visit does to the activation of each node. -/
theorem value_relaxEdge (node : ι) (e : ι × 𝕜) (a : ι) :
    (relaxEdge decay node s e).value a =
      if a = e.1 then max (s.value a) (s.value node * e.2 * decay) else s.value a := by
  simp only [relaxEdge]
  -- The activation is written only where it grows, which is the maximum either way.
  by_cases hlt : s.value e.1 < s.value node * e.2 * decay
  · rw [if_pos hlt]
    unfold value at hlt ⊢
    rw [Dict.get?_set]
    by_cases ha : a = e.1
    · subst ha
      rw [if_pos rfl, if_pos rfl, max_eq_right hlt.le]
      rfl
    · rw [if_neg ha, if_neg ha]
  · rw [if_neg hlt]
    by_cases ha : a = e.1
    · subst ha
      rw [if_pos rfl, max_eq_left (le_of_not_gt hlt)]
    · rw [if_neg ha]

theorem le_value_visit (visits : List (ι × ι × 𝕜)) (a : ι) :
    s.value a ≤ (s.visit decay visits).value a := by
  induction visits generalizing s with
  | nil => exact le_rfl
  | cons p ps ih =>
    refine le_trans ?_ (ih (s := relaxEdge decay p.1 s p.2))
    rw [value_relaxEdge]
    split_ifs
    · exact le_max_left _ _
    · exact le_rfl

/-- A bound that no visit exceeds bounds the activation. -/
theorem value_visit_le {bound : ι → 𝕜} {visits : List (ι × ι × 𝕜)} (hs : ∀ a, s.value a ≤ bound a)
    (hvisits : ∀ p ∈ visits, ∀ x ≤ bound p.1, x * p.2.2 * decay ≤ bound p.2.1) (a : ι) :
    (s.visit decay visits).value a ≤ bound a := by
  induction visits generalizing s with
  | nil => exact hs a
  | cons p ps ih =>
    refine ih (fun a => ?_) fun q hq => hvisits q (List.mem_cons_of_mem p hq)
    rw [value_relaxEdge]
    split_ifs with ha
    · subst ha
      exact max_le (hs _) (hvisits p List.mem_cons_self _ (hs p.1))
    · exact hs a

/-- The next frontier has the nodes whose activation is above what it was before the hop. -/
structure Tracks (before : ι → 𝕜) (s : Hop ι 𝕜) : Prop where
  le : ∀ a, before a ≤ s.value a
  mem_next : ∀ a, a ∈ s.next ↔ before a < s.value a
  /-- Only nodes with an activation are listed. -/
  pos : ∀ a x, s.activation.get? a = some x → 0 < x

theorem value_nonneg (h : ∀ a x, s.activation.get? a = some x → 0 < x) (a : ι) : 0 ≤ s.value a := by
  unfold value
  cases hget : s.activation.get? a with
  | none => exact le_rfl
  | some x => exact (h a x hget).le

theorem Tracks.relaxEdge {before : ι → 𝕜} (h : Tracks before s) (node : ι) (e : ι × 𝕜) :
    Tracks before (relaxEdge decay node s e) := by
  simp only [Hop.relaxEdge]
  by_cases hlt : s.value e.1 < s.value node * e.2 * decay
  · rw [if_pos hlt]
    have hvalue : ∀ a, (⟨s.activation.set e.1 (s.value node * e.2 * decay),
        if e.1 ∈ s.next then s.next else s.next ++ [e.1]⟩ : Hop ι 𝕜).value a =
          if a = e.1 then s.value node * e.2 * decay else s.value a := by
      intro a
      unfold value
      rw [Dict.get?_set]
      split_ifs
      · rfl
      · rfl
    -- The neighbour is above what it was before the hop, since it was not below that before the
    -- visit.
    have hraised := (h.le e.1).trans_lt hlt
    refine ⟨fun a => ?_, fun a => ?_, fun a x hget => ?_⟩
    · rw [hvalue]
      split_ifs with ha
      · exact ha ▸ hraised.le
      · exact h.le a
    · rw [hvalue]
      have hnext : a ∈ (if e.1 ∈ s.next then s.next else s.next ++ [e.1]) ↔
          a = e.1 ∨ a ∈ s.next := by
        split_ifs with hin
        · exact ⟨.inr, fun ha => ha.elim (fun ha => ha ▸ hin) id⟩
        · rw [List.mem_append, List.mem_singleton, or_comm]
      rw [hnext, h.mem_next a]
      by_cases ha : a = e.1
      · rw [if_pos ha]
        exact iff_of_true (.inl ha) (ha ▸ hraised)
      · rw [if_neg ha]
        exact or_iff_right ha
    · rw [Dict.get?_set] at hget
      split_ifs at hget
      · obtain rfl := Option.some.inj hget
        exact (value_nonneg h.pos e.1).trans_lt hlt
      · exact h.pos a x hget
  · rw [if_neg hlt]
    exact h

theorem Tracks.visit {before : ι → 𝕜} (h : Tracks before s) (visits : List (ι × ι × 𝕜)) :
    Tracks before (s.visit decay visits) := by
  induction visits generalizing s with
  | nil => exact h
  | cons p ps ih => exact ih (h.relaxEdge p.1 p.2)

section Ordered

variable [IsStrictOrderedRing 𝕜]

/-- What an edge leaves of an activation, at least, where its node is visited later on. -/
theorem le_value_of_mem {visits : List (ι × ι × 𝕜)} {p : ι × ι × 𝕜} (hp : p ∈ visits)
    (hdecay : 0 ≤ decay) (hweight : 0 ≤ p.2.2) {x : 𝕜} (hx : x ≤ s.value p.1) :
    x * p.2.2 * decay ≤ (s.visit decay visits).value p.2.1 := by
  -- Up to the visit the activation of the node grows, and after it that of the neighbour.
  obtain ⟨before, later, rfl⟩ := List.append_of_mem hp
  have hsplit : s.visit decay (before ++ p :: later) =
      (relaxEdge decay p.1 (s.visit decay before) p.2).visit decay later :=
    visit_append before (p :: later)
  have hgrown : x ≤ (s.visit decay before).value p.1 := hx.trans (le_value_visit before p.1)
  calc x * p.2.2 * decay ≤ (s.visit decay before).value p.1 * p.2.2 * decay :=
        mul_le_mul_of_nonneg_right (mul_le_mul_of_nonneg_right hgrown hweight) hdecay
    _ ≤ (relaxEdge decay p.1 (s.visit decay before) p.2).value p.2.1 := by
        rw [value_relaxEdge, if_pos rfl]
        exact le_max_right _ _
    _ ≤ (s.visit decay (before ++ p :: later)).value p.2.1 := by
        rw [hsplit]
        exact le_value_visit later p.2.1

end Ordered

end Hop

namespace Table

variable {t : Table ι 𝕜} {decay : 𝕜} {o : Orders ι 𝕜} {i : ℕ} {s : Hop ι 𝕜}

/-- The visits of a hop, in their order. -/
def visits (t : Table ι 𝕜) (o : Orders ι 𝕜) (i : ℕ) (frontier : List ι) : List (ι × ι × 𝕜) :=
  (o.frontier i frontier).flatMap fun node =>
    (o.neighbors i node (t.neighbors node)).map (node, ·)

theorem hop_eq_visit :
    t.hop decay o i s = Hop.visit decay ⟨s.activation, []⟩ (t.visits o i s.next) := by
  rw [hop, Hop.visit, visits, List.foldl_flatMap]
  simp only [List.foldl_map]

omit [Field 𝕜] [LinearOrder 𝕜] in
/-- A hop visits the neighbours of the frontier, whatever the orders. -/
theorem mem_visits {frontier : List ι} {p : ι × ι × 𝕜} :
    p ∈ t.visits o i frontier ↔ p.1 ∈ frontier ∧ p.2 ∈ t.neighbors p.1 := by
  rw [visits, List.mem_flatMap]
  constructor
  · rintro ⟨node, hnode, hp⟩
    obtain ⟨e, he, rfl⟩ := List.mem_map.mp hp
    exact ⟨(o.frontier_perm i frontier).mem_iff.mp hnode,
      (o.neighbors_perm i node _).mem_iff.mp he⟩
  · rintro ⟨hnode, he⟩
    exact ⟨p.1, (o.frontier_perm i frontier).mem_iff.mpr hnode,
      List.mem_map.mpr ⟨p.2, (o.neighbors_perm i p.1 _).mem_iff.mpr he, rfl⟩⟩

omit [Field 𝕜] [LinearOrder 𝕜] in
/-- The neighbours of a node are those of the rows that it is in. -/
theorem mem_neighbors {a b : ι} {w : 𝕜} :
    (b, w) ∈ t.neighbors a ↔ ((a, b), w) ∈ t.entries ∨ ((b, a), w) ∈ t.entries := by
  rw [neighbors, List.mem_append]
  constructor
  · rintro (h | h)
    · obtain ⟨⟨⟨a', b'⟩, w'⟩, he, heq⟩ := List.mem_map.mp h
      obtain ⟨hmem, ha⟩ := List.mem_filter.mp he
      obtain ⟨rfl, rfl⟩ := Prod.mk.inj heq
      obtain rfl : a' = a := of_decide_eq_true ha
      exact .inl hmem
    · obtain ⟨⟨⟨b', a'⟩, w'⟩, he, heq⟩ := List.mem_map.mp h
      obtain ⟨hmem, ha⟩ := List.mem_filter.mp he
      obtain ⟨rfl, rfl⟩ := Prod.mk.inj heq
      obtain rfl : a' = a := of_decide_eq_true ha
      exact .inr hmem
  · rintro (h | h)
    · exact .inl (List.mem_map.mpr ⟨_, List.mem_filter.mpr ⟨h, decide_eq_true rfl⟩, rfl⟩)
    · exact .inr (List.mem_map.mpr ⟨_, List.mem_filter.mpr ⟨h, decide_eq_true rfl⟩, rfl⟩)

omit [LinearOrder ι] [LinearOrder 𝕜] in
theorem mem_arcs_iff {e : Arc ι 𝕜} :
    e ∈ t.arcs decay ↔ ∃ r ∈ t.entries, e.factor = r.2 * decay ∧
      (e.source = r.1.1 ∧ e.target = r.1.2 ∨ e.source = r.1.2 ∧ e.target = r.1.1) := by
  rw [arcs, List.mem_flatMap]
  refine exists_congr fun r => and_congr_right fun _ => ?_
  rw [List.mem_cons, List.mem_singleton, Arc.mk.injEq, Arc.mk.injEq]
  tauto

omit [LinearOrder 𝕜] in
/-- The arcs lead to the neighbours. -/
theorem mem_arcs {e : Arc ι 𝕜} :
    e ∈ t.arcs decay ↔ ∃ w, (e.target, w) ∈ t.neighbors e.source ∧ e.factor = w * decay := by
  rw [mem_arcs_iff]
  constructor
  · rintro ⟨⟨⟨a, b⟩, w⟩, hr, hfactor, ⟨hs, ht⟩ | ⟨hs, ht⟩⟩
    · exact ⟨w, mem_neighbors.mpr (.inl (by rw [hs, ht]; exact hr)), hfactor⟩
    · exact ⟨w, mem_neighbors.mpr (.inr (by rw [hs, ht]; exact hr)), hfactor⟩
  · rintro ⟨w, hw, hfactor⟩
    rcases mem_neighbors.mp hw with hr | hr
    · exact ⟨_, hr, hfactor, .inl ⟨rfl, rfl⟩⟩
    · exact ⟨_, hr, hfactor, .inr ⟨rfl, rfl⟩⟩

/-! ## The hops -/

/-- The activation and the frontier after `d` hops. -/
def after (t : Table ι 𝕜) (decay : 𝕜) (o : Orders ι 𝕜) (seeds : List ι) : ℕ → Hop ι 𝕜
  | 0 => seeded seeds
  | d + 1 => t.hop decay o d (after t decay o seeds d)

/-- Without a frontier there is nothing to do. -/
theorem hop_of_nil (h : s.next = []) : t.hop decay o i s = s := by
  obtain ⟨activation, next⟩ := s
  obtain rfl : next = [] := h
  have hnil : o.frontier i [] = [] := (o.frontier_perm i []).eq_nil
  rw [hop, hnil]
  rfl

theorem after_of_nil {seeds : List ι} {d : ℕ} (h : (t.after decay o seeds d).next = []) (n : ℕ) :
    t.after decay o seeds (d + n) = t.after decay o seeds d := by
  induction n with
  | zero => rfl
  | succ n ih =>
    show t.hop decay o (d + n) (t.after decay o seeds (d + n)) = _
    rw [ih, hop_of_nil h]

/-- That the loop ends early makes no difference. -/
theorem hops_after (seeds : List ι) (d n : ℕ) :
    t.hops decay o d n (t.after decay o seeds d) = (t.after decay o seeds (d + n)).activation := by
  induction n generalizing d with
  | zero => rfl
  | succ n ih =>
    have hlater : d + (n + 1) = d + 1 + n := by omega
    rw [hlater]
    show (if (t.after decay o seeds (d + 1)).next = [] then _ else
      t.hops decay o (d + 1) n (t.after decay o seeds (d + 1))) = _
    -- An empty frontier stays empty, so that the hops that are left out would change nothing.
    split_ifs with hnil
    · rw [after_of_nil hnil]
      rfl
    · exact ih (d + 1)

theorem spreadingActivation_eq (seeds : List ι) (depth : ℕ) :
    t.spreadingActivation decay o seeds depth = (t.after decay o seeds depth).activation := by
  have h : t.hops decay o 0 depth (t.after decay o seeds 0) = _ := hops_after seeds 0 depth
  rwa [Nat.zero_add] at h

end Table

/-- After `d` hops, the activation is the best product over at most `d` edges, and the frontier has
the nodes that the walks with `d` edges improve. -/
structure Exact (arcs : List (Arc ι 𝕜)) (seeds : List ι) (d : ℕ) (s : Hop ι 𝕜) : Prop where
  value : ∀ a, s.value a = best arcs seeds (d + 1) a
  mem_next : ∀ a, a ∈ s.next ↔ best arcs seeds d a < best arcs seeds (d + 1) a
  pos : ∀ a x, s.activation.get? a = some x → 0 < x

section Exact

variable [IsStrictOrderedRing 𝕜] {t : Table ι 𝕜} {decay : 𝕜} {o : Orders ι 𝕜} {seeds : List ι} {d : ℕ}
  {s : Hop ι 𝕜}

omit [IsStrictOrderedRing 𝕜] [LinearOrder 𝕜] in
theorem get?_seeds (seeds : List ι) (d : Dict ι 𝕜) (a : ι) :
    (seeds.foldl (fun d sid => d.set sid 1) d).get? a = if a ∈ seeds then some 1 else d.get? a := by
  induction seeds generalizing d with
  | nil => simp
  | cons sid sids ih =>
    rw [List.foldl_cons, ih, Dict.get?_set]
    by_cases ha : a = sid
    · simp [ha]
    · simp [ha]

/-- Before the first hop, the activation is that of the seeds. -/
theorem exact_seeded (arcs : List (Arc ι 𝕜)) (seeds : List ι) :
    Exact arcs seeds 0 (Table.seeded seeds) where
  value a := by
    show ((seeds.foldl (fun d sid => d.set sid 1) (∅ : Dict ι 𝕜)).get? a).getD 0 =
      if a ∈ seeds then 1 else 0
    rw [get?_seeds]
    split_ifs
    · rfl
    · rfl
  mem_next a := by
    -- The frontier has the keys of the activation.
    have hkey : a ∈ (Table.seeded (𝕜 := 𝕜) seeds).next ↔ a ∈ seeds := by
      have hget := get?_seeds seeds (∅ : Dict ι 𝕜) a
      rw [← not_iff_not]
      refine Dict.get?_eq_none.symm.trans ?_
      rw [hget]
      simp
    rw [hkey, best, best]
    by_cases ha : a ∈ seeds
    · simp [ha]
    · simp [ha]
  pos a x hget := by
    rw [Table.seeded, get?_seeds] at hget
    split_ifs at hget
    · obtain rfl := Option.some.inj hget
      exact zero_lt_one
    · cases hget

/-- In a table that is in order, the arcs have factors that are not negative. -/
theorem factor_nonneg (ht : t.Valid) (hdecay : 0 ≤ decay) :
    ∀ e ∈ t.arcs decay, 0 ≤ e.factor := by
  intro e he
  obtain ⟨r, hr, hfactor, -⟩ := Table.mem_arcs_iff.mp he
  rw [hfactor]
  exact mul_nonneg (ht.edge _ _ (Dict.get?_of_mem_entries hr)).2.1 hdecay

omit [IsStrictOrderedRing 𝕜] in
/-- In a table that is in order, no arc leads back to its node. -/
theorem source_ne_target (ht : t.Valid) {e : Arc ι 𝕜} (he : e ∈ t.arcs decay) :
    e.source ≠ e.target := by
  obtain ⟨r, hr, -, h⟩ := Table.mem_arcs_iff.mp he
  have hlt := (ht.edge _ _ (Dict.get?_of_mem_entries hr)).1
  rcases h with ⟨hs, htarget⟩ | ⟨hs, htarget⟩
  · rw [hs, htarget]
    exact hlt.ne
  · rw [hs, htarget]
    exact hlt.ne'

omit [IsStrictOrderedRing 𝕜] in
theorem weight_nonneg (ht : t.Valid) {a b : ι} {w : 𝕜} (h : (b, w) ∈ t.neighbors a) : 0 ≤ w := by
  rcases Table.mem_neighbors.mp h with h | h
  · exact (ht.edge _ _ (Dict.get?_of_mem_entries h)).2.1
  · exact (ht.edge _ _ (Dict.get?_of_mem_entries h)).2.1

omit [IsStrictOrderedRing 𝕜] in
/-- A hop tracks what it raises. -/
theorem Exact.tracks {arcs : List (Arc ι 𝕜)} (h : Exact arcs seeds d s) (i : ℕ) :
    Hop.Tracks s.value (t.hop decay o i s) := by
  have hstart : Hop.Tracks s.value (⟨s.activation, []⟩ : Hop ι 𝕜) :=
    ⟨fun a => le_rfl, fun a => iff_of_false List.not_mem_nil (lt_irrefl _), h.pos⟩
  rw [Table.hop_eq_visit]
  exact hstart.visit _

/-- A hop reaches at least what one edge more brings, in any order. -/
theorem Exact.best_le (ht : t.Valid) (hdecay : 0 ≤ decay) (h : Exact (t.arcs decay) seeds d s)
    (i : ℕ) (a : ι) : best (t.arcs decay) seeds (d + 2) a ≤ (t.hop decay o i s).value a := by
  refine relax_le_iff.mpr ⟨?_, fun e he htarget => ?_⟩
  · exact (h.value a).ge.trans ((h.tracks i).le a)
  · subst htarget
    by_cases hin : e.source ∈ s.next
    · -- The node of the arc is in the frontier, and is visited.
      obtain ⟨w, hw, hfactor⟩ := Table.mem_arcs.mp he
      rw [hfactor, ← mul_assoc, Table.hop_eq_visit]
      exact Hop.le_value_of_mem (p := (e.source, e.target, w)) (Table.mem_visits.mpr ⟨hin, hw⟩)
        hdecay (weight_nonneg ht hw) (h.value e.source).ge
    · -- What the node has, it has had a hop before.
      have hold : best (t.arcs decay) seeds (d + 1) e.source ≤ best (t.arcs decay) seeds d e.source :=
        le_of_not_gt fun hlt => hin ((h.mem_next _).mpr hlt)
      calc best (t.arcs decay) seeds (d + 1) e.source * e.factor ≤
            best (t.arcs decay) seeds d e.source * e.factor :=
              mul_le_mul_of_nonneg_right hold (factor_nonneg ht hdecay e he)
        _ ≤ best (t.arcs decay) seeds (d + 1) e.target := arc_le_best d he
        _ = s.value e.target := (h.value _).symm
        _ ≤ (t.hop decay o i s).value e.target := (h.tracks i).le _

omit [IsStrictOrderedRing 𝕜] in
/-- A hop after which the activation is the best has the right frontier too. -/
theorem Exact.hop_of_value {arcs : List (Arc ι 𝕜)} (h : Exact arcs seeds d s) {i : ℕ}
    (hvalue : ∀ a, (t.hop decay o i s).value a = best arcs seeds (d + 2) a) :
    Exact arcs seeds (d + 1) (t.hop decay o i s) where
  value := hvalue
  mem_next a := by rw [(h.tracks i).mem_next, h.value, hvalue]
  pos := (h.tracks i).pos

/-- Where no node gives away too much, a hop goes exactly one edge further. -/
theorem Exact.hop (ht : t.Valid) (hdecay : 0 ≤ decay) (h : Exact (t.arcs decay) seeds d s)
    (hsettled : Settled (t.arcs decay) seeds d) (i : ℕ) :
    Exact (t.arcs decay) seeds (d + 1) (t.hop decay o i s) := by
  refine h.hop_of_value fun a => le_antisymm ?_ (h.best_le ht hdecay i a)
  rw [Table.hop_eq_visit]
  -- The best over one edge more is a bound that no visit exceeds.
  refine Hop.value_visit_le (fun a => ?_) (fun p hp x hx => ?_) a
  · exact (h.value a).le.trans (best_succ_le d a)
  · obtain ⟨hin, hw⟩ := Table.mem_visits.mp hp
    have harc : ⟨p.1, p.2.1, p.2.2 * decay⟩ ∈ t.arcs decay := Table.mem_arcs.mpr ⟨p.2.2, hw, rfl⟩
    calc x * p.2.2 * decay = x * (p.2.2 * decay) := mul_assoc _ _ _
      _ ≤ best (t.arcs decay) seeds (d + 2) p.1 * (p.2.2 * decay) :=
          mul_le_mul_of_nonneg_right hx (factor_nonneg ht hdecay _ harc)
      _ ≤ best (t.arcs decay) seeds (d + 2) p.2.1 := hsettled _ harc ((h.mem_next _).mp hin)

/-! ## An order in which a value goes too far -/

/-- The order that has `x` first and `u` next, where both are there. -/
def inTurn (x u : ι) (l : List ι) : List ι :=
  if x ∈ l ∧ u ∈ l ∧ x ≠ u then x :: u :: (l.erase x).erase u else l

theorem inTurn_perm (x u : ι) (l : List ι) : (inTurn x u l).Perm l := by
  unfold inTurn
  split_ifs with h
  · obtain ⟨hx, hu, hne⟩ := h
    have hu' : u ∈ l.erase x := (List.mem_erase_of_ne (Ne.symm hne)).mpr hu
    exact (((List.perm_cons_erase hu').symm).cons x).trans (List.perm_cons_erase hx).symm
  · exact .refl l

/-- In each hop, first `x` and then `u`. -/
def Orders.first (x u : ι) : Orders ι 𝕜 where
  frontier _ := inTurn x u
  frontier_perm _ := inTurn_perm x u
  neighbors _ _ l := l
  neighbors_perm _ _ l := .refl l

/-- Where `x` is visited before `u`, what two edges bring is there after one hop. -/
theorem le_value_first (ht : t.Valid) (hdecay : 0 ≤ decay) {e e' : Arc ι 𝕜} (he : e ∈ t.arcs decay)
    (he' : e' ∈ t.arcs decay) (hturn : e.target = e'.source) (hx : e.source ∈ s.next)
    (hu : e'.source ∈ s.next) (i : ℕ) :
    s.value e.source * e.factor * e'.factor ≤
      (t.hop decay (.first e.source e'.source) i s).value e'.target := by
  obtain ⟨w, hw, hfactor⟩ := Table.mem_arcs.mp he
  obtain ⟨w', hw', hfactor'⟩ := Table.mem_arcs.mp he'
  have hne : e.source ≠ e'.source := hturn ▸ source_ne_target ht he
  have hfrontier : inTurn e.source e'.source s.next =
      e.source :: e'.source :: (s.next.erase e.source).erase e'.source := if_pos ⟨hx, hu, hne⟩
  have hvisits : t.visits (.first e.source e'.source) i s.next =
      (t.neighbors e.source).map (e.source, ·) ++ ((t.neighbors e'.source).map (e'.source, ·) ++
        ((s.next.erase e.source).erase e'.source).flatMap fun node =>
          (t.neighbors node).map (node, ·)) := by
    show (inTurn e.source e'.source s.next).flatMap (fun node => (t.neighbors node).map (node, ·)) = _
    rw [hfrontier, List.flatMap_cons, List.flatMap_cons]
  -- The first node raises the second one, which then gives away what it has been raised to.
  have hfirst : s.value e.source * w * decay ≤ (Hop.visit decay ⟨s.activation, []⟩
      ((t.neighbors e.source).map (e.source, ·))).value e'.source := by
    have h := Hop.le_value_of_mem (s := ⟨s.activation, []⟩) (p := (e.source, e.target, w))
      (List.mem_map.mpr ⟨_, hw, rfl⟩) hdecay (weight_nonneg ht hw) le_rfl
    rwa [hturn] at h
  rw [Table.hop_eq_visit, hvisits, Hop.visit_append, hfactor, hfactor', ← mul_assoc, ← mul_assoc]
  exact Hop.le_value_of_mem (p := (e'.source, e'.target, w'))
    (List.mem_append_left _ (List.mem_map.mpr ⟨_, hw', rfl⟩)) hdecay (weight_nonneg ht hw') hfirst

/-- Where the activation is the best after every hop, whatever the orders, no node gives away too
much. -/
theorem settled_of_value (ht : t.Valid) (hdecay : 0 ≤ decay)
    (h : ∀ o : Orders ι 𝕜, Exact (t.arcs decay) seeds d (t.after decay o seeds d))
    (hnext : ∀ (o : Orders ι 𝕜) a,
      (t.after decay o seeds (d + 1)).value a = best (t.arcs decay) seeds (d + 2) a) :
    Settled (t.arcs decay) seeds d := by
  intro e' he' hfrontier
  -- Otherwise what raises the node is visited before it in some order, and the value goes too far.
  refine le_of_not_gt fun hlt => ?_
  have hstale : best (t.arcs decay) seeds (d + 2) e'.source ≠
      best (t.arcs decay) seeds (d + 1) e'.source := by
    intro heq
    rw [heq] at hlt
    exact absurd hlt (arc_le_best (d + 1) he').not_gt
  rcases relax_eq (t.arcs decay) (best (t.arcs decay) seeds (d + 1)) e'.source with
    heq | ⟨e, he, hturn, heq⟩
  · exact hstale heq
  · have hbest : best (t.arcs decay) seeds (d + 2) e'.source =
        best (t.arcs decay) seeds (d + 1) e.source * e.factor := heq
    -- What raises the node again is in the frontier too, and may come first.
    have hraises : best (t.arcs decay) seeds d e.source <
        best (t.arcs decay) seeds (d + 1) e.source := by
      refine lt_of_not_ge fun hle => hstale (le_antisymm ?_ (best_succ_le d _))
      calc best (t.arcs decay) seeds (d + 2) e'.source ≤
            best (t.arcs decay) seeds d e.source * e.factor :=
              hbest.trans_le (mul_le_mul_of_nonneg_right hle (factor_nonneg ht hdecay e he))
        _ ≤ best (t.arcs decay) seeds (d + 1) e.target := arc_le_best d he
        _ = best (t.arcs decay) seeds (d + 1) e'.source := by rw [hturn]
    have hexact := h (.first e.source e'.source)
    have hle := le_value_first (s := t.after decay (.first e.source e'.source) seeds d) ht hdecay he
      he' hturn ((hexact.mem_next _).mpr hraises) ((hexact.mem_next _).mpr hfrontier) d
    rw [hexact.value, ← hbest] at hle
    exact absurd (hle.trans_eq (hnext _ _)) hlt.not_ge

/-- The result gives each node the greatest product over the walks of at most `d` edges from a seed,
and lists the nodes where that is positive. -/
def IsBestPath (t : Table ι 𝕜) (decay : 𝕜) (seeds : List ι) (d : ℕ) (result : Dict ι 𝕜) : Prop :=
  ∀ a x, result.get? a = some x ↔
    0 < x ∧ IsGreatest {y | ∃ n ≤ d, Walk (t.arcs decay) seeds n a y} x

/-- What is listed is the best, just in case the activations are. -/
theorem isBestPath_iff (ht : t.Valid) (hdecay : 0 ≤ decay)
    (hpos : ∀ a x, s.activation.get? a = some x → 0 < x) :
    IsBestPath t decay seeds d s.activation ↔
      ∀ a, s.value a = best (t.arcs decay) seeds (d + 1) a := by
  have hgreatest : ∀ a (x : 𝕜), 0 < x →
      (IsGreatest {y | ∃ n ≤ d, Walk (t.arcs decay) seeds n a y} x ↔
        best (t.arcs decay) seeds (d + 1) a = x) := fun _ _ hx =>
    isGreatest_iff (factor_nonneg ht hdecay) hx
  unfold Hop.value
  constructor
  · intro h a
    cases hget : s.activation.get? a with
    | some x =>
      obtain ⟨hx, hbest⟩ := (h a x).mp hget
      exact ((hgreatest a x hx).mp hbest).symm
    -- A node that is not listed has zero, so a positive product would have listed it.
    | none =>
      refine le_antisymm (best_nonneg (d + 1) a) (le_of_not_gt fun hlt => ?_)
      have hlisted := (h a _).mpr ⟨hlt, (hgreatest a _ hlt).mpr rfl⟩
      rw [hget] at hlisted
      cases hlisted
  · intro h a x
    constructor
    · intro hget
      have hx := hpos a x hget
      refine ⟨hx, (hgreatest a x hx).mpr ?_⟩
      rw [← h a, hget]
      rfl
    · rintro ⟨hx, hbest⟩
      have hvalue := (h a).trans ((hgreatest a x hx).mp hbest)
      cases hget : s.activation.get? a with
      | some y =>
        rw [hget] at hvalue
        exact congrArg some hvalue
      | none =>
        rw [hget] at hvalue
        exact absurd hvalue hx.ne

/-- The result is the best up to a depth, whatever the orders, just in case no hop up to there has a
node that gives away too much. -/
theorem best_iff_settled (ht : t.Valid) (hdecay : 0 ≤ decay) (seeds : List ι) (depth : ℕ) :
    (∀ d ≤ depth, ∀ o : Orders ι 𝕜,
      IsBestPath t decay seeds d (t.spreadingActivation decay o seeds d)) ↔
        ∀ d < depth, Settled (t.arcs decay) seeds d := by
  constructor
  · -- That the results are the best says that the activations are, hop after hop.
    intro h
    have hexact : ∀ d ≤ depth, ∀ o : Orders ι 𝕜,
        Exact (t.arcs decay) seeds d (t.after decay o seeds d) := by
      intro d hd o
      induction d with
      | zero => exact exact_seeded _ seeds
      | succ d ih =>
        have hd' := ih (by omega)
        have hresult := h (d + 1) hd o
        rw [Table.spreadingActivation_eq] at hresult
        exact hd'.hop_of_value ((isBestPath_iff ht hdecay (hd'.tracks d).pos).mp hresult)
    exact fun d hd => settled_of_value ht hdecay (hexact d hd.le) fun o =>
      (hexact (d + 1) hd o).value
  · intro h d hd o
    have hexact : Exact (t.arcs decay) seeds d (t.after decay o seeds d) := by
      induction d with
      | zero => exact exact_seeded _ seeds
      | succ d ih => exact (ih (by omega)).hop ht hdecay (h d (by omega)) d
    rw [Table.spreadingActivation_eq]
    exact (isBestPath_iff ht hdecay hexact.pos).mpr hexact.value

end Exact

/-! ## Whatever the orders -/

/-- What is listed is positive, and the product of a walk, of any length. -/
def Walked (arcs : List (Arc ι 𝕜)) (seeds : List ι) (activation : Dict ι 𝕜) : Prop :=
  ∀ a x, activation.get? a = some x → 0 < x ∧ ∃ n, Walk arcs seeds n a x

/-- After `d` hops no walk of at most `d` edges has more than the activation, and the nodes that are
not in the frontier have given what they have. -/
structure Bracketed (arcs : List (Arc ι 𝕜)) (seeds : List ι) (d : ℕ) (s : Hop ι 𝕜) : Prop where
  walked : Walked arcs seeds s.activation
  best_le : ∀ a, best arcs seeds (d + 1) a ≤ s.value a
  given : ∀ e ∈ arcs, e.source ∉ s.next → s.value e.source * e.factor ≤ s.value e.target

section Bracketed

variable {t : Table ι 𝕜} {decay : 𝕜} {o : Orders ι 𝕜} {arcs : List (Arc ι 𝕜)} {seeds : List ι} {d : ℕ}
  {s : Hop ι 𝕜}

/-- What a visit writes is the product of a walk. -/
theorem Walked.relaxEdge (hs : Walked arcs seeds s.activation) {node : ι} {e : ι × 𝕜}
    (harc : ⟨node, e.1, e.2 * decay⟩ ∈ arcs) :
    Walked arcs seeds (s.relaxEdge decay node e).activation := by
  intro a x hget
  simp only [Hop.relaxEdge] at hget
  by_cases hlt : s.value e.1 < s.value node * e.2 * decay
  · rw [if_pos hlt, Dict.get?_set] at hget
    by_cases ha : a = e.1
    · rw [if_pos ha] at hget
      subst ha
      obtain rfl := Option.some.inj hget
      have hpos : 0 < s.value node * e.2 * decay :=
        (Hop.value_nonneg (fun a x h => (hs a x h).1) _).trans_lt hlt
      refine ⟨hpos, ?_⟩
      unfold Hop.value at hpos ⊢
      cases hnode : s.activation.get? node with
      | none =>
        rw [hnode, Option.getD_none, zero_mul, zero_mul] at hpos
        exact absurd hpos (lt_irrefl 0)
      | some y =>
        obtain ⟨n, hwalk⟩ := (hs node y hnode).2
        rw [Option.getD_some, mul_assoc]
        exact ⟨n + 1, hwalk.snoc harc⟩
    · rw [if_neg ha] at hget
      exact hs a x hget
  · rw [if_neg hlt] at hget
    exact hs a x hget

theorem Walked.visit (hs : Walked arcs seeds s.activation) {visits : List (ι × ι × 𝕜)}
    (harcs : ∀ p ∈ visits, ⟨p.1, p.2.1, p.2.2 * decay⟩ ∈ arcs) :
    Walked arcs seeds (s.visit decay visits).activation := by
  induction visits generalizing s with
  | nil => exact hs
  | cons p ps ih =>
    exact ih (hs.relaxEdge (harcs p List.mem_cons_self)) fun q hq => harcs q (List.mem_cons_of_mem p hq)

variable [IsStrictOrderedRing 𝕜]

theorem bracketed_seeded (arcs : List (Arc ι 𝕜)) (seeds : List ι) :
    Bracketed arcs seeds 0 (Table.seeded seeds) where
  walked a x hget := by
    rw [Table.seeded, get?_seeds] at hget
    split_ifs at hget with ha
    · obtain rfl := Option.some.inj hget
      exact ⟨zero_lt_one, 0, .seed ha⟩
    · cases hget
  best_le a := ((exact_seeded arcs seeds).value a).ge
  given e _ hsource := by
    -- Outside of the frontier, nothing has an activation yet.
    have hexact := exact_seeded arcs seeds
    have hzero : best arcs seeds 1 e.source ≤ 0 :=
      le_of_not_gt fun hlt => hsource ((hexact.mem_next _).mpr hlt)
    rw [hexact.value, le_antisymm hzero (best_nonneg _ _), zero_mul]
    exact Hop.value_nonneg hexact.pos _

theorem Bracketed.hop (ht : t.Valid) (hdecay : 0 ≤ decay) (h : Bracketed (t.arcs decay) seeds d s)
    (i : ℕ) : Bracketed (t.arcs decay) seeds (d + 1) (t.hop decay o i s) := by
  have htracks : Hop.Tracks s.value (t.hop decay o i s) := by
    have hstart : Hop.Tracks s.value (⟨s.activation, []⟩ : Hop ι 𝕜) :=
      ⟨fun a => le_rfl, fun a => iff_of_false List.not_mem_nil (lt_irrefl _), fun a x hget =>
        (h.walked a x hget).1⟩
    rw [Table.hop_eq_visit]
    exact hstart.visit _
  have hwalked : Walked (t.arcs decay) seeds (t.hop decay o i s).activation := by
    rw [Table.hop_eq_visit]
    exact Walked.visit (s := ⟨s.activation, []⟩) h.walked fun p hp =>
      Table.mem_arcs.mpr ⟨p.2.2, (Table.mem_visits.mp hp).2, rfl⟩
  -- Whether its node is in the frontier or was, an arc brings what the node had before the hop.
  have hgiven : ∀ e ∈ t.arcs decay,
      s.value e.source * e.factor ≤ (t.hop decay o i s).value e.target := by
    intro e he
    by_cases hin : e.source ∈ s.next
    · obtain ⟨w, hw, hfactor⟩ := Table.mem_arcs.mp he
      rw [hfactor, ← mul_assoc, Table.hop_eq_visit]
      exact Hop.le_value_of_mem (s := ⟨s.activation, []⟩) (p := (e.source, e.target, w))
        (Table.mem_visits.mpr ⟨hin, hw⟩) hdecay (weight_nonneg ht hw) le_rfl
    · exact (h.given e he hin).trans (htracks.le _)
  refine ⟨hwalked, fun a => ?_, fun e he hsource => ?_⟩
  · refine relax_le_iff.mpr ⟨(h.best_le a).trans (htracks.le a), fun e he htarget => ?_⟩
    subst htarget
    exact (mul_le_mul_of_nonneg_right (h.best_le _) (factor_nonneg ht hdecay e he)).trans
      (hgiven e he)
  · -- A node that is not in the next frontier has what it had before.
    have hsame : (t.hop decay o i s).value e.source ≤ s.value e.source :=
      le_of_not_gt fun hlt => hsource ((htracks.mem_next _).mpr hlt)
    exact (mul_le_mul_of_nonneg_right hsame (factor_nonneg ht hdecay e he)).trans (hgiven e he)

/-- In any orders, each activation is the product of a walk, and no walk of at most `depth` edges
has more. -/
theorem spreadingActivation_between (ht : t.Valid) (hdecay : 0 ≤ decay) (o : Orders ι 𝕜)
    (seeds : List ι) (depth : ℕ) :
    Walked (t.arcs decay) seeds (t.spreadingActivation decay o seeds depth) ∧
      ∀ n ≤ depth, ∀ a x, Walk (t.arcs decay) seeds n a x →
        x ≤ ((t.spreadingActivation decay o seeds depth).get? a).getD 0 := by
  have hafter : Bracketed (t.arcs decay) seeds depth (t.after decay o seeds depth) := by
    induction depth with
    | zero => exact bracketed_seeded _ seeds
    | succ depth ih => exact ih.hop ht hdecay depth
  rw [Table.spreadingActivation_eq]
  refine ⟨hafter.walked, fun n hn a x hwalk => ?_⟩
  calc x ≤ best (t.arcs decay) seeds (n + 1) a := hwalk.le_best (factor_nonneg ht hdecay)
    _ ≤ best (t.arcs decay) seeds (depth + 1) a := best_mono (by omega)
    _ ≤ (t.after decay o seeds depth).value a := hafter.best_le a

end Bracketed

/-- From 0, a weak edge leads to 1, and strong ones by way of 2; from 1, one leads to 3. -/
def detour : Table ℕ ℚ :=
  (((Dict.set ∅ (0, 1) (1 / 5)).set (0, 2) 2).set (1, 2) 2).set (1, 3) 2

theorem detour_valid : detour.Valid := by
  have hvalid : ∀ w : ℚ, w = 1 / 5 ∨ w = 2 → 0 ≤ w ∧ w ≤ maxWeight := by
    unfold maxWeight
    rintro w (rfl | rfl)
    · norm_num
    · norm_num
  exact ((((Table.valid_empty.set ⟨by decide, hvalid _ (.inl rfl)⟩).set
    ⟨by decide, hvalid _ (.inr rfl)⟩).set ⟨by decide, hvalid _ (.inr rfl)⟩).set
      ⟨by decide, hvalid _ (.inr rfl)⟩)

theorem best_iff_settled_detour :
    (∀ d ≤ 1, ∀ o : Orders ℕ ℚ,
      IsBestPath detour (1 / 2) [0] d (detour.spreadingActivation (1 / 2) o [0] d)) ↔
        ∀ d < 1, Settled (detour.arcs (1 / 2)) [0] d :=
  best_iff_settled detour_valid (by norm_num) [0] 1

theorem spreadingActivation_between_detour :
    Walked (detour.arcs (1 / 2)) [0] (detour.spreadingActivation (1 / 2) (.first 2 1) [0] 2) ∧
      ∀ n ≤ 2, ∀ a x, Walk (detour.arcs (1 / 2)) [0] n a x →
        x ≤ ((detour.spreadingActivation (1 / 2) (.first 2 1) [0] 2).get? a).getD 0 :=
  spreadingActivation_between detour_valid (by norm_num) (.first 2 1) [0] 2

/-- With 2 before 1 the second hop goes three edges, and with 1 before 2 it does not. -/
theorem detour_too_far :
    detour.Valid ∧
      (detour.spreadingActivation (1 / 2) (.first 2 1) [0] 2).get? 3 = some 1 ∧
      (detour.spreadingActivation (1 / 2) (.first 1 2) [0] 2).get? 3 = some (1 / 10) ∧
      ¬IsBestPath detour (1 / 2) [0] 2 (detour.spreadingActivation (1 / 2) (.first 2 1) [0] 2) := by
  have hfar : (detour.spreadingActivation (1 / 2) (.first 2 1) [0] 2).get? 3 = some 1 := by
    decide +kernel
  have hdecay : (0 : ℚ) ≤ 1 / 2 := by norm_num
  refine ⟨detour_valid, hfar, by decide +kernel, fun h => ?_⟩
  have hbest := (isGreatest_iff (factor_nonneg detour_valid hdecay) one_pos).mp ((h 3 1).mp hfar).2
  exact absurd hbest (by decide +kernel)

end Companion.Memory.Hebbian

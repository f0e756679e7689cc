import Mathlib.Data.List.DropRight
import Mathlib.Data.List.Sort

/-!
# Sorting by a total preorder

What the insertion sort of Mathlib does to a list that grows at its end, for a relation under which
different elements may be equal: the sort is stable, so that it commutes with a filter, and a new
element goes after all that it is not less than. The last lemmas are on the last elements of a list.
-/

namespace Companion.Sorting

variable {α : Type*} {r : α → α → Prop} [DecidableRel r] [IsTrans α r]

/-- A filter of a sorted list with one more element. -/
theorem filter_orderedInsert (p : α → Bool) (a : α) {l : List α} (hl : l.Pairwise r) :
    (l.orderedInsert r a).filter p =
      if p a then (l.filter p).orderedInsert r a else l.filter p := by
  induction l with
  | nil => cases hp : p a <;> simp [hp]
  | cons b l ih =>
    obtain ⟨hb, hl'⟩ := List.pairwise_cons.mp hl
    rw [List.orderedInsert_cons]
    by_cases hab : r a b
    · rw [if_pos hab, List.filter_cons]
      split_ifs with hp
      · -- All that the filter keeps is after `b`, and so after `a`.
        have hrest : ∀ c ∈ (b :: l).filter p, r a c := by
          intro c hc
          obtain rfl | hc := List.mem_cons.mp (List.mem_of_mem_filter hc)
          · exact hab
          · exact IsTrans.trans _ _ _ hab (hb c hc)
        cases hkept : (b :: l).filter p with
        | nil => rfl
        | cons c rest => rw [List.orderedInsert_cons_of_le r _ (hrest c (by simp [hkept]))]
      · rfl
    · rw [if_neg hab, List.filter_cons, List.filter_cons, ih hl']
      split_ifs with hpb hpa
      · rw [List.orderedInsert_of_not_le r _ hab]
      · rfl
      · rfl
      · rfl

omit [IsTrans α r] in
/-- The sort looks at no more than whether an element is before a later one. -/
theorem insertionSort_congr {s : α → α → Prop} [DecidableRel s] {l : List α}
    (h : l.Pairwise fun a b => r a b ↔ s a b) : l.insertionSort r = l.insertionSort s := by
  induction l with
  | nil => rfl
  | cons a l ih =>
    obtain ⟨ha, hl⟩ := List.pairwise_cons.mp h
    have hinsert : ∀ l' : List α, (∀ b ∈ l', r a b ↔ s a b) →
        l'.orderedInsert r a = l'.orderedInsert s a := by
      intro l' hl'
      induction l' with
      | nil => rfl
      | cons b l' ih' =>
        rw [List.orderedInsert_cons, List.orderedInsert_cons,
          ih' fun c hc => hl' c (List.mem_cons_of_mem _ hc)]
        exact if_congr (hl' b List.mem_cons_self) rfl rfl
    rw [List.insertionSort_cons, List.insertionSort_cons, ih hl]
    exact hinsert _ fun b hb => ha b ((List.mem_insertionSort s).mp hb)

variable [Std.Total r]

/-- The sort is stable. -/
theorem filter_insertionSort (p : α → Bool) (l : List α) :
    (l.insertionSort r).filter p = (l.filter p).insertionSort r := by
  induction l with
  | nil => rfl
  | cons a l ih =>
    rw [List.insertionSort_cons, filter_orderedInsert p a (List.pairwise_insertionSort r l), ih,
      List.filter_cons]
    split_ifs <;> rfl

/-- An element that is inserted before `a`, or in the rest of a list after it. -/
theorem orderedInsert_append_cons (x a : α) {l l' : List α} (hl : ¬ r x a → ∀ b ∈ l, ¬ r x b) :
    (l ++ a :: l').orderedInsert r x =
      if r x a then l.orderedInsert r x ++ a :: l' else l ++ a :: l'.orderedInsert r x := by
  induction l with
  | nil => rw [List.nil_append, List.orderedInsert_cons]; rfl
  | cons b l ih =>
    rw [List.cons_append, List.orderedInsert_cons,
      ih fun hxa c hc => hl hxa c (List.mem_cons_of_mem _ hc)]
    by_cases hxa : r x a
    · rw [if_pos hxa, if_pos hxa, List.orderedInsert_cons]
      split_ifs <;> rfl
    · rw [if_neg hxa, if_neg hxa, if_neg (hl hxa b List.mem_cons_self)]
      rfl

omit [DecidableRel r] [IsTrans α r] [Std.Total r] in
/-- A sorted list is what satisfies `p`, and then the rest, where what is before such an element
satisfies it too. -/
theorem filter_append_filter {p : α → Prop} [DecidablePred p] (hp : ∀ b c, r b c → p c → p b)
    {l : List α} (hl : l.Pairwise r) : l.filter (p ·) ++ l.filter (¬ p ·) = l := by
  induction l with
  | nil => rfl
  | cons b l ih =>
    obtain ⟨hb, hl'⟩ := List.pairwise_cons.mp hl
    by_cases hpb : p b
    · rw [List.filter_cons_of_pos (by simpa using hpb), List.filter_cons_of_neg (by simpa using hpb),
        List.cons_append, ih hl']
    · have hnone : l.filter (p ·) = [] := by
        refine List.filter_eq_nil_iff.mpr fun c hc => ?_
        rw [decide_eq_true_eq]
        exact fun hpc => hpb (hp b c (hb c hc) hpc)
      rw [List.filter_cons_of_neg (by simpa using hpb), List.filter_cons_of_pos (by simpa using hpb)]
      have hrest := ih hl'
      rw [hnone, List.nil_append] at hrest ⊢
      rw [hrest]

/-- A new element goes after all that are not after it. -/
theorem insertionSort_concat (l : List α) (a : α) :
    (l ++ [a]).insertionSort r =
      (l.insertionSort r).filter (fun b => decide (r b a)) ++
        a :: (l.insertionSort r).filter (fun b => decide ¬ r b a) := by
  induction l with
  | nil => rfl
  | cons x l ih =>
    have hsorted := List.pairwise_insertionSort r l
    rw [List.cons_append, List.insertionSort_cons, ih, List.insertionSort_cons,
      filter_orderedInsert _ _ hsorted, filter_orderedInsert _ _ hsorted,
      orderedInsert_append_cons]
    · by_cases hxa : r x a
      · simp [hxa]
      · simp [hxa]
    · intro hxa b hb hxb
      have hba : r b a := by simpa using (List.mem_filter.mp hb).2
      exact hxa (IsTrans.trans _ _ _ hxb hba)

section

omit [DecidableRel r] [IsTrans α r] [Std.Total r]

/-- The last `n` of a list with enough elements at its end. -/
theorem drop_append_of_le {n : ℕ} (l : List α) {l' : List α} (h : n ≤ l'.length) :
    (l ++ l').drop ((l ++ l').length - n) = l'.drop (l'.length - n) := by
  rw [List.length_append, show l.length + l'.length - n = l.length + (l'.length - n) by omega,
    List.drop_append, List.drop_eq_nil_of_le (by omega), List.nil_append]
  congr 1
  omega

/-- The last `n` of two lists with the same end agree where those before the end do. -/
theorem drop_append_eq_iff {n : ℕ} (k l e : List α) :
    (k ++ e).drop ((k ++ e).length - n) = (l ++ e).drop ((l ++ e).length - n) ↔
      k.drop (k.length - (n - e.length)) = l.drop (l.length - (n - e.length)) := by
  have hlast : ∀ k : List α, (k ++ e).drop ((k ++ e).length - n) =
      k.drop (k.length - (n - e.length)) ++ e.drop (e.length - n) := by
    intro k
    rw [List.drop_append, List.length_append]
    congr 1
    · by_cases hle : n ≤ e.length
      · rw [List.drop_eq_nil_of_le (by omega), List.drop_eq_nil_of_le (by omega)]
      · congr 1
        omega
    · congr 1
      omega
  rw [hlast, hlast, List.append_left_inj]

/-- Two lists that agree in their last `n` agree in fewer. -/
theorem drop_eq_of_le {m n : ℕ} {k l : List α} (hmn : m ≤ n)
    (h : k.drop (k.length - n) = l.drop (l.length - n)) :
    k.drop (k.length - m) = l.drop (l.length - m) := by
  have hfewer : ∀ k : List α, k.drop (k.length - m) =
      (k.drop (k.length - n)).drop ((k.drop (k.length - n)).length - m) := by
    intro k
    rw [List.drop_drop, List.length_drop]
    congr 1
    omega
  rw [hfewer k, hfewer l, h]

/-- Lists whose last `n` agree before an end do so before one that is longer. -/
theorem drop_append_eq_of_le {n : ℕ} {k l e e' : List α} (he : e.length ≤ e'.length)
    (h : (k ++ e).drop ((k ++ e).length - n) = (l ++ e).drop ((l ++ e).length - n)) :
    (k ++ e').drop ((k ++ e').length - n) = (l ++ e').drop ((l ++ e').length - n) :=
  (drop_append_eq_iff k l e').mpr
    (drop_eq_of_le (Nat.sub_le_sub_left he n) ((drop_append_eq_iff k l e).mp h))

end

end Companion.Sorting

import Mathlib.Algebra.Order.Field.Basic
import Mathlib.Data.List.Pairwise
import Mathlib.Data.List.Sort
import Mathlib.Tactic.FieldSimp
import Mathlib.Tactic.Linarith
import Mathlib.Tactic.Ring

/-!
# Cuts of a list of numbers

A threshold cuts a list into the numbers that reach it and the others. A list with `n` elements has
at most `n + 1` cuts, and each is made by one of `n + 1` thresholds (`exists_candidate`): one below
all, one above all, and the midpoints of neighbours. A scan of the thresholds that keeps the first
of the best (`keepBest`) is thus as good as one of all numbers, and of the cuts that are as good it
finds the largest (`scan_best`).
-/

namespace Companion.Cuts

/-! ## The first of the best -/

section Scan

variable {α β : Type*} [LinearOrder β] {f : α → β} {l : List α} {init : β × α}

/-- A better element takes the place of the best so far. -/
def keepBest (f : α → β) (best : β × α) (a : α) : β × α := if best.1 < f a then (f a, a) else best

/-- A scan keeps what it had, or finds the first of the best. -/
theorem foldl_keepBest (f : α → β) (l : List α) (init : β × α) :
    (l.foldl (keepBest f) init = init ∧ ∀ x ∈ l, f x ≤ init.1) ∨
      ∃ l₁ a l₂, l = l₁ ++ a :: l₂ ∧ l.foldl (keepBest f) init = (f a, a) ∧ init.1 < f a ∧
        (∀ x ∈ l₁, f x < f a) ∧ ∀ x ∈ l₂, f x ≤ f a := by
  induction l generalizing init with
  | nil => exact .inl ⟨rfl, List.forall_mem_nil _⟩
  | cons b l ih =>
    rw [List.foldl_cons]
    by_cases hb : init.1 < f b
    · have hkeep : keepBest f init b = (f b, b) := if_pos hb
      rw [hkeep]
      rcases @ih (f b, b) with ⟨heq, hle⟩ | ⟨l₁, a, l₂, rfl, heq, hlt, hbefore, hafter⟩
      · exact .inr ⟨[], b, l, rfl, heq, hb, List.forall_mem_nil _, hle⟩
      · refine .inr ⟨b :: l₁, a, l₂, rfl, heq, hb.trans hlt, ?_, hafter⟩
        exact List.forall_mem_cons.mpr ⟨hlt, hbefore⟩
    · have hkeep : keepBest f init b = init := if_neg hb
      rw [hkeep]
      have hb : f b ≤ init.1 := not_lt.mp hb
      rcases @ih init with ⟨heq, hle⟩ | ⟨l₁, a, l₂, rfl, heq, hlt, hbefore, hafter⟩
      · exact .inl ⟨heq, List.forall_mem_cons.mpr ⟨hb, hle⟩⟩
      · refine .inr ⟨b :: l₁, a, l₂, rfl, heq, hlt, ?_, hafter⟩
        exact List.forall_mem_cons.mpr ⟨hb.trans_lt hlt, hbefore⟩

/-- A scan of elements that are renamed. -/
theorem foldl_keepBest_map {γ : Type*} {f' : γ → β} (g : α → γ) (h : ∀ a, f' (g a) = f a)
    (l : List α) (b : β) (a : α) :
    (l.map g).foldl (keepBest f') (b, g a) =
      ((l.foldl (keepBest f) (b, a)).1, g (l.foldl (keepBest f) (b, a)).2) := by
  induction l generalizing b a with
  | nil => rfl
  | cons x l ih =>
    rw [List.map_cons, List.foldl_cons, List.foldl_cons, keepBest, keepBest, h]
    split_ifs
    · exact ih (f x) x
    · exact ih b a

end Scan

/-! ## The candidates -/

variable {𝕜 : Type*} [Field 𝕜]

local instance atLeastTwo_two : Nat.AtLeastTwo 2 := ⟨by decide⟩

/-- The midpoints of neighbours. -/
def midpoints (l : List 𝕜) : List 𝕜 := l.zipWith (fun a b => (a + b) / 2) l.tail

/-- A threshold for each cut of a list that is sorted. -/
def candidates : List 𝕜 → List 𝕜
  | [] => []
  | a :: l => (a - 1) :: (midpoints (a :: l) ++ [(a :: l).getLast (List.cons_ne_nil a l) + 1])

theorem midpoints_cons (a b : 𝕜) (l : List 𝕜) :
    midpoints (a :: b :: l) = (a + b) / 2 :: midpoints (b :: l) := rfl

/-- The candidates of a list that is shifted. -/
theorem candidates_map_add [CharZero 𝕜] (c : 𝕜) (l : List 𝕜) :
    candidates (l.map (· + c)) = (candidates l).map (· + c) := by
  have hmid : ∀ l : List 𝕜, midpoints (l.map (· + c)) = (midpoints l).map (· + c) := by
    intro l
    rw [midpoints, midpoints, ← List.map_tail, List.zipWith_map, List.map_zipWith]
    congr 1
    funext a b
    field_simp
    ring
  cases l with
  | nil => rfl
  | cons a l =>
    have hlast : ((a :: l).map (· + c)).getLast (by simp) =
        (a :: l).getLast (List.cons_ne_nil a l) + c := List.getLast_map _
    have hcons : candidates ((a :: l).map (· + c)) = (a + c - 1) ::
        (midpoints ((a :: l).map (· + c)) ++ [((a :: l).map (· + c)).getLast (by simp) + 1]) := rfl
    rw [hcons, hmid, hlast, candidates, List.map_cons, List.map_append, List.map_singleton]
    congr 1
    · ring
    · congr 2
      ring

variable [LinearOrder 𝕜] [IsStrictOrderedRing 𝕜] {l : List 𝕜} {a t : 𝕜}

theorem le_midpoints (h : (a :: l).Pairwise (· ≤ ·)) : ∀ c ∈ midpoints (a :: l), a ≤ c := by
  induction l generalizing a with
  | nil => nofun
  | cons b l ih =>
    have hab : a ≤ b := List.rel_of_pairwise_cons h List.mem_cons_self
    rw [midpoints_cons]
    refine List.forall_mem_cons.mpr ⟨by linarith, fun c hc => ?_⟩
    exact hab.trans (ih (List.pairwise_cons.mp h).2 c hc)

theorem midpoints_le (h : (a :: l).Pairwise (· ≤ ·)) :
    ∀ c ∈ midpoints (a :: l), c ≤ (a :: l).getLast (List.cons_ne_nil a l) := by
  induction l generalizing a with
  | nil => nofun
  | cons b l ih =>
    have hab : a ≤ b := List.rel_of_pairwise_cons h List.mem_cons_self
    have htail := (List.pairwise_cons.mp h).2
    have hlast : b ≤ (b :: l).getLast (List.cons_ne_nil b l) := htail.rel_getLast List.mem_cons_self
    rw [midpoints_cons, List.getLast_cons (List.cons_ne_nil b l)]
    exact List.forall_mem_cons.mpr ⟨by linarith, ih htail⟩

theorem pairwise_midpoints (h : l.Pairwise (· ≤ ·)) : (midpoints l).Pairwise (· ≤ ·) := by
  induction l with
  | nil => exact .nil
  | cons a l ih =>
    cases l with
    | nil => exact .nil
    | cons b l =>
      have hab : a ≤ b := List.rel_of_pairwise_cons h List.mem_cons_self
      have htail := (List.pairwise_cons.mp h).2
      rw [midpoints_cons, List.pairwise_cons]
      refine ⟨fun c hc => ?_, ih htail⟩
      have hbc := le_midpoints htail c hc
      linarith

theorem pairwise_candidates (h : l.Pairwise (· ≤ ·)) : (candidates l).Pairwise (· ≤ ·) := by
  cases l with
  | nil => exact .nil
  | cons a l =>
    have hlast : a ≤ (a :: l).getLast (List.cons_ne_nil a l) := h.rel_getLast List.mem_cons_self
    rw [candidates, List.pairwise_cons, List.pairwise_append]
    refine ⟨fun c hc => ?_, pairwise_midpoints h, List.pairwise_singleton _ _, fun c hc d hd => ?_⟩
    · obtain hc | hc := List.mem_append.mp hc
      · have := le_midpoints h c hc
        linarith
      · rw [List.mem_singleton.mp hc]
        linarith
    · rw [List.mem_singleton.mp hd]
      have := midpoints_le h c hc
      linarith

/-- Past the first number, a threshold is above all or cuts as one of the midpoints does. -/
theorem exists_midpoint (h : (a :: l).Pairwise (· ≤ ·)) (ha : a < t) :
    (∀ x ∈ a :: l, x < t) ∨ ∃ c ∈ midpoints (a :: l), ∀ x ∈ a :: l, c ≤ x ↔ t ≤ x := by
  induction l generalizing a with
  | nil => exact .inl (List.forall_mem_singleton.mpr ha)
  | cons b l ih =>
    have hab : a ≤ b := List.rel_of_pairwise_cons h List.mem_cons_self
    have htail := (List.pairwise_cons.mp h).2
    rw [midpoints_cons]
    obtain htb | hbt := le_or_gt t b
    · -- The threshold is between the two.
      refine .inr ⟨_, List.mem_cons_self, List.forall_mem_cons.mpr ⟨?_, fun x hx => ?_⟩⟩
      · exact iff_of_false (by linarith) (not_le.mpr ha)
      · have hbx : b ≤ x := by
          obtain rfl | hx := List.mem_cons.mp hx
          · exact le_rfl
          · exact List.rel_of_pairwise_cons htail hx
        exact iff_of_true (by linarith) (htb.trans hbx)
    · rcases ih htail hbt with hall | ⟨c, hc, hcut⟩
      · exact .inl (List.forall_mem_cons.mpr ⟨ha, hall⟩)
      · refine .inr ⟨c, List.mem_cons_of_mem _ hc, List.forall_mem_cons.mpr ⟨?_, hcut⟩⟩
        have hbc : ¬ c ≤ b := fun hle => not_le.mpr hbt ((hcut b List.mem_cons_self).mp hle)
        exact iff_of_false (fun hle => hbc (hle.trans hab)) (not_le.mpr ha)

/-- Each cut is that of a candidate. -/
theorem exists_candidate (h : l.Pairwise (· ≤ ·)) (hne : l ≠ []) (t : 𝕜) :
    ∃ c ∈ candidates l, ∀ x ∈ l, c ≤ x ↔ t ≤ x := by
  cases l with
  | nil => exact absurd rfl hne
  | cons a l =>
    obtain hta | hat := le_or_gt t a
    · refine ⟨a - 1, List.mem_cons_self, fun x hx => ?_⟩
      have hax : a ≤ x := by
        obtain rfl | hx := List.mem_cons.mp hx
        · exact le_rfl
        · exact List.rel_of_pairwise_cons h hx
      exact iff_of_true (by linarith) (hta.trans hax)
    · rcases exists_midpoint h hat with hall | ⟨c, hc, hcut⟩
      · refine ⟨_, List.mem_cons_of_mem _ (List.mem_append_right _ (List.mem_singleton_self _)),
          fun x hx => iff_of_false ?_ (not_le.mpr (hall x hx))⟩
        have hlast : x ≤ (a :: l).getLast (List.cons_ne_nil a l) :=
          List.Pairwise.rel_getLast h hx
        linarith
      · exact ⟨c, List.mem_cons_of_mem _ (List.mem_append_left _ hc), hcut⟩

/-- The scan of the candidates finds a best cut, and the largest of them. -/
theorem scan_best {β : Type*} [LinearOrder β] {f : 𝕜 → β} {b : β} {i : 𝕜}
    (h : l.Pairwise (· ≤ ·)) (hne : l ≠ []) (hb : ∀ t, b < f t)
    (hcongr : ∀ t t', (∀ x ∈ l, t ≤ x ↔ t' ≤ x) → f t = f t') (t : 𝕜) :
    f t ≤ f ((candidates l).foldl (keepBest f) (b, i)).2 ∧
      (f t = f ((candidates l).foldl (keepBest f) (b, i)).2 →
        ∀ x ∈ l, t ≤ x → ((candidates l).foldl (keepBest f) (b, i)).2 ≤ x) := by
  obtain ⟨c, hc, hcut⟩ := exists_candidate h hne t
  have hsame : f c = f t := hcongr c t hcut
  rcases foldl_keepBest f (candidates l) (b, i) with
    ⟨-, hle⟩ | ⟨l₁, a, l₂, hsplit, hscan, -, hbefore, hafter⟩
  · exact absurd (hle c hc) (not_le.mpr (hb c))
  · rw [hscan, ← hsame]
    dsimp only
    have hsorted := pairwise_candidates h
    rw [hsplit] at hc hsorted
    obtain hc | hc := List.mem_append.mp hc
    · exact ⟨(hbefore c hc).le, fun heq => absurd heq (hbefore c hc).ne⟩
    · have hac : a ≤ c := by
        obtain rfl | hc := List.mem_cons.mp hc
        · exact le_rfl
        · exact List.rel_of_pairwise_cons (List.pairwise_append.mp hsorted).2.1 hc
      refine ⟨?_, fun _ x hx htx => hac.trans ((hcut x hx).mpr htx)⟩
      obtain rfl | hc := List.mem_cons.mp hc
      · exact le_rfl
      · exact hafter c hc

end Companion.Cuts

import Mathlib.Algebra.Order.Field.Basic
import Mathlib.Algebra.Order.BigOperators.Group.List
import Mathlib.Algebra.BigOperators.Group.List.Basic
import Mathlib.Tactic.FieldSimp
import Mathlib.Tactic.Linarith
import Mathlib.Tactic.Positivity
import Mathlib.Tactic.Ring

/-!
# The line of least squares

Points of the plane over an ordered field, and the line through them whose squared residuals have
the least sum. All of it depends on five moments of the points. `spread` is the determinant of the
normal equations; it is positive just where two points differ in their first coordinate
(`spread_pos`), and then the line is the one that solves them (`isLeast_iff`).
-/

namespace Companion.LeastSquares

variable {K : Type*} [Field K]

/-- The number of the points. -/
def count (ps : List (K × K)) : K := (ps.map fun _ => 1).sum

/-- The sum of the first coordinates. -/
def sumX (ps : List (K × K)) : K := (ps.map fun p => p.1).sum

def sumY (ps : List (K × K)) : K := (ps.map fun p => p.2).sum

def sumXY (ps : List (K × K)) : K := (ps.map fun p => p.1 * p.2).sum

def sumXX (ps : List (K × K)) : K := (ps.map fun p => p.1 * p.1).sum

/-- The sum of the squared residuals of the line `a + b * x`. -/
def residual (ps : List (K × K)) (a b : K) : K :=
  (ps.map fun p => (p.2 - (a + b * p.1)) ^ 2).sum

/-- The determinant of the normal equations. -/
def spread (ps : List (K × K)) : K := count ps * sumXX ps - sumX ps * sumX ps

/-- The rate of the line. -/
def slope (ps : List (K × K)) : K := (count ps * sumXY ps - sumX ps * sumY ps) / spread ps

/-- Where the line starts. -/
def intercept (ps : List (K × K)) : K := (sumY ps - slope ps * sumX ps) / count ps

theorem count_eq_length (ps : List (K × K)) : count ps = ps.length := by
  rw [count, List.map_const', List.sum_replicate, nsmul_one]

/-- Points that are all above the same one have no spread. -/
theorem spread_of_same {ps : List (K × K)} {x : K} (h : ∀ p ∈ ps, p.1 = x) : spread ps = 0 := by
  have hconst : ∀ k : K, (ps.map fun _ => k).sum = ps.length * k := by
    intro k
    rw [List.map_const', List.sum_replicate, nsmul_eq_mul]
  have hx : sumX ps = ps.length * x := by
    rw [sumX, List.map_congr_left h, hconst]
  have hxx : sumXX ps = ps.length * (x * x) := by
    rw [sumXX, List.map_congr_left fun p hp => by rw [h p hp], hconst]
  rw [spread, count_eq_length, hx, hxx]
  ring

theorem residual_eq (ps : List (K × K)) (a b : K) :
    residual ps a b = (ps.map fun p => p.2 ^ 2).sum - 2 * a * sumY ps - 2 * b * sumXY ps +
      a ^ 2 * count ps + 2 * a * b * sumX ps + b ^ 2 * sumXX ps := by
  unfold residual count sumX sumY sumXY sumXX
  induction ps with
  | nil => simp
  | cons p ps ih =>
    simp only [List.map_cons, List.sum_cons]
    rw [ih]
    ring

/-- A line that solves the normal equations, and what another one adds to its residual. -/
theorem residual_of_normal {ps : List (K × K)} {a b : K} (ha : a * count ps + b * sumX ps = sumY ps)
    (hb : a * sumX ps + b * sumXX ps = sumXY ps) (a' b' : K) :
    residual ps a' b' = residual ps a b + ((a' - a) ^ 2 * count ps +
      2 * (a' - a) * (b' - b) * sumX ps + (b' - b) ^ 2 * sumXX ps) := by
  rw [residual_eq, residual_eq, ← ha, ← hb]
  ring

/-- The line solves the normal equations. -/
theorem normal {ps : List (K × K)} (hcount : count ps ≠ 0) (hspread : spread ps ≠ 0) :
    intercept ps * count ps + slope ps * sumX ps = sumY ps ∧
      intercept ps * sumX ps + slope ps * sumXX ps = sumXY ps := by
  have hslope : slope ps * spread ps = count ps * sumXY ps - sumX ps * sumY ps :=
    div_mul_cancel₀ _ hspread
  have hintercept : intercept ps * count ps = sumY ps - slope ps * sumX ps :=
    div_mul_cancel₀ _ hcount
  refine ⟨by rw [hintercept, sub_add_cancel], ?_⟩
  refine mul_left_cancel₀ hcount ?_
  calc count ps * (intercept ps * sumX ps + slope ps * sumXX ps) =
        intercept ps * count ps * sumX ps + slope ps * (count ps * sumXX ps) := by ring
    _ = sumY ps * sumX ps + slope ps * spread ps := by rw [hintercept, spread]; ring
    _ = count ps * sumXY ps := by rw [hslope]; ring

/-- What another line adds is a sum of squares, up to the number of the points. -/
theorem added_eq (ps : List (K × K)) (u v : K) :
    count ps * (u ^ 2 * count ps + 2 * u * v * sumX ps + v ^ 2 * sumXX ps) =
      (u * count ps + v * sumX ps) ^ 2 + v ^ 2 * spread ps := by
  rw [spread]
  ring

/-- The spread is the sum of the squared distances from the mean, up to the number of the points. -/
theorem count_mul_spread (ps : List (K × K)) :
    count ps * spread ps = (ps.map fun p => (count ps * p.1 - sumX ps) ^ 2).sum := by
  have hexpand : ∀ c d : K, (ps.map fun p => (c * p.1 - d) ^ 2).sum =
      c ^ 2 * sumXX ps - 2 * c * d * sumX ps + d ^ 2 * count ps := by
    intro c d
    unfold count sumX sumXX
    induction ps with
    | nil => simp
    | cons p ps ih =>
      simp only [List.map_cons, List.sum_cons]
      rw [ih]
      ring
  rw [hexpand, spread]
  ring

variable [LinearOrder K]

/-- A line of least squares. -/
def IsLeast (ps : List (K × K)) (a b : K) : Prop := ∀ a' b', residual ps a b ≤ residual ps a' b'

variable [IsStrictOrderedRing K]

theorem count_pos {ps : List (K × K)} (h : ps ≠ []) : 0 < count ps := by
  rw [count_eq_length, Nat.cast_pos]
  exact List.length_pos_of_ne_nil h

theorem count_pos_of_spread {ps : List (K × K)} (h : spread ps ≠ 0) : 0 < count ps := by
  refine count_pos fun hnil => h ?_
  subst hnil
  simp [spread, count, sumX]

/-- The points differ in their first coordinate just where they have a spread. -/
theorem spread_pos {ps : List (K × K)} : 0 < spread ps ↔ ∃ p ∈ ps, ∃ q ∈ ps, p.1 ≠ q.1 := by
  have hsquares : ∀ s ∈ ps.map fun p => (count ps * p.1 - sumX ps) ^ 2, 0 ≤ s := by
    intro s hs
    obtain ⟨p, -, rfl⟩ := List.mem_map.mp hs
    exact sq_nonneg _
  constructor
  · intro h
    by_contra hsame
    push Not at hsame
    cases ps with
    | nil => simp [spread, count, sumX] at h
    | cons p ps =>
      exact h.ne' (spread_of_same fun q hq => hsame q hq p List.mem_cons_self)
  · rintro ⟨p, hp, q, hq, hne⟩
    have hcount := count_pos (List.ne_nil_of_mem hp)
    by_contra hspread
    -- All distances are zero, so that both points are at the mean.
    have hzero : (ps.map fun p => (count ps * p.1 - sumX ps) ^ 2).sum = 0 := by
      refine le_antisymm ?_ (List.sum_nonneg hsquares)
      rw [← count_mul_spread]
      exact mul_nonpos_of_nonneg_of_nonpos hcount.le (not_lt.mp hspread)
    have hmean : ∀ r ∈ ps, count ps * r.1 = sumX ps := by
      intro r hr
      have hr' := List.all_zero_of_le_zero_le_of_sum_eq_zero hsquares hzero (List.mem_map_of_mem hr)
      exact sub_eq_zero.mp ((pow_eq_zero_iff two_ne_zero).mp hr')
    exact hne (mul_left_cancel₀ hcount.ne' ((hmean p hp).trans (hmean q hq).symm))

/-- Where two points differ in `x`, the line is the one of least squares, and there is no other. -/
theorem isLeast_iff {ps : List (K × K)} (hspread : 0 < spread ps) {a b : K} :
    IsLeast ps a b ↔ a = intercept ps ∧ b = slope ps := by
  have hcount := count_pos_of_spread hspread.ne'
  obtain ⟨hx, hxx⟩ := normal hcount.ne' hspread.ne'
  have hadded := residual_of_normal hx hxx
  constructor
  · intro h
    -- It adds nothing to the residual, so that both squares are zero.
    have hle := h (intercept ps) (slope ps)
    rw [hadded a b, add_le_iff_nonpos_right] at hle
    have hzero := mul_nonpos_of_nonneg_of_nonpos hcount.le hle
    rw [added_eq] at hzero
    have hfirst : 0 ≤ ((a - intercept ps) * count ps + (b - slope ps) * sumX ps) ^ 2 := sq_nonneg _
    have hsecond : 0 ≤ (b - slope ps) ^ 2 * spread ps := by positivity
    have hb : b - slope ps = 0 := by
      have hprod : (b - slope ps) ^ 2 * spread ps = 0 := by linarith
      exact pow_eq_zero_iff two_ne_zero |>.mp ((mul_eq_zero.mp hprod).resolve_right hspread.ne')
    have ha : (a - intercept ps) * count ps = 0 := by
      rw [hb, zero_mul, add_zero] at hfirst hzero
      refine pow_eq_zero_iff two_ne_zero |>.mp (le_antisymm ?_ hfirst)
      linarith
    exact ⟨sub_eq_zero.mp ((mul_eq_zero.mp ha).resolve_right hcount.ne'), sub_eq_zero.mp hb⟩
  · rintro ⟨rfl, rfl⟩ a' b'
    rw [hadded a' b']
    refine le_add_of_nonneg_right ?_
    refine nonneg_of_mul_nonneg_right ?_ hcount
    rw [added_eq]
    positivity

end Companion.LeastSquares

import Mathlib.Algebra.Order.Ring.Nat
import Mathlib.Data.Nat.Log

/-!
# Rounding to 53 bits

Integers and integer parts of quotients as floats, rounded half to even.
-/

namespace Companion.Rounding

/-- A quotient that is rounded to an integer, half to even. -/
def roundHalfEven (a b : ℕ) : ℕ :=
  if 2 * (a % b) < b then a / b
  else if b < 2 * (a % b) then a / b + 1
  else a / b + a / b % 2

/-- `int(a / b)`, with the quotient as a float of 53 bits. Below one a float has more places than
are rounded to here. -/
def intQuotient (a b : ℕ) : ℕ :=
  roundHalfEven (a * 2 ^ 52) (b * 2 ^ Nat.log 2 (a / b)) * 2 ^ Nat.log 2 (a / b) / 2 ^ 52

/-- An integer as a float of 53 bits. -/
def roundNat (n : ℕ) : ℕ :=
  roundHalfEven n (2 ^ (Nat.log 2 n - 52)) * 2 ^ (Nat.log 2 n - 52)

theorem div_le_roundHalfEven (a b : ℕ) : a / b ≤ roundHalfEven a b := by
  unfold roundHalfEven
  split_ifs
  · exact Nat.le_refl _
  · exact Nat.le_succ _
  · exact Nat.le_add_right ..

/-- The float of a quotient is not below its integer part. -/
theorem div_le_intQuotient {a b : ℕ} (hb : 0 < b) (hone : 1 ≤ a / b) (hlt : a / b < 2 ^ 53) :
    a / b ≤ intQuotient a b := by
  obtain ⟨l, hl⟩ : ∃ l, l = Nat.log 2 (a / b) := ⟨_, rfl⟩
  have hl52 : l ≤ 52 := by
    rw [hl]
    exact Nat.lt_succ_iff.mp (Nat.log_lt_of_lt_pow (by omega) hlt)
  have hpow : 2 ^ (52 - l) * 2 ^ l = 2 ^ 52 := by rw [← pow_add, Nat.sub_add_cancel hl52]
  have hround : a / b * 2 ^ (52 - l) ≤ roundHalfEven (a * 2 ^ 52) (b * 2 ^ l) := by
    refine le_trans ?_ (div_le_roundHalfEven _ _)
    rw [Nat.le_div_iff_mul_le (Nat.mul_pos hb (Nat.two_pow_pos l))]
    calc a / b * 2 ^ (52 - l) * (b * 2 ^ l) = a / b * b * (2 ^ (52 - l) * 2 ^ l) :=
          Nat.mul_mul_mul_comm ..
      _ = a / b * b * 2 ^ 52 := by rw [hpow]
      _ ≤ a * 2 ^ 52 := Nat.mul_le_mul_right _ (Nat.div_mul_le_self a b)
  rw [intQuotient, ← hl, Nat.le_div_iff_mul_le (by decide)]
  calc a / b * 2 ^ 52 = a / b * 2 ^ (52 - l) * 2 ^ l := by rw [mul_assoc, hpow]
    _ ≤ roundHalfEven (a * 2 ^ 52) (b * 2 ^ l) * 2 ^ l := Nat.mul_le_mul_right _ hround

end Companion.Rounding

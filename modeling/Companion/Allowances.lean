import Mathlib.Algebra.Order.Field.Basic
import Mathlib.Tactic.Linarith
import Mathlib.Tactic.Ring

/-!
# Allowances that are refilled

An allowance has a level, which payments lower. Time raises it, by at most `rate` for each unit of
time, and never above `cap`. `level` is the level that is computed from the one stored at the last
payment.

What is paid within an interval of length `T` is at most `cap + rate * T`. `Within` is the invariant
that shows it, over the payments in their order: what is paid so far and what is left are together
at most what the interval started with and what was refilled since.
-/

namespace Companion.Allowances

variable {𝕜 : Type*} [Field 𝕜] [LinearOrder 𝕜] [IsStrictOrderedRing 𝕜]

/-- The level at `now`, where `stored` is the one at `stamp`. -/
def level (cap rate stored stamp now : 𝕜) : 𝕜 :=
  min cap (max 0 (stored + max 0 (now - stamp) * rate))

variable {cap rate stored stamp now now' : 𝕜}

theorem level_nonneg (hcap : 0 ≤ cap) : 0 ≤ level cap rate stored stamp now :=
  le_min hcap (le_max_left _ _)

theorem level_le_cap : level cap rate stored stamp now ≤ cap :=
  min_le_left _ _

/-- At its stamp a level is the stored one, where that is within the bounds. -/
theorem level_stamp (hnonneg : 0 ≤ stored) (hcap : stored ≤ cap) :
    level cap rate stored stamp stamp = stored := by
  have helapsed : max 0 (stamp - stamp) * rate = 0 := by rw [sub_self, max_self, zero_mul]
  rw [level, helapsed, add_zero, max_eq_right hnonneg, min_eq_right hcap]

/-- A level rises by at most the rate. -/
theorem level_le_add (hrate : 0 ≤ rate) (hnow : now ≤ now') :
    level cap rate stored stamp now' ≤ level cap rate stored stamp now + rate * (now' - now) := by
  have hrise : 0 ≤ rate * (now' - now) := mul_nonneg hrate (sub_nonneg.mpr hnow)
  have helapsed : max 0 (now' - stamp) ≤ max 0 (now - stamp) + (now' - now) := by
    refine max_le ?_ ?_
    · have hle : 0 ≤ max 0 (now - stamp) := le_max_left _ _
      linarith
    · have hle : now - stamp ≤ max 0 (now - stamp) := le_max_right _ _
      linarith
  have hsum : stored + max 0 (now' - stamp) * rate ≤
      stored + max 0 (now - stamp) * rate + rate * (now' - now) := by
    have hmul := mul_le_mul_of_nonneg_right helapsed hrate
    have hdist : (max 0 (now - stamp) + (now' - now)) * rate =
        max 0 (now - stamp) * rate + rate * (now' - now) := by ring
    linarith
  unfold level
  rw [← min_add_add_right]
  refine min_le_min (le_add_of_nonneg_right hrise) ?_
  rw [← max_add_add_right]
  exact max_le_max (by linarith) hsum

/-- What is paid within `T` from `start`, at the time `now` with a level `left`. -/
structure Within (cap rate start T now left paid : 𝕜) : Prop where
  bounded : paid ≤ cap + rate * T
  /-- Before the interval nothing is paid. -/
  before : now < start → paid = 0
  /-- In the interval, what is paid and what is left come from the cap and the refill. -/
  during : start ≤ now → now ≤ start + T → paid + left ≤ cap + rate * (now - start)

variable {start T left left' paid cost : 𝕜}

theorem Within.init (hcap : 0 ≤ cap) (hrate : 0 ≤ rate) (hT : 0 ≤ T) (hleft : left ≤ cap) :
    Within cap rate start T now left 0 where
  bounded := by
    have hrefill := mul_nonneg hrate hT
    linarith
  before _ := rfl
  during hstart _ := by
    have hrefill := mul_nonneg hrate (sub_nonneg.mpr hstart)
    linarith

/-- Time passes, and the level rises. -/
theorem Within.wait (h : Within cap rate start T now left paid) (hrate : 0 ≤ rate) (hnow : now ≤ now')
    (hleft : left' ≤ left + rate * (now' - now)) (hcap : left' ≤ cap) :
    Within cap rate start T now' left' paid where
  bounded := h.bounded
  before hbefore := h.before (lt_of_le_of_lt hnow hbefore)
  during hstart hend := by
    rcases lt_or_ge now start with hearly | hstarted
    · -- The interval starts with a level that is at most the cap.
      have hrefill := mul_nonneg hrate (sub_nonneg.mpr hstart)
      rw [h.before hearly]
      linarith
    · have hold := h.during hstarted (hnow.trans hend)
      have hsplit : rate * (now' - start) = rate * (now - start) + rate * (now' - now) := by ring
      linarith

/-- The level falls, by at least what is paid. -/
theorem Within.pay (h : Within cap rate start T now left paid) (hrate : 0 ≤ rate)
    (hnonneg : 0 ≤ left') (hleft : left' + cost ≤ left) :
    Within cap rate start T now left'
      (if start ≤ now ∧ now ≤ start + T then paid + cost else paid) := by
  split_ifs with hin
  · obtain ⟨hstart, hend⟩ := hin
    have hold := h.during hstart hend
    have hrefill : rate * (now - start) ≤ rate * T :=
      mul_le_mul_of_nonneg_left (by linarith) hrate
    refine ⟨by linarith, fun hbefore => absurd hstart (not_le.mpr hbefore), fun _ _ => by linarith⟩
  · exact ⟨h.bounded, h.before, fun hstart hend => absurd ⟨hstart, hend⟩ hin⟩

/-- The level falls, and nothing is paid. -/
theorem Within.drop (h : Within cap rate start T now left paid) (hleft : left' ≤ left) :
    Within cap rate start T now left' paid where
  bounded := h.bounded
  before := h.before
  during hstart hend := by
    have hold := h.during hstart hend
    linarith

end Companion.Allowances

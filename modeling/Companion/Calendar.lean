import Mathlib

/-!
# The Gregorian calendar

The dates of the days, which are counted from the first day of year 1. A date is of the calendar by
its fields. The date of a day is found as `datetime` does it, by the cycles of 400, 100 and 4 years,
and is the date whose day it is (`ordinal_ofOrdinal`).
-/

namespace Companion.Calendar

def isLeap (year : ℕ) : Bool := year % 4 = 0 && (year % 100 ≠ 0 || year % 400 = 0)

/-- The lengths of the months of a year. -/
def months (year : ℕ) : List ℕ :=
  [31, if isLeap year then 29 else 28, 31, 30, 31, 30, 31, 31, 30, 31, 30, 31]

structure Date where
  year : ℕ
  month : ℕ
  day : ℕ
  year_pos : 1 ≤ year
  month_mem : 1 ≤ month ∧ month ≤ 12
  day_mem : 1 ≤ day ∧ day ≤ (months year).getD (month - 1) 0
  deriving DecidableEq

/-- The days before a year. -/
def daysBefore (year : ℕ) : ℕ :=
  (year - 1) * 365 + (year - 1) / 4 - (year - 1) / 100 + (year - 1) / 400

/-- The day of a date: the number of those before it. -/
def Date.ordinal (d : Date) : ℕ :=
  daysBefore d.year + ((months d.year).take (d.month - 1)).sum + (d.day - 1)

/-- The month and the day of the month, by the number of days before it and the lengths of the
months from one on. -/
def monthDay : List ℕ → ℕ → ℕ → ℕ × ℕ
  | length :: lengths, month, n =>
    if n < length then (month, n + 1) else monthDay lengths (month + 1) (n - length)
  | [], month, n => (month, n + 1)

/-- The year of a day, and the days before it in the year. -/
def yearDay (n : ℕ) : ℕ × ℕ :=
  let n₄₀₀ := n % 146097
  -- The last day of 400 years is one more than 4 times 100 years have, and so it is for 4 years.
  let centuries := min (n₄₀₀ / 36524) 3
  let n₁₀₀ := n₄₀₀ - 36524 * centuries
  let n₄ := n₁₀₀ % 1461
  let years := min (n₄ / 365) 3
  (400 * (n / 146097) + 100 * centuries + 4 * (n₁₀₀ / 1461) + years + 1, n₄ - 365 * years)

/-! ## Years -/

theorem sum_months (year : ℕ) : (months year).sum = if isLeap year then 366 else 365 := by
  unfold months
  split_ifs <;> rfl

theorem isLeap_iff (year : ℕ) :
    isLeap year = true ↔ year % 4 = 0 ∧ (year % 100 ≠ 0 ∨ year % 400 = 0) := by
  simp [isLeap]

/-- The year of a day by its 400, 100 and 4 years and the single ones. Only the last of 4 years has
another day, and of the last 4 of 100 years only every fourth. -/
theorem yearDay_parts (n : ℕ) :
    ∃ a b c d rest, yearDay n = (400 * a + 100 * b + 4 * c + d + 1, rest) ∧
      b ≤ 3 ∧ c ≤ 24 ∧ d ≤ 3 ∧ n = 146097 * a + 36524 * b + 1461 * c + 365 * d + rest ∧
      (rest < 365 ∨ rest = 365 ∧ d = 3 ∧ (c ≠ 24 ∨ b = 3)) := by
  have hm : n % 146097 < 146097 := Nat.mod_lt _ (by decide)
  -- The last of 4 centuries has a day more, which `min` keeps in it.
  obtain ⟨b, hb⟩ : ∃ b, min (n % 146097 / 36524) 3 = b := ⟨_, rfl⟩
  have hb3 : b ≤ 3 ∧ 36524 * b ≤ n % 146097 ∧
      (n % 146097 < 36524 * b + 36524 ∨ n % 146097 = 36524 * b + 36524 ∧ b = 3) := by omega
  obtain ⟨r, hr⟩ : ∃ r, n % 146097 - 36524 * b = r := ⟨_, rfl⟩
  -- So has the last of 4 years.
  obtain ⟨d, hd⟩ : ∃ d, min (r % 1461 / 365) 3 = d := ⟨_, rfl⟩
  have hd3 : d ≤ 3 ∧ 365 * d ≤ r % 1461 ∧
      (r % 1461 < 365 * d + 365 ∨ r % 1461 = 365 * d + 365 ∧ d = 3) := by omega
  refine ⟨n / 146097, b, r / 1461, d, r % 1461 - 365 * d, ?_, hb3.1, ?_, hd3.1, ?_, ?_⟩
  · unfold yearDay
    dsimp only
    rw [hb, hr, hd]
  all_goals omega

theorem daysBefore_parts {a b c d : ℕ} (hb : b ≤ 3) (hc : c ≤ 24) (hd : d ≤ 3) :
    daysBefore (400 * a + 100 * b + 4 * c + d + 1) =
      146097 * a + 36524 * b + 1461 * c + 365 * d := by
  have h4 : (400 * a + 100 * b + 4 * c + d) / 4 = 100 * a + 25 * b + c := by omega
  have h100 : (400 * a + 100 * b + 4 * c + d) / 100 = 4 * a + b := by omega
  have h400 : (400 * a + 100 * b + 4 * c + d) / 400 = a := by omega
  rw [daysBefore, Nat.add_sub_cancel, h4, h100, h400]
  omega

theorem isLeap_parts {a b c d : ℕ} (hc : c ≤ 24) (hd : d = 3) (h : c ≠ 24 ∨ b = 3) :
    isLeap (400 * a + 100 * b + 4 * c + d + 1) = true := by
  rw [isLeap_iff]
  omega

/-- The day is in the year. -/
theorem yearDay_spec (n : ℕ) :
    daysBefore (yearDay n).1 + (yearDay n).2 = n ∧ (yearDay n).2 < (months (yearDay n).1).sum := by
  obtain ⟨a, b, c, d, rest, heq, hb, hc, hd, hn, hrest⟩ := yearDay_parts n
  rw [heq, sum_months, daysBefore_parts hb hc hd]
  refine ⟨hn.symm, ?_⟩
  rcases hrest with hlt | ⟨hlast, hthird, hcentury⟩
  · split_ifs <;> omega
  · rw [if_pos (isLeap_parts hc hthird hcentury), hlast]
    exact Nat.lt_succ_self 365

/-- A day before the year 10000 is in a year that is written with four digits. -/
theorem yearDay_lt {n : ℕ} (h : n < daysBefore 10000) : (yearDay n).1 < 10000 := by
  have hlast : daysBefore 10000 = 3652059 := rfl
  unfold yearDay
  dsimp only
  omega

/-! ## Months -/

/-- A day of the months is in one of them. -/
theorem monthDay_spec {lengths : List ℕ} {n : ℕ} (month : ℕ) (h : n < lengths.sum) :
    ∃ k < lengths.length, (monthDay lengths month n).1 = month + k ∧
      1 ≤ (monthDay lengths month n).2 ∧ (monthDay lengths month n).2 ≤ lengths.getD k 0 ∧
      (lengths.take k).sum + ((monthDay lengths month n).2 - 1) = n := by
  induction lengths generalizing month n with
  | nil => exact absurd h (Nat.not_lt_zero n)
  | cons length lengths ih =>
    rw [monthDay]
    split_ifs with hfirst
    · exact ⟨0, Nat.succ_pos _, rfl, Nat.succ_pos n, hfirst, by simp⟩
    · rw [List.sum_cons] at h
      obtain ⟨k, hk, hmonth, hpos, hle, hsum⟩ := ih (n := n - length) (month + 1) (by omega)
      refine ⟨k + 1, Nat.succ_lt_succ hk, by rw [hmonth]; omega, hpos, by simpa using hle, ?_⟩
      rw [List.take_succ_cons, List.sum_cons]
      omega

/-! ## Dates -/

/-- The month and the day in the year of a day. -/
theorem monthDay_yearDay (n : ℕ) :
    ∃ k < 12, (monthDay (months (yearDay n).1) 1 (yearDay n).2).1 = 1 + k ∧
      1 ≤ (monthDay (months (yearDay n).1) 1 (yearDay n).2).2 ∧
      (monthDay (months (yearDay n).1) 1 (yearDay n).2).2 ≤ (months (yearDay n).1).getD k 0 ∧
      ((months (yearDay n).1).take k).sum +
        ((monthDay (months (yearDay n).1) 1 (yearDay n).2).2 - 1) = (yearDay n).2 :=
  monthDay_spec 1 (yearDay_spec n).2

/-- The date of a day. -/
def Date.ofOrdinal (n : ℕ) : Date where
  year := (yearDay n).1
  month := (monthDay (months (yearDay n).1) 1 (yearDay n).2).1
  day := (monthDay (months (yearDay n).1) 1 (yearDay n).2).2
  year_pos := Nat.succ_pos _
  month_mem := by
    obtain ⟨k, hk, hmonth, -⟩ := monthDay_yearDay n
    omega
  day_mem := by
    obtain ⟨k, hk, hmonth, hpos, hle, -⟩ := monthDay_yearDay n
    rw [hmonth, Nat.add_sub_cancel_left]
    exact ⟨hpos, hle⟩

/-- The date of a day is the one whose day it is. -/
theorem ordinal_ofOrdinal (n : ℕ) : (Date.ofOrdinal n).ordinal = n := by
  obtain ⟨k, -, hmonth, -, -, hsum⟩ := monthDay_yearDay n
  have hyear := (yearDay_spec n).1
  unfold Date.ordinal Date.ofOrdinal
  dsimp only
  rw [hmonth, Nat.add_sub_cancel_left]
  omega

/-- The day before the year 2001, which ends four years, and the first day of a March. -/
example : (Date.ofOrdinal 730484).month = 12 ∧ (Date.ofOrdinal 730484).day = 31 ∧
    (Date.ofOrdinal 730179).month = 3 ∧ (Date.ofOrdinal 730179).year = 2000 := by decide

end Companion.Calendar

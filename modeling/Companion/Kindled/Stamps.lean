import Companion.Calendar
import Companion.Kindled.Envelope

/-!
# The stamps of an envelope

`_iso` of `brain/kindled_link/protocol.py`, which writes a time to its second, and `strptime` with
the same format. What `_iso` writes is read as the time cut to its second (`strptime_iso`).
-/

namespace Companion.Kindled.Stamps

open Companion.Memory Companion.Calendar

/-- `datetime.min`, from which the microseconds are counted here. -/
def minInstant : Instant := -62135596800000000

/-- A time without its microseconds. -/
def toSecond (t : Instant) : Instant := t / 1000000 * 1000000

def two (n : ℕ) : Points := [48 + n / 10 % 10, 48 + n % 10]

def four (n : ℕ) : Points := [48 + n / 1000 % 10, 48 + n / 100 % 10, 48 + n / 10 % 10, 48 + n % 10]

/-- `_iso`: the format is `%Y-%m-%dT%H:%M:%SZ`. -/
def iso (t : Instant) : Points :=
  let second := (t - minInstant).toNat / 1000000
  let date := Date.ofOrdinal (second / 86400)
  let time := second % 86400
  four date.year ++ 45 :: (two date.month ++ 45 :: (two date.day ++ 84 :: (two (time / 3600) ++
    58 :: (two (time / 60 % 60) ++ 58 :: (two (time % 60) ++ [90])))))

def digitValue (c : ℕ) : Option ℕ := if 48 ≤ c ∧ c ≤ 57 then some (c - 48) else none

/-- Four digits. -/
def readFour : Points → Option (ℕ × Points)
  | a :: b :: c :: d :: t =>
    (digitValue a).bind fun a => (digitValue b).bind fun b => (digitValue c).bind fun c =>
      (digitValue d).map fun d => (1000 * a + 100 * b + 10 * c + d, t)
  | _ => none

/-- One digit or two. -/
def readTwo : Points → Option (ℕ × Points)
  | [] => none
  | [a] => (digitValue a).map fun a => (a, [])
  | a :: b :: t =>
    (digitValue a).map fun a =>
      match digitValue b with
      | none => (a, b :: t)
      | some b => (10 * a + b, t)

/-- A day of one digit may have a blank before it. -/
def readDay : Points → Option (ℕ × Points)
  | 32 :: c :: t => if c = 48 then none else (digitValue c).map fun c => (c, t)
  | t => readTwo t

/-- One of some characters. -/
def expect (cs : List ℕ) : Points → Option Points
  | [] => none
  | c :: t => if c ∈ cs then some t else none

/-- A date, where there is one of these fields. -/
def date? (year month day : ℕ) : Option Date :=
  if h : 1 ≤ year ∧ (1 ≤ month ∧ month ≤ 12) ∧
      1 ≤ day ∧ day ≤ (months year).getD (month - 1) 0 then
    some ⟨year, month, day, h.1, h.2.1, h.2.2⟩
  else none

/-- `datetime.strptime`, which matches letters in either case. -/
def strptime (text : Points) : Option Instant :=
  (readFour text).bind fun (year, t) => (expect [45] t).bind fun t =>
  (readTwo t).bind fun (month, t) => (expect [45] t).bind fun t =>
  (readDay t).bind fun (day, t) => (expect [84, 116] t).bind fun t =>
  (readTwo t).bind fun (hour, t) => (expect [58] t).bind fun t =>
  (readTwo t).bind fun (minute, t) => (expect [58] t).bind fun t =>
  (readTwo t).bind fun (second, t) => (expect [90, 122] t).bind fun t =>
  (date? year month day).bind fun date =>
    if hour < 24 ∧ minute < 60 ∧ second < 60 ∧ t = [] then
      some (minInstant +
        (((date.ordinal * 24 + hour) * 60 + minute) * 60 + second : ℕ) * 1000000)
    else none

/-! ## Digits -/

theorem digitValue_digit (n : ℕ) : digitValue (48 + n % 10) = some (n % 10) := by
  have hlt : n % 10 < 10 := Nat.mod_lt _ (by decide)
  rw [digitValue, if_pos (by omega), Nat.add_sub_cancel_left]

theorem readFour_four {n : ℕ} (h : n < 10000) (t : Points) : readFour (four n ++ t) = some (n, t) := by
  simp only [four, List.cons_append, List.nil_append, readFour, digitValue_digit, Option.bind_some,
    Option.map_some, Option.some.injEq, Prod.mk.injEq, and_true]
  omega

theorem readTwo_two {n : ℕ} (h : n < 100) (t : Points) : readTwo (two n ++ t) = some (n, t) := by
  simp only [two, List.cons_append, List.nil_append, readTwo, digitValue_digit, Option.map_some,
    Option.some.injEq, Prod.mk.injEq, and_true]
  omega

theorem readDay_two {n : ℕ} (h : n < 100) (t : Points) : readDay (two n ++ t) = some (n, t) := by
  have hblank : 48 + n / 10 % 10 ≠ 32 := by omega
  have hread := readTwo_two h t
  simp only [two, List.cons_append, List.nil_append] at hread ⊢
  rw [readDay, hread]
  intro c u heq
  exact absurd (List.cons.inj heq).1 hblank

/-- One reading, and what is left for the next ones. -/
theorem read_bind {α β : Type} {x : Option α} {a : α} (h : x = some a) (f : α → Option β) :
    x.bind f = f a := by rw [h, Option.bind_some]

theorem expect_cons {c : ℕ} {cs : List ℕ} (h : c ∈ cs) (t : Points) :
    expect cs (c :: t) = some t := if_pos h

/-- A stamp is ASCII. -/
theorem lt_of_mem_iso {t : Instant} {c : ℕ} (h : c ∈ iso t) : c < 0x80 := by
  simp only [iso, two, four, List.mem_append, List.mem_cons, List.not_mem_nil, or_false] at h
  omega

/-! ## Times -/

theorem date?_eq (d : Date) : date? d.year d.month d.day = some d :=
  dif_pos ⟨d.year_pos, d.month_mem, d.day_mem⟩

/-- A month has at most 31 days. -/
theorem day_le (d : Date) : d.day ≤ 31 := by
  have hall : ∀ k < 12, (months d.year).getD k 0 ≤ 31 := by
    intro k hk
    unfold months
    split_ifs
    · revert k
      decide
    · revert k
      decide
  have hmonth := d.month_mem
  exact d.day_mem.2.trans (hall _ (by omega))

/-- A time of a `datetime` by the microseconds from the first one. -/
theorem exists_nat {t : Instant} (hmin : minInstant ≤ t) (hmax : t ≤ maxInstant) :
    ∃ n : ℕ, t = minInstant + n ∧ (t - minInstant).toNat = n ∧ n < 315537897600000000 := by
  obtain ⟨n, hn⟩ := Int.eq_ofNat_of_zero_le (Int.sub_nonneg_of_le hmin)
  have hlast : maxInstant - minInstant = 315537897599999999 := rfl
  have hle : t - minInstant ≤ maxInstant - minInstant := Int.sub_le_sub_right hmax _
  rw [hn, hlast] at hle
  have hle : (n : ℤ) ≤ 315537897599999999 := hle
  refine ⟨n, by rw [← hn, Int.add_comm, Int.sub_add_cancel], by rw [hn]; rfl, ?_⟩
  omega

theorem toSecond_add (n : ℕ) :
    toSecond (minInstant + n) = minInstant + (n / 1000000 : ℕ) * 1000000 := by
  have hall : ∀ n : ℕ, ((-62135596800000000 : ℤ) + n) / 1000000 * 1000000 =
      -62135596800000000 + (n / 1000000 : ℕ) * 1000000 := by
    intro n
    omega
  exact hall n

/-- What is written of a time is read as the time to its second. -/
theorem strptime_iso {t : Instant} (hmin : minInstant ≤ t) (hmax : t ≤ maxInstant) :
    strptime (iso t) = some (toSecond t) := by
  obtain ⟨n, rfl, hnat, hlast⟩ := exists_nat hmin hmax
  obtain ⟨date, hdate⟩ : ∃ date, Date.ofOrdinal (n / 1000000 / 86400) = date := ⟨_, rfl⟩
  obtain ⟨time, htime⟩ : ∃ time, n / 1000000 % 86400 = time := ⟨_, rfl⟩
  have hlt : time < 86400 := htime ▸ Nat.mod_lt _ (by decide)
  have hordinal : date.ordinal = n / 1000000 / 86400 := by rw [← hdate, ordinal_ofOrdinal]
  have hyear : date.year < 10000 := by
    have hdays : daysBefore 10000 = 3652059 := rfl
    rw [← hdate]
    exact yearDay_lt (by omega)
  have hmonth := date.month_mem.2
  have hday := day_le date
  have hseconds : ((n / 1000000 / 86400 * 24 + time / 3600) * 60 + time / 60 % 60) * 60 + time % 60 =
      n / 1000000 := by omega
  have hfields : time / 3600 < 24 ∧ time / 60 % 60 < 60 ∧ time % 60 < 60 ∧ True :=
    ⟨by omega, by omega, by omega, trivial⟩
  -- The fields are read in the order in which they were written.
  rw [iso, hnat, hdate, htime, strptime]
  refine (read_bind (readFour_four hyear _) _).trans ?_
  refine (read_bind (expect_cons (by decide) _) _).trans ?_
  refine (read_bind (readTwo_two (by omega) _) _).trans ?_
  refine (read_bind (expect_cons (by decide) _) _).trans ?_
  refine (read_bind (readDay_two (by omega) _) _).trans ?_
  refine (read_bind (expect_cons (by decide) _) _).trans ?_
  refine (read_bind (readTwo_two (by omega) _) _).trans ?_
  refine (read_bind (expect_cons (by decide) _) _).trans ?_
  refine (read_bind (readTwo_two (by omega) _) _).trans ?_
  refine (read_bind (expect_cons (by decide) _) _).trans ?_
  refine (read_bind (readTwo_two (by omega) _) _).trans ?_
  refine (read_bind (expect_cons (by decide) _) _).trans ?_
  refine (read_bind (date?_eq date) _).trans ?_
  rw [if_pos ⟨by omega, by omega, by omega, rfl⟩, hordinal, hseconds, toSecond_add]

/-- A leap day, from the microseconds since 1970 and back. -/
example : iso 1709251199000001 = pts "2024-02-29T23:59:59Z" ∧
    strptime (pts "2024-2-29t23:59:59z") = some 1709251199000000 ∧
    strptime (pts "2023-02-29T23:59:59Z") = none := by decide +kernel

end Companion.Kindled.Stamps

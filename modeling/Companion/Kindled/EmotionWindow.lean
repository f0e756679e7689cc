import Companion.Kindled.Json
import Companion.Memory.Text
import Mathlib.Algebra.Order.Field.Basic
import Mathlib.Algebra.Order.Ring.Rat
import Mathlib.Tactic.Linarith

/-!
# The emotion window of a peer

`apply_peer_emotion` of `brain/kindled_link/relationship.py`, and the row of `peer_emotion_window`
that it charges (`brain/kindled_link/store.py`). The row has what a peer has moved so far, which
fades to nothing within the hours of the window. A delta is scaled so that what is there, and what
is applied, are together at most the cap.

The arithmetic is exact. A delta may have values that are not finite, and nothing of it is applied
then.
-/

namespace Companion.Kindled

open Companion.Memory

namespace FloatValue

/-- `abs` -/
def abs : FloatValue → FloatValue
  | finite x => finite |x|
  | infinite _ => infinite false
  | nan => nan

/-- `x + y` -/
def add : FloatValue → FloatValue → FloatValue
  | finite x, finite y => finite (x + y)
  | finite _, infinite negative => infinite negative
  | infinite negative, finite _ => infinite negative
  | infinite x, infinite y => if x = y then infinite x else nan
  | _, _ => nan

/-- `x * s` -/
def times (s : ℚ) : FloatValue → FloatValue
  | finite x => finite (x * s)
  | infinite negative =>
    if s = 0 then nan else infinite (xor negative (decide (s < 0)))
  | nan => nan

theorem add_eq_finite {x y : FloatValue} {m : ℚ} :
    x.add y = finite m ↔ ∃ a b, x = finite a ∧ y = finite b ∧ m = a + b := by
  constructor
  · intro h
    cases x with
    | finite a =>
      cases y with
      | finite b =>
        cases h
        exact ⟨a, b, rfl, rfl, rfl⟩
      | infinite negative => cases h
      | nan => cases h
    | infinite negative =>
      cases y with
      | infinite other =>
        have hsum : (if negative = other then infinite negative else nan) = finite m := h
        split_ifs at hsum
      | _ => cases h
    | nan => cases y <;> cases h
  · rintro ⟨a, b, rfl, rfl, rfl⟩
    rfl

theorem abs_eq_finite {x : FloatValue} {m : ℚ} :
    x.abs = finite m ↔ ∃ a, x = finite a ∧ m = |a| := by
  constructor
  · intro h
    cases x with
    | finite a =>
      cases h
      exact ⟨a, rfl, rfl⟩
    | _ => cases h
  · rintro ⟨a, rfl, rfl⟩
    rfl

end FloatValue

/-- The emotions of a moment, by their names. -/
abbrev Delta := List (Text × FloatValue)

/-- `{k: v * scale for k, v in delta.items()}` -/
def Delta.scaled (s : ℚ) (delta : Delta) : Delta := delta.map fun d => (d.1, d.2.times s)

/-- One value of the sum of a delta. -/
def addAbs (sum : FloatValue) (d : Text × FloatValue) : FloatValue := sum.add d.2.abs

/-- `sum(abs(v) for v in delta.values())` -/
def Delta.magnitude (delta : Delta) : FloatValue :=
  delta.foldl addAbs (.finite 0)

namespace EmotionWindow

/-- `KINDLED_LINK_PEER_EMOTION_WINDOW_CAP` -/
def windowCap : ℚ := 3 / 5

/-- `KINDLED_LINK_PEER_EMOTION_WINDOW_HOURS` -/
def windowHours : ℚ := 24

/-- `total_seconds() / 3600` -/
def hours (t : Instant) : ℚ := t / 3600000000

/-- A row of `peer_emotion_window`. -/
structure WindowRow where
  accumulated : ℚ
  updatedAt : Instant
  deriving DecidableEq

/-- `_decayed_window` -/
def decayedWindow (stored : ℚ) (updatedAt now : Instant) : ℚ :=
  let elapsed := hours (now - updatedAt)
  if elapsed ≤ 0 then stored else stored * max 0 (1 - elapsed / windowHours)

/-- `get_peer_emotion_accumulated` -/
def getPeerEmotionAccumulated (row : Option WindowRow) (now : Instant) : ℚ :=
  match row with
  | none => 0
  | some row => decayedWindow row.accumulated row.updatedAt now

/-- `add_peer_emotion` -/
def addPeerEmotion (row : Option WindowRow) (magnitude : FloatValue) (now : Instant) : WindowRow :=
  let added :=
    match magnitude with
    | .finite m => m
    | _ => 0
  ⟨getPeerEmotionAccumulated row now + max 0 added, now⟩

/-- `apply_peer_emotion`: what is applied, and the row after it. -/
def applyPeerEmotion (row : Option WindowRow) (delta : Delta) (now : Instant) :
    Delta × Option WindowRow :=
  match delta.magnitude with
  | .finite magnitude =>
    if magnitude ≤ 0 then ([], row)
    else
      let headroom := max 0 (windowCap - getPeerEmotionAccumulated row now)
      if headroom ≤ 0 then ([], row)
      else
        let scale := min 1 (headroom / magnitude)
        (delta.scaled scale, some (addPeerEmotion row (.finite (magnitude * scale)) now))
  | _ => ([], row)

/-- A call for the peer. -/
structure Call where
  delta : Delta
  now : Instant
  deriving DecidableEq

/-- The row after a sequence of calls. -/
def after (calls : List Call) : Option WindowRow :=
  calls.foldl (fun row c => (applyPeerEmotion row c.delta c.now).2) none

/-! ## The bound -/

/-- What is stored is within the bounds. -/
def Bounded (row : Option WindowRow) : Prop :=
  ∀ r, row = some r → 0 ≤ r.accumulated ∧ r.accumulated ≤ windowCap

variable {row : Option WindowRow} {delta : Delta} {now : Instant}

/-- What fades stays within the bounds. -/
theorem decayedWindow_bounds {stored : ℚ} {updatedAt : Instant} (hnonneg : 0 ≤ stored)
    (hcap : stored ≤ windowCap) :
    0 ≤ decayedWindow stored updatedAt now ∧ decayedWindow stored updatedAt now ≤ windowCap := by
  unfold decayedWindow
  dsimp only
  split_ifs with helapsed
  · exact ⟨hnonneg, hcap⟩
  · have hpos : 0 < hours (now - updatedAt) := not_le.mp helapsed
    have hfrac : 0 ≤ hours (now - updatedAt) / windowHours :=
      div_nonneg hpos.le (by norm_num [windowHours])
    have hle : max 0 (1 - hours (now - updatedAt) / windowHours) ≤ 1 :=
      max_le zero_le_one (by linarith)
    have hmul := mul_le_mul_of_nonneg_left hle hnonneg
    rw [mul_one] at hmul
    exact ⟨mul_nonneg hnonneg (le_max_left _ _), hmul.trans hcap⟩

theorem Bounded.accumulated (h : Bounded row) (now : Instant) :
    0 ≤ getPeerEmotionAccumulated row now ∧ getPeerEmotionAccumulated row now ≤ windowCap := by
  cases row with
  | none => exact ⟨le_rfl, by norm_num [getPeerEmotionAccumulated, windowCap]⟩
  | some r =>
    obtain ⟨hnonneg, hcap⟩ := h r rfl
    exact decayedWindow_bounds hnonneg hcap

/-- A row reads as it is at its own time. -/
theorem accumulated_addPeerEmotion {m : ℚ} (hm : 0 ≤ m) :
    getPeerEmotionAccumulated (some (addPeerEmotion row (.finite m) now)) now =
      getPeerEmotionAccumulated row now + m := by
  have helapsed : hours (now - now) ≤ 0 := by simp [hours]
  have hadded : (addPeerEmotion row (.finite m) now).accumulated =
      getPeerEmotionAccumulated row now + m := by
    rw [addPeerEmotion, max_eq_right hm]
  calc getPeerEmotionAccumulated (some (addPeerEmotion row (.finite m) now)) now
      = (addPeerEmotion row (.finite m) now).accumulated := if_pos helapsed
    _ = getPeerEmotionAccumulated row now + m := hadded

/-! ## What a call applies -/

/-- A sum that comes out finite has started from a finite value. -/
theorem exists_finite_of_foldl {x : FloatValue} {m : ℚ}
    (h : delta.foldl addAbs x = .finite m) : ∃ a, x = .finite a := by
  induction delta generalizing x with
  | nil => exact ⟨m, h⟩
  | cons d delta ih =>
    obtain ⟨a, ha⟩ := ih h
    obtain ⟨b, -, hb, -, -⟩ := FloatValue.add_eq_finite.mp ha
    exact ⟨b, hb⟩

/-- A sum of absolute values is scaled with its values. -/
theorem foldl_scaled {s a m : ℚ} (hs : 0 ≤ s)
    (h : delta.foldl addAbs (.finite a) = .finite m) :
    (delta.scaled s).foldl addAbs (.finite (a * s)) = .finite (m * s) := by
  induction delta generalizing a with
  | nil =>
    cases h
    rfl
  | cons d delta ih =>
    rw [List.foldl_cons] at h
    obtain ⟨c, hc⟩ := exists_finite_of_foldl h
    obtain ⟨a', b, ha', hb, rfl⟩ := FloatValue.add_eq_finite.mp hc
    obtain ⟨v, hv, rfl⟩ := FloatValue.abs_eq_finite.mp hb
    cases ha'
    rw [hc] at h
    have hterm : |v * s| = |v| * s := by rw [abs_mul, abs_of_nonneg hs]
    have hstep : addAbs (.finite (a * s)) (d.1, d.2.times s) = .finite ((a + |v|) * s) := by
      rw [addAbs, hv, add_mul, ← hterm]
      rfl
    calc (Delta.scaled s (d :: delta)).foldl addAbs (.finite (a * s))
        = (Delta.scaled s delta).foldl addAbs
            (addAbs (.finite (a * s)) (d.1, d.2.times s)) := rfl
      _ = (Delta.scaled s delta).foldl addAbs (.finite ((a + |v|) * s)) := by
          rw [hstep]
      _ = .finite (m * s) := ih h

theorem magnitude_scaled {s m : ℚ} (hs : 0 ≤ s) (h : delta.magnitude = .finite m) :
    (delta.scaled s).magnitude = .finite (m * s) := by
  have hfold := foldl_scaled hs h
  rwa [zero_mul] at hfold

/-- A call applies nothing and charges nothing, or it applies the scaled delta and charges its
magnitude, for which there is room. -/
theorem applyPeerEmotion_cases (row : Option WindowRow) (delta : Delta) (now : Instant) :
    applyPeerEmotion row delta now = ([], row) ∨
      ∃ m s, delta.magnitude = .finite m ∧ 0 < m ∧ 0 ≤ s ∧ s ≤ 1 ∧
        getPeerEmotionAccumulated row now + m * s ≤ windowCap ∧
        applyPeerEmotion row delta now =
          (delta.scaled s, some (addPeerEmotion row (.finite (m * s)) now)) := by
  dsimp only [applyPeerEmotion]
  split
  · next m hm =>
    split_ifs with hzero hfull
    · exact .inl rfl
    · exact .inl rfl
    · -- there is room: the delta is scaled down to it
      have hpos : 0 < m := not_le.mp hzero
      have hroom : 0 < max 0 (windowCap - getPeerEmotionAccumulated row now) := not_le.mp hfull
      have hleft : max 0 (windowCap - getPeerEmotionAccumulated row now) =
          windowCap - getPeerEmotionAccumulated row now := by
        rcases max_choice 0 (windowCap - getPeerEmotionAccumulated row now) with h | h
        · exact absurd h hroom.ne'
        · exact h
      refine .inr ⟨m, _, hm, hpos, le_min zero_le_one (div_nonneg hroom.le hpos.le),
        min_le_left _ _, ?_, rfl⟩
      have hscale : m * min 1 (max 0 (windowCap - getPeerEmotionAccumulated row now) / m) ≤
          max 0 (windowCap - getPeerEmotionAccumulated row now) := by
        have hle := mul_le_mul_of_nonneg_left
          (min_le_right 1 (max 0 (windowCap - getPeerEmotionAccumulated row now) / m)) hpos.le
        rwa [mul_div_cancel₀ _ hpos.ne'] at hle
      linarith
  · exact .inl rfl

/-- A call keeps the row within the bounds. -/
theorem Bounded.applyPeerEmotion (h : Bounded row) (delta : Delta) (now : Instant) :
    Bounded (applyPeerEmotion row delta now).2 := by
  rcases applyPeerEmotion_cases row delta now with hnone | ⟨m, s, -, hm, hs, -, hroom, hsome⟩
  · rw [hnone]
    exact h
  · rw [hsome]
    rintro _ ⟨⟩
    have hcharge : 0 ≤ m * s := mul_nonneg hm.le hs
    have hread := (h.accumulated now).1
    have hadded : (addPeerEmotion row (.finite (m * s)) now).accumulated =
        getPeerEmotionAccumulated row now + m * s := by
      rw [addPeerEmotion, max_eq_right hcharge]
    rw [hadded]
    exact ⟨by linarith, hroom⟩

theorem bounded_after (calls : List Call) : Bounded (after calls) := by
  have hfold : ∀ row, Bounded row →
      Bounded (calls.foldl (fun row c => (applyPeerEmotion row c.delta c.now).2) row) := by
    induction calls with
    | nil => exact fun row h => h
    | cons c calls ih => exact fun row h => ih _ (h.applyPeerEmotion c.delta c.now)
  exact hfold none nofun

/-- After every sequence of calls, what is read at any time is between zero and the cap. The next
call applies its delta times one scale between zero and one, or nothing, and it charges the row by
the absolute values that it applies. -/
theorem love_bomb_capped (calls : List Call) (c : Call) :
    let row := after calls
    let applied := (applyPeerEmotion row c.delta c.now).1
    let charged := getPeerEmotionAccumulated (after (calls ++ [c])) c.now -
      getPeerEmotionAccumulated row c.now
    (∀ now, 0 ≤ getPeerEmotionAccumulated row now ∧
        getPeerEmotionAccumulated row now ≤ windowCap) ∧
      (applied = [] ∨ ∃ s, 0 ≤ s ∧ s ≤ 1 ∧ applied = c.delta.scaled s) ∧
      applied.magnitude = .finite charged := by
  intro row applied charged
  have hnext : after (calls ++ [c]) = (applyPeerEmotion row c.delta c.now).2 := List.foldl_append
  refine ⟨(bounded_after calls).accumulated, ?_⟩
  rcases applyPeerEmotion_cases row c.delta c.now with
    hnone | ⟨m, s, hmagnitude, hm, hs, hone, -, hsome⟩
  · have happlied : applied = [] := by rw [show applied = _ from congrArg Prod.fst hnone]
    have hcharged : charged = 0 := by simp only [charged, hnext, hnone, sub_self]
    rw [happlied, hcharged]
    exact ⟨.inl rfl, rfl⟩
  · have happlied : applied = c.delta.scaled s := by
      rw [show applied = _ from congrArg Prod.fst hsome]
    have hcharged : charged = m * s := by
      simp only [charged, hnext, hsome]
      rw [accumulated_addPeerEmotion (mul_nonneg hm.le hs), add_sub_cancel_left]
    rw [happlied, hcharged]
    exact ⟨.inr ⟨s, hs, hone, rfl⟩, magnitude_scaled hs hmagnitude⟩

end EmotionWindow

end Companion.Kindled

import Companion.Initiate.Audit
import Mathlib.Algebra.Order.Ring.Rat
import Mathlib.Tactic.Linarith

/-!
# The gate of an outreach

`check_send_allowed` (`brain/initiate/gates.py`), on the rows of the active audit and on what is
known of the user's presence. The hour of the user's clock is a parameter. Hours and lags are exact.

What the gate lets through is `of_checkSendAllowed`: no more than the default cap were sent in the
last day, and none within half of the default gap.
-/

namespace Companion.Initiate

open Companion.Memory

/-- `UrgencyShort` -/
inductive Urgency
  | notify
  | quiet
  deriving DecidableEq

/-- `UserPresence` -/
structure UserPresence where
  silenceDays : ℚ
  ignoreStreak : ℕ
  likelyActive : Bool
  /-- In seconds. -/
  responseLagP50 : Option ℚ

/-- An hour in microseconds. -/
def hour : ℤ := 3600000000

namespace Urgency

/-- `send_{urgency}` -/
def decision : Urgency → Decision
  | notify => .sendNotify
  | quiet => .sendQuiet

/-- `DEFAULT_NOTIFY_CAP` and `DEFAULT_QUIET_CAP` -/
def defaultCap : Urgency → ℕ
  | notify => 3
  | quiet => 8

/-- `DEFAULT_NOTIFY_MIN_GAP_HOURS` and `DEFAULT_QUIET_MIN_GAP_HOURS` -/
def defaultGap : Urgency → ℚ
  | notify => 4
  | quiet => 1

/-- The cap, one higher after a silence of three days. -/
def cap (u : Urgency) (presence : Option UserPresence) : ℕ :=
  match presence with
  | some p => if p.ignoreStreak = 0 ∧ 3 ≤ p.silenceDays then u.defaultCap + 1 else u.defaultCap
  | none => u.defaultCap

/-- The gap in hours, after the ignored messages or the silence. -/
def streakGap (u : Urgency) (p : UserPresence) : ℚ :=
  if 6 ≤ p.ignoreStreak then
    match u with
    | notify => 24
    | quiet => 6
  else if 3 ≤ p.ignoreStreak then
    match u with
    | notify => 8
    | quiet => 2
  else if 3 ≤ p.silenceDays ∧ p.ignoreStreak = 0 then u.defaultGap / 2
  else u.defaultGap

/-- The gap in hours after how long the user takes to reply. -/
def lagGap (u : Urgency) (lag : ℚ) : ℚ :=
  if 14400 ≤ lag then
    match u with
    | notify => 8
    | quiet => 2
  else
    let lagHours := min (lag * (3 / 2) / 3600) 12
    match u with
    | notify => lagHours
    | quiet => min (lagHours * (1 / 4)) 3

/-- The gap in hours. -/
def gap (u : Urgency) (presence : Option UserPresence) : ℚ :=
  match presence with
  | none => u.defaultGap
  | some p =>
    match p.responseLagP50 with
    | some lag => if 600 ≤ lag then max (u.streakGap p) (u.lagGap lag) else u.streakGap p
    | none => u.streakGap p

/-- Half of the default gap, in microseconds. -/
def halfGap : Urgency → ℤ
  | notify => 2 * hour
  | quiet => hour / 2

end Urgency

/-- `in_blackout_window` -/
def inBlackoutWindow (h startHour endHour : ℕ) : Bool :=
  if startHour ≤ endHour then startHour ≤ h ∧ h < endHour else startHour ≤ h ∨ h < endHour

/-- The default blackout, from 23:00 to 07:00. -/
abbrev Blackout (h : ℕ) : Prop := inBlackoutWindow h 23 7

/-- `read_recent_audit`: a row whose stamp does not parse is left out. -/
def readRecentAudit (rows : List AuditRow) (windowHours : ℤ) (now : Instant) : List AuditRow :=
  rows.filter fun row => row.ts.any (now - windowHours * hour ≤ ·)

/-- `count_recent_sends` -/
def countRecentSends (rows : List AuditRow) (u : Urgency) (windowHours : ℤ) (now : Instant) : ℕ :=
  (readRecentAudit rows windowHours now).countP (·.decision = u.decision)

/-- `_latest_send_time` -/
def latestSendTime (rows : List AuditRow) (u : Urgency) (now : Instant) : Option Instant :=
  (readRecentAudit rows 72 now).foldl (fun latest row =>
    if row.decision = u.decision then
      match row.ts, latest with
      | some ts, none => some ts
      | some ts, some t => some (if t < ts then ts else t)
      | none, _ => latest
    else latest) none

/-- Why a message may not be sent. -/
inductive GateReason
  | userLikelyInactive
  | blackoutWindow
  | cap24hReached
  | minGapNotMet
  deriving DecidableEq

/-- `check_send_allowed`, none where the message is allowed. -/
def checkSendAllowed (localHour : Instant → ℕ) (rows : List AuditRow) (u : Urgency) (now : Instant)
    (presence : Option UserPresence) : Option GateReason :=
  if presence.any (!·.likelyActive) then some .userLikelyInactive
  else if u = .notify ∧ Blackout (localHour now) then some .blackoutWindow
  else if u.cap presence ≤ countRecentSends rows u 24 now then some .cap24hReached
  else if (latestSendTime rows u now).any fun last => ((now - last : ℤ) : ℚ) < u.gap presence * hour
  then some .minGapNotMet
  else none

/-! ## What the gate lets through -/

theorem cap_le (u : Urgency) (presence : Option UserPresence) : u.cap presence ≤ u.defaultCap + 1 := by
  unfold Urgency.cap
  split
  · split_ifs
    · exact Nat.le_refl _
    · exact Nat.le_succ _
  · exact Nat.le_succ _

theorem halfGap_le_streakGap (u : Urgency) (p : UserPresence) :
    (u.halfGap : ℚ) ≤ u.streakGap p * hour := by
  unfold Urgency.streakGap
  cases u with
  | notify =>
    simp only [Urgency.halfGap, Urgency.defaultGap, hour]
    split_ifs <;> norm_num
  | quiet =>
    simp only [Urgency.halfGap, Urgency.defaultGap, hour]
    split_ifs <;> norm_num

/-- No presence makes the gap shorter than half of the default one. -/
theorem halfGap_le (u : Urgency) (presence : Option UserPresence) :
    (u.halfGap : ℚ) ≤ u.gap presence * hour := by
  have hhour : (0 : ℚ) ≤ hour := by norm_num [hour]
  unfold Urgency.gap
  cases presence with
  | none => cases u <;> norm_num [Urgency.halfGap, Urgency.defaultGap, hour]
  | some p =>
    have hstreak := halfGap_le_streakGap u p
    cases hlag : p.responseLagP50 with
    | none => simpa only [hlag] using hstreak
    | some lag =>
      simp only [hlag]
      split_ifs
      · exact hstreak.trans (mul_le_mul_of_nonneg_right (le_max_left _ _) hhour)
      · exact hstreak

theorem halfGap_le_window (u : Urgency) : u.halfGap ≤ 72 * hour := by
  cases u <;> decide

/-- The latest time is no earlier than any that counts. -/
theorem le_latestSendTime {rows : List AuditRow} {u : Urgency} {now : Instant} {row : AuditRow}
    (h : row ∈ readRecentAudit rows 72 now) (hdecision : row.decision = u.decision) {t : Instant}
    (ht : row.ts = some t) : ∃ last, latestSendTime rows u now = some last ∧ t ≤ last := by
  unfold latestSendTime
  generalize hrecent : readRecentAudit rows 72 now = recent at h
  -- A time that the loop has reached is not lost.
  have hkeep : ∀ (rs : List AuditRow) (t₀ : Instant), ∃ last,
      rs.foldl (fun latest row =>
        if row.decision = u.decision then
          match row.ts, latest with
          | some ts, none => some ts
          | some ts, some t => some (if t < ts then ts else t)
          | none, _ => latest
        else latest) (some t₀) = some last ∧ t₀ ≤ last := by
    intro rs
    induction rs with
    | nil => exact fun t₀ => ⟨t₀, rfl, le_rfl⟩
    | cons r rs ih =>
      intro t₀
      rw [List.foldl_cons]
      split_ifs
      · cases r.ts with
        | none => exact ih t₀
        | some ts =>
          obtain ⟨last, hlast, hle⟩ := ih (if t₀ < ts then ts else t₀)
          refine ⟨last, hlast, le_trans ?_ hle⟩
          split_ifs with hlt
          · exact hlt.le
          · exact le_rfl
      · exact ih t₀
  clear hrecent
  generalize (none : Option Instant) = latest
  induction recent generalizing latest with
  | nil => cases h
  | cons r rs ih =>
    rw [List.foldl_cons]
    rcases List.mem_cons.mp h with rfl | hmem
    · rw [if_pos hdecision, ht]
      cases latest with
      | none => exact hkeep rs t
      | some t₀ =>
        obtain ⟨last, hlast, hle⟩ := hkeep rs (if t₀ < t then t else t₀)
        refine ⟨last, hlast, le_trans ?_ hle⟩
        split_ifs with hlt
        · exact le_rfl
        · exact not_lt.mp hlt
    · exact ih hmem _

/-- A message that the gate lets through is at most the one after the default cap in its day, comes
at least half of the default gap after each that counts, and is no notify in the blackout. -/
theorem of_checkSendAllowed {localHour : Instant → ℕ} {rows : List AuditRow} {u : Urgency}
    {now : Instant} {presence : Option UserPresence}
    (h : checkSendAllowed localHour rows u now presence = none) :
    countRecentSends rows u 24 now ≤ u.defaultCap ∧
      (∀ row ∈ rows, row.decision = u.decision → ∀ t, row.ts = some t → t + u.halfGap ≤ now) ∧
      (u = .notify → ¬ Blackout (localHour now)) := by
  unfold checkSendAllowed at h
  split_ifs at h with hactive hblackout hcap hgap
  refine ⟨?_, fun row hrow hdecision t ht => ?_, fun hu hb => hblackout ⟨hu, hb⟩⟩
  · have hle := cap_le u presence
    omega
  · by_cases hrecent : now - 72 * hour ≤ t
    · have hmem : row ∈ readRecentAudit rows 72 now :=
        List.mem_filter.mpr ⟨hrow, by simpa [ht] using hrecent⟩
      obtain ⟨last, hlast, hle⟩ := le_latestSendTime hmem hdecision ht
      rw [hlast, Option.any_some, decide_eq_true_eq, not_lt] at hgap
      have hhalf := (halfGap_le u presence).trans hgap
      have hint : u.halfGap ≤ now - last := by exact_mod_cast hhalf
      linarith
    · have hwindow := halfGap_le_window u
      linarith

end Companion.Initiate

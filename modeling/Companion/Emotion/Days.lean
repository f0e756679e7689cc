import Companion.Emotion.Averages

/-!
# The close of a day

`run_tracker` and `close_days` of `brain/emotion/engine_utils.py`: at the end of an active day each
emotion that had no entry gets an entry of zero, and the day is added to the snapshot of each
emotion with the run of its long average.
-/

namespace Companion.Emotion

open Companion.Memory

/-- One calendar day's move of an average. -/
structure Move (K : Type*) where
  day : ℤ
  delta : K

/-- A first day against a run: whether it did not move at all, and whether it was felt. -/
structure Pending where
  day : ℤ
  isZero : Bool
  felt : Bool
  deriving DecidableEq

structure FinishedRun where
  startDay : ℤ
  direction : SignType
  length : ℤ
  lastWithDay : ℤ
  deriving DecidableEq

structure CurrentRun where
  direction : SignType
  startDay : ℤ
  length : ℤ
  lastWithDay : ℤ
  feltCount : ℕ
  pending : Option Pending
  deriving DecidableEq

/-- `TrackerResult`, and what the tracker has after each move. No run is direction 0. -/
structure TrackerResult where
  finished : List FinishedRun
  current : Option CurrentRun
  deriving DecidableEq

/-- A run that a record has kept. `pending` is for the day after the last day with the run, and is
whether that day did not move. -/
structure Seed where
  startDay : ℤ
  direction : SignType
  lastWithDay : ℤ
  pending : Option Bool
  deriving DecidableEq

section Tracking

variable {K : Type*} [Field K] [LinearOrder K]

/-- The run of a seed. -/
def Seed.run (seed : Seed) : CurrentRun where
  direction := seed.direction
  startDay := seed.startDay
  length := seed.lastWithDay + (if seed.pending.isSome then 1 else 0) - seed.startDay + 1
  lastWithDay := seed.lastWithDay
  feltCount := 0
  pending := seed.pending.map fun isZero => ⟨seed.lastWithDay + 1, isZero, false⟩

/-- One move of `run_tracker`. -/
def TrackerResult.move (t : TrackerResult) (m : Move K) (felt : Bool) : TrackerResult :=
  let sign := SignType.sign m.delta
  match t.current with
  | none =>
    if sign = 0 then t
    else { t with current := some ⟨sign, m.day, 1, m.day, felt.toNat, none⟩ }
  | some run =>
    let run' :=
      { run with length := run.length + 1, feltCount := run.feltCount + felt.toNat }
    if sign = run.direction then
      { t with current := some { run' with lastWithDay := m.day, pending := none } }
    else
      match run.pending with
      | none => { t with current := some { run' with pending := some ⟨m.day, sign = 0, felt⟩ } }
      | some p =>
        { finished := t.finished ++ [⟨run.startDay, run.direction, run.length - 1, run.lastWithDay⟩]
          current :=
            if sign = 0 then none
            else if p.isZero then some ⟨sign, m.day, 1, m.day, felt.toNat, none⟩
            else some ⟨sign, p.day, 2, m.day, p.felt.toNat + felt.toNat, none⟩ }

/-- `run_tracker` -/
def runTracker (moves : List (Move K × Bool)) (seed : Option Seed) : TrackerResult :=
  moves.foldl (fun t m => t.move m.1 m.2) ⟨[], seed.map Seed.run⟩

/-- `_seed_for` of the last of the days. -/
def seedFor (days : List (SnapshotDay K)) : Option Seed :=
  match days.reverse with
  | [] => none
  | d :: earlier =>
    d.run.map fun record =>
      { startDay := record.startDay
        direction := record.direction
        lastWithDay := record.lastWithDay
        pending :=
          if d.day = record.lastWithDay then none
          else some (earlier.head?.any fun previous => d.long - previous.long = 0) }

/-- The days after `day`, `n` of them. -/
def daysAfter (day : ℤ) (n : ℕ) : List ℤ := (List.range n).map fun i : ℕ => day + 1 + (i : ℤ)

/-- The days after `previous` on which the app was off, and then the day that closes. -/
def closingMoves (previous : SnapshotDay K) (closing : ℤ) (long : K) : List (Move K × Bool) :=
  (daysAfter previous.day (closing - previous.day - 1).toNat).map (fun day => (⟨day, 0⟩, false)) ++
    [(⟨closing, long - previous.long⟩, false)]

/-- The run record of the day that closes, carried forward from the last snapshot day. -/
def EmotionState.runAt (e : EmotionState K) (closing : ℤ) : Option RunRecord :=
  e.snapshot.getLast?.bind fun previous =>
    (runTracker (closingMoves previous closing e.long.avg) (seedFor e.snapshot)).current.map
      fun run => ⟨run.startDay, run.direction, run.lastWithDay⟩

/-- The day that closes is added to the snapshot of a present emotion, and days that are 30 or more
before it are dropped. -/
def EmotionState.close (e : EmotionState K) (closing : ℤ) : EmotionState K :=
  if e.long.weight ≤ 0 then e
  else
    let day : SnapshotDay K :=
      { day := closing
        short := e.short.avg
        long := e.long.avg
        felt := e.lastEntryDay = some closing
        run := e.runAt closing }
    { e with snapshot := (e.snapshot ++ [day]).filter fun d => closing - d.day < longHalfLifeDays }

variable (S : Setting K)

/-- The emotions that get an entry of zero for the day that closes. -/
def EngineState.needsZero (s : EngineState K) (closing : ℤ) : List Text :=
  (s.emotions.entries.filter fun e =>
    0 < e.2.long.weight ∧ e.2.lastEntryDay ≠ some closing).map Prod.fst

/-- The zeros of the day that closes, dated at the end of it. -/
def EngineState.foldZeros (s : EngineState K) (closing : ℤ) : EngineState K :=
  (s.needsZero closing).foldl
    (fun s name => s.fold S name 0 0 1 (S.dayStart (closing + 1)) true) s

/-- `close_days` -/
def EngineState.closeDays (s : EngineState K) (t : Instant) : EngineState K :=
  let today := S.dayOf t
  match s.activeDay with
  | none => { s with activeDay := some today }
  | some closing =>
    if today ≤ closing then s
    else
      let after := S.dayStart (closing + 1)
      let s := s.foldZeros S closing
      { s with
        emotions := s.emotions.map fun _ e => e.close closing
        lastUpdate := s.lastUpdate.map (· + (S.dayStart today - after))
        activeDay := some today }

variable {S} {s : EngineState K}

/-- On the open day, or before it, nothing closes. -/
theorem closeDays_of_le {closing : ℤ} (hactive : s.activeDay = some closing) {t : Instant}
    (ht : S.dayOf t ≤ closing) : s.closeDays S t = s := by
  simp only [EngineState.closeDays, hactive]
  rw [if_pos ht]

theorem header_foldZeros (closing : ℤ) : (s.foldZeros S closing).header = s.header :=
  foldl_keeps (P := fun s' : EngineState K => s'.header = s.header)
    (fun _ name hs => (header_fold name 0 0 1 true).trans hs) _ rfl

theorem header_closeDays (t : Instant) : (s.closeDays S t).header = s.header := by
  simp only [EngineState.closeDays]
  cases s.activeDay with
  | none => rfl
  | some closing =>
    simp only
    split_ifs
    · rfl
    · exact header_foldZeros closing

/-- After the close of the days before `t` a day is open: that of `t` or a later one, and not
earlier than the one that was open. -/
theorem activeDay_closeDays (s : EngineState K) (t : Instant) :
    ∃ a, (s.closeDays S t).activeDay = some a ∧ S.dayOf t ≤ a ∧ ∀ a₀ ∈ s.activeDay, a₀ ≤ a := by
  unfold EngineState.closeDays
  cases ha : s.activeDay with
  | none => exact ⟨S.dayOf t, rfl, le_refl _, nofun⟩
  | some closing =>
    simp only
    split_ifs with hle
    · refine ⟨closing, ha, hle, ?_⟩
      rintro a₀ ⟨⟩
      exact le_refl _
    · refine ⟨S.dayOf t, rfl, le_refl _, ?_⟩
      rintro a₀ ⟨⟩
      exact (not_le.mp hle).le

end Tracking

end Companion.Emotion

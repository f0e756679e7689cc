import Companion.Memory.Text
import Companion.Runs
import Mathlib

/-!
# Lived age

`FeltTime` of `brain/felt_time/`: its ticks, the file that each of them writes, and the restarts
that read the file back or replay the logs of the anchors. A tick adds the wall time since the last
one, at a rate from 1 to `MAX_LIVED_RATE`. A restart that finds an entry in a source log newer than
the last tick does not take the file: lived age starts at 0 again (`lived_age_falls_at_replay`).

Stamps are the times that they name, and the arithmetic of hours is exact.
-/

namespace Companion.FeltTime

open Companion.Memory (Text Instant)
open Companion.Runs

/-! ## Rates -/

/-- `_clamp`, to 0 and 1. -/
def clamp (x : ℚ) : ℚ := max 0 (min 1 x)

theorem clamp_nonneg (x : ℚ) : 0 ≤ clamp x := le_max_left _ _

theorem clamp_le_one (x : ℚ) : clamp x ≤ 1 := max_le zero_le_one (min_le_left _ _)

/-- `IntensityDrivers` -/
structure IntensityDrivers where
  emotionalIntensity : ℚ
  bodyStrain : ℚ
  chatActivity : ℚ
  narrativeWeight : ℚ

/-- `rate_per_hour`, with the coefficients `DEFAULTS`. -/
def ratePerHour (d : IntensityDrivers) : ℚ :=
  1 + 1 / 2 * clamp d.emotionalIntensity + 2 / 5 * clamp d.bodyStrain +
    3 / 10 * clamp d.chatActivity + 1 / 2 * clamp d.narrativeWeight

/-- `MAX_LIVED_RATE` -/
def maxLivedRate : ℚ := ratePerHour ⟨1, 1, 1, 1⟩

/-- `_MIGRATION_SEED_RATE` -/
def migrationSeedRate : ℚ := (1 + maxLivedRate) / 2

/-- `MAX_FORWARD_DT_S` -/
def maxForwardDt : ℚ := 6 * 3600

/-- `advance` -/
def advance (prevLivedHours dtSeconds : ℚ) (d : IntensityDrivers) : ℚ :=
  if dtSeconds ≤ 0 then prevLivedHours
  else if maxForwardDt < dtSeconds then prevLivedHours
  else prevLivedHours + dtSeconds / 3600 * ratePerHour d

theorem maxLivedRate_eq : maxLivedRate = 27 / 10 := by
  norm_num [maxLivedRate, ratePerHour, clamp]

theorem one_le_ratePerHour (d : IntensityDrivers) : 1 ≤ ratePerHour d := by
  have hintensity := clamp_nonneg d.emotionalIntensity
  have hstrain := clamp_nonneg d.bodyStrain
  have hactivity := clamp_nonneg d.chatActivity
  have hweight := clamp_nonneg d.narrativeWeight
  unfold ratePerHour
  linarith

theorem ratePerHour_le (d : IntensityDrivers) : ratePerHour d ≤ maxLivedRate := by
  have hintensity := clamp_le_one d.emotionalIntensity
  have hstrain := clamp_le_one d.bodyStrain
  have hactivity := clamp_le_one d.chatActivity
  have hweight := clamp_le_one d.narrativeWeight
  rw [maxLivedRate_eq]
  unfold ratePerHour
  linarith

theorem le_advance (a dt : ℚ) (d : IntensityDrivers) : a ≤ advance a dt d := by
  unfold advance
  split_ifs with hpast hasleep
  · exact le_rfl
  · exact le_rfl
  · have hrate := one_le_ratePerHour d
    have hdt : 0 ≤ dt / 3600 := by linarith
    have hgain : 0 ≤ dt / 3600 * ratePerHour d := mul_nonneg hdt (by linarith)
    linarith

/-- An advance over at most `wall` seconds. -/
theorem advance_le {a dt wall : ℚ} (d : IntensityDrivers) (hdt : dt ≤ wall) (hwall : 0 ≤ wall) :
    advance a dt d ≤ a + maxLivedRate * (wall / 3600) := by
  have hmax : 0 ≤ maxLivedRate := by
    rw [maxLivedRate_eq]
    norm_num
  have hbound : 0 ≤ maxLivedRate * (wall / 3600) := by positivity
  unfold advance
  split_ifs with hpast hasleep
  · linarith
  · linarith
  · have hgain : dt / 3600 * ratePerHour d ≤ wall / 3600 * maxLivedRate :=
      mul_le_mul (by linarith) (ratePerHour_le d) (by linarith [one_le_ratePerHour d])
        (by positivity)
    linarith

/-! ## Anchors -/

/-- A source of anchors, in the order of `_SOURCES`. -/
inductive Source
  | dream
  | growth
  | soul
  | weatherShift
  | arc
  deriving DecidableEq

/-- The keys of `_SOURCES`. -/
def sources : List Source := [.dream, .growth, .soul, .weatherShift, .arc]

/-- The sources of `LOG_SOURCES`. -/
def logSources : List Source := [.dream, .growth, .soul, .weatherShift]

/-- An entry of a source log: what it has under the key of the stamp, under the key of the label,
and as `event`. -/
structure Entry where
  ts : Option Instant
  label : Option Text
  event : Option Text
  deriving DecidableEq

/-- The logs, the oldest entry first. -/
abbrev Logs := Source → List Entry

/-- `Anchor`, whose `source_ref` is the number of its entry in the log of its type. -/
structure Anchor where
  type : Source
  ts : Instant
  label : Text
  entryIdx : ℕ
  eventType : Text
  deriving DecidableEq

/-- The events of an arc that are anchors. -/
def arcEvents : List Text := ["arc_opened".toList, "arc_closed".toList]

/-- The anchor of an entry of a log, if it is one. -/
def anchorOf (source : Source) (entry : Entry × ℕ) : Option Anchor :=
  if source = .arc ∧ entry.1.event.all (· ∉ arcEvents) then none
  else
    match entry.1.ts, entry.1.label with
    | some ts, some label =>
      if label = [] then none
      else some ⟨source, ts, label, entry.2,
        if source = .arc then entry.1.event.getD [] else []⟩
    | _, _ => none

/-- `extract_all` -/
def extractAll (logs : Logs) : List Anchor :=
  (sources.flatMap fun source => ((logs source).zipIdx 1).filterMap (anchorOf source)).insertionSort
    fun a b => a.ts ≤ b.ts

/-- `scan_since` -/
def scanSince (logs : Logs) (since : Option Instant) : List Anchor :=
  match since with
  | none => extractAll logs
  | some t => (extractAll logs).filter fun a => t < a.ts

/-- `_newest_log_ts` -/
def newestLogTs (logs : Logs) : Option Instant :=
  (logSources.flatMap fun source => (logs source).filterMap Entry.ts).max?

/-! ## Pressure -/

/-- `PressureCounters` -/
structure PressureCounters where
  heartbeats : ℤ
  chatTurns : ℤ
  reflexFirings : ℤ
  wallClockS : ℚ
  deriving DecidableEq

/-- `PressureCounters()` -/
def PressureCounters.zero : PressureCounters := ⟨0, 0, 0, 0⟩

/-- `HorizonBucket` -/
structure HorizonBucket where
  counters : PressureCounters
  prevCounters : PressureCounters
  periodStart : Option Instant
  deriving DecidableEq

/-- A key of `_HORIZON_PERIOD_S`. -/
inductive Horizon
  | week
  | month
  deriving DecidableEq

/-- `_HORIZON_PERIOD_S`, in microseconds. -/
def Horizon.period : Horizon → ℤ
  | .week => 7 * 24 * 3600 * 1000000
  | .month => 30 * 24 * 3600 * 1000000

/-- `TickContext` -/
structure TickContext where
  now : Instant
  heartbeats : ℤ
  chatTurns : ℤ
  reflexFirings : ℤ
  wallClockS : ℚ
  drivers : IntensityDrivers

/-- The counters with those of a tick. -/
def PressureCounters.plus (p : PressureCounters) (ctx : TickContext) : PressureCounters :=
  ⟨p.heartbeats + ctx.heartbeats, p.chatTurns + ctx.chatTurns, p.reflexFirings + ctx.reflexFirings,
    p.wallClockS + ctx.wallClockS⟩

/-- `apply_tick` -/
def applyTick (before : PressureCounters) (ctx : TickContext) (newAnchors : List Anchor) :
    PressureCounters :=
  if newAnchors ≠ [] then .zero else before.plus ctx

/-- One bucket of `apply_horizon_tick`. -/
def HorizonBucket.tick (b : HorizonBucket) (h : Horizon) (ctx : TickContext) : HorizonBucket :=
  let b :=
    if b.periodStart.any fun start => h.period ≤ ctx.now - start then
      ⟨.zero, b.counters, some ctx.now⟩
    else b
  ⟨b.counters.plus ctx, b.prevCounters, some (b.periodStart.getD ctx.now)⟩

/-- `apply_horizon_tick` -/
def applyHorizonTick (buckets : Horizon → Option HorizonBucket) (ctx : TickContext) :
    Horizon → Option HorizonBucket :=
  fun h => some (((buckets h).getD ⟨.zero, .zero, some ctx.now⟩).tick h ctx)

/-! ## The state -/

/-- `FeltTimeState` -/
structure FeltTimeState where
  livedAgeHours : ℚ
  /-- The most recent anchor of each type. -/
  anchors : Source → Option Anchor
  pressure : PressureCounters
  lastTick : Option Instant
  firstTick : Option Instant
  replayed : Bool
  horizonPressure : Horizon → Option HorizonBucket
  arcAnchors : List Anchor

/-- `FeltTimeState.cold_start` -/
def FeltTimeState.coldStart : FeltTimeState :=
  ⟨0, fun _ => none, .zero, none, none, false, fun _ => none, []⟩

/-- `_ARC_ANCHOR_CAP` -/
def arcAnchorCap : ℕ := 20

/-- The anchors with a new one, where it is the newest of its type. -/
def newer (anchors : Source → Option Anchor) (a : Anchor) : Source → Option Anchor :=
  fun type =>
    if type = a.type ∧ (anchors a.type).all (fun existing => existing.ts < a.ts) then some a
    else anchors type

/-- The last `_ARC_ANCHOR_CAP` of some anchors. -/
def capped (as : List Anchor) : List Anchor := as.drop (as.length - arcAnchorCap)

/-- `_replay_from_logs` -/
def replayFromLogs (logs : Logs) : FeltTimeState :=
  let all := scanSince logs none
  { FeltTimeState.coldStart with
    anchors := all.foldl newer fun _ => none
    replayed := true
    arcAnchors := capped (all.filter fun a => a.type = .arc) }

/-- A source log has an entry newer than the last tick of the file. -/
def replays (logs : Logs) (file : FeltTimeState) : Bool :=
  (newestLogTs logs).any fun newest => file.lastTick.all fun last => last < newest

/-- `load_or_recover`, where the file is undamaged. -/
def loadOrRecover (logs : Logs) : Option FeltTimeState → FeltTimeState
  | none => if (newestLogTs logs).isSome then replayFromLogs logs else .coldStart
  | some file =>
    if replays logs file then replayFromLogs logs
    else
      { file with
        arcAnchors := if file.arcAnchors = [] then (file.anchors .arc).toList else file.arcAnchors }

/-- `_iso_to_seconds_delta` -/
def secondsBetween (a b : Instant) : ℚ := (b - a : ℤ) / 1000000

/-- `_compute_first_tick_ts` -/
def firstTickTs (prev : FeltTimeState) (now : Instant) : Instant :=
  match prev.firstTick, prev.lastTick with
  | some t, _ => t
  | none, none => now
  | none, some _ => now - round (prev.livedAgeHours / migrationSeedRate * 3600 * 1000000)

/-- The seconds that a tick advances lived age by. -/
def dtSeconds (s : FeltTimeState) (ctx : TickContext) : ℚ :=
  match s.lastTick with
  | none => ctx.wallClockS
  | some last => secondsBetween last ctx.now

/-- `FeltTime.tick` -/
def FeltTimeState.tick (s : FeltTimeState) (logs : Logs) (ctx : TickContext) : FeltTimeState :=
  let newAnchors := scanSince logs s.lastTick
  let anchors := newAnchors.foldl newer s.anchors
  let arcAnchors := capped (s.arcAnchors ++ newAnchors.filter fun a => a.type = .arc)
  { livedAgeHours := advance s.livedAgeHours (dtSeconds s ctx) ctx.drivers
    anchors := fun type =>
      if type = .arc then arcAnchors.getLast?.or (anchors .arc) else anchors type
    pressure := applyTick s.pressure ctx newAnchors
    lastTick := some ctx.now
    firstTick := some (firstTickTs s ctx.now)
    replayed := false
    horizonPressure := applyHorizonTick s.horizonPressure ctx
    arcAnchors := arcAnchors }

/-! ## Ticks, appends and restarts -/

/-- The logs and the file of a persona, and the state of its `FeltTime`. -/
structure World where
  logs : Logs
  file : Option FeltTimeState
  state : FeltTimeState
  clock : Instant

/-- A tick, an append to a source log, or a restart. -/
inductive Act
  | tick (ctx : TickContext)
  | append (source : Source) (label event : Option Text) (now : Instant)
  | restart

/-- The logs with one more entry. -/
def appendTo (logs : Logs) (source : Source) (entry : Entry) : Logs :=
  fun other => if other = source then logs other ++ [entry] else logs other

/-- A step, at a time that is not before the last one. A tick persists the state. -/
def step (w : World) : Act → Option World
  | .tick ctx =>
    if w.clock ≤ ctx.now then
      let state := w.state.tick w.logs ctx
      some { w with file := some state, state := state, clock := ctx.now }
    else none
  | .append source label event now =>
    if w.clock ≤ now then
      some { w with logs := appendTo w.logs source ⟨some now, label, event⟩, clock := now }
    else none
  | .restart => some { w with state := loadOrRecover w.logs w.file }

/-- A persona whose felt time starts now, with what its logs have. -/
def machine : Machine World Act where
  init w := w.file = none ∧ w.state = loadOrRecover w.logs none
  step := step

/-- The runs that go on from a world. -/
def continuing (w : World) : Machine World Act where
  init w' := w' = w
  step := step

/-- The restart replays the logs, though there is a file. -/
def Replays (w : World) : Prop := ∃ file, w.file = some file ∧ replays w.logs file = true

/-- The wall time that the supervisor passes to the first tick after a start is at most that since
the tick before it. -/
def Measured (w : World) : Act → Prop
  | .tick ctx => w.state.lastTick = none → ∀ file last, w.file = some file →
      file.lastTick = some last → ctx.wallClockS ≤ secondsBetween last ctx.now
  | _ => True

/-- The lived hours of so much time at the greatest rate. -/
def maxLived (a b : Instant) : ℚ := maxLivedRate * (secondsBetween a b / 3600)

/-! ### What a load finds -/

/-- A load starts at 0 without a tick, or takes the file. -/
theorem loadOrRecover_cases (logs : Logs) (file : Option FeltTimeState) :
    ((loadOrRecover logs file).livedAgeHours = 0 ∧ (loadOrRecover logs file).lastTick = none) ∨
      ∃ f, file = some f ∧ replays logs f = false ∧
        (loadOrRecover logs file).livedAgeHours = f.livedAgeHours ∧
        (loadOrRecover logs file).lastTick = f.lastTick := by
  cases file with
  | none =>
    left
    rw [loadOrRecover]
    split_ifs
    · exact ⟨rfl, rfl⟩
    · exact ⟨rfl, rfl⟩
  | some f =>
    by_cases hreplays : replays logs f = true
    · rw [loadOrRecover, if_pos hreplays]
      exact .inl ⟨rfl, rfl⟩
    · rw [loadOrRecover, if_neg hreplays]
      exact .inr ⟨f, rfl, eq_false_of_ne_true hreplays, rfl, rfl⟩

/-! ### Lived age never falls, but for a replay -/

/-- The state is as the file has it, or it was started without a tick. -/
structure Sound (w : World) : Prop where
  nonneg : 0 ≤ w.state.livedAgeHours
  started : w.file = none → w.state.livedAgeHours = 0
  file : ∀ f, w.file = some f → 0 ≤ f.livedAgeHours ∧
    (w.state.livedAgeHours = f.livedAgeHours ∨ w.state.livedAgeHours = 0)

theorem sound_restart {w w' : World} (h : Sound w) (hstep : step w .restart = some w') :
    Sound w' := by
  cases hstep
  rcases loadOrRecover_cases w.logs w.file with ⟨hzero, -⟩ | ⟨f, hf, -, hlived, -⟩
  · exact ⟨hzero.ge, fun _ => hzero, fun f hf => ⟨(h.file f hf).1, .inr hzero⟩⟩
  · refine ⟨?_, fun hnone => ?_, fun f' hf' => ?_⟩
    · exact hlived.symm ▸ (h.file f hf).1
    · rw [show w.file = none from hnone] at hf
      cases hf
    · obtain rfl : f = f' := Option.some.inj (hf.symm.trans hf')
      exact ⟨(h.file f hf).1, .inl hlived⟩

theorem sound_step {w w' : World} {a : Act} (h : Sound w) (hstep : step w a = some w') :
    Sound w' := by
  cases a with
  | tick ctx =>
    dsimp only [step] at hstep
    split_ifs at hstep
    cases hstep
    have hnonneg : 0 ≤ (w.state.tick w.logs ctx).livedAgeHours := h.nonneg.trans (le_advance ..)
    refine ⟨hnonneg, nofun, fun f hf => ?_⟩
    cases hf
    exact ⟨hnonneg, .inl rfl⟩
  | append source label event now =>
    dsimp only [step] at hstep
    split_ifs at hstep
    cases hstep
    exact ⟨h.nonneg, h.started, h.file⟩
  | restart => exact sound_restart h hstep

theorem sound {w : World} (h : machine.Reachable w) : Sound w := by
  refine h.invariant (I := Sound) ?_ fun w a w' hw _ hstep => sound_step hw hstep
  rintro w ⟨hfile, hstate⟩
  have hzero : w.state.livedAgeHours = 0 := by
    rcases loadOrRecover_cases w.logs none with ⟨hzero, -⟩ | ⟨f, hf, -⟩
    · rw [hstate, hzero]
    · cases hf
  refine ⟨hzero.ge, fun _ => hzero, fun f hf => ?_⟩
  rw [hfile] at hf
  cases hf

/-- Lived age falls at a restart that replays the logs, and nowhere else. -/
theorem le_or_replays {w w' : World} {a : Act} (h : machine.Reachable w)
    (hstep : step w a = some w') :
    w.state.livedAgeHours ≤ w'.state.livedAgeHours ∨
      a = .restart ∧ Replays w ∧ w'.state.livedAgeHours = 0 := by
  have hsound := sound h
  cases a with
  | tick ctx =>
    dsimp only [step] at hstep
    split_ifs at hstep
    cases hstep
    exact .inl (le_advance ..)
  | append source label event now =>
    dsimp only [step] at hstep
    split_ifs at hstep
    cases hstep
    exact .inl le_rfl
  | restart =>
    cases hstep
    dsimp only
    cases hfile : w.file with
    | none =>
      -- a start without a file: there was nothing to fall from
      left
      rw [hsound.started hfile]
      rcases loadOrRecover_cases w.logs none with ⟨hzero, -⟩ | ⟨f, hf, -⟩
      · exact hzero.ge
      · cases hf
    | some f =>
      -- the file is loaded, unless a log is newer
      obtain ⟨hnonneg, hstate⟩ := hsound.file f hfile
      by_cases hreplays : replays w.logs f = true
      · right
        rw [loadOrRecover, if_pos hreplays]
        exact ⟨rfl, ⟨f, hfile, hreplays⟩, rfl⟩
      · left
        rw [loadOrRecover, if_neg hreplays]
        rcases hstate with hsame | hzero
        · exact hsame.le
        · exact hzero.trans_le hnonneg

/-! ### Lived age never runs ahead -/

theorem maxLived_nonneg {a b : Instant} (h : a ≤ b) : 0 ≤ maxLived a b := by
  have hseconds : (0 : ℚ) ≤ (b - a : ℤ) := by
    exact_mod_cast sub_nonneg.mpr h
  unfold maxLived secondsBetween
  rw [maxLivedRate_eq]
  positivity

theorem maxLived_add (a b c : Instant) : maxLived a b + maxLived b c = maxLived a c := by
  unfold maxLived secondsBetween
  push_cast
  ring

/-- Since the tick that led to `w₁`, lived age has grown by no more than the greatest rate gives to
the last tick. -/
structure Within (w₁ w : World) : Prop where
  nonneg : 0 ≤ w₁.state.livedAgeHours
  file : ∃ f last, w.file = some f ∧ f.lastTick = some last ∧ w₁.clock ≤ last ∧ last ≤ w.clock ∧
    f.livedAgeHours ≤ w₁.state.livedAgeHours + maxLived w₁.clock last ∧
    w.state.livedAgeHours ≤ w₁.state.livedAgeHours + maxLived w₁.clock last ∧
    (w.state.lastTick = some last ∨ w.state.lastTick = none)

theorem within_tick {w₁ w w' : World} {ctx : TickContext} (h : Within w₁ w)
    (hmeasured : Measured w (.tick ctx)) (hstep : step w (.tick ctx) = some w') : Within w₁ w' := by
  obtain ⟨f, last, hf, hlast, hfrom, hto, -, hlived, hstate⟩ := h.file
  dsimp only [step] at hstep
  split_ifs at hstep with hclock
  cases hstep
  have hlater : last ≤ ctx.now := hto.trans hclock
  have hseconds : 0 ≤ secondsBetween last ctx.now := by
    have hnum : (0 : ℚ) ≤ (ctx.now - last : ℤ) := by
      exact_mod_cast sub_nonneg.mpr hlater
    unfold secondsBetween
    positivity
  -- the tick measures from the last one, or is told by the supervisor how long ago that was
  have hdt : dtSeconds w.state ctx ≤ secondsBetween last ctx.now := by
    unfold dtSeconds
    rcases hstate with hsome | hnone
    · rw [hsome]
    · rw [hnone]
      exact hmeasured hnone f last hf hlast
  have hgrowth : (w.state.tick w.logs ctx).livedAgeHours ≤
      w.state.livedAgeHours + maxLived last ctx.now := advance_le ctx.drivers hdt hseconds
  have hsum := maxLived_add w₁.clock last ctx.now
  have hbound : (w.state.tick w.logs ctx).livedAgeHours ≤
      w₁.state.livedAgeHours + maxLived w₁.clock ctx.now := by linarith
  exact ⟨h.nonneg, _, _, rfl, rfl, hfrom.trans hlater, le_rfl, hbound, hbound, .inl rfl⟩

theorem within_restart {w₁ w w' : World} (h : Within w₁ w) (hstep : step w .restart = some w') :
    Within w₁ w' := by
  obtain ⟨f, last, hf, hlast, hfrom, hto, hfile, -, -⟩ := h.file
  cases hstep
  refine ⟨h.nonneg, f, last, hf, hlast, hfrom, hto, hfile, ?_⟩
  rcases loadOrRecover_cases w.logs w.file with ⟨hzero, hnone⟩ | ⟨f', hf', -, hlived, htick⟩
  · have hgain := maxLived_nonneg hfrom
    have hnonneg := h.nonneg
    refine ⟨?_, .inr hnone⟩
    rw [hzero]
    linarith
  · obtain rfl : f = f' := Option.some.inj (hf.symm.trans hf')
    exact ⟨hlived.trans_le hfile, .inl (htick.trans hlast)⟩

theorem within_step {w₁ w w' : World} {a : Act} (h : Within w₁ w) (hmeasured : Measured w a)
    (hstep : step w a = some w') : Within w₁ w' := by
  cases a with
  | tick ctx => exact within_tick h hmeasured hstep
  | append source label event now =>
    dsimp only [step] at hstep
    split_ifs at hstep with hclock
    cases hstep
    obtain ⟨f, last, hf, hlast, hfrom, hto, hrest⟩ := h.file
    exact ⟨h.nonneg, f, last, hf, hlast, hfrom, hto.trans hclock, hrest⟩
  | restart => exact within_restart h hstep

/-- From a tick on, lived age grows by at most the wall time at the greatest rate. -/
theorem le_add_maxLived {w w₁ w₂ : World} {ctx : TickContext} (h : machine.Reachable w)
    (htick : step w (.tick ctx) = some w₁) (hrun : (continuing w₁).Reach Measured w₂) :
    w₂.state.livedAgeHours ≤ w₁.state.livedAgeHours + maxLived w₁.clock w₂.clock := by
  have hnonneg : 0 ≤ w₁.state.livedAgeHours := (sound_step (sound h) htick).nonneg
  have hwithin : Within w₁ w₂ := by
    refine hrun.invariant (I := Within w₁) ?_ fun w a w' hw hC hstep => within_step hw hC hstep
    rintro _ rfl
    dsimp only [step] at htick
    split_ifs at htick
    cases htick
    have hgain := maxLived_nonneg (le_refl ctx.now)
    exact ⟨hnonneg, _, _, rfl, rfl, le_rfl, le_rfl, by simpa using hgain, by simpa using hgain,
      .inl rfl⟩
  obtain ⟨-, last, -, -, -, hto, -, hlived, -⟩ := hwithin.file
  have hrest := maxLived_nonneg hto
  have hsum := maxLived_add w₁.clock last w₂.clock
  linarith

/-- Lived age falls at a replay alone, and never runs ahead. -/
theorem lived_age_law :
    (∀ w a w', machine.Reachable w → step w a = some w' →
      w.state.livedAgeHours ≤ w'.state.livedAgeHours ∨
        a = .restart ∧ Replays w ∧ w'.state.livedAgeHours = 0) ∧
      ∀ w ctx w₁ w₂, machine.Reachable w → step w (.tick ctx) = some w₁ →
        (continuing w₁).Reach Measured w₂ →
        w₂.state.livedAgeHours ≤ w₁.state.livedAgeHours + maxLived w₁.clock w₂.clock :=
  ⟨fun _ _ _ => le_or_replays, fun _ _ _ _ => le_add_maxLived⟩

/-- A persona whose logs are empty. -/
def fresh : World := ⟨fun _ => [], none, .coldStart, 0⟩

theorem reachable_fresh : machine.Reachable fresh := .init ⟨rfl, rfl⟩

/-- A quiet tick at a second of the run. -/
def quietTick (second : ℤ) (wallClockS : ℚ) : Act :=
  .tick ⟨second * 1000000, 1, 0, 0, wallClockS, ⟨0, 0, 0, 0⟩⟩

/-- An hour goes by between two quiet ticks. -/
theorem lived_age_law_twoTicks :
    ∃ w₁ w₂, (step fresh (quietTick 3600 3600) = some w₁ ∧
        (continuing w₁).Reach Measured w₂ ∧
        w₁.state.livedAgeHours < w₂.state.livedAgeHours) ∧
      fresh.state.livedAgeHours ≤ w₁.state.livedAgeHours ∧
      w₂.state.livedAgeHours ≤ w₁.state.livedAgeHours + maxLived w₁.clock w₂.clock := by
  let grows : World → World → Bool := fun w₁ w₂ =>
    w₁.state.livedAgeHours < w₂.state.livedAgeHours
  have hrun : ((step fresh (quietTick 3600 3600)).any fun w₁ =>
      ((continuing w₁).runWithin (fun w _ => w.state.lastTick ≠ none) w₁ [quietTick 7200 0]).any
        (grows w₁)) = true := by decide +kernel
  obtain ⟨w₁, htick, hrest⟩ := (Option.any_eq_true _ _).mp hrun
  obtain ⟨w₂, hw₂, hlt⟩ := (Option.any_eq_true _ _).mp hrest
  -- a tick that knows of the one before it is told nothing by the supervisor
  have hmeasured : ∀ w a, w.state.lastTick ≠ none → Measured w a := by
    intro w a hlast
    cases a with
    | tick ctx => exact fun hnone => absurd hnone hlast
    | _ => trivial
  have hreach : (continuing w₁).Reach Measured w₂ := .of_runWithin hmeasured (.init rfl) hw₂
  obtain ⟨hnever, hahead⟩ := lived_age_law
  refine ⟨w₁, w₂, ⟨htick, hreach, of_decide_eq_true hlt⟩, ?_,
    hahead fresh _ w₁ w₂ reachable_fresh htick hreach⟩
  rcases hnever fresh _ w₁ reachable_fresh htick with hle | ⟨hrestart, -⟩
  · exact hle
  · cases hrestart

/-- A shift of the weather after the tick, and a restart. -/
def shifted : List Act :=
  [.append .weatherShift (some "calm".toList) none 3601000000, .restart]

/-- Lived age falls from an hour to nothing at a restart that replays, and the tick after it adds
what it is told has passed. -/
theorem lived_age_falls_at_replay :
    (∃ w w', machine.Reachable w ∧ step w .restart = some w' ∧
        w'.state.livedAgeHours < w.state.livedAgeHours) ∧
      ∃ w ctx w₁ w₂, machine.Reachable w ∧ step w (.tick ctx) = some w₁ ∧
        (continuing w₁).Reachable w₂ ∧
        w₁.state.livedAgeHours + maxLived w₁.clock w₂.clock < w₂.state.livedAgeHours := by
  constructor
  · let falls : World → Bool := fun w =>
      (step w .restart).any fun w' => w'.state.livedAgeHours < w.state.livedAgeHours
    obtain ⟨w, hreach, hfalls⟩ := Machine.exists_reach_of_runWithin (M := machine)
      (D := fun _ _ => True) (fun _ _ h => h) ⟨rfl, rfl⟩
      (quietTick 3600 3600 :: shifted.take 1) falls (s := fresh) (by decide +kernel)
    obtain ⟨w', hstep, hlt⟩ := (Option.any_eq_true _ _).mp hfalls
    exact ⟨w, w', hreach, hstep, of_decide_eq_true hlt⟩
  · let ahead : World → World → Bool := fun w₁ w₂ =>
      w₁.state.livedAgeHours + maxLived w₁.clock w₂.clock < w₂.state.livedAgeHours
    have hrun : ((step fresh (quietTick 3600 3600)).any fun w₁ =>
        ((continuing w₁).runWithin (fun _ _ => True) w₁ (shifted ++ [quietTick 3602 7200])).any
          (ahead w₁)) = true := by decide +kernel
    obtain ⟨w₁, htick, hrest⟩ := (Option.any_eq_true _ _).mp hrun
    obtain ⟨w₂, hw₂, hlt⟩ := (Option.any_eq_true _ _).mp hrest
    have hreach : (continuing w₁).Reachable w₂ :=
      .of_runWithin (fun _ _ h => h) (.init rfl) hw₂
    exact ⟨fresh, _, w₁, w₂, reachable_fresh, htick, hreach, of_decide_eq_true hlt⟩

end Companion.FeltTime

import Companion.Dict
import Companion.Memory.Text
import Mathlib.Algebra.Order.Field.Basic
import Mathlib.Data.Rat.Cast.Order
import Mathlib.Data.Sign.Defs
import Mathlib.Tactic.Linarith
import Mathlib.Tactic.Positivity

/-!
# The averages of the emotions

The state of `brain/emotion/engine_utils.py`, and `fold_entry` and `fold_event`, which fold what
happens to the emotions into their two moving averages.

A local calendar day is its number, counted from the first day of 1970. The arithmetic is that of an
ordered field, and the instants have no bounds, so that nothing here raises. The zone, the powers of
one half by which a weight ages, and the JSON of an event are parameters.
-/

namespace Companion.Emotion

open Companion.Memory

/-- One moving average and its weight. -/
structure Average (K : Type*) where
  avg : K
  weight : K
  deriving DecidableEq

/-- The run of the long average: where it started, which way, the last day it moved that way. -/
structure RunRecord where
  startDay : ℤ
  direction : SignType
  lastWithDay : ℤ
  deriving DecidableEq

/-- One closed day of one emotion. -/
structure SnapshotDay (K : Type*) where
  day : ℤ
  short : K
  long : K
  felt : Bool
  run : Option RunRecord
  deriving DecidableEq

/-- The first full showing of a memory, and how many have followed it. -/
structure RepeatEntry where
  firstAt : Instant
  count : ℕ
  deriving DecidableEq

structure EmotionState (K : Type*) where
  short : Average K
  long : Average K
  lastEntryDay : Option ℤ
  snapshot : List (SnapshotDay K)
  deriving DecidableEq

structure EngineState (K : Type*) where
  savedAt : Option Instant
  resetAt : Option Instant
  /-- The time up to which the weights have been aged. -/
  lastUpdate : Option Instant
  /-- The open day. -/
  activeDay : Option ℤ
  personaStartAt : Option Instant
  repeats : Dict Text RepeatEntry
  emotions : Dict Text (EmotionState K)
  /-- The number of lines of the queue file that are folded. -/
  queueLine : ℕ
  deriving DecidableEq

/-- `EngineState()` -/
def EngineState.empty {K : Type*} : EngineState K := ⟨none, none, none, none, none, ∅, ∅, 0⟩

inductive Kind
  | commit
  | assigned
  | showing
  | change
  | start
  deriving DecidableEq

/-- `_ANCHORED_KINDS`: these are dated at the creation of their memory. -/
def Kind.anchored : Kind → Bool
  | commit => true
  | assigned => true
  | _ => false

/-- One thing that happened to the emotions. `time` is `at`. -/
structure Event (K : Type*) where
  kind : Kind
  time : Instant
  memoryId : Option Text
  emotions : Dict Text K
  modifier : K
  climax : K
  deriving DecidableEq

/-- The zone, the powers of one half, and the reader of a line. -/
structure Setting (K : Type*) [Zero K] [LE K] where
  /-- `day_of` -/
  dayOf : Instant → ℤ
  /-- `_day_start` -/
  dayStart : ℤ → Instant
  /-- `0.5 ** x` -/
  half : ℚ → K
  half_nonneg : ∀ x, 0 ≤ half x
  /-- The event that a line of JSON holds, or none where it holds no object of that shape. -/
  parse : Text → Option (Event K)

/-- The zone UTC, where a weight ages by whole half-lives. -/
def Setting.utc (parse : Text → Option (Event ℚ)) : Setting ℚ where
  dayOf t := t / 86400000000
  dayStart day := day * 86400000000
  half x := 1 / 2 ^ x.floor.toNat
  half_nonneg x := by positivity
  parse := parse

def hour : Instant := 3600 * 1000000

/-- `EMOTION_SHORT_HALF_LIFE_H` -/
def shortHalfLife : Instant := 24 * hour

/-- `EMOTION_LONG_HALF_LIFE_D` -/
def longHalfLifeDays : ℤ := 30

def longHalfLife : Instant := longHalfLifeDays * (24 * hour)

/-- `EMOTION_REPEAT_WINDOW_H` -/
def repeatWindow : Instant := 24 * hour

section Folding

variable {K : Type*} [Field K] [LinearOrder K]

/-- `EMOTION_VALUE_CAP` -/
def valueCap : K := 10

/-- `EMOTION_REPEAT_FACTOR` -/
def repeatFactorBase : K := 1 / 2

/-- `_hold` -/
def hold (value : K) : K := min (max value 0) valueCap

/-- `_fold_average` -/
def Average.fold (a : Average K) (value w : K) : Average K :=
  if w ≤ 0 then a
  else ⟨hold (a.avg + (value - a.avg) * w / (a.weight + w)), a.weight + w⟩

variable (S : Setting K)

/-- `_decay`, where the time that has passed and the half-life are in microseconds. -/
def Setting.decay (elapsed halfLife : Instant) : K := S.half (elapsed / halfLife)

def Average.aged (a : Average K) (elapsed halfLife : Instant) : Average K :=
  { a with weight := a.weight * S.decay elapsed halfLife }

def EmotionState.empty : EmotionState K := ⟨⟨0, 0⟩, ⟨0, 0⟩, none, []⟩

def EmotionState.aged (e : EmotionState K) (elapsed : Instant) : EmotionState K :=
  { e with
    short := e.short.aged S elapsed shortHalfLife
    long := e.long.aged S elapsed longHalfLife }

/-- All weights aged to the time of an entry, which becomes the reference time. -/
def EngineState.ageTo (s : EngineState K) (time : Instant) : EngineState K :=
  { s with
    lastUpdate := some time
    emotions :=
      match s.lastUpdate with
      | none => s.emotions
      | some u => s.emotions.map fun _ e => e.aged S (time - u) }

/-- The later of the last-entry day and the day of an entry. -/
def EmotionState.entered (e : EmotionState K) (day : ℤ) : EmotionState K :=
  { e with lastEntryDay := some (e.lastEntryDay.elim day (max day)) }

/-- The end of `_fold`: an entry with the weight that it has for each average. -/
def EngineState.enter (s : EngineState K) (emotion : Text) (shortValue longValue wShort wLong : K)
    (time : Instant) (zero : Bool) : EngineState K :=
  let existing := s.emotions.get? emotion
  let e := existing.getD .empty
  let e := { e with short := e.short.fold shortValue wShort, long := e.long.fold longValue wLong }
  if existing = none ∧ e.long.weight ≤ 0 then s
  else { s with emotions := s.emotions.set emotion (if zero then e else e.entered (S.dayOf time)) }

/-- `_fold` -/
def EngineState.fold (s : EngineState K) (emotion : Text) (shortValue longValue w : K)
    (time : Instant) (zero : Bool) : EngineState K :=
  if zero = true ∧ s.emotions.get? emotion = none then s
  else
    match s.lastUpdate.filter (time < ·) with
    | none => (s.ageTo S time).enter S emotion shortValue longValue w w time zero
    | some u =>
      -- Before the reference time: the entry is aged by its own age, and ages nothing else.
      s.enter S emotion shortValue longValue (w * S.decay (u - time) shortHalfLife)
        (w * S.decay (u - time) longHalfLife) time zero

/-- `fold_entry` -/
def EngineState.foldEntry (s : EngineState K) (emotion : Text) (value w : K) (time : Instant)
    (zero : Bool) : EngineState K :=
  s.fold S emotion (hold value) (hold value) w time zero

/-- `_fold_persona_start` -/
def EngineState.foldPersonaStart (s : EngineState K) (createdAt : Instant) : EngineState K :=
  { s with personaStartAt := some (s.personaStartAt.elim createdAt (min createdAt)) }

/-- `_repeat_factor`, with the records that it leaves. -/
def repeatFactor (repeats : Dict Text RepeatEntry) (event : Event K) (time now : Instant) :
    K × Dict Text RepeatEntry :=
  match event.memoryId with
  | none => (1, repeats)
  | some id =>
    let entry := repeats.get? id
    let live := entry.filter fun r =>
      event.kind ≠ .commit ∧ r.firstAt ≤ time ∧ time < r.firstAt + repeatWindow
    match live with
    | some r => (repeatFactorBase ^ (r.count + 1), repeats.set id { r with count := r.count + 1 })
    | none =>
      if event.kind.anchored ∧ time + repeatWindow ≤ now then
        (1, if entry.any (·.firstAt ≤ time) then repeats.pop id else repeats)
      else (1, repeats.set id ⟨time, 0⟩)

/-- `EMOTION_CLIMAX_THRESHOLD` -/
def climaxThreshold : K := 7

/-- What `apply_climax_reset` makes of the short average of an emotion. -/
def climaxReset (name : Text) (avg : K) : K :=
  if name = "arousal".toList then max (1 / 2) (avg * (1 / 5))
  else if name = "desire".toList then avg * (3 / 5)
  else if name = "comfort_seeking".toList ∨ name = "rest_need".toList then min valueCap (avg + 2)
  else if name = "climax".toList then 0
  else avg

/-- `apply_climax_reset` -/
def EngineState.applyClimaxReset (s : EngineState K) : EngineState K :=
  { s with
    emotions := s.emotions.map fun name e =>
      { e with short := { e.short with avg := climaxReset name e.short.avg } } }

/-- A signed amount of a change, added to each stored average. -/
def EngineState.foldAmount (s : EngineState K) (name : Text) (amount : K) (time : Instant) :
    EngineState K :=
  let e := (s.emotions.get? name).getD .empty
  s.fold S name (hold (e.short.avg + amount)) (hold (e.long.avg + amount)) 1 time false

/-- The emotions of a commit, an assignment or a showing. -/
def EngineState.foldMemory (s : EngineState K) (event : Event K) (time now : Instant) :
    EngineState K :=
  let (factor, repeats) := repeatFactor s.repeats event time now
  let s := event.emotions.entries.foldl
    (fun s e => s.foldEntry S e.1 e.2 (event.modifier * factor) time false)
    { s with repeats := repeats }
  if event.kind = .commit ∧ climaxThreshold ≤ event.climax then s.applyClimaxReset else s

/-- `fold_event` -/
def EngineState.foldEvent (s : EngineState K) (event : Event K) (now : Instant) : EngineState K :=
  let s := { s with lastUpdate := s.lastUpdate.map (min now) }
  let time := min event.time now
  let s :=
    if event.kind = .start ∨ event.kind = .commit then s.foldPersonaStart time else s
  if event.kind = .start ∨ event.emotions.entries = [] then s
  else if event.kind = .change then
    event.emotions.entries.foldl (fun s e => s.foldAmount S e.1 e.2 time) s
  else s.foldMemory S event time now

/-! ## What an event keeps -/

/-- Each part of what an event does to a state keeps `P`. -/
structure Keeps (S : Setting K) (time now : Instant) (P : EngineState K → Prop) : Prop where
  held : ∀ s, P s → P { s with lastUpdate := s.lastUpdate.map (min now) }
  start : ∀ s, P s → P (s.foldPersonaStart time)
  repeats : ∀ s repeats, P s → P { s with repeats := repeats }
  fold : ∀ s emotion shortValue longValue w, 0 ≤ w → P s →
    P (s.fold S emotion shortValue longValue w time false)
  climax : ∀ s, P s → P s.applyClimaxReset

variable {S} {time now : Instant} {P : EngineState K → Prop}

/-- What each step keeps, a fold keeps. -/
theorem foldl_keeps {σ α : Type*} {P : σ → Prop} {f : σ → α → σ} (hf : ∀ s a, P s → P (f s a))
    (as : List α) {s : σ} (hs : P s) : P (as.foldl f s) := by
  induction as generalizing s with
  | nil => exact hs
  | cons a as ih => exact ih (hf s a hs)

variable [IsStrictOrderedRing K]

theorem repeatFactor_nonneg (repeats : Dict Text RepeatEntry) (event : Event K)
    (time now : Instant) : 0 ≤ (repeatFactor repeats event time now).1 := by
  have hbase : (0 : K) ≤ repeatFactorBase := by unfold repeatFactorBase; positivity
  unfold repeatFactor
  cases event.memoryId with
  | none => exact zero_le_one
  | some id =>
    simp only
    split
    · exact pow_nonneg hbase _
    · split_ifs <;> exact zero_le_one

theorem Keeps.foldMemory (h : Keeps S time now P) {s : EngineState K} {event : Event K}
    (hmodifier : 0 ≤ event.modifier) (hs : P s) : P (s.foldMemory S event time now) := by
  have hweight := mul_nonneg hmodifier (repeatFactor_nonneg s.repeats event time now)
  simp only [EngineState.foldMemory]
  generalize repeatFactor s.repeats event time now = r at hweight ⊢
  have hentries := foldl_keeps
    (fun s (e : Text × K) hs => h.fold s e.1 (hold e.2) (hold e.2) _ hweight hs)
    event.emotions.entries (h.repeats s r.2 hs)
  split_ifs
  · exact h.climax _ hentries
  · exact hentries

/-- What each part of an event keeps, the event keeps. -/
theorem Keeps.foldEvent {event : Event K} (h : Keeps S (min event.time now) now P)
    (hmodifier : 0 ≤ event.modifier) {s : EngineState K} (hs : P s) :
    P (s.foldEvent S event now) := by
  have hheld := h.held s hs
  simp only [EngineState.foldEvent]
  generalize { s with lastUpdate := s.lastUpdate.map (min now) } = s₁ at hheld ⊢
  have hstarted : P (if event.kind = .start ∨ event.kind = .commit then
      s₁.foldPersonaStart (min event.time now) else s₁) := by
    split_ifs
    · exact h.start s₁ hheld
    · exact hheld
  generalize (if event.kind = .start ∨ event.kind = .commit then
    s₁.foldPersonaStart (min event.time now) else s₁) = s₂ at hstarted ⊢
  split_ifs
  · exact hstarted
  · exact foldl_keeps (fun s e hs => h.fold s e.1 _ _ _ zero_le_one hs) _ hstarted
  · exact h.foldMemory hmodifier hstarted

/-- What the apply step alone writes. -/
def EngineState.header (s : EngineState K) : Option Instant × Option Instant × ℕ :=
  (s.savedAt, s.resetAt, s.queueLine)

omit [IsStrictOrderedRing K]

variable {s : EngineState K}

theorem header_enter (emotion : Text) (shortValue longValue wShort wLong : K) (zero : Bool) :
    (s.enter S emotion shortValue longValue wShort wLong time zero).header = s.header := by
  simp only [EngineState.enter]
  split_ifs <;> rfl

theorem header_fold (emotion : Text) (shortValue longValue w : K) (zero : Bool) :
    (s.fold S emotion shortValue longValue w time zero).header = s.header := by
  unfold EngineState.fold
  split_ifs
  · rfl
  · cases s.lastUpdate.filter (time < ·) with
    | none => exact header_enter emotion shortValue longValue w w zero
    | some u => exact header_enter emotion shortValue longValue _ _ zero

theorem keeps_header (S : Setting K) (time now : Instant)
    (header : Option Instant × Option Instant × ℕ) :
    Keeps S time now fun s => s.header = header where
  held _ hs := hs
  start _ hs := hs
  repeats _ _ hs := hs
  fold _ emotion shortValue longValue w _ hs :=
    (header_fold emotion shortValue longValue w false).trans hs
  climax _ hs := hs

end Folding

end Companion.Emotion

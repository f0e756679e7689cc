import Companion.Emotion.Sound

/-!
# The state file

`state_to_json`, `validate_state` and `state_from_json` of `brain/emotion/engine_files.py`. A
refusal is given by the field that it names; the texts are left out.

`stateFromJson_stateToJson` is the round trip of a sound state.
-/

namespace Companion.Emotion

open Companion.Memory

/-- A value of the state file. A string is given by what it reads as: a calendar day written
`YYYY-MM-DD`, another text that `lenient_utc` reads, or neither. -/
inductive Value
  | null
  | bool (b : Bool)
  | int (n : ℤ)
  | float (x : ℚ)
  | nonfinite
  | text (t : Text)
  | day (day : ℤ)
  | time (time : Instant)
  | arr (items : List Value)
  /-- The items of an object, each key once. -/
  | obj (items : List (Text × Value))

namespace Value

/-- `d.get(key)` of an object. -/
def get? (v : Value) (key : String) : Option Value :=
  match v with
  | obj items => items.lookup key.toList
  | _ => none

/-- `d.get(key)`, where null is as good as nothing. -/
def present? (v : Value) (key : String) : Option Value :=
  match v.get? key with
  | some null => none
  | x => x

/-- `_time` -/
def time? : Value → Option Instant
  | time t => some t
  | day d => some (d * (24 * hour))
  | _ => none

/-- `_day` -/
def day? : Value → Option ℤ
  | day d => some d
  | _ => none

/-- The first integer that is too large for a float. -/
def floatLimit : ℤ := 2 ^ 1024 - 2 ^ 970

/-- `_finite` -/
def finite? : Value → Option ℚ
  | int n => if n.natAbs < floatLimit then some n else none
  | float x => some x
  | _ => none

/-- A whole number of 0 or more. -/
def count? : Value → Option ℕ
  | int n => if 0 ≤ n then some n.toNat else none
  | _ => none

def items? : Value → Option (List (Text × Value))
  | obj items => some items
  | _ => none

end Value

/-! ## Writing -/

def RunRecord.toJson (r : RunRecord) : Value :=
  .arr [.day r.startDay, .int r.direction, .day r.lastWithDay]

def SnapshotDay.toJson (d : SnapshotDay ℚ) : Value :=
  .arr [.day d.day, .float d.short, .float d.long, .int (if d.felt then 1 else 0),
    d.run.elim .null RunRecord.toJson]

def Average.toJson (a : Average ℚ) : Value :=
  .obj [("avg".toList, .float a.avg), ("weight".toList, .float a.weight)]

def EmotionState.toJson (e : EmotionState ℚ) : Value :=
  .obj [("short".toList, e.short.toJson), ("long".toList, e.long.toJson),
    ("last_entry_day".toList, e.lastEntryDay.elim .null .day),
    ("snapshot".toList, .arr (e.snapshot.map SnapshotDay.toJson))]

def RepeatEntry.toJson (r : RepeatEntry) : Value :=
  .obj [("first_at".toList, .time r.firstAt), ("count".toList, .int r.count)]

/-- `state_to_json`, or none where it raises. -/
def stateToJson (s : EngineState ℚ) : Option Value :=
  s.savedAt.map fun savedAt =>
    .obj [("saved_at".toList, .time savedAt),
      ("reset_at".toList, s.resetAt.elim .null .time),
      ("last_update".toList, s.lastUpdate.elim .null .time),
      ("active_day".toList, s.activeDay.elim .null .day),
      ("persona_start_at".toList, s.personaStartAt.elim .null .time),
      ("queue_line".toList, .int s.queueLine),
      ("repeats".toList, .obj (s.repeats.entries.map fun r => (r.1, r.2.toJson))),
      ("emotions".toList, .obj (s.emotions.entries.map fun e => (e.1, e.2.toJson)))]

/-! ## Checking -/

/-- The field that a refusal names. -/
abbrev Refusal := List Text

/-- The value, or the refusal of the field. -/
def require {α : Type*} (field : Refusal) (value : Option α) : Except Refusal α :=
  match value with
  | some x => .ok x
  | none => .error field

/-- The check of an average. -/
def checkAverage (field : Refusal) (emotion : Value) (key : String) : Except Refusal Unit := do
  let field := field ++ [key.toList]
  let average ← require field ((emotion.get? key).bind fun v => v.items?.map fun _ => v)
  let _ ← require (field ++ ["avg".toList]) ((average.get? "avg").bind Value.finite?)
  let weight ← require (field ++ ["weight".toList]) ((average.get? "weight").bind Value.finite?)
  require (field ++ ["weight".toList]) (if 0 ≤ weight then some () else none)

/-- The check of a last-entry day. -/
def checkLastEntryDay (activeDay : Option ℤ) (field : Refusal) : Value → Except Refusal Unit
  | .null => .ok ()
  | v => do
    let day ← require field v.day?
    require field (if activeDay.all (day ≤ ·) then some () else none)

/-- The check of an emotion. -/
def checkEmotion (activeDay : Option ℤ) (name : Text) (emotion : Value) : Except Refusal Unit := do
  let _ ← require [name] emotion.items?
  checkAverage [name] emotion "short"
  checkAverage [name] emotion "long"
  let field := [name, "last_entry_day".toList]
  let lastEntryDay ← require field (emotion.get? "last_entry_day")
  checkLastEntryDay activeDay field lastEntryDay

/-- The check of a time that may be missing or null. -/
def checkTime (data : Value) (key : String) : Except Refusal Unit := do
  match data.present? key with
  | none => return
  | some v =>
    let _ ← require [key.toList] v.time?

/-- The check of the open day, which a state that has been folded into has. -/
def checkActiveDay (data : Value) : Except Refusal (Option ℤ) :=
  match data.present? "active_day" with
  | some v => (require ["active_day".toList] v.day?).map some
  | none =>
    (require ["active_day".toList]
      (if (data.present? "last_update").isNone then some () else none)).map fun _ => none

/-- `validate_state` -/
def validateState (data : Value) : Except Refusal Unit := do
  let _ ← require [] data.items?
  let _ ← require ["saved_at".toList] ((data.get? "saved_at").bind Value.time?)
  checkTime data "reset_at"
  checkTime data "last_update"
  checkTime data "persona_start_at"
  let activeDay ← checkActiveDay data
  let _ ← require ["repeats".toList] (((data.get? "repeats").getD (.obj [])).items?)
  let emotions ← require ["emotions".toList] ((data.get? "emotions").bind Value.items?)
  emotions.forM fun e => checkEmotion activeDay e.1 e.2

/-! ## Reading -/

def directionFromJson : Value → Option SignType
  | .int 1 => some 1
  | .int (-1) => some (-1)
  | _ => none

/-- The run record of a snapshot day, or none where it is refused. -/
def runFromJson (day : ℤ) : Value → Option RunRecord
  | .arr (start :: direction :: lastWith :: _) => do
    let start ← start.day?
    let direction ← directionFromJson direction
    let lastWith ← lastWith.day?
    if lastWith ≤ day ∧ start ≤ lastWith ∧ day - lastWith ≤ 1 then
      some ⟨start, direction, lastWith⟩
    else none
  | _ => none

def runOrNull (day : ℤ) : Value → Option (Option RunRecord)
  | .null => some none
  | v => (runFromJson day v).map some

def feltFromJson : Value → Option Bool
  | .int 0 => some false
  | .int 1 => some true
  | _ => none

/-- `_snapshot_day`, or none where the day is dropped. -/
def snapshotDay (previousDay : Option ℤ) : Value → Option (SnapshotDay ℚ)
  | .arr (day :: short :: long :: felt :: run :: _) => do
    let day ← day.day?.filter fun day => previousDay.all (· < day)
    let short ← short.finite?
    let long ← long.finite?
    let felt ← feltFromJson felt
    let run ← runOrNull day run
    return ⟨day, hold short, hold long, felt, run⟩
  | _ => none

/-- The days that are kept, of those after `previousDay`. -/
def snapshotDays (previousDay : Option ℤ) : List Value → List (SnapshotDay ℚ)
  | [] => []
  | v :: vs =>
    match snapshotDay previousDay v with
    | some d => d :: snapshotDays (some d.day) vs
    | none => snapshotDays previousDay vs

/-- `_snapshot_from_json` -/
def snapshotFromJson : Option Value → List (SnapshotDay ℚ)
  | some (.arr items) => snapshotDays none items
  | _ => []

def averageFromJson (v : Value) : Option (Average ℚ) := do
  let avg ← (v.get? "avg").bind Value.finite?
  let weight ← (v.get? "weight").bind Value.finite?
  return ⟨hold avg, weight⟩

def emotionFromJson (v : Value) : Option (EmotionState ℚ) := do
  let short ← (v.get? "short").bind averageFromJson
  let long ← (v.get? "long").bind averageFromJson
  let lastEntryDay ← v.get? "last_entry_day"
  return ⟨short, long, lastEntryDay.day?, snapshotFromJson (v.get? "snapshot")⟩

/-- A repeat record, or none where it is dropped. -/
def repeatFromJson (v : Value) : Option RepeatEntry := do
  let count ← (v.get? "count").bind Value.count?
  let firstAt ← (v.get? "first_at").bind Value.time?
  return ⟨firstAt, count⟩

/-- `_queue_line_from` -/
def queueLineFrom (data : Value) : ℕ := ((data.get? "queue_line").bind Value.count?).getD 0

/-- `state_from_json`, or none where it raises. -/
def stateFromJson (data : Value) : Option (EngineState ℚ) := do
  let repeats ← ((data.get? "repeats").getD (.obj [])).items?
  let emotions ← (data.get? "emotions").bind Value.items?
  let emotions ← emotions.mapM fun e => (e.1, ·) <$> emotionFromJson e.2
  let savedAt ← data.get? "saved_at"
  return {
    savedAt := savedAt.time?
    resetAt := (data.present? "reset_at").bind Value.time?
    lastUpdate := (data.present? "last_update").bind Value.time?
    activeDay := (data.present? "active_day").bind Value.day?
    personaStartAt := (data.present? "persona_start_at").bind Value.time?
    repeats := .ofList (repeats.filterMap fun r => (r.1, ·) <$> repeatFromJson r.2)
    emotions := .ofList emotions
    queueLine := queueLineFrom data }

/-! ## The round trip -/

theorem runFromJson_toJson {r : RunRecord} {day : ℤ} (h : r.Sound day) :
    runFromJson day r.toJson = some r := by
  obtain ⟨start, direction, lastWith⟩ := r
  obtain ⟨hdirection, hstart, hle, hnear⟩ := h
  have hdays : lastWith ≤ day ∧ start ≤ lastWith ∧ day - lastWith ≤ 1 := ⟨hle, hstart, hnear⟩
  cases direction with
  | zero => exact absurd rfl hdirection
  | neg => exact if_pos hdays
  | pos => exact if_pos hdays

theorem snapshotDay_toJson {d : SnapshotDay ℚ} (h : d.Sound) {previousDay : Option ℤ}
    (hprevious : ∀ p ∈ previousDay, p < d.day) : snapshotDay previousDay d.toJson = some d := by
  obtain ⟨day, short, long, felt, run⟩ := d
  have hday : (some day).filter (fun day => previousDay.all (· < day)) = some day := by
    refine Option.filter_eq_some_iff.mpr ⟨rfl, ?_⟩
    cases previousDay with
    | none => rfl
    | some p => exact decide_eq_true (hprevious p rfl)
  have hshort : hold short = short := hold_of_mem h.short.1 h.short.2
  have hlong : hold long = long := hold_of_mem h.long.1 h.long.2
  have hfelt : feltFromJson (.int (if felt then 1 else 0)) = some felt := by cases felt <;> rfl
  have hrun : runOrNull day (run.elim .null RunRecord.toJson) = some run := by
    cases run with
    | none => rfl
    | some r => exact congrArg (Option.map some) (runFromJson_toJson (h.run r rfl))
  have hread : snapshotDay previousDay (SnapshotDay.toJson ⟨day, short, long, felt, run⟩) =
      ((some day).filter fun day => previousDay.all (· < day)).bind fun day =>
        (feltFromJson (.int (if felt then 1 else 0))).bind fun felt =>
          (runOrNull day (run.elim .null RunRecord.toJson)).bind fun run =>
            some ⟨day, hold short, hold long, felt, run⟩ := rfl
  rw [hread, hday, hfelt, Option.bind_some, Option.bind_some, hrun, hshort, hlong]
  rfl

theorem averageFromJson_toJson {a : Average ℚ} (h : a.Sound) : averageFromJson a.toJson = some a := by
  obtain ⟨avg, weight⟩ := a
  have hheld : hold avg = avg := hold_of_mem h.nonneg h.le_cap
  have hread : averageFromJson (Average.toJson ⟨avg, weight⟩) = some ⟨hold avg, weight⟩ := rfl
  rw [hread, hheld]

theorem repeatFromJson_toJson (r : RepeatEntry) : repeatFromJson r.toJson = some r := by
  obtain ⟨firstAt, count⟩ := r
  rfl

theorem snapshotDays_toJson {days : List (SnapshotDay ℚ)} {previousDay : Option ℤ}
    (hsound : ∀ d ∈ days, d.Sound) (hincreasing : days.Pairwise (·.day < ·.day))
    (hprevious : ∀ p ∈ previousDay, ∀ d ∈ days, p < d.day) :
    snapshotDays previousDay (days.map SnapshotDay.toJson) = days := by
  induction days generalizing previousDay with
  | nil => rfl
  | cons d ds ih =>
    obtain ⟨hd, hds⟩ := List.forall_mem_cons.mp hsound
    obtain ⟨hafter, hrest⟩ := List.pairwise_cons.mp hincreasing
    rw [List.map_cons, snapshotDays,
      snapshotDay_toJson hd fun p hp => hprevious p hp d List.mem_cons_self]
    simp only
    rw [ih hds hrest]
    rintro p ⟨⟩
    exact hafter

theorem emotionFromJson_toJson {e : EmotionState ℚ} {activeDay : Option ℤ} (h : e.Sound activeDay) :
    emotionFromJson e.toJson = some e := by
  obtain ⟨short, long, lastEntryDay, snapshot⟩ := e
  have hsnapshot : snapshotDays none (snapshot.map SnapshotDay.toJson) = snapshot :=
    snapshotDays_toJson h.days h.increasing nofun
  have hlast : (lastEntryDay.elim Value.null .day).day? = lastEntryDay := by
    cases lastEntryDay <;> rfl
  have hread : emotionFromJson (EmotionState.toJson ⟨short, long, lastEntryDay, snapshot⟩) =
      (averageFromJson short.toJson).bind fun short => (averageFromJson long.toJson).bind fun long =>
        some ⟨short, long, (lastEntryDay.elim Value.null .day).day?,
          snapshotDays none (snapshot.map SnapshotDay.toJson)⟩ := rfl
  rw [hread, averageFromJson_toJson h.short, averageFromJson_toJson h.long, hlast, hsnapshot]
  rfl

theorem require_if {c : Prop} [Decidable c] (h : c) (field : Refusal) :
    require field (if c then some () else none) = .ok () := by
  rw [if_pos h]
  rfl

theorem checkEmotion_toJson {e : EmotionState ℚ} {activeDay : Option ℤ} (h : e.Sound activeDay)
    (name : Text) : checkEmotion activeDay name e.toJson = .ok () := by
  obtain ⟨short, long, lastEntryDay, snapshot⟩ := e
  have hshort : checkAverage [name] (EmotionState.toJson ⟨short, long, lastEntryDay, snapshot⟩)
      "short" = .ok () := require_if h.short.weight _
  have hlong : checkAverage [name] (EmotionState.toJson ⟨short, long, lastEntryDay, snapshot⟩)
      "long" = .ok () := require_if h.long.weight _
  have hlast : checkLastEntryDay activeDay [name, "last_entry_day".toList]
      (lastEntryDay.elim .null .day) = .ok () := by
    cases lastEntryDay with
    | none => rfl
    | some day =>
      obtain ⟨a, ha, hle⟩ := h.lastEntryDay day rfl
      refine require_if ?_ _
      rw [ha]
      exact decide_eq_true hle
  have hcheck : checkEmotion activeDay name
      (EmotionState.toJson ⟨short, long, lastEntryDay, snapshot⟩) =
        (checkAverage [name] (EmotionState.toJson ⟨short, long, lastEntryDay, snapshot⟩) "short").bind
          fun _ => (checkAverage [name]
            (EmotionState.toJson ⟨short, long, lastEntryDay, snapshot⟩) "long").bind
          fun _ => checkLastEntryDay activeDay [name, "last_entry_day".toList]
            (lastEntryDay.elim .null .day) := rfl
  rw [hcheck, hshort, hlong]
  exact hlast

theorem forM_ok {ε α : Type*} {f : α → Except ε Unit} {as : List α} (h : ∀ a ∈ as, f a = .ok ()) :
    as.forM f = .ok () := by
  induction as with
  | nil => rfl
  | cons a as ih =>
    obtain ⟨ha, has⟩ := List.forall_mem_cons.mp h
    show (f a).bind (fun _ => as.forM f) = .ok ()
    rw [ha]
    exact ih has

theorem mapM_some {α β : Type*} {f : β → Option α} {g : α → β} {as : List α}
    (h : ∀ a ∈ as, f (g a) = some a) : (as.map g).mapM f = some as := by
  induction as with
  | nil => rfl
  | cons a as ih =>
    obtain ⟨ha, has⟩ := List.forall_mem_cons.mp h
    rw [List.map_cons, List.mapM_cons, ha, ih has]
    rfl

/-- A field that holds a value or null. -/
theorem present?_of_get? {data : Value} {key : String} {α : Type*} {x : Option α} {f : α → Value}
    (hf : ∀ a, f a ≠ .null) (h : data.get? key = some (x.elim .null f)) :
    data.present? key = x.map f := by
  unfold Value.present?
  rw [h]
  cases x with
  | none => rfl
  | some a =>
    show (match some (f a) with | some .null => none | y => y) = some (f a)
    cases hfa : f a with
    | null => exact absurd hfa (hf a)
    | _ => rfl

theorem checkTime_of_present? {data : Value} {key : String} {time : Option Instant}
    (h : data.present? key = time.map .time) : checkTime data key = .ok () := by
  unfold checkTime
  rw [h]
  cases time <;> rfl

theorem time?_of_present? {data : Value} {key : String} {time : Option Instant}
    (h : data.present? key = time.map .time) : (data.present? key).bind Value.time? = time := by
  rw [h]
  cases time <;> rfl

/-- What is read back of each field that may be null. -/
structure Written (s : EngineState ℚ) (v : Value) : Prop where
  resetAt : v.present? "reset_at" = s.resetAt.map .time
  lastUpdate : v.present? "last_update" = s.lastUpdate.map .time
  activeDay : v.present? "active_day" = s.activeDay.map .day
  personaStartAt : v.present? "persona_start_at" = s.personaStartAt.map .time

theorem written_stateToJson {s : EngineState ℚ} {v : Value} (h : stateToJson s = some v) :
    Written s v := by
  obtain ⟨saved, -, rfl⟩ := Option.map_eq_some_iff.mp h
  exact ⟨present?_of_get? (fun _ => nofun) rfl, present?_of_get? (fun _ => nofun) rfl,
    present?_of_get? (fun _ => nofun) rfl, present?_of_get? (fun _ => nofun) rfl⟩

/-- What is written of a sound state is accepted. -/
theorem validateState_stateToJson {s : EngineState ℚ} (h : s.Sound) {v : Value}
    (hv : stateToJson s = some v) : validateState v = .ok () := by
  have hwritten := written_stateToJson hv
  have hactive : checkActiveDay v = .ok s.activeDay := by
    unfold checkActiveDay
    rw [hwritten.activeDay]
    cases ha : s.activeDay with
    | some a => rfl
    | none =>
      have hlast : s.lastUpdate = none := by
        by_contra hlast
        have hopen := h.opened (Option.isSome_iff_ne_none.mpr hlast)
        rw [ha] at hopen
        exact nomatch hopen
      rw [hwritten.lastUpdate, hlast]
      rfl
  have hemotions : (s.emotions.entries.map fun e => (e.1, e.2.toJson)).forM
      (fun e => checkEmotion s.activeDay e.1 e.2) = .ok () := by
    refine forM_ok fun e he => ?_
    obtain ⟨⟨name, emotion⟩, hmem, rfl⟩ := List.mem_map.mp he
    exact checkEmotion_toJson (h.emotions name emotion (Dict.get?_of_mem_entries hmem)) name
  obtain ⟨saved, -, rfl⟩ := Option.map_eq_some_iff.mp hv
  generalize hdata : Value.obj _ = data at hactive hwritten ⊢
  have hread : validateState data = (checkTime data "reset_at").bind fun _ =>
      (checkTime data "last_update").bind fun _ => (checkTime data "persona_start_at").bind fun _ =>
        (checkActiveDay data).bind fun activeDay =>
          (s.emotions.entries.map fun e => (e.1, e.2.toJson)).forM
            fun e => checkEmotion activeDay e.1 e.2 := by
    rw [← hdata]
    rfl
  rw [hread, checkTime_of_present? hwritten.resetAt, checkTime_of_present? hwritten.lastUpdate,
    checkTime_of_present? hwritten.personaStartAt, hactive]
  exact hemotions

/-- What is written of a sound state is read back as it was: no snapshot day and no repeat record is
dropped. -/
theorem stateFromJson_stateToJson {s : EngineState ℚ} (h : s.Sound) {v : Value}
    (hv : stateToJson s = some v) : stateFromJson v = some s := by
  have hwritten := written_stateToJson hv
  have hactive : (v.present? "active_day").bind Value.day? = s.activeDay := by
    rw [hwritten.activeDay]
    cases s.activeDay <;> rfl
  have hrepeats : (s.repeats.entries.map fun r => (r.1, r.2.toJson)).filterMap
      (fun r => (r.1, ·) <$> repeatFromJson r.2) = s.repeats.entries := by
    rw [List.filterMap_map]
    refine (List.filterMap_congr fun r _ => ?_).trans List.filterMap_some
    show (r.1, ·) <$> repeatFromJson r.2.toJson = some r
    rw [repeatFromJson_toJson]
    rfl
  have hemotions : (s.emotions.entries.map fun e => (e.1, e.2.toJson)).mapM
      (fun e => (e.1, ·) <$> emotionFromJson e.2) = some s.emotions.entries := by
    refine mapM_some fun e he => ?_
    have hsound := h.emotions e.1 e.2 (Dict.get?_of_mem_entries he)
    show (e.1, ·) <$> emotionFromJson e.2.toJson = some e
    rw [emotionFromJson_toJson hsound]
    rfl
  obtain ⟨saved, hsaved, rfl⟩ := Option.map_eq_some_iff.mp hv
  generalize hdata : Value.obj _ = data at hactive hwritten ⊢
  have hread : stateFromJson data =
      ((s.emotions.entries.map fun e => (e.1, e.2.toJson)).mapM
        fun e => (e.1, ·) <$> emotionFromJson e.2).bind fun emotions =>
          some {
            savedAt := some saved
            resetAt := (data.present? "reset_at").bind Value.time?
            lastUpdate := (data.present? "last_update").bind Value.time?
            activeDay := (data.present? "active_day").bind Value.day?
            personaStartAt := (data.present? "persona_start_at").bind Value.time?
            repeats := .ofList ((s.repeats.entries.map fun r => (r.1, r.2.toJson)).filterMap
              fun r => (r.1, ·) <$> repeatFromJson r.2)
            emotions := .ofList emotions
            queueLine := s.queueLine } := by
    rw [← hdata]
    rfl
  rw [hread, hemotions, hrepeats, hactive, time?_of_present? hwritten.resetAt,
    time?_of_present? hwritten.lastUpdate, time?_of_present? hwritten.personaStartAt,
    Option.bind_some, Dict.ofList_entries, Dict.ofList_entries, ← hsaved]

end Companion.Emotion

import Companion.Calendar
import Companion.Memory.Text
import Companion.Runs
import Mathlib

/-!
# The calibration log and its held rows

`calibration_log` of `brain/memory/store.py`: the recalls that were scored, with the labels a judge
gives them later. A floor is fitted from the pairs of the most recent day
(`labeledCalibrationPairs`), and a prune deletes what is outside a window of days
(`pruneCalibrationLog`), except for rows that are held: those with a Haiku decision that the weekly
self-tune has not consumed yet, for one week. The cutoff of the prunes is stored as a view, below
which the fit does not look.

The log is compared with one in which a prune deletes all that is below its cutoff and nothing is
held (`plainStep`). The fit reads the same pairs from both, as long as no prune cuts off a day that
is still to come (`reads_as_plain`). A window below zero does that: the rows that are logged before
that day are never read.

A day is counted from the first of year 1, in whose order `YYYY-MM-DD` is written, and so is the
second that `logged_at` is. The columns of JSON are the lists they decode to.
-/

namespace Companion.Memory.CalibrationLog

open Companion.Runs

/-- A day in microseconds. -/
def dayMicros : ℤ := 86400 * 10 ^ 6

/-- The end of the year 9999, which no `datetime` is after. -/
def calendarEnd : Instant := Calendar.daysBefore 10000 * dayMicros

/-- `strftime('%Y-%m-%d')` -/
def dayOf (t : Instant) : ℤ := t / dayMicros

/-- `strftime('%Y-%m-%d %H:%M:%S')` -/
def secondOf (t : Instant) : ℤ := t / 10 ^ 6

/-- `JUDGE_TUNE_INTERVAL_HOURS`, in microseconds -/
def tuneInterval : ℤ := 168 * 3600 * 10 ^ 6

/-- `CALIBRATION_SCORE_SCALE` -/
def calibrationScoreScale : Text := "normalized".toList

/-- `COSINE_SCORE_SCALE` -/
def cosineScoreScale : Text := "cosine".toList

/-- A row of `calibration_log`. -/
structure Row (Score : Type) where
  id : ℕ
  loggedAt : ℤ
  dayBucket : ℤ
  rerankerScores : List Score
  rerankerModelId : Text
  localJudgeLabel : Option (List Text)
  haikuLabel : Option (List (Option Text))
  scoreScale : Text
  selftuneConsumedAt : Option Instant
  deriving DecidableEq

variable {Score : Type}

namespace Row

/-- What a row keeps from when it was logged. -/
def SameEntry (r r' : Row Score) : Prop :=
  r.id = r'.id ∧ r.loggedAt = r'.loggedAt ∧ r.dayBucket = r'.dayBucket

/-- A row is labeled where its id is the one that is given. -/
def label (rowId : ℕ) (localJudgeLabel : List Text) (haikuLabel : List (Option Text))
    (r : Row Score) : Row Score :=
  if r.id = rowId then
    { r with localJudgeLabel := some localJudgeLabel, haikuLabel := some haikuLabel }
  else r

/-- A row is consumed where its id is among those that are given. -/
def consume (rowIds : List ℕ) (consumedAt : Instant) (r : Row Score) : Row Score :=
  if r.id ∈ rowIds then { r with selftuneConsumedAt := some consumedAt } else r

theorem sameEntry_label (rowId : ℕ) (localJudgeLabel : List Text)
    (haikuLabel : List (Option Text)) (r : Row Score) :
    (r.label rowId localJudgeLabel haikuLabel).SameEntry r := by
  unfold label
  split_ifs <;> exact ⟨rfl, rfl, rfl⟩

theorem sameEntry_consume (rowIds : List ℕ) (consumedAt : Instant) (r : Row Score) :
    (r.consume rowIds consumedAt).SameEntry r := by
  unfold consume
  split_ifs <;> exact ⟨rfl, rfl, rfl⟩

end Row

/-- The table, with the last id given out and the cutoff of `calibration_log_retention_state`. -/
@[ext]
structure Log (Score : Type) where
  rows : List (Row Score)
  lastId : ℕ
  view : Option ℤ
  increasing : (rows.map Row.id).Pairwise (· < ·)
  le_lastId : ∀ r ∈ rows, r.id ≤ lastId

namespace Log

/-- `DELETE`, with the rows that stay. -/
def retain (s : Log Score) (p : Row Score → Bool) : Log Score where
  rows := s.rows.filter p
  lastId := s.lastId
  view := s.view
  increasing := s.increasing.sublist (List.filter_sublist.map Row.id)
  le_lastId r hr := s.le_lastId r (List.mem_of_mem_filter hr)

/-- `UPDATE` -/
def update (s : Log Score) (f : Row Score → Row Score) (hf : ∀ r, (f r).SameEntry r) :
    Log Score where
  rows := s.rows.map f
  lastId := s.lastId
  view := s.view
  increasing := by
    have hids : (s.rows.map f).map Row.id = s.rows.map Row.id := by
      rw [List.map_map]
      exact List.map_congr_left fun r _ => (hf r).1
    rw [hids]
    exact s.increasing
  le_lastId := by
    intro r hr
    obtain ⟨r', hr', rfl⟩ := List.mem_map.mp hr
    rw [(hf r').1]
    exact s.le_lastId r' hr'

/-- `INSERT`, of a row that is made with the next id. -/
def insert (s : Log Score) (row : ℕ → Row Score) (hrow : ∀ id, (row id).id = id) : Log Score where
  rows := s.rows ++ [row (s.lastId + 1)]
  lastId := s.lastId + 1
  view := s.view
  increasing := by
    rw [List.map_append, List.pairwise_append]
    refine ⟨s.increasing, List.pairwise_singleton _ _, ?_⟩
    intro a ha b hb
    obtain ⟨r, hr, rfl⟩ := List.mem_map.mp ha
    obtain rfl := List.mem_singleton.mp hb
    rw [hrow]
    exact Nat.lt_succ_of_le (s.le_lastId r hr)
  le_lastId := by
    intro r hr
    rcases List.mem_append.mp hr with hr | hr
    · exact (s.le_lastId r hr).trans (Nat.le_succ _)
    · rw [List.mem_singleton.mp hr, hrow]

/-- The cutoff is stored, and the rows are as they were. -/
def setView (s : Log Score) (view : ℤ) : Log Score := { s with view := some view }

/-- A store that is new. -/
def empty : Log Score := ⟨[], 0, none, .nil, nofun⟩

end Log

/-! ## The store -/

/-- A row with the defaults of the table. -/
def newRow (now : Instant) (rerankerScores : List Score) (rerankerModelId scoreScale : Text)
    (id : ℕ) : Row Score :=
  ⟨id, secondOf now, dayOf now, rerankerScores, rerankerModelId, none, none, scoreScale, none⟩

/-- `log_calibration_sample`, or none where it raises -/
def logCalibrationSample (s : Log Score) (now : Instant) (rerankerScores : List Score)
    (rerankerModelId scoreScale : Text) : Option (Log Score) :=
  if scoreScale = calibrationScoreScale ∨ scoreScale = cosineScoreScale then
    some (s.insert (newRow now rerankerScores rerankerModelId scoreScale) fun _ => rfl)
  else none

/-- `write_calibration_labels` -/
def writeCalibrationLabels (s : Log Score) (rowId : ℕ) (localJudgeLabel : List Text)
    (haikuLabel : List (Option Text)) : Log Score :=
  s.update (Row.label rowId localJudgeLabel haikuLabel)
    (Row.sameEntry_label rowId localJudgeLabel haikuLabel)

/-- `mark_selftune_consumed` -/
def markSelftuneConsumed (s : Log Score) (rowIds : List ℕ) (consumedAt : Instant) : Log Score :=
  s.update (Row.consume rowIds consumedAt) (Row.sameEntry_consume rowIds consumedAt)

/-- `_haiku_decision_count` -/
def haikuDecisionCount : Option (List (Option Text)) → ℕ
  | none => 0
  | some labels => labels.countP Option.isSome

/-- `_selftune_week_cutoff`, or none where it raises -/
def selftuneWeekCutoff (now : Instant) : Option ℤ :=
  if now - tuneInterval < 0 then none else some (secondOf (now - tuneInterval))

/-- `_delete_unheld_before`, or none where it raises -/
def deleteUnheldBefore (s : Log Score) (cutoffBucket : ℤ) (now : Instant) :
    Option (Log Score × ℕ) :=
  match selftuneWeekCutoff now with
  | none => none
  | some weekCutoff =>
    let unheld := fun r : Row Score => decide (r.dayBucket < cutoffBucket) &&
      (r.haikuLabel.isNone || r.selftuneConsumedAt.isSome || decide (r.loggedAt < weekCutoff))
    let left := s.retain fun r => !unheld r
    let noDecision := (left.rows.filter fun r => decide (r.dayBucket < cutoffBucket) &&
      haikuDecisionCount r.haikuLabel = 0).map Row.id
    some (left.retain fun r => r.id ∉ noDecision, s.rows.countP unheld + noDecision.length)

/-- The cutoff of a prune, or none where it raises. A window that `timedelta` does not take is one
that leaves the calendar. -/
def cutoffOf (window : ℤ) (now : Instant) : Option ℤ :=
  if 0 ≤ now - window ∧ now - window < calendarEnd then some (dayOf (now - window)) else none

/-- `prune_calibration_log`, with the number of rows that were deleted, or none where it raises. The
window is that of `timedelta(days=window_days)`. -/
def pruneCalibrationLog (s : Log Score) (window : ℤ) (now : Instant) : Log Score × Option ℕ :=
  match cutoffOf window now with
  | none => (s, none)
  | some cutoffBucket =>
    let s := s.setView (match s.view with
      | none => cutoffBucket
      | some stored => max stored cutoffBucket)
    match deleteUnheldBefore s cutoffBucket now with
    | none => (s, none)
    | some (s, deleted) => (s, some deleted)

/-- `clear_selftune_held_rows`, with the number of rows that were deleted, or none where it raises
-/
def clearSelftuneHeldRows (s : Log Score) (now : Instant) : Log Score × Option ℕ :=
  match s.view with
  | none => (s, some 0)
  | some view =>
    match deleteUnheldBefore s view now with
    | none => (s, none)
    | some (s, deleted) => (s, some deleted)

/-- The pairs of a row. -/
def rowPairs (r : Row Score) : List (Score × Text) :=
  let localLabels := r.localJudgeLabel.getD []
  let haikuLabels := r.haikuLabel.getD (List.replicate r.rerankerScores.length none)
  (r.rerankerScores.zip (localLabels.zip haikuLabels)).filterMap fun (score, localLabel, haikuLabel) =>
    let effective := haikuLabel.getD localLabel
    if effective = "relevant".toList ∨ effective = "irrelevant".toList then some (score, effective)
    else none

/-- The rows of a model and a scale that are labeled. -/
def isUsable (rerankerModelId scoreScale : Text) (r : Row Score) : Bool :=
  r.rerankerModelId = rerankerModelId && r.localJudgeLabel.isSome && r.scoreScale = scoreScale

/-- The row is not below the view. -/
def isViewed (view : Option ℤ) (r : Row Score) : Bool := view.all fun v => v ≤ r.dayBucket

/-- `labeled_calibration_pairs` -/
def labeledCalibrationPairs (s : Log Score) (rerankerModelId scoreScale : Text) :
    List (Score × Text) :=
  let usable := s.rows.filter fun r => isUsable rerankerModelId scoreScale r && isViewed s.view r
  match (usable.map Row.dayBucket).max? with
  | none => []
  | some mostRecentDay =>
    (usable.filter fun r => r.dayBucket = mostRecentDay).flatMap rowPairs

/-! ## The calls, and a log without the hold -/

/-- A call. -/
inductive Call (Score : Type)
  | logCalibrationSample (rerankerScores : List Score) (rerankerModelId scoreScale : Text)
  | writeCalibrationLabels (rowId : ℕ) (localJudgeLabel : List Text)
      (haikuLabel : List (Option Text))
  | pruneCalibrationLog (window : ℤ)
  | markSelftuneConsumed (rowIds : List ℕ)
  | clearSelftuneHeldRows

/-- A call on the log. -/
def heldStep (s : Log Score) (now : Instant) : Call Score → Log Score
  | .logCalibrationSample scores model scale =>
    (logCalibrationSample s now scores model scale).getD s
  | .writeCalibrationLabels rowId localLabels haikuLabels =>
    writeCalibrationLabels s rowId localLabels haikuLabels
  | .pruneCalibrationLog window => (pruneCalibrationLog s window now).1
  | .markSelftuneConsumed rowIds => markSelftuneConsumed s rowIds now
  | .clearSelftuneHeldRows => (clearSelftuneHeldRows s now).1

/-- A call on a log that has no hold: a prune deletes what is below its cutoff, and there is no view
and nothing to clear. -/
def plainStep (s : Log Score) (now : Instant) : Call Score → Log Score
  | .logCalibrationSample scores model scale =>
    (logCalibrationSample s now scores model scale).getD s
  | .writeCalibrationLabels rowId localLabels haikuLabels =>
    writeCalibrationLabels s rowId localLabels haikuLabels
  | .pruneCalibrationLog window =>
    match cutoffOf window now with
    | none => s
    | some cutoff => s.retain fun r => cutoff ≤ r.dayBucket
  | .markSelftuneConsumed rowIds => markSelftuneConsumed s rowIds now
  | .clearSelftuneHeldRows => s

/-- The two logs, and the time of the last call. -/
structure Both (Score : Type) where
  clock : Instant
  held : Log Score
  plain : Log Score

/-- The same calls on the two logs, at times that do not decrease. -/
def machine (Score : Type) : Machine (Both Score) (Instant × Call Score) where
  init b := b.held = .empty ∧ b.plain = .empty
  step b := fun (now, call) =>
    if b.clock ≤ now then some ⟨now, heldStep b.held now call, plainStep b.plain now call⟩ else none

/-- A prune does not cut off a day that is still to come. -/
def NotAhead (_ : Both Score) : Instant × Call Score → Prop
  | (now, .pruneCalibrationLog window) => ∀ cutoff ∈ cutoffOf window now, cutoff ≤ dayOf now
  | _ => True

instance (b : Both Score) : DecidablePred (NotAhead b)
  | (_, .logCalibrationSample _ _ _) => isTrue trivial
  | (_, .writeCalibrationLabels _ _ _) => isTrue trivial
  | (now, .pruneCalibrationLog window) =>
    inferInstanceAs (Decidable (∀ cutoff ∈ cutoffOf window now, cutoff ≤ dayOf now))
  | (_, .markSelftuneConsumed _) => isTrue trivial
  | (_, .clearSelftuneHeldRows) => isTrue trivial

/-! ## What is deleted -/

/-- A row with a decision that is not consumed. -/
def IsDecided (r : Row Score) : Prop :=
  0 < haikuDecisionCount r.haikuLabel ∧ r.selftuneConsumedAt = none

instance (r : Row Score) : Decidable (IsDecided r) := instDecidableAnd

/-- A row that is held. -/
def isHeld (weekCutoff : ℤ) (r : Row Score) : Bool := IsDecided r ∧ weekCutoff ≤ r.loggedAt

namespace Log

variable {s : Log Score}

/-- An id is that of one row. -/
theorem eq_of_id {r r' : Row Score} (hr : r ∈ s.rows) (hr' : r' ∈ s.rows) (h : r.id = r'.id) :
    r = r' :=
  List.inj_on_of_nodup_map (s.increasing.imp fun h => h.ne) hr hr' h

theorem retain_retain (p q : Row Score → Bool) :
    (s.retain p).retain q = s.retain fun r => p r && q r := by
  refine Log.ext ?_ rfl rfl
  show (s.rows.filter p).filter q = _
  rw [List.filter_filter]
  exact List.filter_congr fun r _ => Bool.and_comm _ _

theorem retain_congr {p q : Row Score → Bool} (h : ∀ r ∈ s.rows, p r = q r) :
    s.retain p = s.retain q :=
  Log.ext (List.filter_congr h) rfl rfl

/-- Rows deleted by their ids are those that the ids were taken of. -/
theorem retain_ids (p : Row Score → Bool) :
    (s.retain fun r => r.id ∉ (s.rows.filter p).map Row.id) = s.retain fun r => !p r := by
  refine retain_congr fun r hr => ?_
  -- An id is that of one row, so it is taken of this row or not at all.
  have hmem : r.id ∈ (s.rows.filter p).map Row.id ↔ p r = true := by
    constructor
    · intro h
      obtain ⟨r', hr', hid⟩ := List.mem_map.mp h
      obtain ⟨hr', hp⟩ := List.mem_filter.mp hr'
      rwa [eq_of_id hr' hr hid] at hp
    · exact fun h => List.mem_map_of_mem (List.mem_filter.mpr ⟨hr, h⟩)
  rw [Bool.eq_iff_iff, decide_eq_true_eq, Bool.not_eq_true', hmem, Bool.not_eq_true]

end Log

variable {s : Log Score}

/-- Below the cutoff, a row is not held just where one of the two deletions takes it. -/
theorem stays_iff (cutoff weekCutoff : ℤ) (r : Row Score) :
    (!(decide (r.dayBucket < cutoff) && (r.haikuLabel.isNone || r.selftuneConsumedAt.isSome ||
        decide (r.loggedAt < weekCutoff))) &&
      !(decide (r.dayBucket < cutoff) && decide (haikuDecisionCount r.haikuLabel = 0))) =
      (decide (cutoff ≤ r.dayBucket) || isHeld weekCutoff r) := by
  have hcount : r.haikuLabel.isNone = true → haikuDecisionCount r.haikuLabel = 0 := by
    intro h
    rw [Option.isNone_iff_eq_none.mp h]
    rfl
  -- The first deletion takes what has no labels, is consumed or is too old, and the second what has
  -- labels without a decision.
  by_cases hday : cutoff ≤ r.dayBucket
  · rw [decide_eq_true hday, decide_eq_false (not_lt.mpr hday)]
    rfl
  · rw [decide_eq_false hday, decide_eq_true (not_le.mp hday), Bool.true_and, Bool.true_and,
      Bool.false_or, Bool.eq_iff_iff, isHeld, decide_eq_true_eq]
    simp only [Bool.and_eq_true, Bool.not_eq_true', Bool.or_eq_false_iff, decide_eq_false_iff_not]
    constructor
    · rintro ⟨⟨⟨-, hconsumed⟩, hweek⟩, hpos⟩
      have hunconsumed := Option.isNone_iff_eq_none.mp (Option.isSome_eq_false_iff.mp hconsumed)
      exact ⟨⟨Nat.pos_of_ne_zero hpos, hunconsumed⟩, not_lt.mp hweek⟩
    · rintro ⟨⟨hpos, hconsumed⟩, hweek⟩
      refine ⟨⟨⟨?_, by rw [hconsumed]; rfl⟩, not_lt.mpr hweek⟩, hpos.ne'⟩
      exact Bool.eq_false_iff.mpr fun h => hpos.ne' (hcount h)

/-- The rows below a cutoff go that are not held. -/
theorem deleteUnheldBefore_some {s s' : Log Score} {cutoff : ℤ} {now : Instant} {deleted : ℕ}
    (h : deleteUnheldBefore s cutoff now = some (s', deleted)) :
    ∃ weekCutoff, selftuneWeekCutoff now = some weekCutoff ∧
      s' = s.retain fun r => decide (cutoff ≤ r.dayBucket) || isHeld weekCutoff r := by
  unfold deleteUnheldBefore at h
  cases hweek : selftuneWeekCutoff now with
  | none =>
    rw [hweek] at h
    cases h
  | some weekCutoff =>
    rw [hweek] at h
    dsimp only at h
    rw [Log.retain_ids, Log.retain_retain] at h
    refine ⟨weekCutoff, rfl, ?_⟩
    rw [← (Prod.mk.inj (Option.some.inj h)).1]
    exact Log.retain_congr fun r _ => stays_iff cutoff weekCutoff r

theorem deleteUnheldBefore_view {s s' : Log Score} {cutoff : ℤ} {now : Instant} {deleted : ℕ}
    (h : deleteUnheldBefore s cutoff now = some (s', deleted)) : s'.view = s.view := by
  obtain ⟨weekCutoff, -, rfl⟩ := deleteUnheldBefore_some h
  rfl

/-- A prune that has a cutoff raises the view to it, and deletes below it unless that raises. -/
theorem pruneCalibrationLog_cases (s : Log Score) (window : ℤ) (now : Instant) :
    (cutoffOf window now = none ∧ (pruneCalibrationLog s window now).1 = s) ∨
    ∃ cutoff s', cutoffOf window now = some cutoff ∧
      s.setView (match s.view with
        | none => cutoff
        | some stored => max stored cutoff) = s' ∧
      ((pruneCalibrationLog s window now).1 = s' ∨ ∃ deleted,
        deleteUnheldBefore s' cutoff now = some ((pruneCalibrationLog s window now).1, deleted)) := by
  unfold pruneCalibrationLog
  cases cutoffOf window now with
  | none => exact .inl ⟨rfl, rfl⟩
  | some cutoff =>
    refine .inr ⟨cutoff, _, rfl, rfl, ?_⟩
    dsimp only
    generalize s.setView _ = s'
    cases deleteUnheldBefore s' cutoff now with
    | none => exact .inl rfl
    | some left => exact .inr ⟨left.2, rfl⟩

/-- A clearing deletes below the view, unless there is none or the deletion raises. -/
theorem clearSelftuneHeldRows_cases (s : Log Score) (now : Instant) :
    (clearSelftuneHeldRows s now).1 = s ∨ ∃ view ∈ s.view, ∃ deleted,
      deleteUnheldBefore s view now = some ((clearSelftuneHeldRows s now).1, deleted) := by
  unfold clearSelftuneHeldRows
  cases s.view with
  | none => exact .inl rfl
  | some view =>
    dsimp only
    cases hdelete : deleteUnheldBefore s view now with
    | none => exact .inl rfl
    | some left => exact .inr ⟨view, rfl, left.2, hdelete⟩

/-! ## What the fit sees -/

theorem isViewed_iff {view : Option ℤ} {r : Row Score} :
    isViewed view r = true ↔ ∀ v ∈ view, v ≤ r.dayBucket := by
  cases view with
  | none => simp [isViewed]
  | some v => simp [isViewed]

namespace Log

/-- What a log without the hold has. -/
def viewed (s : Log Score) : Log Score := { s.retain (isViewed s.view) with view := none }

theorem viewed_insert {row : ℕ → Row Score} {hrow : ∀ id, (row id).id = id}
    (h : isViewed s.view (row (s.lastId + 1)) = true) :
    (s.insert row hrow).viewed = s.viewed.insert row hrow := by
  refine Log.ext ?_ rfl rfl
  show (s.rows ++ [row (s.lastId + 1)]).filter (isViewed s.view) = _
  rw [List.filter_append, List.filter_singleton, h]
  rfl

theorem viewed_update {f : Row Score → Row Score} (hf : ∀ r, (f r).SameEntry r) :
    (s.update f hf).viewed = s.viewed.update f hf := by
  refine Log.ext ?_ rfl rfl
  show (s.rows.map f).filter (isViewed s.view) = (s.rows.filter (isViewed s.view)).map f
  rw [List.filter_map]
  congr 1
  refine List.filter_congr fun r _ => ?_
  -- The day of a row is never written.
  rw [Function.comp_apply, isViewed, isViewed, (hf r).2.2]

/-- Where nothing goes that is viewed, what is viewed stays the same. -/
theorem viewed_retain {p : Row Score → Bool} (h : ∀ r, isViewed s.view r = true → p r = true) :
    (s.retain p).viewed = s.viewed := by
  refine Log.ext ?_ rfl rfl
  show (s.rows.filter p).filter (isViewed s.view) = s.rows.filter (isViewed s.view)
  rw [List.filter_filter]
  refine List.filter_congr fun r _ => ?_
  cases hr : isViewed s.view r with
  | false => rfl
  | true => rw [h r hr, Bool.and_self]

/-- A higher cutoff takes from what is viewed what is below it. -/
theorem viewed_setView (s : Log Score) (cutoff : ℤ) :
    (s.setView (match s.view with
      | none => cutoff
      | some stored => max stored cutoff)).viewed =
      s.viewed.retain fun r => cutoff ≤ r.dayBucket := by
  refine Log.ext ?_ rfl rfl
  show s.rows.filter (isViewed (some _)) = (s.rows.filter (isViewed s.view)).filter _
  rw [List.filter_filter]
  refine List.filter_congr fun r _ => ?_
  cases s.view with
  | none => simp [isViewed]
  | some stored => simp [isViewed, and_comm]

end Log

/-- A deletion below the view takes nothing that is viewed. -/
theorem viewed_deleteUnheldBefore {cutoff : ℤ} {now : Instant} {s' : Log Score} {deleted : ℕ}
    (hview : ∃ v ∈ s.view, cutoff ≤ v)
    (h : deleteUnheldBefore s cutoff now = some (s', deleted)) : s'.viewed = s.viewed := by
  obtain ⟨v, hv, hcutoff⟩ := hview
  obtain ⟨weekCutoff, -, rfl⟩ := deleteUnheldBefore_some h
  refine Log.viewed_retain fun r hr => ?_
  rw [decide_eq_true (hcutoff.trans (isViewed_iff.mp hr v hv))]
  rfl

theorem viewed_pruneCalibrationLog (s : Log Score) (window : ℤ) (now : Instant) :
    (pruneCalibrationLog s window now).1.viewed =
      match cutoffOf window now with
      | none => s.viewed
      | some cutoff => s.viewed.retain fun r => cutoff ≤ r.dayBucket := by
  rcases pruneCalibrationLog_cases s window now with ⟨hcutoff, heq⟩ |
    ⟨cutoff, s', hcutoff, hs', heq⟩
  · rw [hcutoff, heq]
  · rw [hcutoff]
    dsimp only
    rw [← Log.viewed_setView, hs']
    -- The view is at the cutoff or above it.
    have hview : ∃ v ∈ s'.view, cutoff ≤ v := by
      subst hs'
      cases s.view with
      | none => exact ⟨_, rfl, le_rfl⟩
      | some stored => exact ⟨_, rfl, le_max_right _ _⟩
    rcases heq with heq | ⟨deleted, hdelete⟩
    · rw [heq]
    · exact viewed_deleteUnheldBefore hview hdelete

theorem viewed_clearSelftuneHeldRows (s : Log Score) (now : Instant) :
    (clearSelftuneHeldRows s now).1.viewed = s.viewed := by
  rcases clearSelftuneHeldRows_cases s now with heq | ⟨view, hview, deleted, hdelete⟩
  · rw [heq]
  · exact viewed_deleteUnheldBefore ⟨view, hview, le_rfl⟩ hdelete

/-- The fit reads what is viewed. -/
theorem labeledCalibrationPairs_viewed (s : Log Score) (rerankerModelId scoreScale : Text) :
    labeledCalibrationPairs s.viewed rerankerModelId scoreScale =
      labeledCalibrationPairs s rerankerModelId scoreScale := by
  have husable : (s.viewed.rows.filter fun r =>
      isUsable rerankerModelId scoreScale r && isViewed s.viewed.view r) =
      s.rows.filter fun r => isUsable rerankerModelId scoreScale r && isViewed s.view r := by
    show (s.rows.filter (isViewed s.view)).filter _ = _
    rw [List.filter_filter]
    exact List.filter_congr fun r _ => by rw [show isViewed s.viewed.view r = true from rfl, Bool.and_true]
  unfold labeledCalibrationPairs
  rw [husable]

/-! ## The two logs -/

theorem dayOf_mono {t t' : Instant} (h : t ≤ t') : dayOf t ≤ dayOf t' :=
  Int.ediv_le_ediv (by decide) h

/-- The log without the hold has what the fit sees, and no day to come is cut off. -/
structure Agrees (b : Both Score) : Prop where
  plain : b.plain = b.held.viewed
  past : ∀ v ∈ b.held.view, v ≤ dayOf b.clock

/-- The view is raised by a prune alone, to its cutoff. -/
theorem heldStep_view {s : Log Score} {now : Instant} {call : Call Score} {v : ℤ}
    (hv : v ∈ (heldStep s now call).view) :
    v ∈ s.view ∨ ∃ window, call = .pruneCalibrationLog window ∧ v ∈ cutoffOf window now := by
  cases call with
  | logCalibrationSample scores model scale =>
    simp only [heldStep, logCalibrationSample] at hv
    split_ifs at hv
    · exact .inl hv
    · exact .inl hv
  | writeCalibrationLabels rowId localLabels haikuLabels => exact .inl hv
  | pruneCalibrationLog window =>
    rw [heldStep] at hv
    rcases pruneCalibrationLog_cases s window now with ⟨-, heq⟩ | ⟨cutoff, s', hcutoff, hs', heq⟩
    · rw [heq] at hv
      exact .inl hv
    · have hview : v ∈ s'.view := by
        rcases heq with heq | ⟨deleted, hdelete⟩
        · exact heq ▸ hv
        · exact deleteUnheldBefore_view hdelete ▸ hv
      subst hs'
      cases hold : s.view with
      | none =>
        rw [hold] at hview
        exact .inr ⟨window, rfl, hcutoff ▸ hview⟩
      | some stored =>
        -- The greater of the two is the view as it was or the cutoff.
        rw [hold] at hview
        obtain rfl : max stored cutoff = v := Option.some.inj hview
        rcases max_choice stored cutoff with hmax | hmax
        · exact .inl (congrArg some hmax.symm)
        · exact .inr ⟨window, rfl, hcutoff ▸ congrArg some hmax.symm⟩
  | markSelftuneConsumed rowIds => exact .inl hv
  | clearSelftuneHeldRows =>
    rw [heldStep] at hv
    rcases clearSelftuneHeldRows_cases s now with heq | ⟨view, hview, deleted, hdelete⟩
    · exact .inl (heq ▸ hv)
    · exact .inl (deleteUnheldBefore_view hdelete ▸ hv)

/-- A log without the hold keeps to what is viewed. -/
theorem plainStep_viewed {s : Log Score} {now : Instant} (hpast : ∀ v ∈ s.view, v ≤ dayOf now)
    (call : Call Score) : plainStep s.viewed now call = (heldStep s now call).viewed := by
  cases call with
  | logCalibrationSample scores model scale =>
    show (logCalibrationSample s.viewed now scores model scale).getD s.viewed =
      ((logCalibrationSample s now scores model scale).getD s).viewed
    unfold logCalibrationSample
    split_ifs
    · have hnew : isViewed s.view (newRow now scores model scale (s.lastId + 1)) = true :=
        isViewed_iff.mpr hpast
      exact (@Log.viewed_insert _ s (newRow now scores model scale) (fun _ => rfl) hnew).symm
    · rfl
  | writeCalibrationLabels rowId localLabels haikuLabels =>
    exact (Log.viewed_update (Row.sameEntry_label rowId localLabels haikuLabels)).symm
  | pruneCalibrationLog window => exact (viewed_pruneCalibrationLog s window now).symm
  | markSelftuneConsumed rowIds =>
    exact (Log.viewed_update (Row.sameEntry_consume rowIds now)).symm
  | clearSelftuneHeldRows => exact (viewed_clearSelftuneHeldRows s now).symm

/-- The two logs go on agreeing. -/
theorem Agrees.step {b b' : Both Score} {a : Instant × Call Score} (h : Agrees b)
    (hahead : NotAhead b a) (hstep : (machine Score).step b a = some b') : Agrees b' := by
  obtain ⟨now, call⟩ := a
  simp only [machine] at hstep
  split_ifs at hstep with hclock
  obtain rfl := Option.some.inj hstep
  -- The clock does not go back, and the views of earlier days are still in the past.
  have hpast : ∀ v ∈ b.held.view, v ≤ dayOf now :=
    fun v hv => (h.past v hv).trans (dayOf_mono hclock)
  constructor
  · show plainStep b.plain now call = _
    rw [h.plain, plainStep_viewed hpast]
  · intro v hv
    rcases heldStep_view hv with hold | ⟨window, rfl, hcutoff⟩
    · exact hpast v hold
    · exact hahead v hcutoff

theorem agrees_of_reach {b : Both Score} (h : (machine Score).Reach NotAhead b) : Agrees b := by
  refine h.invariant (fun b hb => ?_) fun _ _ _ hI hC hstep => hI.step hC hstep
  obtain ⟨clock, held, plain⟩ := b
  obtain ⟨rfl, rfl⟩ := hb
  exact ⟨rfl, nofun⟩

/-! ## What is held -/

/-- The end of the week of a row. -/
def weekEnd (r : Row Score) : Instant := r.loggedAt * 10 ^ 6 + tuneInterval

theorem weekCutoff_le {r : Row Score} {now : Instant} {weekCutoff : ℤ} (hnow : now ≤ weekEnd r)
    (h : selftuneWeekCutoff now = some weekCutoff) : weekCutoff ≤ r.loggedAt := by
  unfold selftuneWeekCutoff at h
  split_ifs at h
  rw [← Option.some.inj h, secondOf]
  refine Int.ediv_le_of_le_mul (by decide) ?_
  exact Int.sub_right_le_of_le_add hnow

/-- A deletion takes no row with a decision within its week. -/
theorem mem_deleteUnheldBefore {s s' : Log Score} {cutoff : ℤ} {now : Instant} {deleted : ℕ}
    {r : Row Score} (hr : r ∈ s.rows) (hdecided : IsDecided r) (hnow : now ≤ weekEnd r)
    (h : deleteUnheldBefore s cutoff now = some (s', deleted)) : r ∈ s'.rows := by
  obtain ⟨weekCutoff, hweek, rfl⟩ := deleteUnheldBefore_some h
  refine List.mem_filter.mpr ⟨hr, ?_⟩
  have hheld : isHeld weekCutoff r = true := decide_eq_true ⟨hdecided, weekCutoff_le hnow hweek⟩
  rw [hheld, Bool.or_true]

/-- No call takes a row with a decision within its week. -/
theorem heldStep_keeps {s : Log Score} {now : Instant} {r : Row Score} (hr : r ∈ s.rows)
    (hdecided : IsDecided r) (hnow : now ≤ weekEnd r) (call : Call Score) :
    ∃ r' ∈ (heldStep s now call).rows, r'.SameEntry r := by
  cases call with
  | logCalibrationSample scores model scale =>
    refine ⟨r, ?_, rfl, rfl, rfl⟩
    simp only [heldStep, logCalibrationSample]
    split_ifs
    · exact List.mem_append_left _ hr
    · exact hr
  | writeCalibrationLabels rowId localLabels haikuLabels =>
    exact ⟨_, List.mem_map_of_mem hr, Row.sameEntry_label rowId localLabels haikuLabels r⟩
  | pruneCalibrationLog window =>
    refine ⟨r, ?_, rfl, rfl, rfl⟩
    rw [heldStep]
    rcases pruneCalibrationLog_cases s window now with ⟨-, heq⟩ | ⟨cutoff, s', -, hs', heq⟩
    · rw [heq]
      exact hr
    · have hr' : r ∈ s'.rows := hs' ▸ hr
      rcases heq with heq | ⟨deleted, hdelete⟩
      · rw [heq]
        exact hr'
      · exact mem_deleteUnheldBefore hr' hdecided hnow hdelete
  | markSelftuneConsumed rowIds =>
    exact ⟨_, List.mem_map_of_mem hr, Row.sameEntry_consume rowIds now r⟩
  | clearSelftuneHeldRows =>
    refine ⟨r, ?_, rfl, rfl, rfl⟩
    rw [heldStep]
    rcases clearSelftuneHeldRows_cases s now with heq | ⟨view, -, deleted, hdelete⟩
    · rw [heq]
      exact hr
    · exact mem_deleteUnheldBefore hr hdecided hnow hdelete

/-- As long as a row has a decision that is not consumed, and its week is not over. -/
def WithinWeek (r : Row Score) (b : Both Score) (a : Instant × Call Score) : Prop :=
  a.1 ≤ weekEnd r ∧ ∀ r' ∈ b.held.rows, r'.id = r.id → IsDecided r'

/-- A row stays for as long. -/
theorem stays_within_week {b b' : Both Score} {r : Row Score} (hr : r ∈ b.held.rows)
    (h : { machine Score with init := (· = b) }.Reach (WithinWeek r) b') :
    ∃ r' ∈ b'.held.rows, r'.SameEntry r := by
  refine h.invariant (I := fun b => ∃ r' ∈ b.held.rows, r'.SameEntry r) ?_
    fun b a b' hI hC hstep => ?_
  · rintro _ rfl
    exact ⟨r, hr, rfl, rfl, rfl⟩
  · obtain ⟨now, call⟩ := a
    obtain ⟨hnow, hdecided⟩ := hC
    obtain ⟨r', hr', hid, hlogged, hday⟩ := hI
    simp only [machine] at hstep
    split_ifs at hstep
    obtain rfl := Option.some.inj hstep
    -- The end of the week goes by the time at which the row was logged, which is never written.
    have hnow' : now ≤ weekEnd r' := by
      rw [weekEnd, hlogged]
      exact hnow
    obtain ⟨r'', hr'', hid', hlogged', hday'⟩ := heldStep_keeps hr' (hdecided r' hr' hid) hnow' call
    exact ⟨r'', hr'', hid'.trans hid, hlogged'.trans hlogged, hday'.trans hday⟩

/-- The fit reads what it would without the hold, and a row with a decision stays for its week, as
long as no prune cuts off a day that is still to come. -/
theorem reads_as_plain {b : Both Score} (h : (machine Score).Reach NotAhead b) :
    (∀ rerankerModelId scoreScale,
      labeledCalibrationPairs b.held rerankerModelId scoreScale =
        labeledCalibrationPairs b.plain rerankerModelId scoreScale) ∧
    ∀ r ∈ b.held.rows, ∀ b',
      { machine Score with init := (· = b) }.Reach (WithinWeek r) b' →
        ∃ r' ∈ b'.held.rows, r'.SameEntry r := by
  refine ⟨fun model scale => ?_, fun r hr b' => stays_within_week hr⟩
  -- The fit takes the rows that are viewed, and the log without the hold has only those.
  rw [(agrees_of_reach h).plain, labeledCalibrationPairs_viewed]

/-- The first instant of a day in the year 2024. -/
def sampleDay : Instant := 739000 * dayMicros

/-- A row with a decision, with the calls that log and label it. -/
def sampleCalls (now : Instant) : List (Instant × Call ℚ) :=
  [(now, .logCalibrationSample [1] ['m'] calibrationScoreScale),
    (now, .writeCalibrationLabels 1 ["irrelevant".toList] [some "relevant".toList])]

/-- A row is held five days after it was logged, and the fit does not see it. -/
theorem reads_as_plain_held : ∃ b, (machine ℚ).Reach NotAhead b ∧ b.held.rows.length = 1 ∧
    b.plain.rows = [] ∧ labeledCalibrationPairs b.held ['m'] calibrationScoreScale = [] := by
  obtain ⟨b, hb, hp⟩ := Machine.exists_reach_of_runWithin (M := machine ℚ) (D := NotAhead)
    (fun _ _ h => h) (s := ⟨sampleDay, .empty, .empty⟩) ⟨rfl, rfl⟩
    (sampleCalls sampleDay ++ [(sampleDay + 5 * dayMicros, .pruneCalibrationLog (3 * dayMicros))])
    (fun b => b.held.rows.length = 1 ∧ b.plain.rows = [] ∧
      labeledCalibrationPairs b.plain ['m'] calibrationScoreScale = [])
    (by decide +kernel)
  obtain ⟨hheld, hplain, hpairs⟩ := of_decide_eq_true hp
  exact ⟨b, hb, hheld, hplain, ((reads_as_plain hb).1 _ _).trans hpairs⟩

/-- A prune with a window of minus two days hides the rows of the next two days. -/
theorem hidden_after_prune : ∃ b, (machine ℚ).Reachable b ∧
    labeledCalibrationPairs b.held ['m'] calibrationScoreScale = [] ∧
    labeledCalibrationPairs b.plain ['m'] calibrationScoreScale = [(1, "relevant".toList)] := by
  obtain ⟨b, hb, hp⟩ := Machine.exists_reach_of_runWithin (M := machine ℚ) (D := fun _ _ => True)
    (fun _ _ h => h) (s := ⟨sampleDay, .empty, .empty⟩) ⟨rfl, rfl⟩
    ((sampleDay, .pruneCalibrationLog (-2 * dayMicros)) :: sampleCalls sampleDay)
    (fun b => labeledCalibrationPairs b.held ['m'] calibrationScoreScale = [] ∧
      labeledCalibrationPairs b.plain ['m'] calibrationScoreScale = [(1, "relevant".toList)])
    (by decide +kernel)
  exact ⟨b, hb, of_decide_eq_true hp⟩

end Companion.Memory.CalibrationLog

import Companion.Initiate.Audit
import Companion.Runs
import Mathlib

/-!
# Closing the calibration

`run_calibration_closer_tick` of `brain/initiate/audit.py`: a tick walks the audit rows of the last
ninety days, and then those of the last three, and appends a calibration row for each decision that
has come to its end. What it has closed before it reads from the last 500 rows of the calibration
log (`read_recent_calibration_rows`).

`close_nodup_iff` says of one tick that it closes no candidate again if and only if every one it
comes upon that is closed is among these, and `closed_once` what follows for runs.
-/

namespace Companion.Initiate.CalibrationCloser

open Companion.Memory (Text Instant)
open Companion.Runs

/-! ## Rows -/

/-- The keys of `gate_check` that the closer reads. -/
structure GateCheck where
  source : Option Text
  sourceId : Option Text
  dConfidence : Option Text
  dModelTier : Option Text
  deriving DecidableEq

/-- An audit row, with the texts that a calibration row takes over. -/
structure Row extends AuditRow where
  gateCheck : GateCheck
  decisionReasoning : Text
  deriving DecidableEq

/-- A candidate of the queue, as `_source_id_recurred_within` reads it. -/
structure Emitted where
  source : Text
  sourceId : Text
  ts : Stamp
  deriving DecidableEq

/-- `CalibrationRow.decision` -/
inductive Closing
  | promote
  | filter
  deriving DecidableEq

/-- `CalibrationRow` -/
structure CalibrationRow where
  tsDecision : Stamp
  tsClosed : Stamp
  candidateId : Text
  source : Text
  decision : Closing
  confidence : Text
  modelTier : Text
  promotedToState : Option StateName
  filteredRecurred : Option Bool
  reasonShort : Text
  deriving DecidableEq

/-- `_D_PROMOTED_DECISIONS` -/
def dPromotedDecisions : List Decision :=
  [.promotedByD, .promotedByDMalformedFallback, .promotedByDAfter3Failures]

/-- `_D_FILTERED_DECISIONS` -/
def dFilteredDecisions : List Decision :=
  [.filteredPreCompose, .filteredPreComposeLowConfidence, .filteredDBudget]

/-- `_TERMINAL_STATES` -/
def terminalStates : List StateName :=
  [.repliedExplicit, .acknowledgedUnclear, .unanswered, .dismissed]

/-- Hours, in microseconds. -/
def hours (n : ℤ) : ℤ := n * 3600 * 1000000

namespace Row

variable (row : Row)

/-- The row is among those of `read_recent_audit`. -/
def isRecent (windowHours : ℤ) (now : Instant) : Bool :=
  row.ts.any fun ts => now - hours windowHours ≤ ts

/-- `_extract_source_from_decision` -/
def extractSource : Text := row.gateCheck.source.getD "unknown".toList

/-- `_extract_confidence` -/
def extractConfidence : Text := row.gateCheck.dConfidence.getD "high".toList

/-- `_extract_model_tier` -/
def extractModelTier : Text := row.gateCheck.dModelTier.getD "haiku".toList

/-- The stamp of the last transition to `state`, or `now` without one. -/
def closedAt (state : StateName) (now : Instant) : Stamp :=
  match row.delivery.bind fun d => d.stateTransitions.reverse.find? (·.state = state) with
  | some transition => transition.stamp
  | none => some now

/-- The calibration row of a decision to promote that has come to its end. -/
def closePromoted (now : Instant) : Option CalibrationRow :=
  if row.isRecent (24 * 90) now ∧ row.decision ∈ dPromotedDecisions then
    row.currentState.bind fun state =>
      if state ∈ terminalStates then
        some ⟨row.ts, row.closedAt state now, row.candidateId, row.extractSource, .promote,
          row.extractConfidence, row.extractModelTier, some state, none,
          row.decisionReasoning.take 80⟩
      else none
  else none

/-- `_source_id_recurred_within` -/
def sourceIdRecurredWithin (queue : List Emitted) (sourceId source : Text) (startTs : Instant)
    (window : ℤ) : Bool :=
  queue.any fun c => c.source = source && c.sourceId = sourceId &&
    c.ts.any fun ts => startTs < ts && ts ≤ startTs + window

/-- The calibration row of a decision to filter that is 48 hours old. -/
def closeFiltered (queue : List Emitted) (now : Instant) : Option CalibrationRow :=
  if row.isRecent 72 now ∧ row.decision ∈ dFilteredDecisions then
    row.ts.bind fun decisionTs =>
      if now - decisionTs < hours 48 then none
      else
        let recurred := row.gateCheck.sourceId.any fun sourceId =>
          sourceId ≠ [] && sourceIdRecurredWithin queue sourceId
            (row.gateCheck.source.getD []) decisionTs (hours 48)
        some ⟨row.ts, some (decisionTs + hours 48), row.candidateId, row.extractSource, .filter,
          row.extractConfidence, row.extractModelTier, none, some recurred,
          row.decisionReasoning.take 80⟩
  else none

end Row

/-! ## A tick -/

/-- A pass over the audit rows: those that `close` has a calibration row for, but for the candidates
seen. -/
def closePass (close : Row → Option CalibrationRow) : List Row → List Text → List CalibrationRow
  | [], _ => []
  | row :: rows, seen =>
    match close row with
    | none => closePass close rows seen
    | some cal =>
      if row.candidateId ∈ seen then closePass close rows seen
      else cal :: closePass close rows (row.candidateId :: seen)

/-- The limit that the closer passes to `read_recent_calibration_rows`. -/
def calibrationLimit : ℕ := 500

/-- The calibration rows that `read_recent_calibration_rows` yields to the closer. -/
def recentCalibration (calibration : List CalibrationRow) : List CalibrationRow :=
  calibration.rtake calibrationLimit

def ids (calibration : List CalibrationRow) : List Text := calibration.map CalibrationRow.candidateId

/-- The logs and the queue of a persona. -/
structure State where
  audit : List Row
  queue : List Emitted
  calibration : List CalibrationRow
  clock : Instant
  deriving DecidableEq

/-- What the two passes of a tick append. -/
def closed (s : State) (now : Instant) : List CalibrationRow :=
  let seen := ids (recentCalibration s.calibration)
  let promoted := closePass (Row.closePromoted · now) s.audit seen
  promoted ++ closePass (Row.closeFiltered · s.queue now) s.audit (ids promoted ++ seen)

/-- `run_calibration_closer_tick` -/
def runCalibrationCloserTick (s : State) (now : Instant) : State :=
  { s with calibration := s.calibration ++ closed s now, clock := now }

inductive Act
  | close (now : Instant)
  | appendAudit (row : Row)
  | transition (auditId : Text) (newState : StateName) (stamp : Stamp)
  /-- The queue is another one. -/
  | emit (queue : List Emitted)
  deriving DecidableEq

/-- `update_audit_state`, on the rows that the closer reads. -/
def transitioned (auditId : Text) (newState : StateName) (stamp : Stamp) (row : Row) : Row :=
  if row.auditId = auditId then
    { row with toAuditRow := row.toAuditRow.recordTransition newState stamp }
  else row

def step (s : State) : Act → Option State
  | .close now => if s.clock ≤ now then some (runCalibrationCloserTick s now) else none
  | .appendAudit row => some { s with audit := s.audit ++ [row] }
  | .transition auditId newState stamp =>
    some { s with audit := s.audit.map (transitioned auditId newState stamp) }
  | .emit queue => some { s with queue := queue }

/-- A persona that has closed nothing yet. -/
def machine : Machine State Act where
  init s := s.calibration = []
  step := step

/-! ## What a pass closes -/

theorem candidateId_of_closePromoted {row : Row} {now : Instant} {cal : CalibrationRow}
    (h : row.closePromoted now = some cal) : cal.candidateId = row.candidateId := by
  unfold Row.closePromoted at h
  obtain ⟨-, h⟩ := Option.ite_none_right_eq_some.mp h
  obtain ⟨state, -, h⟩ := Option.bind_eq_some_iff.mp h
  obtain ⟨-, h⟩ := Option.ite_none_right_eq_some.mp h
  rw [← Option.some.inj h]

theorem candidateId_of_closeFiltered {row : Row} {queue : List Emitted} {now : Instant}
    {cal : CalibrationRow} (h : row.closeFiltered queue now = some cal) :
    cal.candidateId = row.candidateId := by
  unfold Row.closeFiltered at h
  obtain ⟨-, h⟩ := Option.ite_none_right_eq_some.mp h
  obtain ⟨ts, -, h⟩ := Option.bind_eq_some_iff.mp h
  obtain ⟨-, h⟩ := Option.ite_none_left_eq_some.mp h
  rw [← Option.some.inj h]

section

variable {close : Row → Option CalibrationRow} {rows : List Row} {seen : List Text}

/-- The candidates of the rows that a pass would close. -/
def dueIds (close : Row → Option CalibrationRow) (rows : List Row) : List Text :=
  (rows.filter fun row => (close row).isSome).map fun row => row.candidateId

theorem mem_ids_closePass (hid : ∀ row cal, close row = some cal → cal.candidateId = row.candidateId)
    (id : Text) : id ∈ ids (closePass close rows seen) ↔ id ∈ dueIds close rows ∧ id ∉ seen := by
  induction rows generalizing seen with
  | nil => simp [closePass, ids, dueIds]
  | cons row rows ih =>
    unfold closePass
    cases hclose : close row with
    | none =>
      have hdue : dueIds close (row :: rows) = dueIds close rows := by simp [dueIds, hclose]
      rw [hdue]
      exact ih
    | some cal =>
      have hdue : dueIds close (row :: rows) = row.candidateId :: dueIds close rows := by
        simp [dueIds, hclose]
      dsimp only
      rw [hdue, List.mem_cons]
      split_ifs with hseen
      · rw [ih]
        constructor
        · rintro ⟨hid', hnot⟩
          exact ⟨.inr hid', hnot⟩
        · rintro ⟨rfl | hid', hnot⟩
          · exact absurd hseen hnot
          · exact ⟨hid', hnot⟩
      · have hcons : ids (cal :: closePass close rows (row.candidateId :: seen)) =
            row.candidateId :: ids (closePass close rows (row.candidateId :: seen)) := by
          rw [← hid row cal hclose]
          rfl
        rw [hcons, List.mem_cons, ih, List.mem_cons]
        by_cases heq : id = row.candidateId
        · subst heq
          simp [hseen]
        · simp [heq]

theorem nodup_ids_closePass
    (hid : ∀ row cal, close row = some cal → cal.candidateId = row.candidateId) :
    (ids (closePass close rows seen)).Nodup := by
  induction rows generalizing seen with
  | nil => exact List.nodup_nil
  | cons row rows ih =>
    unfold closePass
    cases hclose : close row with
    | none => exact ih
    | some cal =>
      dsimp only
      split_ifs with hseen
      · exact ih
      · refine List.nodup_cons.mpr ⟨fun hmem => ?_, ih⟩
        have hnot := ((mem_ids_closePass hid _).mp hmem).2
        rw [hid row cal hclose] at hnot
        exact hnot List.mem_cons_self

end

/-! ## What a tick closes -/

/-- The candidates of the audit rows that have come to their end. -/
def due (s : State) (now : Instant) : List Text :=
  dueIds (Row.closePromoted · now) s.audit ++ dueIds (Row.closeFiltered · s.queue now) s.audit

/-- Every candidate that a tick comes upon and that is closed is among those the closer reads. -/
def Remembered (s : State) : Act → Prop
  | .close now => ∀ id ∈ due s now, id ∈ ids s.calibration →
      id ∈ ids (recentCalibration s.calibration)
  | _ => True

instance (s : State) (a : Act) : Decidable (Remembered s a) := by
  unfold Remembered
  split <;> infer_instance

theorem recentCalibration_sublist (calibration : List CalibrationRow) :
    (recentCalibration calibration).Sublist calibration := List.drop_sublist _ _

theorem length_recentCalibration (calibration : List CalibrationRow) :
    (recentCalibration calibration).length ≤ calibrationLimit := by
  rw [recentCalibration, List.rtake, List.length_drop]
  omega

theorem ids_append (cs cs' : List CalibrationRow) : ids (cs ++ cs') = ids cs ++ ids cs' :=
  List.map_append

section

variable (s : State) (now : Instant)

/-- A tick closes what is due and not among the candidates it has read. -/
theorem mem_ids_closed (id : Text) :
    id ∈ ids (closed s now) ↔ id ∈ due s now ∧ id ∉ ids (recentCalibration s.calibration) := by
  unfold closed due
  rw [ids_append, List.mem_append, List.mem_append,
    mem_ids_closePass (fun _ _ => candidateId_of_closePromoted),
    mem_ids_closePass (fun _ _ => candidateId_of_closeFiltered), List.mem_append,
    mem_ids_closePass (fun _ _ => candidateId_of_closePromoted)]
  have heither : ∀ a b r : Prop, a ∧ ¬ r ∨ b ∧ ¬ (a ∧ ¬ r ∨ r) ↔ (a ∨ b) ∧ ¬ r := by tauto
  exact heither _ _ _

theorem nodup_ids_closed : (ids (closed s now)).Nodup := by
  unfold closed
  rw [ids_append, List.nodup_append]
  refine ⟨nodup_ids_closePass fun _ _ => candidateId_of_closePromoted,
    nodup_ids_closePass fun _ _ => candidateId_of_closeFiltered, ?_⟩
  -- The second pass has seen what the first one closed.
  rintro id hid _ hid' rfl
  have hnot := ((mem_ids_closePass (fun _ _ => candidateId_of_closeFiltered) id).mp hid').2
  exact hnot (List.mem_append_left _ hid)

variable {s now}

theorem calibration_tick :
    (runCalibrationCloserTick s now).calibration = s.calibration ++ closed s now := rfl

theorem step_close (h : s.clock ≤ now) :
    machine.step s (.close now) = some (runCalibrationCloserTick s now) := if_pos h

/-- A tick closes no candidate again if and only if it remembers those that it comes upon. -/
theorem close_nodup_iff (h : (ids s.calibration).Nodup) :
    (ids (runCalibrationCloserTick s now).calibration).Nodup ↔ Remembered s (.close now) := by
  rw [calibration_tick, ids_append, List.nodup_append]
  constructor
  · rintro ⟨-, -, hapart⟩ id hdue hclosed
    by_contra hforgotten
    exact hapart id hclosed id ((mem_ids_closed s now id).mpr ⟨hdue, hforgotten⟩) rfl
  · intro hremembered
    refine ⟨h, nodup_ids_closed s now, ?_⟩
    rintro id hclosed _ hagain rfl
    obtain ⟨hdue, hnot⟩ := (mem_ids_closed s now id).mp hagain
    exact hnot (hremembered id hdue hclosed)

/-- What is due at a time has been closed by a tick at this time. -/
theorem mem_ids_of_due {id : Text} (h : id ∈ due s now) :
    id ∈ ids (runCalibrationCloserTick s now).calibration := by
  rw [calibration_tick, ids_append, List.mem_append]
  by_cases hrecent : id ∈ ids (recentCalibration s.calibration)
  · exact .inl (((recentCalibration_sublist _).map _).subset hrecent)
  · exact .inr ((mem_ids_closed s now id).mpr ⟨h, hrecent⟩)

/-- A second tick at the same time, which remembers, appends nothing. -/
theorem closed_again (h : Remembered (runCalibrationCloserTick s now) (.close now)) :
    closed (runCalibrationCloserTick s now) now = [] := by
  rw [← List.map_eq_nil_iff (f := CalibrationRow.candidateId)]
  refine List.eq_nil_iff_forall_not_mem.mpr fun id hid => ?_
  obtain ⟨hdue, hnot⟩ := (mem_ids_closed _ now id).mp hid
  exact hnot (h id hdue (mem_ids_of_due (s := s) hdue))

end

/-- In a run whose ticks remember, the calibration has each candidate at most once. -/
theorem nodup_of_reach {s : State} (h : machine.Reach Remembered s) :
    (ids s.calibration).Nodup := by
  refine h.invariant (I := fun s => (ids s.calibration).Nodup) ?_ ?_
  · intro s hinit
    rw [show s.calibration = [] from hinit]
    exact List.nodup_nil
  · intro s a s' hs hremembered hstep
    cases a with
    | close now =>
      obtain ⟨-, hsome⟩ := Option.ite_none_right_eq_some.mp hstep
      obtain rfl := Option.some.inj hsome
      exact (close_nodup_iff hs).mpr hremembered
    | appendAudit | transition | emit =>
      obtain rfl := Option.some.inj hstep
      exact hs

/-- In a run whose ticks remember, each candidate is closed at most once, and a second tick without
anything new appends nothing. -/
theorem closed_once {s : State} (h : machine.Reach Remembered s) :
    (ids s.calibration).Nodup ∧ ∀ now s₁ s₂, step s (.close now) = some s₁ →
      Remembered s₁ (.close now) → step s₁ (.close now) = some s₂ →
      s₂.calibration = s₁.calibration := by
  refine ⟨nodup_of_reach h, fun now s₁ s₂ h₁ hremembered h₂ => ?_⟩
  obtain ⟨-, hsome⟩ := Option.ite_none_right_eq_some.mp h₁
  obtain rfl := Option.some.inj hsome
  obtain ⟨-, hsome⟩ := Option.ite_none_right_eq_some.mp h₂
  obtain rfl := Option.some.inj hsome
  rw [calibration_tick, closed_again hremembered, List.append_nil]

/-- A candidate that is promoted, dismissed, and closed by the tick after it. -/
theorem closed_once_dismissed : ∃ s s₁ s₂, machine.Reach Remembered s ∧
    (ids s.calibration).Nodup ∧ step s (.close 7) = some s₁ ∧ step s₁ (.close 7) = some s₂ ∧
    s₂.calibration = s₁.calibration ∧ ids s₁.calibration = [['c']] := by
  let row : Row :=
    { auditId := ['a'], candidateId := ['c'], ts := some 1, kind := .message,
      decision := .promotedByD, delivery := none, gateCheck := ⟨none, none, none, none⟩,
      decisionReasoning := [] }
  let p : State → Bool := fun s => (step s (.close 7)).any fun s₁ =>
    Remembered s₁ (.close 7) && (step s₁ (.close 7)).isSome && ids s₁.calibration = [['c']]
  obtain ⟨s, hs, hp⟩ := Machine.exists_reach_of_runWithin (M := machine) (D := Remembered)
    (fun _ _ h => h) (s := ⟨[], [], [], 0⟩) rfl
    [.appendAudit row, .close 3, .transition ['a'] .dismissed (some 5), .close 6] p
    (by decide +kernel)
  obtain ⟨s₁, h₁, hp₁⟩ := (Option.any_eq_true _ _).mp hp
  simp only [Bool.and_eq_true, decide_eq_true_eq] at hp₁
  obtain ⟨⟨hremembered, hsome⟩, hids⟩ := hp₁
  obtain ⟨s₂, h₂⟩ := Option.isSome_iff_exists.mp hsome
  obtain ⟨hnodup, hagain⟩ := closed_once hs
  exact ⟨s, s₁, s₂, hs, hnodup, h₁, h₂, hagain 7 s₁ s₂ h₁ hremembered h₂, hids⟩

/-! ## A calibration that outgrows what is read -/

/-- A candidate that was promoted and dismissed at a time. -/
def dismissed (i : ℕ) : Row :=
  { auditId := List.replicate i 'a'
    candidateId := List.replicate i 'c'
    ts := some 0
    kind := .message
    decision := .promotedByD
    delivery := some ⟨none, [⟨.dismissed, some 0⟩], .dismissed⟩
    gateCheck := ⟨none, none, none, none⟩
    decisionReasoning := [] }

/-- As many dismissed candidates, and nothing closed. -/
def manyDismissed (n : ℕ) : State := ⟨(List.range n).map dismissed, [], [], 0⟩

theorem due_manyDismissed (n : ℕ) (calibration : List CalibrationRow) (i : ℕ) (hi : i < n) :
    List.replicate i 'c' ∈ due { manyDismissed n with calibration := calibration } 0 := by
  refine List.mem_append_left _ (List.mem_map.mpr ⟨dismissed i, ?_, rfl⟩)
  refine List.mem_filter.mpr ⟨List.mem_map.mpr ⟨i, List.mem_range.mpr hi, rfl⟩, ?_⟩
  rfl

/-- With one candidate more than the closer reads, the second tick closes one again. -/
theorem closes_again : ¬ ∀ s, machine.Reachable s → (ids s.calibration).Nodup := by
  intro hall
  generalize hn : calibrationLimit + 1 = n
  have hs : machine.Reachable (manyDismissed n) := .init rfl
  have hs₁ := Machine.Reach.step (a := .close 0) hs trivial (step_close le_rfl)
  have hs₂ := Machine.Reach.step (a := .close 0) hs₁ trivial (step_close le_rfl)
  have hremembered := (close_nodup_iff (hall _ hs₁)).mp (hall _ hs₂)
  -- All of them are closed by the first tick, and would have to be among the last that it wrote.
  have hread : ∀ i, i < n → List.replicate i 'c' ∈
      ids (recentCalibration (runCalibrationCloserTick (manyDismissed n) 0).calibration) :=
    fun i hi => hremembered _ (due_manyDismissed n _ i hi)
      (mem_ids_of_due (due_manyDismissed n [] i hi))
  have hnodup : ((List.range n).map fun i => List.replicate i 'c').Nodup :=
    List.nodup_range.map fun i j hij => by simpa using congrArg List.length hij
  have hsub := List.subperm_of_subset hnodup fun id hid => by
    obtain ⟨i, hi, rfl⟩ := List.mem_map.mp hid
    exact hread i (List.mem_range.mp hi)
  have hlen := hsub.length_le
  have hlimit :=
    length_recentCalibration (runCalibrationCloserTick (manyDismissed n) 0).calibration
  rw [List.length_map, List.length_range, ids, List.length_map] at hlen
  omega

end Companion.Initiate.CalibrationCloser

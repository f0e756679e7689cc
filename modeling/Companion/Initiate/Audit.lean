import Companion.Memory.Text
import Mathlib.Algebra.Field.Rat

/-!
# The audit of the outreach

The rows of `initiate_audit.jsonl` (`brain/initiate/schemas.py`, `brain/initiate/audit.py`): one for
each decision about a candidate, whose delivery is marked later on, as it is read, answered or
dismissed.

A stamp is what `datetime.fromisoformat` makes of it, or none where it does not parse.
-/

namespace Companion.Initiate

open Companion.Memory

/-- `StateName` -/
inductive StateName
  | pending
  | delivered
  | read
  | repliedExplicit
  | acknowledgedUnclear
  | unanswered
  | dismissed
  deriving DecidableEq

/-- `Decision` -/
inductive Decision
  | sendNotify
  | sendQuiet
  | hold
  | drop
  | error
  | filteredPreCompose
  | promotedByD
  | filteredPreComposeLowConfidence
  | filteredDBudget
  | promotedByDMalformedFallback
  | dPassthroughRetry
  | promotedByDAfter3Failures
  deriving DecidableEq

/-- `_SEND_DECISIONS` -/
def Decision.isSend (d : Decision) : Bool := d = .sendNotify ∨ d = .sendQuiet

/-- `CandidateKind` -/
inductive CandidateKind
  | message
  | voiceEditProposal
  deriving DecidableEq

abbrev Stamp := Option Instant

/-- An entry of `state_transitions`. -/
structure Transition where
  state : StateName
  stamp : Stamp
  deriving DecidableEq

/-- The delivery block of a row. -/
structure Delivery where
  deliveredAt : Option Stamp
  stateTransitions : List Transition
  currentState : StateName
  deriving DecidableEq

/-- `AuditRow`, without its texts. -/
structure AuditRow where
  auditId : Text
  candidateId : Text
  ts : Stamp
  kind : CandidateKind
  decision : Decision
  delivery : Option Delivery
  deriving DecidableEq

namespace AuditRow

/-- `current_state` -/
def currentState (row : AuditRow) : Option StateName := row.delivery.map Delivery.currentState

/-- `record_transition` -/
def recordTransition (row : AuditRow) (newState : StateName) (stamp : Stamp) : AuditRow :=
  let delivery := row.delivery.getD ⟨if newState = .delivered then some stamp else none, [], newState⟩
  { row with
    delivery := some {
      deliveredAt :=
        if newState = .delivered ∧ delivery.deliveredAt = none then some stamp else delivery.deliveredAt
      stateTransitions := delivery.stateTransitions ++ [⟨newState, stamp⟩]
      currentState := newState } }

@[simp] theorem auditId_recordTransition (row : AuditRow) (newState : StateName) (stamp : Stamp) :
    (row.recordTransition newState stamp).auditId = row.auditId := rfl

@[simp] theorem candidateId_recordTransition (row : AuditRow) (newState : StateName) (stamp : Stamp) :
    (row.recordTransition newState stamp).candidateId = row.candidateId := rfl

@[simp] theorem ts_recordTransition (row : AuditRow) (newState : StateName) (stamp : Stamp) :
    (row.recordTransition newState stamp).ts = row.ts := rfl

@[simp] theorem kind_recordTransition (row : AuditRow) (newState : StateName) (stamp : Stamp) :
    (row.recordTransition newState stamp).kind = row.kind := rfl

@[simp] theorem decision_recordTransition (row : AuditRow) (newState : StateName) (stamp : Stamp) :
    (row.recordTransition newState stamp).decision = row.decision := rfl

@[simp] theorem currentState_recordTransition (row : AuditRow) (newState : StateName) (stamp : Stamp) :
    (row.recordTransition newState stamp).currentState = some newState := rfl

end AuditRow

/-- `_reply_lag_seconds`, in exact arithmetic. -/
def replyLagSeconds (send reply : Stamp) : Option ℚ :=
  match send, reply with
  | some send, some reply => if 0 ≤ reply - send then some ((reply - send : ℤ) / 1000000) else none
  | _, _ => none

/-- The lag that a transition of `row` is to fold, or what an earlier row of the loop left. -/
def AuditRow.lagAt (row : AuditRow) (newState : StateName) (stamp : Stamp) (lag : Option ℚ) :
    Option ℚ :=
  if row.decision.isSend ∧ newState = .repliedExplicit ∧ row.currentState ≠ some .repliedExplicit then
    replyLagSeconds row.ts stamp
  else lag

/-- The loop of `update_audit_state` over the rows: the rows that it writes, and the lag that it is
to fold. -/
def updateRows (auditId : Text) (newState : StateName) (stamp : Stamp) :
    List AuditRow → Option ℚ → List AuditRow × Option ℚ
  | [], lag => ([], lag)
  | row :: rows, lag =>
    if row.auditId = auditId then
      let rest := updateRows auditId newState stamp rows (row.lagAt newState stamp lag)
      (row.recordTransition newState stamp :: rest.1, rest.2)
    else
      let rest := updateRows auditId newState stamp rows lag
      (row :: rest.1, rest.2)

section UpdateRows

variable {auditId : Text} {newState : StateName} {stamp : Stamp}

theorem updateRows_of_notMem {rows : List AuditRow} (h : auditId ∉ rows.map AuditRow.auditId)
    (lag : Option ℚ) : updateRows auditId newState stamp rows lag = (rows, lag) := by
  induction rows with
  | nil => rfl
  | cons row rows ih =>
    rw [List.map_cons, List.mem_cons, not_or] at h
    rw [updateRows, if_neg (Ne.symm h.1), ih h.2]

theorem updateRows_append {before : List AuditRow} (h : auditId ∉ before.map AuditRow.auditId)
    (rows : List AuditRow) (lag : Option ℚ) :
    updateRows auditId newState stamp (before ++ rows) lag =
      (before ++ (updateRows auditId newState stamp rows lag).1,
        (updateRows auditId newState stamp rows lag).2) := by
  induction before with
  | nil => rfl
  | cons row before ih =>
    rw [List.map_cons, List.mem_cons, not_or] at h
    rw [List.cons_append, updateRows, if_neg (Ne.symm h.1), ih h.2]
    rfl

variable (newState stamp) in
/-- Where the ids are distinct, an update changes the one row of its id. -/
theorem updateRows_of_mem {rows : List AuditRow} (hids : (rows.map AuditRow.auditId).Nodup)
    (h : auditId ∈ rows.map AuditRow.auditId) :
    ∃ before row after, rows = before ++ row :: after ∧ row.auditId = auditId ∧
      updateRows auditId newState stamp rows none =
        (before ++ row.recordTransition newState stamp :: after, row.lagAt newState stamp none) := by
  obtain ⟨row, hrow, hid⟩ := List.mem_map.mp h
  obtain ⟨before, after, rfl⟩ := List.append_of_mem hrow
  refine ⟨before, row, after, rfl, hid, ?_⟩
  rw [List.map_append, List.map_cons, List.nodup_append, List.nodup_cons] at hids
  obtain ⟨-, ⟨hafter, -⟩, hdisjoint⟩ := hids
  have hbefore : auditId ∉ before.map AuditRow.auditId := by
    intro hmem
    exact hdisjoint _ hmem _ List.mem_cons_self hid.symm
  rw [hid] at hafter
  rw [updateRows_append hbefore, updateRows, if_pos hid, updateRows_of_notMem hafter]

end UpdateRows

/-- The stamp of the last transition of the row to `replied_explicit`. -/
def AuditRow.repliedAt (row : AuditRow) : Option Stamp :=
  (row.delivery.bind fun d => d.stateTransitions.reverse.find? (·.state = .repliedExplicit)).map
    Transition.stamp

/-- What `_read_valid_reply_lags` takes from a row: its reply lag, where it has been replied to. -/
def AuditRow.replyLag (row : AuditRow) : Option ℚ :=
  if row.decision.isSend ∧ row.currentState = some .repliedExplicit then
    row.repliedAt.bind (replyLagSeconds row.ts)
  else none

/-- `_read_valid_reply_lags` -/
def readValidReplyLags (rows : List AuditRow) : List ℚ := rows.filterMap AuditRow.replyLag

theorem replyLag_of_ne {row : AuditRow} (h : row.currentState ≠ some .repliedExplicit) :
    row.replyLag = none := by
  rw [AuditRow.replyLag, if_neg]
  exact fun hreplied => h hreplied.2

/-- On its first reply, the lag of a row in the audit is the one that the update folds. -/
theorem replyLag_recordTransition {row : AuditRow} (newState : StateName) (stamp : Stamp)
    (h : row.currentState ≠ some .repliedExplicit) :
    (row.recordTransition newState stamp).replyLag = row.lagAt newState stamp none := by
  by_cases hsend : row.decision.isSend ∧ newState = .repliedExplicit
  · obtain ⟨hd, rfl⟩ := hsend
    have hat : (row.recordTransition .repliedExplicit stamp).repliedAt = some stamp := by
      simp [AuditRow.repliedAt, AuditRow.recordTransition]
    rw [AuditRow.replyLag, if_pos ⟨hd, rfl⟩, hat, AuditRow.lagAt, if_pos ⟨hd, rfl, h⟩]
    rfl
  · rw [AuditRow.lagAt, if_neg fun hc => hsend ⟨hc.1, hc.2.1⟩, AuditRow.replyLag, if_neg]
    rintro ⟨hd, hs⟩
    exact hsend ⟨hd, Option.some.inj hs⟩

end Companion.Initiate

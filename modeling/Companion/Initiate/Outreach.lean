import Companion.Initiate.Gates
import Companion.Runs
import Mathlib

/-!
# The outreach

The review of the queued candidates (`brain/initiate/review.py`) with the queue
(`brain/initiate/emit.py`) and the audit (`brain/initiate/audit.py`), one file operation at a time.
What the models answer, which candidates the reflection lets through, which writes fail, where an
exception leaves a candidate and where the process stops are in the labels.

The row of a candidate is appended before its event is published, and the candidate is removed from
the queue after it. The append is best effort: where it fails, the event is published all the same,
and the gate never hears of it. A candidate that is not removed is reviewed again. `Recorded`
excludes both.

The ids of new candidates are new. `published` and `emitted` are bookkeeping.
-/

namespace Companion.Initiate.Outreach

open Companion.Memory
open Companion.Runs

/-- `InitiateCandidate`, in the queue. -/
structure Candidate where
  candidateId : Text
  kind : CandidateKind
  deriving DecidableEq

/-- An `initiate_delivered` event. -/
structure Publication where
  auditId : Text
  candidateId : Text
  kind : CandidateKind
  urgency : Urgency
  time : Instant
  deriving DecidableEq

/-- Where the tick is, with the candidates that are left to it. -/
inductive Work
  | idle
  | loop (rest : List Candidate)
  /-- The append of the row. -/
  | appending (row : AuditRow) (rest : List Candidate)
  /-- The update of the row to `delivered`. -/
  | marking (row : AuditRow) (rest : List Candidate)
  | publishing (row : AuditRow) (rest : List Candidate)
  /-- The removal from the queue, and whether the event is out. -/
  | removing (candidateId : Text) (sent : Bool) (rest : List Candidate)
  deriving DecidableEq

structure State where
  queue : List Candidate
  audit : List AuditRow
  /-- Of the current tick, or the last. -/
  now : Instant
  presence : Option UserPresence
  work : Work
  published : List Publication
  /-- The ids of the candidates so far. -/
  emitted : List Text

/-- What can happen. A flag says whether a write succeeds. -/
inductive Act
  | emit (c : Candidate)
  /-- The user reads, answers or dismisses a message. -/
  | update (auditId : Text) (newState : StateName) (stamp : Stamp)
  | tick (now : Instant) (presence : Option UserPresence) (capPerTick : ℕ)
  /-- The reflection demotes a candidate. -/
  | filter (candidateId : Text) (ok : Bool)
  /-- The next candidate is not promoted. -/
  | skip
  /-- What is composed for the next candidate, none where it raises. -/
  | compose (auditId : Text) (answer : Option Decision)
  | append (ok : Bool)
  | mark (ok : Bool)
  | publish (ok : Bool)
  | remove (ok : Bool)
  /-- An exception leaves the candidate. -/
  | fail
  /-- The tick returns, or the process stops. -/
  | stop

/-- The urgency that a decision sends with. -/
def urgencyOf : Decision → Option Urgency
  | .sendNotify => some .notify
  | .sendQuiet => some .quiet
  | _ => none

/-- The answers that `compose_decision` and `compose_decision_voice_edit` return. -/
def answers : CandidateKind → List Decision
  | .message => [.sendNotify, .sendQuiet, .hold, .drop]
  | .voiceEditProposal => [.sendQuiet, .hold, .drop]

section Step

variable (localHour : Instant → ℕ)

namespace State

variable (s : State)

/-- `final_decision`: a message that the gate blocks is held. -/
def finalDecision (kind : CandidateKind) (decision : Decision) : Decision :=
  match urgencyOf decision with
  | some u =>
    if kind = .message ∧ (checkSendAllowed localHour s.audit u s.now s.presence).isSome then .hold
    else decision
  | none => decision

/-- The row of a candidate. -/
def rowOf (c : Candidate) (auditId : Text) (answer : Option Decision) : AuditRow where
  auditId := auditId
  candidateId := c.candidateId
  ts := some s.now
  kind := c.kind
  decision := answer.elim .error (s.finalDecision localHour c.kind)
  delivery := none

/-- `remove_candidate` -/
def removed (candidateId : Text) : List Candidate := s.queue.filter (·.candidateId ≠ candidateId)

/-- The event of a row. -/
def event (row : AuditRow) : Publication :=
  ⟨row.auditId, row.candidateId, row.kind, if row.decision = .sendNotify then .notify else .quiet, s.now⟩

def step (s : State) : Act → Option State
  | .emit c =>
    if c.candidateId ∈ s.emitted then none
    else some { s with queue := s.queue ++ [c], emitted := c.candidateId :: s.emitted }
  | .update auditId newState stamp =>
    some { s with audit := (updateRows auditId newState stamp s.audit none).1 }
  | .tick now presence capPerTick =>
    if s.work = .idle ∧ s.now ≤ now then
      some { s with now := now, presence := presence, work := .loop (s.queue.take capPerTick) }
    else none
  | .filter candidateId ok =>
    match s.work with
    | .loop rest =>
      some { s with queue := if ok then s.removed candidateId else s.queue, work := .loop rest }
    | _ => none
  | .skip =>
    match s.work with
    | .loop (_ :: rest) => some { s with work := .loop rest }
    | _ => none
  | .compose auditId answer =>
    match s.work with
    | .loop (c :: rest) =>
      if ∀ d ∈ answer, d ∈ answers c.kind then
        some { s with work := .appending (s.rowOf localHour c auditId answer) rest }
      else none
    | _ => none
  | .append ok =>
    match s.work with
    | .appending row rest =>
      some { s with
        audit := if ok then s.audit ++ [row] else s.audit
        work := if row.decision.isSend then .marking row rest
          else .removing row.candidateId false rest }
    | _ => none
  | .mark ok =>
    match s.work with
    | .marking row rest =>
      some { s with
        audit := if ok then (updateRows row.auditId .delivered (some s.now) s.audit none).1 else s.audit
        work := .publishing row rest }
    | _ => none
  | .publish ok =>
    match s.work with
    | .publishing row rest =>
      some { s with
        published := if ok then s.published ++ [s.event row] else s.published
        work := .removing row.candidateId ok rest }
    | _ => none
  | .remove ok =>
    match s.work with
    | .removing candidateId _ rest =>
      some { s with queue := if ok then s.removed candidateId else s.queue, work := .loop rest }
    | _ => none
  | .fail =>
    match s.work with
    | .idle | .loop [] => none
    | .loop (_ :: rest) | .appending _ rest | .marking _ rest | .publishing _ rest
    | .removing _ _ rest => some { s with work := .loop rest }
  | .stop => if s.work = .idle then none else some { s with work := .idle }

end State

/-- No tick has run, and the queue has each candidate once. -/
def State.Start (s : State) : Prop :=
  s.work = .idle ∧ s.published = [] ∧ s.emitted = s.queue.map Candidate.candidateId ∧ s.emitted.Nodup

def machine : Machine State Act := ⟨State.Start, State.step localHour⟩

end Step

/-- The append of the row of a message that is to be sent does not fail, and a candidate whose event
is out is removed from the queue. -/
def recorded : Work → Act → Bool
  | .appending row _, .append ok => ok || !(row.kind = .message && row.decision.isSend)
  | .removing _ sent _, .remove ok => ok || !sent
  | .removing _ sent _, .stop => !sent
  | .removing _ sent _, .fail => !sent
  | _, _ => true

def Recorded (s : State) (a : Act) : Prop := recorded s.work a = true

instance (s : State) (a : Act) : Decidable (Recorded s a) := inferInstanceAs (Decidable (_ = true))

/-! ## The property -/

/-- A message of an urgency. -/
abbrev Publication.Is (u : Urgency) (p : Publication) : Prop := p.kind = .message ∧ p.urgency = u

/-- The messages of an urgency, in order. -/
def State.sends (s : State) (u : Urgency) : List Publication := s.published.filter fun p => p.Is u

/-- The caps hold, each message counts, and no candidate goes out twice. -/
structure CapsHold (localHour : Instant → ℕ) (s : State) : Prop where
  /-- The row of a message is in the audit, with its time and its urgency. -/
  counted : ∀ p ∈ s.published, p.kind = .message → ∃ row ∈ s.audit,
    row.auditId = p.auditId ∧ row.ts = some p.time ∧ row.decision = p.urgency.decision
  capped : ∀ u start, ((s.sends u).filter fun p => start ≤ p.time ∧ p.time < start + 24 * hour).length ≤
    u.defaultCap + 1
  spaced : ∀ u, (s.sends u).Pairwise fun p q => p.time + u.halfGap ≤ q.time
  awake : ∀ p ∈ s.sends .notify, ¬ Blackout (localHour p.time)
  once : (s.published.map Publication.candidateId).Nodup

/-! ## What the tick goes by -/

section Invariant

variable {localHour : Instant → ℕ} {s s' : State}

/-- What a message and its row have in common. -/
def Publication.key (p : Publication) : Text × Stamp × Decision :=
  (p.auditId, some p.time, p.urgency.decision)

def rowKey (row : AuditRow) : Text × Stamp × Decision := (row.auditId, row.ts, row.decision)

/-- The keys of the messages that are out. -/
def State.messageKeys (s : State) : List (Text × Stamp × Decision) :=
  (s.published.filter fun p => p.kind = .message).map Publication.key

/-- The gate has let a message through. -/
structure Cleared (localHour : Instant → ℕ) (s : State) (u : Urgency) : Prop where
  capped : ((s.sends u).filter fun p => s.now - 24 * hour ≤ p.time).length ≤ u.defaultCap
  spaced : ∀ p ∈ s.sends u, p.time + u.halfGap ≤ s.now
  awake : u = .notify → ¬ Blackout (localHour s.now)

/-- Candidates that are to be reviewed, each once, and none of which is out. -/
def Unsent (s : State) (ids : List Text) : Prop :=
  ids.Nodup ∧ ∀ candidateId ∈ ids,
    candidateId ∉ s.published.map Publication.candidateId ∧ candidateId ∈ s.emitted

/-- The row of a candidate that is reviewed. -/
structure Ready (localHour : Instant → ℕ) (s : State) (row : AuditRow) (rest : List Candidate) : Prop where
  ts : row.ts = some s.now
  cleared : row.kind = .message → ∀ u, urgencyOf row.decision = some u → Cleared localHour s u
  unsent : Unsent s (row.candidateId :: rest.map Candidate.candidateId)

/-- What holds at each operation of the tick. -/
def Pending (localHour : Instant → ℕ) (s : State) : Prop :=
  match s.work with
  | .idle => True
  | .loop rest | .removing _ _ rest => Unsent s (rest.map Candidate.candidateId)
  | .appending row rest => Ready localHour s row rest
  | .marking row rest | .publishing row rest =>
    Ready localHour s row rest ∧ row.decision.isSend ∧
      (row.kind = .message → (s.messageKeys ++ [rowKey row]).Sublist (s.audit.map rowKey))

structure Inv (localHour : Instant → ℕ) (s : State) : Prop where
  counted : s.messageKeys.Sublist (s.audit.map rowKey)
  capped : ∀ u start, ((s.sends u).filter fun p => start ≤ p.time ∧ p.time < start + 24 * hour).length ≤
    u.defaultCap + 1
  spaced : ∀ u, (s.sends u).Pairwise fun p q => p.time + u.halfGap ≤ q.time
  awake : ∀ p ∈ s.sends .notify, ¬ Blackout (localHour p.time)
  once : (s.published.map Publication.candidateId).Nodup
  past : ∀ p ∈ s.published, p.time ≤ s.now
  emitted : ∀ p ∈ s.published, p.candidateId ∈ s.emitted
  queued : (s.queue.map Candidate.candidateId).Nodup ∧ ∀ c ∈ s.queue, c.candidateId ∈ s.emitted ∧
    (c.candidateId ∉ s.published.map Publication.candidateId ∨
      ∃ rest, s.work = .removing c.candidateId true rest)
  pending : Pending localHour s

theorem Inv.capsHold (h : Inv localHour s) : CapsHold localHour s := by
  refine ⟨fun p hp hkind => ?_, h.capped, h.spaced, h.awake, h.once⟩
  have hkey : p.key ∈ s.messageKeys :=
    List.mem_map_of_mem (List.mem_filter.mpr ⟨hp, decide_eq_true hkind⟩)
  obtain ⟨row, hrow, heq⟩ := List.mem_map.mp (h.counted.subset hkey)
  obtain ⟨hid, hrest⟩ := Prod.mk.inj heq
  obtain ⟨hts, hdecision⟩ := Prod.mk.inj hrest
  exact ⟨row, hrow, hid, hts, hdecision⟩

theorem inv_start (h : s.Start) : Inv localHour s := by
  obtain ⟨hwork, hpublished, hemitted, hnodup⟩ := h
  refine ⟨?_, ?_, ?_, ?_, ?_, ?_, ?_, ?_, ?_⟩
  · simp [State.messageKeys, hpublished]
  · simp [State.sends, hpublished]
  · simp [State.sends, hpublished]
  · simp [State.sends, hpublished]
  · simp [hpublished]
  · simp [hpublished]
  · simp [hpublished]
  · refine ⟨hemitted ▸ hnodup, fun c hc => ⟨?_, .inl (by simp [hpublished])⟩⟩
    rw [hemitted]
    exact List.mem_map_of_mem hc
  · rw [Pending, hwork]
    trivial

/-- An update of the audit changes no key. -/
theorem map_rowKey_updateRows (auditId : Text) (newState : StateName) (stamp : Stamp)
    (rows : List AuditRow) (lag : Option ℚ) :
    (updateRows auditId newState stamp rows lag).1.map rowKey = rows.map rowKey := by
  induction rows generalizing lag with
  | nil => rfl
  | cons row rows ih =>
    rw [updateRows]
    split_ifs
    · rw [List.map_cons, List.map_cons, ih]
      rfl
    · rw [List.map_cons, List.map_cons, ih]

/-! ### Frames -/

/-- Nothing is published, and the audit keeps its rows. -/
theorem Inv.frame (h : Inv localHour s) (hpublished : s'.published = s.published)
    (hnow : s.now ≤ s'.now) (haudit : (s.audit.map rowKey).Sublist (s'.audit.map rowKey))
    (hemitted : s.emitted ⊆ s'.emitted)
    (hqueued : (s'.queue.map Candidate.candidateId).Nodup ∧ ∀ c ∈ s'.queue,
      c.candidateId ∈ s'.emitted ∧ (c.candidateId ∉ s.published.map Publication.candidateId ∨
        ∃ rest, s'.work = .removing c.candidateId true rest))
    (hpending : Pending localHour s') : Inv localHour s' := by
  have hsends : ∀ u, s'.sends u = s.sends u := fun u => by rw [State.sends, hpublished]; rfl
  have hkeys : s'.messageKeys = s.messageKeys := by rw [State.messageKeys, hpublished]; rfl
  refine ⟨hkeys ▸ h.counted.trans haudit, fun u start => ?_, fun u => ?_, ?_, hpublished ▸ h.once, ?_, ?_,
    hpublished ▸ hqueued, hpending⟩
  · rw [hsends]
    exact h.capped u start
  · rw [hsends]
    exact h.spaced u
  · rw [hsends]
    exact h.awake
  · rw [hpublished]
    exact fun p hp => (h.past p hp).trans hnow
  · rw [hpublished]
    exact fun p hp => hemitted (h.emitted p hp)

theorem Unsent.of_cons {candidateId : Text} {ids : List Text} (h : Unsent s (candidateId :: ids)) :
    Unsent s ids :=
  ⟨(List.nodup_cons.mp h.1).2, fun i hi => h.2 i (List.mem_cons_of_mem _ hi)⟩

/-- A state with the same messages, the same time and no fewer candidates is pending alike. -/
theorem Ready.frame {row : AuditRow} {rest : List Candidate} (h : Ready localHour s row rest)
    (hpublished : s'.published = s.published) (hnow : s'.now = s.now) (hemitted : s.emitted ⊆ s'.emitted) :
    Ready localHour s' row rest := by
  have hsends : ∀ u, s'.sends u = s.sends u := fun u => by rw [State.sends, hpublished]; rfl
  refine ⟨hnow ▸ h.ts, fun hkind u hu => ?_, h.unsent.1, fun i hi => ?_⟩
  · have hcleared := h.cleared hkind u hu
    refine ⟨?_, ?_, hnow ▸ hcleared.awake⟩
    · rw [hsends, hnow]
      exact hcleared.capped
    · rw [hsends, hnow]
      exact hcleared.spaced
  · obtain ⟨hout, hin⟩ := h.unsent.2 i hi
    exact ⟨hpublished ▸ hout, hemitted hin⟩

/-- What is pending stays so where the audit gains rows. -/
theorem Pending.frame (h : Pending localHour s) (hwork : s'.work = s.work)
    (hpublished : s'.published = s.published) (hnow : s'.now = s.now)
    (hemitted : s.emitted ⊆ s'.emitted) (haudit : (s.audit.map rowKey).Sublist (s'.audit.map rowKey)) :
    Pending localHour s' := by
  have hkeys : s'.messageKeys = s.messageKeys := by rw [State.messageKeys, hpublished]; rfl
  have hunsent : ∀ ids, Unsent s ids → Unsent s' ids := by
    rintro ids ⟨hnodup, hids⟩
    refine ⟨hnodup, fun i hi => ?_⟩
    obtain ⟨hout, hin⟩ := hids i hi
    exact ⟨hpublished ▸ hout, hemitted hin⟩
  unfold Pending at h ⊢
  rw [hwork]
  cases hw : s.work with
  | idle => trivial
  | loop rest =>
    simp only [hw] at h
    exact hunsent _ h
  | removing candidateId sent rest =>
    simp only [hw] at h
    exact hunsent _ h
  | appending row rest =>
    simp only [hw] at h
    exact h.frame hpublished hnow hemitted
  | marking row rest =>
    simp only [hw] at h
    exact ⟨h.1.frame hpublished hnow hemitted, h.2.1, fun hkind => hkeys ▸ (h.2.2 hkind).trans haudit⟩
  | publishing row rest =>
    simp only [hw] at h
    exact ⟨h.1.frame hpublished hnow hemitted, h.2.1, fun hkind => hkeys ▸ (h.2.2 hkind).trans haudit⟩

/-- But for the removal of a candidate whose event is out, no candidate of the queue is out. -/
theorem Inv.unsent (h : Inv localHour s) (hwork : ∀ i rest, s.work ≠ .removing i true rest) :
    ∀ c ∈ s.queue, c.candidateId ∉ s.published.map Publication.candidateId := by
  intro c hc
  rcases (h.queued.2 c hc).2 with hout | ⟨rest, hw⟩
  · exact hout
  · exact absurd hw (hwork _ _)

/-- The queue that is left is none that is out, where no event was, or where the candidate is
removed. -/
theorem Inv.queued_of_unsent (h : Inv localHour s) {queue : List Candidate}
    (hsub : queue.Sublist s.queue)
    (hunsent : ∀ c ∈ queue, c.candidateId ∉ s.published.map Publication.candidateId) (work : Work) :
    (queue.map Candidate.candidateId).Nodup ∧ ∀ c ∈ queue, c.candidateId ∈ s.emitted ∧
      (c.candidateId ∉ s.published.map Publication.candidateId ∨
        ∃ rest, work = .removing c.candidateId true rest) :=
  ⟨(hsub.map _).nodup h.queued.1, fun c hc =>
    ⟨(h.queued.2 c (hsub.subset hc)).1, .inl (hunsent c hc)⟩⟩

/-- The tick goes on with the next candidate. -/
theorem Inv.loop (h : Inv localHour s) {queue : List Candidate} {rest : List Candidate}
    (hsub : queue.Sublist s.queue)
    (hunsent : ∀ c ∈ queue, c.candidateId ∉ s.published.map Publication.candidateId)
    (hrest : Unsent s (rest.map Candidate.candidateId)) :
    Inv localHour { s with queue := queue, work := .loop rest } :=
  h.frame rfl le_rfl (List.Sublist.refl _) (List.Subset.refl _)
    (h.queued_of_unsent hsub hunsent _) hrest

theorem Inv.removed (h : Inv localHour s) {c : Text} {sent : Bool} {rest : List Candidate}
    (hwork : s.work = .removing c sent rest) :
    ∀ d ∈ s.removed c, d.candidateId ∉ s.published.map Publication.candidateId := by
  intro d hd
  obtain ⟨hmem, hne⟩ := List.mem_filter.mp hd
  rcases (h.queued.2 d hmem).2 with hout | ⟨rest', hw⟩
  · exact hout
  · obtain ⟨heq, -, -⟩ := Work.removing.inj (hwork.symm.trans hw)
    exact absurd heq.symm (of_decide_eq_true hne)

/-- The rows that the gate counts are no fewer than the messages. -/
theorem Inv.sends_le (h : Inv localHour s) (u : Urgency) (now : Instant) :
    ((s.sends u).filter fun p => now - 24 * hour ≤ p.time).length ≤ countRecentSends s.audit u 24 now := by
  let q : Text × Stamp × Decision → Bool := fun key =>
    key.2.1.any (now - 24 * hour ≤ ·) && decide (key.2.2 = u.decision)
  have hcount := h.counted.countP_le (p := q)
  have hdecision : ∀ v : Urgency, v.decision = u.decision ↔ v = u := by
    intro v
    cases v <;> cases u <;> decide
  have hleft : s.messageKeys.countP q =
      ((s.sends u).filter fun p => now - 24 * hour ≤ p.time).length := by
    rw [State.messageKeys, List.countP_map, List.countP_filter, State.sends, List.filter_filter,
      ← List.countP_eq_length_filter]
    refine List.countP_congr fun p _ => ?_
    simp only [Function.comp_apply, Publication.key, q, Option.any_some, hdecision, Publication.Is,
      Bool.and_eq_true, decide_eq_true_eq]
    tauto
  have hright : (s.audit.map rowKey).countP q = countRecentSends s.audit u 24 now := by
    rw [countRecentSends, readRecentAudit, List.countP_map, List.countP_filter]
    refine List.countP_congr fun row _ => ?_
    simp only [Function.comp_apply, rowKey, q, Bool.and_eq_true, decide_eq_true_eq]
    exact and_comm.trans (and_congr_left' decide_eq_true_iff)
  rw [hleft, hright] at hcount
  exact hcount

/-- What the gate lets through is cleared. -/
theorem Inv.cleared (h : Inv localHour s) {u : Urgency}
    (hgate : checkSendAllowed localHour s.audit u s.now s.presence = none) : Cleared localHour s u := by
  obtain ⟨hcap, hgap, hawake⟩ := of_checkSendAllowed hgate
  refine ⟨(h.sends_le u s.now).trans hcap, fun p hp => ?_, hawake⟩
  obtain ⟨hmem, hkind⟩ := List.mem_filter.mp hp
  obtain ⟨hmessage, rfl⟩ := of_decide_eq_true hkind
  obtain ⟨row, hrow, -, hts, hdecision⟩ := h.capsHold.counted p hmem hmessage
  exact hgap row hrow hdecision p.time hts

/-- What is composed for a candidate is ready to be appended. -/
theorem Inv.rowOf (h : Inv localHour s) {c : Candidate} {rest : List Candidate} (auditId : Text)
    (answer : Option Decision) (hunsent : Unsent s ((c :: rest).map Candidate.candidateId)) :
    Ready localHour s (s.rowOf localHour c auditId answer) rest := by
  refine ⟨rfl, fun hkind u hu => ?_, hunsent⟩
  have hmessage : c.kind = .message := hkind
  cases answer with
  | none => cases hu
  | some d =>
    change urgencyOf (s.finalDecision localHour c.kind d) = some u at hu
    unfold State.finalDecision at hu
    cases hd : urgencyOf d with
    | none =>
      simp only [hd] at hu
      cases hu
    | some v =>
      simp only [hd] at hu
      split_ifs at hu with hblocked
      · cases hu
      · rw [hd] at hu
        obtain rfl := Option.some.inj hu
        have hnone : ¬ (checkSendAllowed localHour s.audit v s.now s.presence).isSome :=
          fun hsome => hblocked ⟨hmessage, hsome⟩
        exact h.cleared (Option.not_isSome_iff_eq_none.mp hnone)

end Invariant

/-! ### Steps -/

section Steps

variable {localHour : Instant → ℕ} {s s' : State}

theorem Inv.emit (h : Inv localHour s) {c : Candidate} (hnew : c.candidateId ∉ s.emitted) :
    Inv localHour { s with queue := s.queue ++ [c], emitted := c.candidateId :: s.emitted } := by
  have hsub : s.emitted ⊆ c.candidateId :: s.emitted := List.subset_cons_self _ _
  refine h.frame rfl le_rfl (List.Sublist.refl _) hsub ⟨?_, fun d hd => ?_⟩
    (h.pending.frame rfl rfl rfl hsub (List.Sublist.refl _))
  · rw [List.map_append, List.nodup_append]
    refine ⟨h.queued.1, List.nodup_singleton _, ?_⟩
    rintro _ hold _ hc rfl
    obtain ⟨d, hmem, rfl⟩ := List.mem_map.mp hold
    rw [List.map_singleton, List.mem_singleton] at hc
    exact hnew (hc ▸ (h.queued.2 d hmem).1)
  · rcases List.mem_append.mp hd with hd | hd
    · obtain ⟨hin, hout⟩ := h.queued.2 d hd
      exact ⟨hsub hin, hout⟩
    · obtain rfl := List.mem_singleton.mp hd
      refine ⟨List.mem_cons_self, .inl fun hmem => ?_⟩
      obtain ⟨p, hp, heq⟩ := List.mem_map.mp hmem
      exact hnew (heq ▸ h.emitted p hp)

theorem Inv.tick (h : Inv localHour s) (hidle : s.work = .idle) {now : Instant} (hnow : s.now ≤ now)
    (presence : Option UserPresence) (capPerTick : ℕ) :
    Inv localHour
      { s with now := now, presence := presence, work := .loop (s.queue.take capPerTick) } := by
  have hunsent := h.unsent fun i rest hw => by rw [hidle] at hw; cases hw
  refine h.frame rfl hnow (List.Sublist.refl _) (List.Subset.refl _)
    (h.queued_of_unsent (List.Sublist.refl _) hunsent _) ⟨?_, fun i hi => ?_⟩
  · exact ((List.take_sublist _ _).map _).nodup h.queued.1
  · obtain ⟨c, hc, rfl⟩ := List.mem_map.mp hi
    have hmem := List.mem_of_mem_take hc
    exact ⟨hunsent c hmem, (h.queued.2 c hmem).1⟩

/-- An event that goes out: the gate has cleared a message, and its row is in the audit. -/
theorem Inv.publish (h : Inv localHour s) {row : AuditRow} {rest : List Candidate}
    (hwork : s.work = .publishing row rest) :
    Inv localHour { s with
      published := s.published ++ [s.event row], work := .removing row.candidateId true rest } := by
  have hpending := h.pending
  rw [Pending, hwork] at hpending
  obtain ⟨hready, hsend, hrow⟩ := hpending
  obtain ⟨hnodup, hids⟩ := hready.unsent
  have hout := (hids row.candidateId List.mem_cons_self).1
  let s₁ : State := { s with
    published := s.published ++ [s.event row], work := .removing row.candidateId true rest }
  obtain ⟨v, hv⟩ : ∃ v, urgencyOf row.decision = some v := by
    revert hsend
    cases row.decision <;> simp [Decision.isSend, urgencyOf]
  have hurgency : (s.event row).urgency = v ∧ v.decision = row.decision := by
    revert hv
    unfold State.event
    cases row.decision <;> rintro ⟨⟩ <;> exact ⟨rfl, rfl⟩
  have hsends : ∀ u, s₁.sends u =
      s.sends u ++ if row.kind = .message ∧ v = u then [s.event row] else [] := by
    intro u
    have hevent : (s.event row).Is u ↔ row.kind = .message ∧ v = u := by
      rw [Publication.Is, hurgency.1]
      exact Iff.rfl
    rw [State.sends, List.filter_append, List.filter_cons, List.filter_nil, decide_eq_decide.mpr hevent]
    by_cases hu : row.kind = .message ∧ v = u
    · rw [if_pos hu, if_pos (decide_eq_true hu)]
      rfl
    · rw [if_neg hu, if_neg (by simpa using hu)]
      rfl
  have hcleared : ∀ u, row.kind = .message ∧ v = u → Cleared localHour s u := fun u hu =>
    hready.cleared hu.1 u (hu.2 ▸ hv)
  refine ⟨?_, fun u start => ?_, fun u => ?_, fun p hp => ?_, ?_, fun p hp => ?_, fun p hp => ?_, ?_, ?_⟩
  · have hevent : (s.event row).kind = row.kind := rfl
    by_cases hkind : row.kind = .message
    · have hkeys : s₁.messageKeys = s.messageKeys ++ [rowKey row] := by
        rw [State.messageKeys, List.filter_append, List.map_append,
          List.filter_cons_of_pos (by simpa [hevent] using hkind), List.filter_nil]
        have hkey : (s.event row).key = rowKey row := by
          rw [Publication.key, rowKey, hurgency.1, hurgency.2, hready.ts]
          rfl
        rw [List.map_singleton, hkey]
        rfl
      exact hkeys ▸ hrow hkind
    · have hkeys : s₁.messageKeys = s.messageKeys := by
        rw [State.messageKeys, List.filter_append,
          List.filter_cons_of_neg (by simpa [hevent] using hkind), List.filter_nil, List.append_nil]
        rfl
      exact hkeys ▸ h.counted
  · rw [hsends, List.filter_append, List.length_append]
    have hold := h.capped u start
    by_cases hu : row.kind = .message ∧ v = u
    · rw [if_pos hu, List.filter_cons, List.filter_nil]
      split_ifs with hin
      · -- The messages of a window that the new one is in are those of the last day.
        have hin' : start ≤ s.now ∧ s.now < start + 24 * hour := of_decide_eq_true hin
        have hday := (hcleared u hu).capped
        have hle : ((s.sends u).filter fun p => start ≤ p.time ∧ p.time < start + 24 * hour).length ≤
            ((s.sends u).filter fun p => s.now - 24 * hour ≤ p.time).length := by
          refine (List.monotone_filter_right _ fun p hp => ?_).length_le
          have hp' := of_decide_eq_true hp
          exact decide_eq_true (by linarith [hp'.1, hin'.2])
        rw [List.length_singleton]
        omega
      · exact hold
    · rw [if_neg hu]
      exact hold
  · rw [hsends]
    by_cases hu : row.kind = .message ∧ v = u
    · rw [if_pos hu, List.pairwise_append]
      refine ⟨h.spaced u, List.pairwise_singleton _ _, fun p hp q hq => ?_⟩
      rw [List.mem_singleton.mp hq]
      exact (hcleared u hu).spaced p hp
    · rw [if_neg hu, List.append_nil]
      exact h.spaced u
  · rw [hsends] at hp
    rcases List.mem_append.mp hp with hp | hp
    · exact h.awake p hp
    · split_ifs at hp with hu
      · rw [List.mem_singleton.mp hp]
        exact (hcleared _ hu).awake rfl
      · cases hp
  · change ((s.published ++ [s.event row]).map Publication.candidateId).Nodup
    rw [List.map_append, List.map_singleton, List.nodup_append]
    refine ⟨h.once, List.nodup_singleton _, ?_⟩
    rintro _ hi _ hj rfl
    rw [List.mem_singleton.mp hj] at hi
    exact hout hi
  · rcases List.mem_append.mp hp with hp | hp
    · exact h.past p hp
    · rw [List.mem_singleton.mp hp]
      exact le_rfl
  · rcases List.mem_append.mp hp with hp | hp
    · exact h.emitted p hp
    · rw [List.mem_singleton.mp hp]
      exact (hids row.candidateId List.mem_cons_self).2
  · have hunsent := h.unsent fun i rest hw => by rw [hwork] at hw; cases hw
    refine ⟨h.queued.1, fun c hc => ⟨(h.queued.2 c hc).1, ?_⟩⟩
    by_cases hcid : c.candidateId = row.candidateId
    · exact .inr ⟨rest, by rw [hcid]⟩
    · refine .inl ?_
      rw [List.map_append, List.mem_append, not_or]
      exact ⟨hunsent c hc, by simpa [State.event] using hcid⟩
  · refine ⟨(List.nodup_cons.mp hnodup).2, fun i hi => ?_⟩
    obtain ⟨hi', hin⟩ := hids i (List.mem_cons_of_mem _ hi)
    refine ⟨?_, hin⟩
    change i ∉ (s.published ++ [s.event row]).map Publication.candidateId
    rw [List.map_append, List.mem_append, not_or]
    refine ⟨hi', fun heq => ?_⟩
    rw [List.map_singleton, List.mem_singleton] at heq
    have hrow' : i = row.candidateId := heq
    exact (List.nodup_cons.mp hnodup).1 (hrow' ▸ hi)

/-- An update of the audit keeps the rows that count. -/
theorem sublist_updateRows (auditId : Text) (newState : StateName) (stamp : Stamp) (rows : List AuditRow) :
    (rows.map rowKey).Sublist ((updateRows auditId newState stamp rows none).1.map rowKey) := by
  rw [map_rowKey_updateRows]

theorem Inv.update (h : Inv localHour s) (auditId : Text) (newState : StateName) (stamp : Stamp) :
    Inv localHour { s with audit := (updateRows auditId newState stamp s.audit none).1 } := by
  have haudit := sublist_updateRows auditId newState stamp s.audit
  exact h.frame rfl le_rfl haudit (List.Subset.refl _) h.queued
    (h.pending.frame rfl rfl rfl (List.Subset.refl _) haudit)

/-- What an operation after the composition leaves to the tick. -/
theorem Inv.work (h : Inv localHour s) (hwork : ∀ i rest, s.work ≠ .removing i true rest) {work : Work}
    (hpending : Pending localHour { s with work := work }) : Inv localHour { s with work := work } :=
  h.frame rfl le_rfl (List.Sublist.refl _) (List.Subset.refl _)
    (h.queued_of_unsent (List.Sublist.refl _) (h.unsent hwork) _) hpending

theorem Inv.append (h : Inv localHour s) {row : AuditRow} {rest : List Candidate}
    (hwork : s.work = .appending row rest) {ok : Bool}
    (hok : ok || !(row.kind = .message && row.decision.isSend)) :
    Inv localHour { s with
      audit := if ok then s.audit ++ [row] else s.audit
      work := if row.decision.isSend then .marking row rest
        else .removing row.candidateId false rest } := by
  have hready := h.pending
  rw [Pending, hwork] at hready
  have hunsent := h.unsent fun i rest hw => by rw [hwork] at hw; cases hw
  let s₁ : State := { s with
    audit := if ok then s.audit ++ [row] else s.audit
    work := if row.decision.isSend then .marking row rest else .removing row.candidateId false rest }
  have haudit : (s.audit.map rowKey).Sublist (s₁.audit.map rowKey) := by
    change (s.audit.map rowKey).Sublist ((if ok then s.audit ++ [row] else s.audit).map rowKey)
    split_ifs
    · exact (List.sublist_append_left _ _).map _
    · exact List.Sublist.refl _
  have hready₁ : Ready localHour s₁ row rest := hready.frame rfl rfl (List.Subset.refl _)
  refine h.frame rfl le_rfl haudit (List.Subset.refl _)
    (h.queued_of_unsent (List.Sublist.refl _) hunsent _) ?_
  by_cases hsend : row.decision.isSend
  · have hwork₁ : s₁.work = .marking row rest := if_pos hsend
    change Pending localHour s₁
    rw [Pending, hwork₁]
    refine ⟨hready₁, hsend, fun hkind => ?_⟩
    have htrue : ok = true := by simpa [hkind, hsend] using hok
    have haudit₁ : s₁.audit = s.audit ++ [row] := if_pos htrue
    rw [haudit₁, List.map_append]
    exact h.counted.append (List.Sublist.refl _)
  · have hwork₁ : s₁.work = .removing row.candidateId false rest := if_neg hsend
    change Pending localHour s₁
    rw [Pending, hwork₁]
    exact hready₁.unsent.of_cons

theorem Inv.mark (h : Inv localHour s) {row : AuditRow} {rest : List Candidate}
    (hwork : s.work = .marking row rest) (ok : Bool) :
    Inv localHour { s with
      audit := if ok then (updateRows row.auditId .delivered (some s.now) s.audit none).1 else s.audit
      work := .publishing row rest } := by
  have hpending := h.pending
  rw [Pending, hwork] at hpending
  obtain ⟨hready, hsend, hrow⟩ := hpending
  have hunsent := h.unsent fun i rest hw => by rw [hwork] at hw; cases hw
  have haudit : (s.audit.map rowKey).Sublist
      ((if ok then (updateRows row.auditId .delivered (some s.now) s.audit none).1
        else s.audit).map rowKey) := by
    split_ifs
    · exact sublist_updateRows _ _ _ _
    · exact List.Sublist.refl _
  refine h.frame rfl le_rfl haudit (List.Subset.refl _)
    (h.queued_of_unsent (List.Sublist.refl _) hunsent _) ?_
  exact ⟨hready.frame rfl rfl (List.Subset.refl _), hsend, fun hkind => (hrow hkind).trans haudit⟩

/-- A step keeps the invariant. -/
theorem Inv.step (h : Inv localHour s) {a : Act} (hrec : Recorded s a)
    (hstep : s.step localHour a = some s') : Inv localHour s' := by
  have hpending := h.pending
  unfold Recorded at hrec
  cases a with
  | emit c =>
    rw [State.step] at hstep
    split_ifs at hstep with hnew
    obtain rfl := Option.some.inj hstep
    exact h.emit hnew
  | update auditId newState stamp =>
    obtain rfl := Option.some.inj hstep
    exact h.update auditId newState stamp
  | tick now presence capPerTick =>
    rw [State.step] at hstep
    split_ifs at hstep with hidle
    obtain rfl := Option.some.inj hstep
    exact h.tick hidle.1 hidle.2 presence capPerTick
  | filter candidateId ok =>
    rw [State.step] at hstep
    split at hstep
    case h_1 rest hwork =>
      obtain rfl := Option.some.inj hstep
      rw [Pending, hwork] at hpending
      have hunsent := h.unsent fun i rest hw => by rw [hwork] at hw; cases hw
      have hsub : (if ok then s.removed candidateId else s.queue).Sublist s.queue := by
        split_ifs
        · exact List.filter_sublist
        · exact List.Sublist.refl _
      exact h.loop hsub (fun d hd => hunsent d (hsub.subset hd)) hpending
    case h_2 => cases hstep
  | skip =>
    rw [State.step] at hstep
    split at hstep
    case h_1 c rest hwork =>
      obtain rfl := Option.some.inj hstep
      rw [Pending, hwork] at hpending
      exact h.work (fun i rest hw => by rw [hwork] at hw; cases hw) hpending.of_cons
    case h_2 => cases hstep
  | compose auditId answer =>
    rw [State.step] at hstep
    split at hstep
    case h_1 c rest hwork =>
      split_ifs at hstep
      obtain rfl := Option.some.inj hstep
      rw [Pending, hwork] at hpending
      have hready := h.rowOf auditId answer hpending
      exact h.work (fun i rest hw => by rw [hwork] at hw; cases hw)
        (hready.frame rfl rfl (List.Subset.refl _))
    case h_2 => cases hstep
  | append ok =>
    rw [State.step] at hstep
    split at hstep
    case h_1 row rest hwork =>
      obtain rfl := Option.some.inj hstep
      rw [hwork] at hrec
      exact h.append hwork hrec
    case h_2 => cases hstep
  | mark ok =>
    rw [State.step] at hstep
    split at hstep
    case h_1 row rest hwork =>
      obtain rfl := Option.some.inj hstep
      exact h.mark hwork ok
    case h_2 => cases hstep
  | publish ok =>
    rw [State.step] at hstep
    split at hstep
    case h_1 row rest hwork =>
      obtain rfl := Option.some.inj hstep
      cases ok with
      | true => exact h.publish hwork
      | false =>
        rw [Pending, hwork] at hpending
        exact h.work (fun i rest hw => by rw [hwork] at hw; cases hw) hpending.1.unsent.of_cons
    case h_2 => cases hstep
  | remove ok =>
    rw [State.step] at hstep
    split at hstep
    case h_1 candidateId sent rest hwork =>
      obtain rfl := Option.some.inj hstep
      rw [Pending, hwork] at hpending
      rw [hwork] at hrec
      cases ok with
      | true => exact h.loop List.filter_sublist (h.removed hwork) hpending
      | false =>
        -- Only a candidate that is not out may stay.
        have hsent : sent = false := by simpa [recorded] using hrec
        subst hsent
        exact h.work (fun i rest hw => by rw [hwork] at hw; cases hw) hpending
    case h_2 => cases hstep
  | fail =>
    rw [State.step] at hstep
    split at hstep
    case h_1 => cases hstep
    case h_2 => cases hstep
    case h_3 c rest hwork =>
      obtain rfl := Option.some.inj hstep
      rw [Pending, hwork] at hpending
      exact h.work (fun i rest hw => by rw [hwork] at hw; cases hw) hpending.of_cons
    case h_4 row rest hwork =>
      obtain rfl := Option.some.inj hstep
      rw [Pending, hwork] at hpending
      exact h.work (fun i rest hw => by rw [hwork] at hw; cases hw) hpending.unsent.of_cons
    case h_5 row rest hwork =>
      obtain rfl := Option.some.inj hstep
      rw [Pending, hwork] at hpending
      exact h.work (fun i rest hw => by rw [hwork] at hw; cases hw) hpending.1.unsent.of_cons
    case h_6 row rest hwork =>
      obtain rfl := Option.some.inj hstep
      rw [Pending, hwork] at hpending
      exact h.work (fun i rest hw => by rw [hwork] at hw; cases hw) hpending.1.unsent.of_cons
    case h_7 candidateId sent rest hwork =>
      obtain rfl := Option.some.inj hstep
      rw [Pending, hwork] at hpending
      have hsent : sent = false := by simpa [recorded, hwork] using hrec
      subst hsent
      exact h.work (fun i rest hw => by rw [hwork] at hw; cases hw) hpending
  | stop =>
    rw [State.step] at hstep
    split_ifs at hstep
    obtain rfl := Option.some.inj hstep
    refine h.work (fun i rest hw => ?_) trivial
    simp [recorded, hw] at hrec

end Steps

/-! ## The caps -/

/-- In every run whose steps are recorded the caps hold, each message counts, and no candidate goes
out twice. -/
theorem caps_hold (localHour : Instant → ℕ) :
    ∀ s, (machine localHour).Reach Recorded s → CapsHold localHour s := by
  intro s h
  have hinv : Inv localHour s :=
    Machine.Reach.invariant (fun _ => inv_start) (fun _ _ _ hinv hrec hstep => hinv.step hrec hstep) h
  exact hinv.capsHold

/-- A queue of messages. -/
def sampleStart (ids : List Text) : State where
  queue := ids.map fun i => ⟨i, .message⟩
  audit := []
  now := 0
  presence := none
  work := .idle
  published := []
  emitted := ids

theorem start_sampleStart (ids : List Text) (h : ids.Nodup) : (sampleStart ids).Start := by
  have hids : (ids.map fun i => (⟨i, .message⟩ : Candidate)).map Candidate.candidateId = ids := by
    rw [List.map_map]
    exact List.map_id _
  exact ⟨rfl, rfl, hids.symm, h⟩

/-- The review of a candidate that is sent. -/
def sampleSend (auditId : Text) (appended removed : Bool) (d : Decision) : List Act :=
  [.compose auditId (some d), .append appended, .mark true, .publish true, .remove removed]

/-- A notify and a quiet message that are sent in one tick, and a second notify that is held. -/
theorem caps_hold_sent : ∃ s, (machine fun _ => 12).Reach Recorded s ∧ s.published.length = 2 ∧
    s.queue = [] ∧ CapsHold (fun _ => 12) s := by
  obtain ⟨s, hs, hp⟩ := Machine.exists_reach_of_runWithin (M := machine fun _ => 12) (D := Recorded)
    (fun _ _ h => h) (start_sampleStart [['a'], ['b'], ['c']] (by decide))
    (.tick 0 none 3 :: sampleSend ['1'] true true .sendNotify ++ sampleSend ['2'] true true .sendQuiet ++
      [.compose ['3'] (some .sendNotify), .append true, .remove true, .stop])
    (fun s => s.published.length = 2 ∧ s.queue = []) (by decide +kernel)
  obtain ⟨hsent, hqueue⟩ := of_decide_eq_true hp
  exact ⟨s, hs, hsent, hqueue, caps_hold (fun _ => 12) s hs⟩

/-- Where no append succeeds, five notify messages go out at one time, and where the queue is not
rewritten, the candidate goes out again a day later. -/
theorem uncounted_republished :
    (∃ s, (machine fun _ => 12).Reachable s ∧ s.audit = [] ∧
      (s.sends .notify).map Publication.time = [0, 0, 0, 0, 0] ∧ ¬ CapsHold (fun _ => 12) s) ∧
    ∃ s, (machine fun _ => 12).Reachable s ∧ s.audit.length = 2 ∧
      s.published.map Publication.candidateId = [['a'], ['a']] ∧ ¬ CapsHold (fun _ => 12) s := by
  constructor
  · obtain ⟨s, hs, hp⟩ := Machine.exists_reach_of_runWithin (M := machine fun _ => 12)
      (D := fun _ _ => True) (fun _ _ h => h)
      (start_sampleStart [['a'], ['b'], ['c'], ['d'], ['e']] (by decide))
      (.tick 0 none 5 :: sampleSend ['1'] false true .sendNotify ++
        sampleSend ['2'] false true .sendNotify ++ sampleSend ['3'] false true .sendNotify ++
        sampleSend ['4'] false true .sendNotify ++ sampleSend ['5'] false true .sendNotify)
      (fun s => s.audit = [] ∧ (s.sends .notify).map Publication.time = [0, 0, 0, 0, 0])
      (by decide +kernel)
    obtain ⟨haudit, htimes⟩ := of_decide_eq_true hp
    refine ⟨s, hs, haudit, htimes, fun h => ?_⟩
    have hspaced := (List.pairwise_map (f := Publication.time)
      (R := fun t t' => t + Urgency.notify.halfGap ≤ t')).mpr (h.spaced .notify)
    rw [htimes] at hspaced
    revert hspaced
    decide
  · obtain ⟨s, hs, hp⟩ := Machine.exists_reach_of_runWithin (M := machine fun _ => 12)
      (D := fun _ _ => True) (fun _ _ h => h) (start_sampleStart [['a']] (by decide))
      (.tick 0 none 1 :: sampleSend ['1'] true false .sendNotify ++ [.stop] ++
        .tick (24 * hour) none 1 :: sampleSend ['2'] true true .sendNotify)
      (fun s => s.audit.length = 2 ∧ s.published.map Publication.candidateId = [['a'], ['a']])
      (by decide +kernel)
    obtain ⟨haudit, hids⟩ := of_decide_eq_true hp
    refine ⟨s, hs, haudit, hids, fun h => ?_⟩
    have honce := h.once
    rw [hids] at honce
    revert honce
    decide

end Companion.Initiate.Outreach

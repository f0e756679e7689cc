import Companion.Dict
import Companion.Memory.Text
import Companion.Runs
import Mathlib.Algebra.Order.Ring.Int
import Mathlib.Data.List.Nodup
import Mathlib.Data.List.Pairwise
import Mathlib.Data.List.Sort
import Mathlib.Logic.Function.Basic

/-!
# The central cadence function

`run_central_pass` of `brain/bridge/central_cadence.py` with `persisted_cadence.py`. A pass loads
the cadence of each interval job, goes over the jobs in their order, and starts those that are due
while the chat is idle. What it asks on the way (the stop request, the deferral of a job, the idle
probe, the due probe, the slot, and what a job comes to) is in the label of the step, with each
reading of the clock.

A cadence file stands for what `_parse_ts` makes of its `next_at`, and one that is missing or
unusable for none. Files are lost and processes stop between any two steps. No pass is under way
when a process stops, so that the next one begins with the loads.

The times at which a job completed, or its file was initialised, are kept in the state for the
statements, and so are the jobs that a pass has found due. Between such times the next run of a job
is an interval away (`Covers`), in its file and in what the pass has loaded of it.
-/

namespace Companion.Bridge.CentralCadence

open Companion.Memory (Instant Text)
open Companion.Runs

/-! ## Cadences -/

/-- `CadenceState.next_at`, where none is due now. -/
abbrev CadenceState := Option Instant

/-- What is read from each cadence file. -/
abbrev Files := Text → CadenceState

/-- `advance` -/
def advance (now : Instant) (interval : ℤ) : CadenceState := some (now + interval)

/-- `is_due` -/
def isDue (state : CadenceState) (now : Instant) : Bool := state.all (· ≤ now)

/-- `save_cadence` -/
def saveCadence (files : Files) (file : Text) (state : CadenceState) : Files :=
  Function.update files file state

/-- `load_or_init_cadence`, with the files that it leaves. -/
def loadOrInitCadence (files : Files) (file : Text) (now : Instant) (interval : ℤ) :
    CadenceState × Bool × Files :=
  match files file with
  | some nextAt => (some nextAt, false, files)
  | none => (advance now interval, true, saveCadence files file (advance now interval))

/-! ## Jobs -/

inductive JobOutcome
  | completed
  | skipped
  | paused
  deriving DecidableEq

/-- A row of the job table. An interval job has a cadence file and an interval, in microseconds, and
another job the probe `has_work`. -/
structure GatedJob where
  name : Text
  cadence : Option (Text × ℤ)
  deriving DecidableEq

/-- `GATED_JOB_ORDER` -/
def gatedJobOrder : List Text :=
  ["pass2".toList, "session_snapshot_prune".toList, "emotion_backfill".toList,
    "research_recovery".toList, "embedding_backfill".toList, "cosine_floor_bootstrap".toList,
    "rerank_floor_bootstrap".toList, "rerank_width_remeasure".toList, "rerank_ram_figure".toList,
    "cost_series_flush".toList, "recall_diagnostics_flush".toList, "extraction_backfill".toList,
    "maintenance".toList, "interest_sweep".toList, "self_model_articulation".toList,
    "compaction".toList, "clustering".toList, "deploy_recalibration".toList,
    "daily_calibration".toList, "weekly_selftune".toList, "finalize".toList,
    "initiate_review".toList]

/-- The place of a job in the order. -/
def rank (name : Text) : ℕ := gatedJobOrder.idxOf name

/-- `order_jobs`, or none where it raises. -/
def orderJobs (jobs : List GatedJob) : Option (List GatedJob) :=
  if ∀ job ∈ jobs, job.name ∈ gatedJobOrder then
    some (jobs.insertionSort fun a b => rank a.name ≤ rank b.name)
  else none

/-- What a run of a job comes to. -/
inductive Result
  | returned (outcome : Option JobOutcome)
  /-- It raises out of the `ThrottleDeferred` family. -/
  | refused
  /-- It raises anything else. -/
  | raised
  deriving DecidableEq

/-- The outcome, or none for a refusal. -/
def Result.outcome : Result → Option JobOutcome
  | .returned outcome => some (outcome.getD .completed)
  | .refused => none
  | .raised => some .completed

/-! ## Passes -/

/-- `JobDecision.action` -/
inductive Action
  | initCadence
  | skipStopping
  | skipDeferred
  | skipNoLull
  | skipNotDue
  | skipSlot
  | run
  | outcome (outcome : JobOutcome)
  deriving DecidableEq

/-- What a pass decides, and the answers of the idle probe. -/
inductive Entry
  | idle (answer : Bool)
  | decision (job : Text) (action : Action)
  deriving DecidableEq

/-- Where a pass is: before the loads of these jobs, before these jobs, or in its work for one. -/
inductive Point
  | load (jobs : List GatedJob)
  | next (jobs : List GatedJob)
  | check (job : GatedJob) (rest : List GatedJob)
  /-- The job was found due at this time. -/
  | slot (job : GatedJob) (checked : Instant) (rest : List GatedJob)
  | running (job : GatedJob) (checked : Instant) (rest : List GatedJob)
  deriving DecidableEq

structure Pass where
  ordered : List GatedJob
  point : Point
  initialised : List Text
  states : Dict Text CadenceState

/-- The due check of a job, whose probe gives `work`. -/
def Pass.due (p : Pass) (job : GatedJob) (now : Instant) (work : Bool) : Bool :=
  match job.cadence with
  | some _ => (p.states.get? job.name).any (isDue · now)
  | none => work

structure State where
  files : Files
  /-- The last reading of the clock. -/
  clock : Instant
  pass : Option Pass
  /-- When each job last completed. -/
  completedAt : Text → Option Instant
  /-- When the file of each job was last initialised. -/
  initialisedAt : Text → Option Instant
  /-- The jobs that were found due, and have neither completed nor been initialised since. -/
  found : Text → Bool
  /-- The record of the pass, or of the last one. -/
  record : List Entry

namespace State

/-- The pass moves to a point. -/
def move (s : State) (p : Pass) (point : Point) (entries : List Entry) : State :=
  { s with pass := some { p with point }, record := s.record ++ entries }

/-- The pass returns. -/
def leave (s : State) (entries : List Entry) : State :=
  { s with pass := none, record := s.record ++ entries }

/-- A pass begins, where none is under way. -/
def start (jobs : List GatedJob) (s : State) : Option State :=
  match s.pass with
  | none => (orderJobs jobs).map fun ordered =>
    { s with pass := some ⟨ordered, .load ordered, [], ∅⟩, record := [] }
  | some _ => none

/-- The load of the cadence of the next job, if it has one. -/
def load (s : State) (p : Pass) (jobs : List GatedJob) (now : Instant) : State :=
  match jobs with
  | [] => s.move p (.next p.ordered) []
  | job :: rest =>
    match job.cadence with
    | none => s.move p (.load rest) []
    | some (file, interval) =>
      match loadOrInitCadence s.files file now interval with
      | (state, false, _) =>
        { s with clock := now }.move { p with states := p.states.set job.name state } (.load rest) []
      | (state, true, files) =>
        { s with
          files
          clock := now
          initialisedAt := Function.update s.initialisedAt job.name (some now)
          found := Function.update s.found job.name false }.move
          { p with
            initialised := job.name :: p.initialised
            states := p.states.set job.name state }
          (.load rest) [.decision job.name .initCadence]

/-- The questions before a job: the stop, the deferral of the job, and the idle probe. -/
def ask (s : State) (p : Pass) (jobs : List GatedJob) (stopping deferred idle : Bool) :
    State :=
  match jobs with
  | [] => s.leave []
  | job :: rest =>
    if stopping then s.leave [.decision job.name .skipStopping]
    else if deferred then s.move p (.next rest) [.decision job.name .skipDeferred]
    else if idle = false then s.leave [.idle false, .decision job.name .skipNoLull]
    else if job.name ∈ p.initialised then
      s.move p (.next rest) [.idle true, .decision job.name .skipNotDue]
    else s.move p (.check job rest) [.idle true]

/-- The due check. -/
def check (s : State) (p : Pass) (job : GatedJob) (rest : List GatedJob) (now : Instant)
    (work : Bool) : State :=
  if p.due job now work then
    { s with clock := now, found := Function.update s.found job.name true }.move p
      (.slot job now rest) []
  else { s with clock := now }.move p (.next rest) [.decision job.name .skipNotDue]

/-- A job has completed: the cadence of an interval job advances. -/
def complete (s : State) (job : GatedJob) (now : Instant) : State :=
  { s with
    files := match job.cadence with
      | some (file, interval) => saveCadence s.files file (advance now interval)
      | none => s.files
    clock := now
    completedAt := Function.update s.completedAt job.name (some now)
    found := Function.update s.found job.name false }

/-- A job is over. -/
def finish (s : State) (p : Pass) (job : GatedJob) (rest : List GatedJob) (now : Instant)
    (result : Result) (stopping : Bool) : State :=
  match result.outcome with
  | none =>
    if stopping then s.leave [.decision job.name (.outcome .paused)]
    else s.move p (.next rest) [.decision job.name .skipDeferred]
  | some .completed =>
    (s.complete job now).move p (.next rest) [.decision job.name (.outcome .completed)]
  | some .skipped => s.move p (.next rest) [.decision job.name (.outcome .skipped)]
  | some .paused => s.leave [.decision job.name (.outcome .paused)]

end State

/-- A step of a pass, or what happens to it. -/
inductive Act
  | start
  | load (now : Instant)
  | ask (stopping deferred idle : Bool)
  | check (now : Instant) (work : Bool)
  | slot (available : Bool)
  | finish (now : Instant) (result : Result) (stopping : Bool)
  /-- A file goes missing, or is damaged. -/
  | lose (file : Text)
  /-- The process stops. -/
  | stop

/-- A step of a pass. -/
def State.advancePass (s : State) (p : Pass) : Act → Option State
  | .load now =>
    match p.point with
    | .load jobs => if s.clock ≤ now then some (s.load p jobs now) else none
    | _ => none
  | .ask stopping deferred idle =>
    match p.point with
    | .next jobs => some (s.ask p jobs stopping deferred idle)
    | _ => none
  | .check now work =>
    match p.point with
    | .check job rest => if s.clock ≤ now then some (s.check p job rest now work) else none
    | _ => none
  | .slot available =>
    match p.point with
    | .slot job checked rest =>
      if available then some (s.move p (.running job checked rest) [.decision job.name .run])
      else some (s.move p (.next rest) [.decision job.name .skipSlot])
    | _ => none
  | .finish now result stopping =>
    match p.point with
    | .running job _ rest =>
      if s.clock ≤ now then some (s.finish p job rest now result stopping) else none
    | _ => none
  | _ => none

/-- The step function, over a job table. -/
def State.step (jobs : List GatedJob) (s : State) : Act → Option State
  | .start => s.start jobs
  | .lose file => some { s with files := Function.update s.files file none }
  | .stop => some { s with pass := none }
  | a => s.pass.bind fun p => s.advancePass p a

/-- Nothing is known of the files before the first process. -/
structure State.Initial (s : State) : Prop where
  pass : s.pass = none
  completedAt : ∀ name, s.completedAt name = none
  initialisedAt : ∀ name, s.initialisedAt name = none
  found : ∀ name, s.found name = false
  record : s.record = []

def machine (jobs : List GatedJob) : Machine State Act where
  init := State.Initial
  step := State.step jobs

/-! ## What a pass has before it -/

/-- The jobs that the pass has not done with. -/
def Pass.todo (p : Pass) : List GatedJob :=
  match p.point with
  | .load _ => p.ordered
  | .next jobs => jobs
  | .check job rest | .slot job _ rest | .running job _ rest => job :: rest

/-- The jobs that the pass has not started. -/
def Pass.unstarted (p : Pass) : List GatedJob :=
  match p.point with
  | .running _ _ rest => rest
  | _ => p.todo

/-- The names of the jobs that a pass has started. -/
def startedJobs (record : List Entry) : List Text :=
  record.filterMap fun e =>
    match e with
    | .decision job .run => some job
    | _ => none

/-- No job starts after a negative answer of the idle probe. -/
def Quiet (record : List Entry) : Prop :=
  ∀ u v, record = u ++ .idle false :: v → startedJobs v = []

theorem quiet_of_not_mem {record : List Entry} (h : .idle false ∉ record) : Quiet record := by
  rintro u v rfl
  exact absurd (List.mem_append_right u List.mem_cons_self) h

theorem startedJobs_append (l l' : List Entry) :
    startedJobs (l ++ l') = startedJobs l ++ startedJobs l' := List.filterMap_append

/-- A negative answer, with nothing but a skip after it. -/
theorem Quiet.answer {record : List Entry} (h : .idle false ∉ record) (name : Text) :
    Quiet (record ++ [.idle false, .decision name .skipNoLull]) := by
  intro u v heq
  rcases List.append_eq_append_iff.mp heq with ⟨w, rfl, hw⟩ | ⟨w, rfl, hw⟩
  · -- The answer is the first of the new entries.
    cases w with
    | nil =>
      cases hw
      rfl
    | cons e w =>
      injection hw with _ hw
      rcases w with _ | ⟨e', w⟩
      · cases hw
      · injection hw with _ hw
        exact absurd hw (by simp)
  · cases w with
    | nil =>
      cases hw
      rfl
    | cons e w =>
      cases hw
      exact absurd (List.mem_append_right u List.mem_cons_self) h

/-! ## The invariant -/

/-- The next run at `t` is an interval after what it rests on, and due where the job was found due.
-/
structure Covers (s : State) (name : Text) (interval : ℤ) (t : Instant) : Prop where
  completed : ∀ u, s.completedAt name = some u → u + interval ≤ t
  initialised : ∀ u, s.initialisedAt name = some u → u + interval ≤ t
  found : s.found name = true → t ≤ s.clock

/-- The files, and the times on record. -/
structure Filed (jobs : List GatedJob) (s : State) : Prop where
  completed : ∀ name u, s.completedAt name = some u → u ≤ s.clock
  initialised : ∀ name u, s.initialisedAt name = some u → u ≤ s.clock
  covers : ∀ job ∈ jobs, ∀ file interval, job.cadence = some (file, interval) →
    ∀ t, s.files file = some t → Covers s job.name interval t

/-- What a pass has loaded for the jobs before it. A file still holds it, if it is not lost. -/
structure Loaded (s : State) (p : Pass) : Prop where
  covers : ∀ job ∈ p.todo, ∀ file interval, job.cadence = some (file, interval) →
    ∀ state, p.states.get? job.name = some state →
      ∃ t, state = some t ∧ Covers s job.name interval t ∧
        (s.files file = some t ∨ s.files file = none)
  checked : ∀ job checked rest, p.point = .slot job checked rest ∨ p.point = .running job checked rest →
    checked ≤ s.clock ∧ s.found job.name = true ∧
      ∀ file interval, job.cadence = some (file, interval) →
        ∃ t ≤ checked, Covers s job.name interval t
  all : ∀ job ∈ p.todo, job.cadence ≠ none → (∀ rest, p.point = .load rest → job ∉ rest) →
    ∃ state, p.states.get? job.name = some state

/-- The pass goes through the jobs in order. -/
structure InOrder (jobs : List GatedJob) (s : State) (p : Pass) : Prop where
  ordered : orderJobs jobs = some p.ordered
  todo : p.todo <:+ p.ordered
  loads : ∀ rest, p.point = .load rest → rest <:+ p.ordered
  lull : .idle false ∉ s.record
  started : (startedJobs s.record ++ p.unstarted.map GatedJob.name).Pairwise (rank · < rank ·)

structure Inv (jobs : List GatedJob) (s : State) : Prop where
  filed : Filed jobs s
  loaded : ∀ p, s.pass = some p → Loaded s p
  inOrder : ∀ p, s.pass = some p → InOrder jobs s p
  quiet : Quiet s.record
  started : (startedJobs s.record).Pairwise (rank · < rank ·)

/-- Each job has a name of its own, and each interval job a file of its own, as in the table of
`_build_gated_jobs`. -/
structure Table (jobs : List GatedJob) : Prop where
  names : (jobs.map GatedJob.name).Nodup
  files : (jobs.filterMap fun job => job.cadence.map Prod.fst).Nodup

/-- The files of two jobs are different. -/
def Apart (a b : GatedJob) : Prop :=
  ∀ c, a.cadence.map Prod.fst = some c → ∀ d, b.cadence.map Prod.fst = some d → c ≠ d

instance : Std.Symm Apart := ⟨fun _ _ hab c hc d hd hcd => hab d hd c hc hcd.symm⟩

variable {jobs : List GatedJob} {s s' : State} {p p' : Pass} {job : GatedJob}

theorem Table.eq_of_name (h : Table jobs) {job' : GatedJob} (hjob : job ∈ jobs) (hjob' : job' ∈ jobs)
    (hname : job.name = job'.name) : job = job' :=
  List.inj_on_of_nodup_map h.names hjob hjob' hname

theorem Table.eq_of_file (h : Table jobs) {job' : GatedJob} (hjob : job ∈ jobs)
    (hjob' : job' ∈ jobs) {file : Text} {interval interval' : ℤ}
    (hcadence : job.cadence = some (file, interval))
    (hcadence' : job'.cadence = some (file, interval')) : job = job' := by
  by_contra hne
  have happart : jobs.Pairwise Apart := List.pairwise_filterMap.mp h.files
  exact happart.forall hjob hjob' hne file (by rw [hcadence]; rfl) file (by rw [hcadence']; rfl) rfl

/-- The jobs in order are those of the table. -/
theorem mem_of_orderJobs {ordered : List GatedJob} (h : orderJobs jobs = some ordered) :
    ordered.Perm jobs := by
  unfold orderJobs at h
  split_ifs at h
  cases h
  exact List.perm_insertionSort _ _

theorem pairwise_rank (htable : Table jobs) {ordered : List GatedJob}
    (h : orderJobs jobs = some ordered) :
    (ordered.map GatedJob.name).Pairwise (rank · < rank ·) := by
  have hperm := mem_of_orderJobs h
  have hnodup : (ordered.map GatedJob.name).Nodup := (hperm.map _).nodup_iff.mpr htable.names
  unfold orderJobs at h
  split_ifs at h with hknown
  have hsorted : ordered.Pairwise fun a b => rank a.name ≤ rank b.name := by
    rw [← Option.some.inj h]
    exact List.pairwise_insertionSort _ _
  rw [List.pairwise_map]
  refine (hsorted.and (List.pairwise_map.mp hnodup)).imp_of_mem fun {a b} ha hb hab => ?_
  -- Two names with one place are the same.
  refine lt_of_le_of_ne hab.1 fun heq => hab.2 ?_
  exact (List.idxOf_inj (hknown a (hperm.mem_iff.mp ha))).mp heq

/-! ## What a step does to the cadences -/

/-- The state keeps all times, and no file has another cadence than before. -/
structure Keeps (s s' : State) : Prop where
  completedAt : s'.completedAt = s.completedAt
  initialisedAt : s'.initialisedAt = s.initialisedAt
  found : s'.found = s.found
  clock : s.clock ≤ s'.clock
  files : ∀ file, s'.files file = s.files file ∨ s'.files file = none

theorem Covers.keep {name : Text} {interval : ℤ} {t : Instant} (h : Covers s name interval t)
    (hcompleted : s'.completedAt name = s.completedAt name)
    (hinitialised : s'.initialisedAt name = s.initialisedAt name)
    (hfound : s'.found name = s.found name) (hclock : s.clock ≤ s'.clock) :
    Covers s' name interval t where
  completed u hu := h.completed u (hcompleted ▸ hu)
  initialised u hu := h.initialised u (hinitialised ▸ hu)
  found hf := (h.found (hfound ▸ hf)).trans hclock

theorem Keeps.covers (h : Keeps s s') {name : Text} {interval : ℤ} {t : Instant}
    (hcovers : Covers s name interval t) : Covers s' name interval t :=
  hcovers.keep (congrFun h.completedAt name) (congrFun h.initialisedAt name)
    (congrFun h.found name) h.clock

theorem Filed.keep (hfiled : Filed jobs s) (h : Keeps s s') : Filed jobs s' where
  completed name u hu := (hfiled.completed name u (h.completedAt ▸ hu)).trans h.clock
  initialised name u hu := (hfiled.initialised name u (h.initialisedAt ▸ hu)).trans h.clock
  covers job hjob file interval hcadence t ht := by
    rcases h.files file with hsame | hnone
    · exact h.covers (hfiled.covers job hjob file interval hcadence t (hsame ▸ ht))
    · rw [hnone] at ht
      cases ht

/-- What is loaded stays loaded for the jobs that are left. -/
theorem Loaded.keep (hloaded : Loaded s p) (h : Keeps s s') (hstates : p'.states = p.states)
    (htodo : ∀ job ∈ p'.todo, job ∈ p.todo)
    (hchecked : ∀ job checked rest,
      p'.point = .slot job checked rest ∨ p'.point = .running job checked rest →
      ∃ rest', p.point = .slot job checked rest' ∨ p.point = .running job checked rest')
    (hall : ∀ job ∈ p'.todo, job.cadence ≠ none → (∀ rest, p'.point = .load rest → job ∉ rest) →
      ∀ rest, p.point = .load rest → job ∉ rest) : Loaded s' p' where
  covers job hjob file interval hcadence state hstate := by
    rw [hstates] at hstate
    obtain ⟨t, rfl, hcovers, hfile⟩ :=
      hloaded.covers job (htodo job hjob) file interval hcadence state hstate
    refine ⟨t, rfl, h.covers hcovers, ?_⟩
    rcases h.files file with hsame | hnone
    · rwa [hsame]
    · exact .inr hnone
  checked job checked rest hpoint := by
    obtain ⟨rest', hpoint⟩ := hchecked job checked rest hpoint
    obtain ⟨hle, hfound, hjob⟩ := hloaded.checked job checked rest' hpoint
    refine ⟨hle.trans h.clock, by rw [h.found, hfound], fun file interval hcadence => ?_⟩
    obtain ⟨t, ht, hcovers⟩ := hjob file interval hcadence
    exact ⟨t, ht, h.covers hcovers⟩
  all job hjob hcadence hloads := by
    rw [hstates]
    exact hloaded.all job (htodo job hjob) hcadence (hall job hjob hcadence hloads)

/-- The cadence of a job starts anew at `now`, and the others keep theirs. -/
structure Renews (s s' : State) (job : GatedJob) (now : Instant) : Prop where
  le : s.clock ≤ now
  clock : s'.clock = now
  files : s'.files = match job.cadence with
    | some (file, interval) => saveCadence s.files file (advance now interval)
    | none => s.files
  others : ∀ name, name ≠ job.name → s'.completedAt name = s.completedAt name ∧
    s'.initialisedAt name = s.initialisedAt name ∧ s'.found name = s.found name
  completed : ∀ u, s'.completedAt job.name = some u → u ≤ now
  initialised : ∀ u, s'.initialisedAt job.name = some u → u ≤ now
  found : s'.found job.name = false

namespace Renews

variable {now : Instant}

theorem covers_other (h : Renews s s' job now) {name : Text} (hname : name ≠ job.name)
    {interval : ℤ} {t : Instant} (hcovers : Covers s name interval t) : Covers s' name interval t := by
  obtain ⟨hcompleted, hinitialised, hfound⟩ := h.others name hname
  exact hcovers.keep hcompleted hinitialised hfound (h.le.trans_eq h.clock.symm)

theorem covers_self (h : Renews s s' job now) (interval : ℤ) :
    Covers s' job.name interval (now + interval) where
  completed u hu := add_le_add_left (h.completed u hu) interval
  initialised u hu := add_le_add_left (h.initialised u hu) interval
  found hf := by
    rw [h.found] at hf
    cases hf

theorem file_self (h : Renews s s' job now) {file : Text} {interval : ℤ}
    (hcadence : job.cadence = some (file, interval)) : s'.files file = some (now + interval) := by
  rw [h.files, hcadence]
  exact Function.update_self ..

/-- The file of another job is as it was. -/
theorem file_other (h : Renews s s' job now) (htable : Table jobs) (hjob : job ∈ jobs)
    {job' : GatedJob} (hjob' : job' ∈ jobs) (hne : job'.name ≠ job.name) {file : Text}
    {interval : ℤ} (hcadence : job'.cadence = some (file, interval)) :
    s'.files file = s.files file := by
  rw [h.files]
  cases hown : job.cadence with
  | none => rfl
  | some cadence =>
    obtain ⟨file', interval'⟩ := cadence
    refine Function.update_of_ne ?_ ..
    rintro rfl
    exact hne (congrArg GatedJob.name (htable.eq_of_file hjob' hjob hcadence hown))

end Renews

theorem Filed.renew {now : Instant} (hfiled : Filed jobs s) (h : Renews s s' job now)
    (htable : Table jobs) (hjob : job ∈ jobs) : Filed jobs s' where
  completed name u hu := by
    rw [h.clock]
    by_cases hname : name = job.name
    · exact h.completed u (hname ▸ hu)
    · exact (hfiled.completed name u ((h.others name hname).1 ▸ hu)).trans h.le
  initialised name u hu := by
    rw [h.clock]
    by_cases hname : name = job.name
    · exact h.initialised u (hname ▸ hu)
    · exact (hfiled.initialised name u ((h.others name hname).2.1 ▸ hu)).trans h.le
  covers job' hjob' file interval hcadence t ht := by
    by_cases hname : job'.name = job.name
    · obtain rfl := htable.eq_of_name hjob' hjob hname
      rw [h.file_self hcadence] at ht
      rw [← Option.some.inj ht]
      exact h.covers_self interval
    · rw [h.file_other htable hjob hjob' hname hcadence] at ht
      exact h.covers_other hname (hfiled.covers job' hjob' file interval hcadence t ht)

/-! ## What a step does to the order -/

/-- The pass goes on, past a job or to the start of it. -/
theorem Inv.moved (h : Inv jobs s) (hp : s.pass = some p) {entries : List Entry}
    (hpass : s'.pass = some p') (hrecord : s'.record = s.record ++ entries)
    (hidle : .idle false ∉ entries) (hordered : p'.ordered = p.ordered) (htodo : p'.todo <:+ p.todo)
    (hloads : ∀ rest, p'.point = .load rest → rest <:+ p.ordered)
    (hstarted : (startedJobs entries ++ p'.unstarted.map GatedJob.name).Sublist
      (p.unstarted.map GatedJob.name))
    (hfiled : Filed jobs s') (hloaded : Loaded s' p') : Inv jobs s' := by
  have hord := h.inOrder p hp
  have hno : .idle false ∉ s'.record := by
    rw [hrecord, List.mem_append]
    exact fun hmem => hmem.elim hord.lull hidle
  have hstarted' :
      (startedJobs s'.record ++ p'.unstarted.map GatedJob.name).Pairwise (rank · < rank ·) := by
    rw [hrecord, startedJobs_append, List.append_assoc]
    exact hord.started.sublist (hstarted.append_left _)
  have hpoint : ∀ q, s'.pass = some q → q = p' := fun q hq =>
    Option.some.inj (hq.symm.trans hpass)
  refine ⟨hfiled, fun q hq => ?_, fun q hq => ?_, quiet_of_not_mem hno, ?_⟩
  · rw [hpoint q hq]
    exact hloaded
  · rw [hpoint q hq]
    exact ⟨hordered ▸ hord.ordered, hordered ▸ htodo.trans hord.todo, hordered ▸ hloads, hno, hstarted'⟩
  · exact (List.pairwise_append.mp hstarted').1

/-- The pass is over. -/
theorem Inv.left (h : Inv jobs s) {entries : List Entry} (hpass : s'.pass = none)
    (hrecord : s'.record = s.record ++ entries) (hquiet : Quiet (s.record ++ entries))
    (hstarted : startedJobs entries = []) (hfiled : Filed jobs s') : Inv jobs s' where
  filed := hfiled
  loaded q hq := by
    rw [hpass] at hq
    cases hq
  inOrder q hq := by
    rw [hpass] at hq
    cases hq
  quiet := hrecord ▸ hquiet
  started := by
    rw [hrecord, startedJobs_append, hstarted, List.append_nil]
    exact h.started

theorem keeps_move (s : State) (p : Pass) (point : Point) (entries : List Entry) :
    Keeps s (s.move p point entries) :=
  ⟨rfl, rfl, rfl, le_rfl, fun _ => .inl rfl⟩

theorem keeps_leave (s : State) (entries : List Entry) : Keeps s (s.leave entries) :=
  ⟨rfl, rfl, rfl, le_rfl, fun _ => .inl rfl⟩

/-- The pass moves on to the jobs after one. -/
theorem Inv.next (h : Inv jobs s) (hp : s.pass = some p) {rest : List GatedJob}
    {entries : List Entry} (hkeep : Keeps s s') (hrecord : s'.record = s.record)
    (hidle : .idle false ∉ entries) (hrun : startedJobs entries = []) (htodo : rest <:+ p.todo)
    (hunstarted : rest <:+ p.unstarted) (hloads : ∀ loads, p.point = .load loads → loads = []) :
    Inv jobs (s'.move p (.next rest) entries) := by
  have hmove : Keeps s (s'.move p (.next rest) entries) :=
    ⟨hkeep.1, hkeep.2, hkeep.3, hkeep.4, hkeep.5⟩
  refine h.moved hp rfl (congrArg (· ++ entries) hrecord) hidle rfl htodo (by rintro rest ⟨⟩) ?_
    (h.filed.keep hmove) ?_
  · rw [hrun, List.nil_append]
    exact (hunstarted.map _).sublist
  · refine (h.loaded p hp).keep hmove rfl (fun job hjob => htodo.subset hjob) ?_ ?_
    · rintro job checked rest (hpoint | hpoint) <;> cases hpoint
    · intro job _ _ _ loads hpoint
      rw [hloads loads hpoint]
      exact List.not_mem_nil

/-- A pass that ends without another question. -/
theorem Inv.leave (h : Inv jobs s) (hp : s.pass = some p) {entries : List Entry}
    (hidle : .idle false ∉ entries) (hrun : startedJobs entries = []) :
    Inv jobs (s.leave entries) := by
  refine h.left rfl rfl (quiet_of_not_mem ?_) hrun (h.filed.keep (keeps_leave s entries))
  rw [List.mem_append]
  exact fun hmem => hmem.elim (h.inOrder p hp).lull hidle

/-! ## The steps -/

theorem Inv.mem_jobs (h : Inv jobs s) (hp : s.pass = some p) {job : GatedJob}
    (hjob : job ∈ p.todo) : job ∈ jobs :=
  have hord := h.inOrder p hp
  (mem_of_orderJobs hord.ordered).mem_iff.mp (hord.todo.subset hjob)

theorem Inv.start (h : Inv jobs s) (htable : Table jobs) (hstart : s.start jobs = some s') :
    Inv jobs s' := by
  unfold State.start at hstart
  split at hstart
  · obtain ⟨ordered, hordered, rfl⟩ := Option.map_eq_some_iff.mp hstart
    have hkeep : Keeps s { s with pass := some ⟨ordered, .load ordered, [], ∅⟩, record := [] } :=
      ⟨rfl, rfl, rfl, le_rfl, fun _ => .inl rfl⟩
    refine ⟨h.filed.keep hkeep, ?_, ?_, quiet_of_not_mem List.not_mem_nil, .nil⟩
    · rintro _ ⟨⟩
      refine ⟨fun job _ file interval _ state hstate => ?_, ?_, ?_⟩
      · rw [Dict.get?_empty] at hstate
        cases hstate
      · rintro job checked rest (hpoint | hpoint) <;> cases hpoint
      · exact fun job hjob _ hloads => absurd hjob (hloads ordered rfl)
    · rintro _ ⟨⟩
      refine ⟨hordered, List.suffix_refl _, ?_, List.not_mem_nil, pairwise_rank htable hordered⟩
      rintro _ ⟨⟩
      exact List.suffix_refl _
  · cases hstart

/-- The loads go on, with a state for the job that is loaded. -/
theorem Inv.loading (h : Inv jobs s) (htable : Table jobs) (hp : s.pass = some p)
    {rest : List GatedJob} (hpoint : p.point = .load (job :: rest)) {file : Text} {interval : ℤ}
    (hcadence : job.cadence = some (file, interval)) {t : Instant} {entries : List Entry}
    (hpass : s'.pass = some p') (hrecord : s'.record = s.record ++ entries)
    (hidle : .idle false ∉ entries) (hrun : startedJobs entries = [])
    (hordered : p'.ordered = p.ordered) (hpoint' : p'.point = .load rest)
    (hstates : p'.states = p.states.set job.name (some t)) (hfiled : Filed jobs s')
    (hcovers : Covers s' job.name interval t) (hfile : s'.files file = some t)
    (hothers : ∀ job' ∈ jobs, job'.name ≠ job.name → ∀ file interval,
      job'.cadence = some (file, interval) →
      s'.files file = s.files file ∧
        ∀ t, Covers s job'.name interval t → Covers s' job'.name interval t) : Inv jobs s' := by
  have htodo : p.todo = p.ordered := by rw [Pass.todo, hpoint]
  have htodo' : p'.todo = p.ordered := by rw [Pass.todo, hpoint', hordered]
  have hunstarted : p.unstarted = p.ordered := by rw [Pass.unstarted, hpoint, htodo]
  have hunstarted' : p'.unstarted = p.ordered := by rw [Pass.unstarted, hpoint', htodo']
  have hloads := (h.inOrder p hp).loads _ hpoint
  have hjob : job ∈ jobs := h.mem_jobs hp (htodo ▸ hloads.subset List.mem_cons_self)
  refine h.moved hp hpass hrecord hidle hordered ?_ ?_ ?_ hfiled ⟨?_, ?_, ?_⟩
  · exact htodo ▸ htodo' ▸ List.suffix_refl _
  · rintro rest' hrest'
    cases hpoint'.symm.trans hrest'
    exact (List.suffix_cons job rest).trans hloads
  · exact hrun ▸ hunstarted ▸ hunstarted' ▸ List.Sublist.refl _
  · intro job' hjob' file' interval' hcadence' state hstate
    have hmem : job' ∈ p.todo := by rwa [htodo, ← htodo']
    rw [hstates, Dict.get?_set] at hstate
    split_ifs at hstate with hname
    · obtain rfl := htable.eq_of_name (h.mem_jobs hp hmem) hjob hname
      cases hcadence.symm.trans hcadence'
      exact ⟨t, (Option.some.inj hstate).symm, hcovers, .inl hfile⟩
    · obtain ⟨u, rfl, hcov, hor⟩ :=
        (h.loaded p hp).covers job' hmem file' interval' hcadence' state hstate
      obtain ⟨hsame, hkeep⟩ := hothers job' (h.mem_jobs hp hmem) hname file' interval' hcadence'
      exact ⟨u, rfl, hkeep u hcov, hsame ▸ hor⟩
  · rintro job' checked rest' (hslot | hrunning)
    · cases hpoint'.symm.trans hslot
    · cases hpoint'.symm.trans hrunning
  · intro job' hjob' hcadence' hrest
    rw [hstates, Dict.get?_set]
    split_ifs with hname
    · exact ⟨some t, rfl⟩
    · refine (h.loaded p hp).all job' (by rwa [htodo, ← htodo']) hcadence' fun loads hpoint'' => ?_
      cases hpoint.symm.trans hpoint''
      have hne : job' ≠ job := fun heq => hname (congrArg GatedJob.name heq)
      exact fun hmem => hrest rest hpoint' (List.mem_of_ne_of_mem hne hmem)

theorem Inv.load (h : Inv jobs s) (htable : Table jobs) (hp : s.pass = some p)
    {loads : List GatedJob} (hpoint : p.point = .load loads) {now : Instant} (hnow : s.clock ≤ now) :
    Inv jobs (s.load p loads now) := by
  have htodo : p.todo = p.ordered := by rw [Pass.todo, hpoint]
  have hunstarted : p.unstarted = p.ordered := by rw [Pass.unstarted, hpoint, htodo]
  have hloads := (h.inOrder p hp).loads _ hpoint
  unfold State.load
  cases loads with
  | nil =>
    refine h.next hp ⟨rfl, rfl, rfl, le_rfl, fun _ => .inl rfl⟩ rfl List.not_mem_nil rfl ?_ ?_ ?_
    · exact htodo ▸ List.suffix_refl _
    · exact hunstarted ▸ List.suffix_refl _
    · intro loads hpoint'
      cases hpoint.symm.trans hpoint'
      rfl
  | cons job rest =>
    have hjob : job ∈ jobs := h.mem_jobs hp (htodo ▸ hloads.subset List.mem_cons_self)
    cases hcadence : job.cadence with
    | none =>
      -- A job without a cadence is passed over.
      simp only [hcadence]
      have hkeep := keeps_move s p (.load rest) []
      refine h.moved hp rfl rfl List.not_mem_nil rfl ?_ ?_ ?_ (h.filed.keep hkeep) ?_
      · exact htodo ▸ List.suffix_refl _
      · rintro _ ⟨⟩
        exact (List.suffix_cons job rest).trans hloads
      · exact hunstarted ▸ List.Sublist.refl _
      · refine (h.loaded p hp).keep hkeep rfl (fun job hjob => htodo ▸ hjob) ?_ ?_
        · rintro job checked rest (hpoint | hpoint) <;> cases hpoint
        · intro job' _ hcadence' hrest loads hpoint'
          cases hpoint.symm.trans hpoint'
          have hne : job' ≠ job := fun heq => hcadence' (heq ▸ hcadence)
          exact fun hmem => hrest rest rfl (List.mem_of_ne_of_mem hne hmem)
    | some cadence =>
      obtain ⟨file, interval⟩ := cadence
      cases hfile : s.files file with
      | some t =>
        simp only [hcadence, loadOrInitCadence, hfile]
        have hkeep : Keeps s ({ s with clock := now }.move
            { p with states := p.states.set job.name (some t) } (.load rest) []) :=
          ⟨rfl, rfl, rfl, hnow, fun _ => .inl rfl⟩
        exact h.loading htable hp hpoint hcadence rfl rfl List.not_mem_nil rfl rfl rfl rfl
          (h.filed.keep hkeep)
          (hkeep.covers (h.filed.covers job hjob file interval hcadence t hfile)) hfile
          fun _ _ _ _ _ _ => ⟨rfl, fun _ => hkeep.covers⟩
      | none =>
        simp only [hcadence, loadOrInitCadence, hfile]
        -- The file is written as of a run now.
        have hrenew : Renews s ({ s with
            files := saveCadence s.files file (advance now interval)
            clock := now
            initialisedAt := Function.update s.initialisedAt job.name (some now)
            found := Function.update s.found job.name false }.move
              { p with
                initialised := job.name :: p.initialised
                states := p.states.set job.name (advance now interval) }
              (.load rest) [.decision job.name .initCadence]) job now :=
          { le := hnow
            clock := rfl
            files := by rw [hcadence]; rfl
            others := fun name hname =>
              ⟨rfl, Function.update_of_ne hname .., Function.update_of_ne hname ..⟩
            completed := fun u hu => (h.filed.completed job.name u hu).trans hnow
            initialised := fun u hu =>
              (Option.some.inj (hu.symm.trans (Function.update_self ..))).le
            found := Function.update_self .. }
        exact h.loading htable hp hpoint hcadence rfl rfl (by simp) rfl rfl rfl rfl
          (h.filed.renew hrenew htable hjob) (hrenew.covers_self interval)
          (hrenew.file_self hcadence) fun job' hjob' hname _ _ hcadence' =>
            ⟨hrenew.file_other htable hjob hjob' hname hcadence', fun _ => hrenew.covers_other hname⟩

theorem Inv.ask (h : Inv jobs s) (hp : s.pass = some p) {before : List GatedJob}
    (hpoint : p.point = .next before) (stopping deferred idle : Bool) :
    Inv jobs (s.ask p before stopping deferred idle) := by
  have htodo : p.todo = before := by rw [Pass.todo, hpoint]
  have hunstarted : p.unstarted = before := by rw [Pass.unstarted, hpoint, htodo]
  have hkeep : Keeps s s := ⟨rfl, rfl, rfl, le_rfl, fun _ => .inl rfl⟩
  have hloads : ∀ loads, p.point ≠ .load loads := fun loads heq => by cases hpoint.symm.trans heq
  have hloads' : ∀ loads, p.point = .load loads → loads = [] := fun loads heq =>
    absurd heq (hloads loads)
  unfold State.ask
  cases before with
  | nil => exact h.leave hp List.not_mem_nil rfl
  | cons job rest =>
    have hrest : rest <:+ p.todo := htodo ▸ List.suffix_cons job rest
    have hrest' : rest <:+ p.unstarted := hunstarted ▸ List.suffix_cons job rest
    dsimp only
    split_ifs with hstop hdefer hidle hinit
    · exact h.leave hp (by simp) rfl
    · exact h.next hp hkeep rfl (by simp) rfl hrest hrest' hloads'
    · exact h.left rfl rfl (Quiet.answer (h.inOrder p hp).lull job.name) rfl
        (h.filed.keep (keeps_leave s _))
    · exact h.next hp hkeep rfl (by simp) rfl hrest hrest' hloads'
    · have hmove := keeps_move s p (.check job rest) [.idle true]
      refine h.moved hp rfl rfl (by simp) rfl ?_ ?_ ?_ (h.filed.keep hmove) ?_
      · exact htodo ▸ List.suffix_refl _
      · rintro _ ⟨⟩
      · exact hunstarted ▸ List.Sublist.refl _
      · refine (h.loaded p hp).keep hmove rfl (fun job hjob => htodo ▸ hjob) ?_
          fun _ _ _ _ loads heq => absurd heq (hloads loads)
        rintro job checked rest (hpoint | hpoint) <;> cases hpoint

theorem Inv.check (h : Inv jobs s) (htable : Table jobs) (hp : s.pass = some p)
    {rest : List GatedJob} (hpoint : p.point = .check job rest) {now : Instant}
    (hnow : s.clock ≤ now) (work : Bool) : Inv jobs (s.check p job rest now work) := by
  have htodo : p.todo = job :: rest := by rw [Pass.todo, hpoint]
  have hunstarted : p.unstarted = job :: rest := by rw [Pass.unstarted, hpoint, htodo]
  have hmem : job ∈ p.todo := htodo ▸ List.mem_cons_self
  have hjob : job ∈ jobs := h.mem_jobs hp hmem
  have hloads : ∀ loads, p.point ≠ .load loads := fun loads heq => by cases hpoint.symm.trans heq
  unfold State.check
  split_ifs with hdue
  · set s' : State := { s with
      clock := now, found := Function.update s.found job.name true }.move p (.slot job now rest) []
      with hs'
    -- The job is now on record as due, which its file and what is loaded of it are.
    have hself : ∀ interval t, t ≤ now → Covers s job.name interval t →
        Covers s' job.name interval t :=
      fun interval t ht hcovers => ⟨hcovers.completed, hcovers.initialised, fun _ => ht⟩
    have hother : ∀ name, name ≠ job.name → ∀ interval t, Covers s name interval t →
        Covers s' name interval t :=
      fun name hname interval t hcovers =>
        hcovers.keep rfl rfl (Function.update_of_ne hname ..) hnow
    have hloaded : ∀ file interval, job.cadence = some (file, interval) →
        ∃ t ≤ now, p.states.get? job.name = some (some t) ∧ Covers s job.name interval t ∧
          (s.files file = some t ∨ s.files file = none) := by
      intro file interval hcadence
      rw [Pass.due, hcadence] at hdue
      obtain ⟨state, hstate, hle⟩ := (Option.any_eq_true _ _).mp hdue
      obtain ⟨t, rfl, hcovers, hfile⟩ :=
        (h.loaded p hp).covers job hmem file interval hcadence state hstate
      exact ⟨t, of_decide_eq_true hle, hstate, hcovers, hfile⟩
    have hfiled : Filed jobs s' := by
      refine ⟨fun name u hu => (h.filed.completed name u hu).trans hnow,
        fun name u hu => (h.filed.initialised name u hu).trans hnow, ?_⟩
      intro job' hjob' file interval hcadence t ht
      by_cases hname : job'.name = job.name
      · obtain rfl := htable.eq_of_name hjob' hjob hname
        obtain ⟨u, hu, -, hcovers, hfile | hfile⟩ := hloaded file interval hcadence
        · obtain rfl : u = t := Option.some.inj (hfile.symm.trans ht)
          exact hself interval u hu hcovers
        · cases hfile.symm.trans ht
      · exact hother _ hname interval t (h.filed.covers job' hjob' file interval hcadence t ht)
    refine h.moved hp rfl rfl List.not_mem_nil rfl ?_ ?_ ?_ hfiled ⟨?_, ?_, ?_⟩
    · exact htodo ▸ List.suffix_refl _
    · rintro _ ⟨⟩
    · exact hunstarted ▸ List.Sublist.refl _
    · intro job' hjob' file interval hcadence state hstate
      obtain ⟨t, rfl, hcovers, hfile⟩ :=
        (h.loaded p hp).covers job' (htodo ▸ hjob') file interval hcadence state hstate
      refine ⟨t, rfl, ?_, hfile⟩
      by_cases hname : job'.name = job.name
      · obtain rfl := htable.eq_of_name (h.mem_jobs hp (htodo ▸ hjob')) hjob hname
        obtain ⟨u, hu, hget, -, -⟩ := hloaded file interval hcadence
        cases hget.symm.trans hstate
        exact hself interval _ hu hcovers
      · exact hother _ hname interval t hcovers
    · rintro job' checked rest' (hslot | hrunning)
      · cases hslot
        refine ⟨le_rfl, Function.update_self .., fun file interval hcadence => ?_⟩
        obtain ⟨t, ht, -, hcovers, -⟩ := hloaded file interval hcadence
        exact ⟨t, ht, hself interval t ht hcovers⟩
      · cases hrunning
    · exact fun job' hjob' hcadence _ =>
        (h.loaded p hp).all job' (htodo ▸ hjob') hcadence fun loads heq => absurd heq (hloads loads)
  · exact h.next hp ⟨rfl, rfl, rfl, hnow, fun _ => .inl rfl⟩ rfl (by simp) rfl
      (htodo ▸ List.suffix_cons job rest) (hunstarted ▸ List.suffix_cons job rest)
      fun loads heq => absurd heq (hloads loads)

theorem Inv.slot (h : Inv jobs s) (hp : s.pass = some p) {checked : Instant}
    {rest : List GatedJob} (hpoint : p.point = .slot job checked rest) :
    Inv jobs (s.move p (.running job checked rest) [.decision job.name .run]) := by
  have htodo : p.todo = job :: rest := by rw [Pass.todo, hpoint]
  have hunstarted : p.unstarted = job :: rest := by rw [Pass.unstarted, hpoint, htodo]
  have hmove := keeps_move s p (.running job checked rest) [.decision job.name .run]
  refine h.moved hp rfl rfl (by simp) rfl ?_ ?_ ?_ (h.filed.keep hmove) ?_
  · exact htodo ▸ List.suffix_refl _
  · rintro _ ⟨⟩
  · exact hunstarted ▸ List.Sublist.refl _
  · refine (h.loaded p hp).keep hmove rfl (fun job hjob => htodo ▸ hjob) ?_
      fun _ _ _ _ loads heq => by cases hpoint.symm.trans heq
    rintro job' checked' rest' (hslot | hrunning)
    · cases hslot
    · cases hrunning
      exact ⟨rest, .inl hpoint⟩

theorem renews_complete (h : Filed jobs s) {now : Instant} (hnow : s.clock ≤ now) :
    Renews s (s.complete job now) job now where
  le := hnow
  clock := rfl
  files := rfl
  others _ hname := ⟨Function.update_of_ne hname .., rfl, Function.update_of_ne hname ..⟩
  completed _ hu := (Option.some.inj (hu.symm.trans (Function.update_self ..))).le
  initialised u hu := (h.initialised job.name u hu).trans hnow
  found := Function.update_self ..

theorem Inv.finish (h : Inv jobs s) (htable : Table jobs) (hp : s.pass = some p)
    {checked : Instant} {rest : List GatedJob} (hpoint : p.point = .running job checked rest)
    {now : Instant} (hnow : s.clock ≤ now) (result : Result) (stopping : Bool) :
    Inv jobs (s.finish p job rest now result stopping) := by
  have htodo : p.todo = job :: rest := by rw [Pass.todo, hpoint]
  have hunstarted : p.unstarted = rest := by rw [Pass.unstarted, hpoint]
  have hrest : rest <:+ p.todo := htodo ▸ List.suffix_cons job rest
  have hrest' : rest <:+ p.unstarted := hunstarted ▸ List.suffix_refl _
  have hkeep : Keeps s s := ⟨rfl, rfl, rfl, le_rfl, fun _ => .inl rfl⟩
  have hloads : ∀ loads, p.point ≠ .load loads := fun loads heq => by cases hpoint.symm.trans heq
  have hloads' : ∀ loads, p.point = .load loads → loads = [] := fun loads heq =>
    absurd heq (hloads loads)
  unfold State.finish
  cases result.outcome with
  | none =>
    dsimp only
    split_ifs
    · exact h.leave hp (by simp) rfl
    · exact h.next hp hkeep rfl (by simp) rfl hrest hrest' hloads'
  | some outcome =>
    cases outcome with
    | completed =>
      have hjob : job ∈ jobs := h.mem_jobs hp (htodo ▸ List.mem_cons_self)
      have hrenew : Renews s (s.complete job now) job now := renews_complete h.filed hnow
      have hmove := keeps_move (s.complete job now) p (.next rest)
        [.decision job.name (.outcome .completed)]
      -- The jobs that are left have other names.
      have hother : ∀ job' ∈ rest, job'.name ≠ job.name := by
        have hnodup : ((job :: rest).map GatedJob.name).Nodup := by
          have hord := h.inOrder p hp
          have hnames : (p.ordered.map GatedJob.name).Nodup :=
            ((mem_of_orderJobs hord.ordered).map _).nodup_iff.mpr htable.names
          exact hnames.sublist ((htodo ▸ hord.todo).map _).sublist
        intro job' hjob' hname
        exact (List.nodup_cons.mp hnodup).1 (hname ▸ List.mem_map_of_mem hjob')
      refine h.moved hp rfl rfl (by simp) rfl hrest ?_ ?_
        ((h.filed.renew hrenew htable hjob).keep hmove) ⟨?_, ?_, ?_⟩
      · rintro _ ⟨⟩
      · exact (hrest'.map _).sublist
      · intro job' hjob' file interval hcadence state hstate
        obtain ⟨t, rfl, hcovers, hfile⟩ :=
          (h.loaded p hp).covers job' (hrest.subset hjob') file interval hcadence state hstate
        refine ⟨t, rfl, hmove.covers (hrenew.covers_other (hother job' hjob') hcovers), ?_⟩
        have hsame := hrenew.file_other htable hjob (h.mem_jobs hp (hrest.subset hjob'))
          (hother job' hjob') hcadence
        exact hsame ▸ hfile
      · rintro job' checked' rest' (hslot | hrunning)
        · cases hslot
        · cases hrunning
      · exact fun job' hjob' hcadence _ => (h.loaded p hp).all job' (hrest.subset hjob') hcadence
          fun loads heq => absurd heq (hloads loads)
    | skipped => exact h.next hp hkeep rfl (by simp) rfl hrest hrest' hloads'
    | paused => exact h.leave hp (by simp) rfl

/-- What a step of the pass does, and where the pass is. -/
inductive PassStep (s : State) (p : Pass) : Act → State → Prop
  | load {loads : List GatedJob} {now : Instant} : p.point = .load loads → s.clock ≤ now →
      PassStep s p (.load now) (s.load p loads now)
  | ask {before : List GatedJob} {stopping deferred idle : Bool} : p.point = .next before →
      PassStep s p (.ask stopping deferred idle) (s.ask p before stopping deferred idle)
  | check {job : GatedJob} {rest : List GatedJob} {now : Instant} {work : Bool} :
      p.point = .check job rest → s.clock ≤ now →
      PassStep s p (.check now work) (s.check p job rest now work)
  | run {job : GatedJob} {checked : Instant} {rest : List GatedJob} :
      p.point = .slot job checked rest →
      PassStep s p (.slot true) (s.move p (.running job checked rest) [.decision job.name .run])
  | skip {job : GatedJob} {checked : Instant} {rest : List GatedJob} :
      p.point = .slot job checked rest →
      PassStep s p (.slot false) (s.move p (.next rest) [.decision job.name .skipSlot])
  | finish {job : GatedJob} {checked : Instant} {rest : List GatedJob} {now : Instant}
      {result : Result} {stopping : Bool} : p.point = .running job checked rest → s.clock ≤ now →
      PassStep s p (.finish now result stopping) (s.finish p job rest now result stopping)

theorem passStep_of_advancePass {a : Act} (hstep : s.advancePass p a = some s') :
    PassStep s p a s' := by
  unfold State.advancePass at hstep
  cases a with
  | load now =>
    dsimp only at hstep
    split at hstep
    · next hpoint =>
      split_ifs at hstep with hnow
      cases hstep
      exact .load hpoint hnow
    · cases hstep
  | ask stopping deferred idle =>
    dsimp only at hstep
    split at hstep
    · next hpoint =>
      cases hstep
      exact .ask hpoint
    · cases hstep
  | check now work =>
    dsimp only at hstep
    split at hstep
    · next hpoint =>
      split_ifs at hstep with hnow
      cases hstep
      exact .check hpoint hnow
    · cases hstep
  | slot available =>
    dsimp only at hstep
    split at hstep
    · next hpoint =>
      cases available <;> cases hstep
      · exact .skip hpoint
      · exact .run hpoint
    · cases hstep
  | finish now result stopping =>
    dsimp only at hstep
    split at hstep
    · next hpoint =>
      split_ifs at hstep with hnow
      cases hstep
      exact .finish hpoint hnow
    · cases hstep
  | _ => cases hstep

theorem Inv.passStep (h : Inv jobs s) (htable : Table jobs) (hp : s.pass = some p) {a : Act}
    (hstep : PassStep s p a s') : Inv jobs s' := by
  cases hstep with
  | load hpoint hnow => exact h.load htable hp hpoint hnow
  | ask hpoint => exact h.ask hp hpoint _ _ _
  | check hpoint hnow => exact h.check htable hp hpoint hnow _
  | run hpoint => exact h.slot hp hpoint
  | @skip job _ rest hpoint =>
    have htodo : p.todo = job :: rest := by rw [Pass.todo, hpoint]
    have hunstarted : p.unstarted = job :: rest := by rw [Pass.unstarted, hpoint, htodo]
    exact h.next hp ⟨rfl, rfl, rfl, le_rfl, fun _ => .inl rfl⟩ rfl (by simp) rfl
      (htodo ▸ List.suffix_cons job rest) (hunstarted ▸ List.suffix_cons job rest)
      fun loads heq => by cases hpoint.symm.trans heq
  | finish hpoint hnow => exact h.finish htable hp hpoint hnow _ _

theorem Inv.step (h : Inv jobs s) (htable : Table jobs) {a : Act}
    (hstep : s.step jobs a = some s') : Inv jobs s' := by
  cases a with
  | start => exact h.start htable hstep
  | lose file =>
    cases hstep
    have hkeep : Keeps s { s with files := Function.update s.files file none } := by
      refine ⟨rfl, rfl, rfl, le_rfl, fun file' => ?_⟩
      by_cases hfile : file' = file
      · rw [hfile]
        exact .inr (Function.update_self ..)
      · exact .inl (Function.update_of_ne hfile ..)
    refine ⟨h.filed.keep hkeep, fun p hp => ?_, fun p hp => ?_, h.quiet, h.started⟩
    · exact (h.loaded p hp).keep hkeep rfl (fun _ hjob => hjob) (fun _ _ rest hpoint => ⟨rest, hpoint⟩)
        fun _ _ _ hrest => hrest
    · have hord := h.inOrder p hp
      exact ⟨hord.ordered, hord.todo, hord.loads, hord.lull, hord.started⟩
  | stop =>
    cases hstep
    have hkeep : Keeps s { s with pass := none } := ⟨rfl, rfl, rfl, le_rfl, fun _ => .inl rfl⟩
    refine ⟨h.filed.keep hkeep, fun p hp => ?_, fun p hp => ?_, h.quiet, h.started⟩
    · cases hp
    · cases hp
  | _ =>
    obtain ⟨p, hp, hstep⟩ := Option.bind_eq_some_iff.mp hstep
    exact h.passStep htable hp (passStep_of_advancePass hstep)

theorem inv_of_reachable (htable : Table jobs) (h : (machine jobs).Reachable s) : Inv jobs s := by
  refine h.invariant (fun s hinit => ?_) fun s a s' hinv _ hstep => hinv.step htable hstep
  refine ⟨⟨?_, ?_, ?_⟩, ?_, ?_, ?_, ?_⟩
  · intro name u hu
    rw [hinit.completedAt] at hu
    cases hu
  · intro name u hu
    rw [hinit.initialisedAt] at hu
    cases hu
  · intro job _ file interval _ t _
    refine ⟨fun u hu => ?_, fun u hu => ?_, fun hfound => ?_⟩
    · rw [hinit.completedAt] at hu
      cases hu
    · rw [hinit.initialisedAt] at hu
      cases hu
    · rw [hinit.found] at hfound
      cases hfound
  · intro p hp
    rw [hinit.pass] at hp
    cases hp
  · intro p hp
    rw [hinit.pass] at hp
    cases hp
  · rw [hinit.record]
    exact quiet_of_not_mem List.not_mem_nil
  · rw [hinit.record]
    exact .nil

/-! ## What moves a schedule -/

/-- A load finds the file of a job missing or unusable, and makes `next` of it. -/
def Initialises (s : State) (a : Act) (file : Text) (next : Instant) : Prop :=
  ∃ p job rest interval now, s.pass = some p ∧ p.point = .load (job :: rest) ∧
    job.cadence = some (file, interval) ∧ s.files file = none ∧ a = .load now ∧
      next = now + interval

/-- The job of a file returned that it completed, or nothing, or raised what is no refusal. -/
def Completes (s : State) (a : Act) (file : Text) (next : Instant) : Prop :=
  ∃ p job checked rest interval now result stopping, s.pass = some p ∧
    p.point = .running job checked rest ∧ job.cadence = some (file, interval) ∧
      result.outcome = some .completed ∧ a = .finish now result stopping ∧ next = now + interval

theorem files_ask (before : List GatedJob) (stopping deferred idle : Bool) :
    (s.ask p before stopping deferred idle).files = s.files := by
  unfold State.ask
  split
  · rfl
  · split_ifs <;> rfl

theorem files_check (rest : List GatedJob) (now : Instant) (work : Bool) :
    (s.check p job rest now work).files = s.files := by
  unfold State.check
  split_ifs <;> rfl

theorem initialises_of_load (hp : s.pass = some p) {loads : List GatedJob}
    (hpoint : p.point = .load loads) (now : Instant) {file : Text}
    (hne : (s.load p loads now).files file ≠ s.files file) :
    ∃ next, (s.load p loads now).files file = some next ∧ Initialises s (.load now) file next := by
  unfold State.load at hne ⊢
  cases loads with
  | nil => exact absurd rfl hne
  | cons job rest =>
    cases hcadence : job.cadence with
    | none =>
      simp only [hcadence] at hne
      exact absurd rfl hne
    | some cadence =>
      obtain ⟨file', interval⟩ := cadence
      cases hfile : s.files file' with
      | some t =>
        simp only [hcadence, loadOrInitCadence, hfile] at hne
        exact absurd rfl hne
      | none =>
        simp only [hcadence, loadOrInitCadence, hfile] at hne ⊢
        obtain rfl : file = file' := by
          by_contra hsame
          exact hne (Function.update_of_ne hsame ..)
        exact ⟨now + interval, Function.update_self ..,
          p, job, rest, interval, now, hp, hpoint, hcadence, hfile, rfl, rfl⟩

theorem completes_of_finish (hp : s.pass = some p) {checked : Instant} {rest : List GatedJob}
    (hpoint : p.point = .running job checked rest) (now : Instant) (result : Result)
    (stopping : Bool) {file : Text}
    (hne : (s.finish p job rest now result stopping).files file ≠ s.files file) :
    ∃ next, (s.finish p job rest now result stopping).files file = some next ∧
      Completes s (.finish now result stopping) file next := by
  unfold State.finish at hne ⊢
  cases hresult : result.outcome with
  | none =>
    simp only [hresult] at hne
    split_ifs at hne <;> exact absurd rfl hne
  | some outcome =>
    cases outcome with
    | completed =>
      simp only [hresult, State.complete, State.move] at hne ⊢
      cases hcadence : job.cadence with
      | none =>
        simp only [hcadence] at hne
        exact absurd rfl hne
      | some cadence =>
        obtain ⟨file', interval⟩ := cadence
        simp only [hcadence] at hne ⊢
        obtain rfl : file = file' := by
          by_contra hsame
          exact hne (Function.update_of_ne hsame ..)
        exact ⟨now + interval, Function.update_self .., p, job, checked, rest, interval, now,
          result, stopping, hp, hpoint, hcadence, hresult, rfl, rfl⟩
    | skipped =>
      simp only [hresult] at hne
      exact absurd rfl hne
    | paused =>
      simp only [hresult] at hne
      exact absurd rfl hne

/-- Nothing else moves it, unless the file is lost. -/
theorem files_of_step {a : Act} (hstep : s.step jobs a = some s') {file : Text}
    (hne : s'.files file ≠ s.files file) :
    a = .lose file ∨ ∃ next, s'.files file = some next ∧
      (Initialises s a file next ∨ Completes s a file next) := by
  -- A step of the pass.
  have hpass : ∀ a, (s.pass.bind fun p => s.advancePass p a) = some s' →
      ∃ next, s'.files file = some next ∧ (Initialises s a file next ∨ Completes s a file next) := by
    intro a hbind
    obtain ⟨p, hp, hstep⟩ := Option.bind_eq_some_iff.mp hbind
    cases passStep_of_advancePass hstep with
    | @load loads now hpoint _ =>
      obtain ⟨next, hnext, hinit⟩ := initialises_of_load hp hpoint now hne
      exact ⟨next, hnext, .inl hinit⟩
    | ask hpoint => exact absurd (congrFun (files_ask _ _ _ _) file) hne
    | check hpoint _ => exact absurd (congrFun (files_check _ _ _) file) hne
    | run hpoint => exact absurd rfl hne
    | skip hpoint => exact absurd rfl hne
    | @finish job checked rest now result stopping hpoint _ =>
      obtain ⟨next, hnext, hdone⟩ := completes_of_finish hp hpoint now result stopping hne
      exact ⟨next, hnext, .inr hdone⟩
  cases a with
  | start =>
    change s.start jobs = some s' at hstep
    unfold State.start at hstep
    split at hstep
    · obtain ⟨ordered, -, rfl⟩ := Option.map_eq_some_iff.mp hstep
      exact absurd rfl hne
    · cases hstep
  | lose file' =>
    cases hstep
    by_cases hfile : file' = file
    · exact .inl (congrArg Act.lose hfile)
    · exact absurd (Function.update_of_ne (Ne.symm hfile) ..) hne
  | stop =>
    cases hstep
    exact absurd rfl hne
  | _ => exact .inr (hpass _ hstep)

/-- A completion moves it. -/
theorem files_of_completes {a : Act} (hstep : s.step jobs a = some s') {file : Text}
    {next : Instant} (h : Completes s a file next) : s'.files file = some next := by
  obtain ⟨p, job, checked, rest, interval, now, result, stopping, hp, hpoint, hcadence, hresult,
    rfl, rfl⟩ := h
  obtain ⟨q, hq, hstep⟩ := Option.bind_eq_some_iff.mp hstep
  obtain rfl : p = q := Option.some.inj (hp.symm.trans hq)
  cases passStep_of_advancePass hstep with
  | finish hpoint' _ =>
    cases hpoint.symm.trans hpoint'
    simp only [State.finish, hresult, State.complete, State.move, hcadence]
    exact Function.update_self ..

/-- A job that was found due stays so until it completes or is initialised. -/
theorem found_of_step {a : Act} (hstep : s.step jobs a = some s') {name : Text}
    (hfound : s.found name = true) :
    s'.found name = true ∨ s'.completedAt name = some s'.clock ∨
      s'.initialisedAt name = some s'.clock := by
  -- A step of the pass.
  have hpass : ∀ a, (s.pass.bind fun p => s.advancePass p a) = some s' →
      s'.found name = true ∨ s'.completedAt name = some s'.clock ∨
        s'.initialisedAt name = some s'.clock := by
    intro a hbind
    obtain ⟨p, hp, hstep⟩ := Option.bind_eq_some_iff.mp hbind
    cases passStep_of_advancePass hstep with
    | @load loads now hpoint _ =>
      unfold State.load
      cases loads with
      | nil => exact .inl hfound
      | cons job rest =>
        cases hcadence : job.cadence with
        | none =>
          simp only [hcadence]
          exact .inl hfound
        | some cadence =>
          obtain ⟨file, interval⟩ := cadence
          cases hfile : s.files file with
          | some t =>
            simp only [hcadence, loadOrInitCadence, hfile]
            exact .inl hfound
          | none =>
            simp only [hcadence, loadOrInitCadence, hfile]
            by_cases hname : name = job.name
            · subst hname
              exact .inr (.inr (Function.update_self ..))
            · exact .inl ((Function.update_of_ne hname ..).trans hfound)
    | ask hpoint =>
      left
      unfold State.ask
      split
      · exact hfound
      · split_ifs <;> exact hfound
    | @check job rest now work hpoint _ =>
      left
      unfold State.check
      split_ifs
      · by_cases hname : name = job.name
        · subst hname
          exact Function.update_self ..
        · exact (Function.update_of_ne hname ..).trans hfound
      · exact hfound
    | run hpoint => exact .inl hfound
    | skip hpoint => exact .inl hfound
    | @finish job checked rest now result stopping hpoint _ =>
      unfold State.finish
      split
      · left
        split_ifs <;> exact hfound
      · by_cases hname : name = job.name
        · subst hname
          exact .inr (.inl (Function.update_self ..))
        · exact .inl ((Function.update_of_ne hname ..).trans hfound)
      · exact .inl hfound
      · exact .inl hfound
  cases a with
  | start =>
    change s.start jobs = some s' at hstep
    unfold State.start at hstep
    split at hstep
    · obtain ⟨ordered, -, rfl⟩ := Option.map_eq_some_iff.mp hstep
      exact .inl hfound
    · cases hstep
  | lose file =>
    cases hstep
    exact .inl hfound
  | stop =>
    cases hstep
    exact .inl hfound
  | _ => exact hpass _ hstep

/-- What was found due is due at the next check of it. -/
theorem Inv.due_of_found (h : Inv jobs s) (hp : s.pass = some p) {rest : List GatedJob}
    (hpoint : p.point = .check job rest) {file : Text} {interval : ℤ}
    (hcadence : job.cadence = some (file, interval)) (hfound : s.found job.name = true)
    {now : Instant} (hnow : s.clock ≤ now) (work : Bool) : p.due job now work = true := by
  have hmem : job ∈ p.todo := by
    rw [Pass.todo, hpoint]
    exact List.mem_cons_self
  obtain ⟨state, hstate⟩ := (h.loaded p hp).all job hmem (by rw [hcadence]; simp)
    fun loads heq => by cases hpoint.symm.trans heq
  obtain ⟨t, rfl, hcovers, -⟩ := (h.loaded p hp).covers job hmem file interval hcadence state hstate
  have hle : t ≤ now := (hcovers.found hfound).trans hnow
  rw [Pass.due, hcadence, hstate]
  exact decide_eq_true hle

/-- The schedules in a state that is reached. -/
structure Paced (jobs : List GatedJob) (s : State) : Prop where
  /-- A schedule moves when its job ran, or its file was missing or unusable, and not else, unless
  the file is lost. -/
  moved : ∀ a s' file, s.step jobs a = some s' → s'.files file ≠ s.files file →
    a = .lose file ∨ ∃ next, s'.files file = some next ∧
      (Initialises s a file next ∨ Completes s a file next)
  moves : ∀ a s' file next, s.step jobs a = some s' → Completes s a file next →
    s'.files file = some next
  /-- A job was found due an interval after it completed, and after its file was initialised. -/
  spaced : ∀ p job checked rest file interval, s.pass = some p →
    p.point = .running job checked rest → job.cadence = some (file, interval) →
    checked ≤ s.clock ∧ (∀ t, s.completedAt job.name = some t → t + interval ≤ checked) ∧
      ∀ t, s.initialisedAt job.name = some t → t + interval ≤ checked
  /-- A job that runs was found due, and is so until it completes or is initialised. -/
  found : ∀ p job checked rest, s.pass = some p → p.point = .running job checked rest →
    s.found job.name = true
  kept : ∀ a s' name, s.step jobs a = some s' → s.found name = true →
    s'.found name = true ∨ s'.completedAt name = some s'.clock ∨
      s'.initialisedAt name = some s'.clock
  /-- What was found due is due again. -/
  due : ∀ p job rest now work, s.pass = some p → p.point = .check job rest → job.cadence ≠ none →
    s.found job.name = true → s.clock ≤ now → p.due job now work = true
  /-- The jobs of a pass start in order, and none after a negative answer of the idle probe. -/
  order : (startedJobs s.record).Pairwise (rank · < rank ·)
  lull : ∀ u v, s.record = u ++ .idle false :: v → startedJobs v = []

/-- Whatever jobs come to, the schedules are paced over all passes and restarts. -/
theorem schedule_moves_when_run (htable : Table jobs) (h : (machine jobs).Reachable s) :
    Paced jobs s := by
  have hinv := inv_of_reachable htable h
  refine ⟨fun a s' file hstep => files_of_step hstep,
    fun a s' file next hstep => files_of_completes hstep, ?_, ?_,
    fun a s' name hstep hfound => found_of_step hstep hfound, ?_, hinv.started, hinv.quiet⟩
  · intro p job checked rest file interval hp hpoint hcadence
    obtain ⟨hle, -, hjob⟩ := (hinv.loaded p hp).checked job checked rest (.inr hpoint)
    obtain ⟨t, ht, hcovers⟩ := hjob file interval hcadence
    exact ⟨hle, fun u hu => (hcovers.completed u hu).trans ht,
      fun u hu => (hcovers.initialised u hu).trans ht⟩
  · exact fun p job checked rest hp hpoint =>
      ((hinv.loaded p hp).checked job checked rest (.inr hpoint)).2.1
  · intro p job rest now work hp hpoint hcadence hfound hnow
    obtain ⟨⟨file, interval⟩, hcadence⟩ := Option.ne_none_iff_exists'.mp hcadence
    exact hinv.due_of_found hp hpoint hcadence hfound hnow work

/-- A job that finalizes every ten microseconds, and pass 2. -/
def twoJobs : List GatedJob :=
  [⟨"finalize".toList, some ("finalize_cadence.json".toList, 10)⟩, ⟨"pass2".toList, none⟩]

/-- The first process. -/
def State.fresh (nextAt : Instant) : State :=
  { files := fun _ => some nextAt
    clock := 0
    pass := none
    completedAt := fun _ => none
    initialisedAt := fun _ => none
    found := fun _ => false
    record := [] }

/-- A finalize that is refused, and one in the next pass that raises, after the file was lost in
between and in a process that came after. -/
theorem schedule_moves_when_run_twice : ∃ s, (machine twoJobs).Reachable s ∧
    s.completedAt "finalize".toList = some 31 ∧ startedJobs s.record = ["finalize".toList] ∧
    Paced twoJobs s := by
  have hinit : (machine twoJobs).init (.fresh 0) :=
    ⟨rfl, fun _ => rfl, fun _ => rfl, fun _ => rfl, rfl⟩
  obtain ⟨s, hs, hp⟩ := Machine.exists_reach_of_runWithin (M := machine twoJobs)
    (C := fun _ _ => True) (D := fun _ _ => True) (fun _ _ h => h) hinit
    [.start, .load 1, .load 1, .load 1, .ask false false true, .check 2 false, .ask false false true,
      .check 2 true, .slot true, .finish 5 .refused false, .lose "finalize_cadence.json".toList,
      .stop, .start, .load 20, .load 20, .load 20, .ask false false true, .check 21 false,
      .ask false false true, .stop, .start, .load 30, .load 30, .load 30, .ask false false true,
      .check 30 false, .ask false false true, .check 30 true, .slot true, .finish 31 .raised false]
    (fun s => s.completedAt "finalize".toList = some 31 ∧
      startedJobs s.record = ["finalize".toList]) (by decide +kernel)
  obtain ⟨hcompleted, hstarted⟩ := of_decide_eq_true hp
  exact ⟨s, hs, hcompleted, hstarted, schedule_moves_when_run ⟨by decide, by decide⟩ hs⟩

end Companion.Bridge.CentralCadence

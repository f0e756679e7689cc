import Companion.Dict
import Companion.Memory.CostFit
import Companion.Memory.Text
import Companion.Runs
import Mathlib

/-!
# The samples of cost series

The buffers of `brain/memory/cost_series.py`, one for each process, and the tables of
`brain/memory/store.py` that they are flushed to. A call of `record_many`, `flush` or `state` is a
task whose steps are interleaved with those of all others: the clock is read, a section under the
lock of the buffer is run, a database is written or read. A write ends as it may, by success, by an
error that counts as a lock, or by any other; clocks show any time.

Every sample that was recorded is accounted for (`Account`): it is in a buffer or a table, or held
by a flush, unless it was found out of the window, or its group failed other than by a lock. So it
is inserted once at most, and no state counts it twice (`samples_counted_once`).
-/

namespace Companion.Memory.CostSeries

open Companion.Runs Companion.Memory.CostFit

/-- `RAM_SHAPE_SERIES` -/
def ramShapeSeries : Text := "rerank ram shape".toList

/-- `SHAPE_SERIES` -/
def shapeSeries : List Text := [ramShapeSeries]

/-- `RETIRED_SERIES` -/
def retiredSeries : List Text := ["rerank ram".toList]

/-- What samples are saved and read by. -/
structure SeriesKey where
  series : Text
  host : Text
  key : Text
  deriving DecidableEq

/-- A sample, and a row of `cost_series_samples`. The number says which of all samples it is; the
program does not know it. -/
structure Sample where
  number : ℕ
  db : Text
  group : SeriesKey
  x : ℤ
  seconds : ℚ
  takenAt : ℚ
  deriving DecidableEq

/-- What the sums are made of. -/
def Sample.value (s : Sample) : ℤ × ℚ := (s.x, s.seconds)

/-- The tables of a database. -/
structure Database where
  rows : List Sample
  carried : Dict SeriesKey RangedFit

/-- The sample is in the window. -/
def inWindow (window now : ℚ) (s : Sample) : Bool := now - window < s.takenAt

/-- `record_cost_samples` -/
def recordCostSamples (window : ℚ) (d : Database) (k : SeriesKey) (samples : List Sample) (now : ℚ) :
    Database :=
  let rows := (d.rows ++ samples).filter fun s => s.group.series ≠ k.series || inWindow window now s
  if k.series ∈ shapeSeries then
    ⟨rows.filter fun s => s.group.series ∉ retiredSeries,
      d.carried.filterMap fun k fit => if k.series ∈ retiredSeries then none else some fit⟩
  else
    let sums := windowSums
      ((rows.filter fun s => decide (s.group = k) && inWindow window now s).map Sample.value)
    match SeriesState.estimate ⟨sums, d.carried.get? k⟩ with
    | none => ⟨rows, d.carried⟩
    | some estimate => ⟨rows, d.carried.set k estimate⟩

/-- `groups.setdefault(…, []).append(sample)` -/
def addToGroup (s : Sample) : List (SeriesKey × List Sample) → List (SeriesKey × List Sample)
  | [] => [(s.group, [s])]
  | (k, group) :: groups =>
    if s.group = k then (k, group ++ [s]) :: groups else (k, group) :: addToGroup s groups

/-- The samples of a flush by their groups. -/
def groupsOf (samples : List Sample) : List (SeriesKey × List Sample) :=
  samples.foldl (fun groups s => addToGroup s groups) []

/-- The samples of groups. -/
def members (groups : List (SeriesKey × List Sample)) : List Sample := groups.flatMap Prod.snd

/-- What the tasks share, with what became of the samples: those that came into a buffer, those
inserted in a table, those found out of the window in a buffer, those dropped with their group, and
the times that clocks have shown. -/
structure Shared where
  /-- One for each process. -/
  buffers : List (List Sample)
  databases : Text → Database
  recorded : List Sample
  inserted : List Sample
  aged : List Sample
  dropped : List Sample
  readings : List ℚ

/-- A call, by the step it has to make next. -/
inductive Task
  | recording (process : ℕ) (db : Text) (group : SeriesKey) (values : List (ℤ × ℚ)) (now : ℚ)
  | flushing (process : ℕ) (db : Text) (now : ℚ)
  | writing (process : ℕ) (db : Text) (now : ℚ) (groups : List (SeriesKey × List Sample))
      (written : ℕ)
  | returning (process : ℕ) (samples : List Sample) (written : ℕ)
  | flushed (written : ℕ)
  | reading (process : ℕ) (db : Text) (group : SeriesKey) (now : ℚ)
  | carrying (process : ℕ) (db : Text) (group : SeriesKey) (now : ℚ) (rows : List Sample)
  | counting (process : ℕ) (db : Text) (group : SeriesKey) (now : ℚ) (rows : List Sample)
      (carried : Option RangedFit)
  | counted (rows buffered : List Sample) (state : SeriesState)
  | done

/-- How a statement of the database ends. -/
inductive Outcome
  | ok
  | locked
  | failed
  deriving DecidableEq

/-- The samples of `record_many`, numbered from `n` on. -/
def number (db : Text) (group : SeriesKey) (now : ℚ) : ℕ → List (ℤ × ℚ) → List Sample
  | _, [] => []
  | n, (x, y) :: values => ⟨n, db, group, x, max 0 y, now⟩ :: number db group now (n + 1) values

namespace Shared

variable (window : ℚ) (s : Shared) (process : ℕ) (buffer : List Sample)

/-- The locked section of `record_many`. -/
def record (now : ℚ) (samples : List Sample) : Shared where
  buffers := s.buffers.set process (buffer.filter (inWindow window now) ++ samples)
  databases := s.databases
  recorded := s.recorded ++ samples
  inserted := s.inserted
  aged := s.aged ++ buffer.filter fun x => !inWindow window now x
  dropped := s.dropped
  readings := s.readings

/-- The samples of a database leave the buffer. -/
def take (db : Text) (now : ℚ) : Shared where
  buffers := s.buffers.set process (buffer.filter fun x => !decide (x.db = db))
  databases := s.databases
  recorded := s.recorded
  inserted := s.inserted
  aged := s.aged ++ (buffer.filter fun x => x.db = db).filter fun x => !inWindow window now x
  dropped := s.dropped
  readings := s.readings

/-- A group is written. -/
def write (db : Text) (k : SeriesKey) (group : List Sample) (now : ℚ) : Shared where
  buffers := s.buffers
  databases := Function.update s.databases db (recordCostSamples window (s.databases db) k group now)
  recorded := s.recorded
  inserted := s.inserted ++ group
  aged := s.aged
  dropped := s.dropped
  readings := s.readings

/-- A group is dropped. -/
def drop (group : List Sample) : Shared := { s with dropped := s.dropped ++ group }

/-- Samples go back into the buffer. -/
def putBack (samples : List Sample) : Shared :=
  { s with buffers := s.buffers.set process (buffer ++ samples) }

end Shared

/-- The next step of a task. -/
def turn (window : ℚ) (s : Shared) : Task → Outcome → Option (Shared × Task)
  | .recording process db group values now, _ =>
    (s.buffers[process]?).map fun buffer =>
      if values = [] then (s, .done)
      else
        (s.record window process buffer now (number db group now s.recorded.length values), .done)
  | .flushing process db now, _ =>
    (s.buffers[process]?).map fun buffer =>
      (s.take window process buffer db now, .writing process db now
        (groupsOf ((buffer.filter fun x => x.db = db).filter (inWindow window now))) 0)
  | .writing _ _ _ [] written, _ => some (s, .flushed written)
  | .writing process db now ((k, group) :: rest) written, .ok =>
    some (s.write window db k group now, .writing process db now rest (written + group.length))
  | .writing process _ _ groups written, .locked =>
    some (s, .returning process (members groups) written)
  | .writing process db now ((_, group) :: rest) written, .failed =>
    some (s.drop group, .writing process db now rest written)
  | .returning process samples written, _ =>
    (s.buffers[process]?).map fun buffer => (s.putBack process buffer samples, .flushed written)
  | .reading process db group now, .ok =>
    some (s, .carrying process db group now
      ((s.databases db).rows.filter fun x => decide (x.group = group) && inWindow window now x))
  | .carrying process db group now rows, .ok =>
    some (s, .counting process db group now rows ((s.databases db).carried.get? group))
  | .reading _ _ _ _, _ => some (s, .done)
  | .carrying _ _ _ _ _, _ => some (s, .done)
  | .counting process db group now rows carried, _ =>
    (s.buffers[process]?).map fun buffer =>
      let buffered := buffer.filter fun x =>
        decide (x.db = db) && decide (x.group = group) && inWindow window now x
      (s, .counted rows buffered
        ⟨(windowSums (rows.map Sample.value)).add (buffered.map Sample.value), carried⟩)
  | .flushed _, _ => none
  | .counted _ _ _, _ => none
  | .done, _ => none

structure World where
  shared : Shared
  tasks : List Task

/-- A call begins by reading its clock, or a task makes its next step. -/
inductive Act
  | recordMany (process : ℕ) (db : Text) (group : SeriesKey) (values : List (ℤ × ℚ)) (now : ℚ)
  | flush (process : ℕ) (db : Text) (now : ℚ)
  | state (process : ℕ) (db : Text) (group : SeriesKey) (now : ℚ)
  | turn (task : ℕ) (outcome : Outcome)

/-- A call that begins. -/
def World.begin (w : World) (now : ℚ) (t : Task) : World where
  shared := { w.shared with readings := w.shared.readings ++ [now] }
  tasks := w.tasks ++ [t]

def step (window : ℚ) (w : World) : Act → Option World
  | .recordMany process db group values now =>
    some (w.begin now (.recording process db group values now))
  | .flush process db now => some (w.begin now (.flushing process db now))
  | .state process db group now => some (w.begin now (.reading process db group now))
  | .turn i outcome =>
    (w.tasks[i]?).bind fun t => (turn window w.shared t outcome).map fun (s, t') =>
      ⟨s, w.tasks.set i t'⟩

/-- Any number of processes with empty buffers, over empty databases. -/
def IsStart (w : World) : Prop :=
  (∃ n, w.shared = ⟨List.replicate n [], fun _ => ⟨[], ∅⟩, [], [], [], [], []⟩) ∧ w.tasks = []

def machine (window : ℚ) : Machine World Act where
  init := IsStart
  step := step window

/-! ## The account of the samples -/

/-- The samples that a task holds. -/
def Task.held : Task → List Sample
  | .writing _ _ _ groups _ => members groups
  | .returning _ samples _ => samples
  | _ => []

/-- The samples in the buffers, and what became of the others. -/
def Shared.account (s : Shared) : Multiset Sample :=
  (s.buffers.map Multiset.ofList).sum + s.inserted + s.aged + s.dropped

def World.account (w : World) : Multiset Sample :=
  w.shared.account + (w.tasks.map fun t => (t.held : Multiset Sample)).sum

/-- One entry of a sum is exchanged for another. -/
theorem sum_set {α : Type} (f : α → Multiset Sample) {l : List α} {i : ℕ} {a : α}
    (h : l[i]? = some a) (b : α) : ((l.set i b).map f).sum + f a = (l.map f).sum + f b := by
  induction l generalizing i with
  | nil => cases h
  | cons c l ih =>
    cases i with
    | zero =>
      obtain rfl := Option.some.inj h
      rw [List.set_cons_zero, List.map_cons, List.map_cons, List.sum_cons, List.sum_cons]
      abel
    | succ i =>
      rw [List.set_cons_succ, List.map_cons, List.map_cons, List.sum_cons, List.sum_cons, add_assoc,
        ih h, add_assoc]

theorem coe_filter_add (p : Sample → Bool) (l : List Sample) :
    ((l.filter p : List Sample) : Multiset Sample) + (l.filter fun x => !p x) = l :=
  Multiset.coe_eq_coe.mpr (List.filter_append_perm p l)

theorem coe_members_addToGroup (s : Sample) (groups : List (SeriesKey × List Sample)) :
    (members (addToGroup s groups) : Multiset Sample) = members groups + {s} := by
  induction groups with
  | nil => rfl
  | cons entry groups ih =>
    obtain ⟨k, group⟩ := entry
    rw [addToGroup]
    split_ifs
    · simp only [members, List.flatMap_cons, ← Multiset.coe_add]
      rw [show (([s] : List Sample) : Multiset Sample) = {s} from rfl]
      abel
    · simp only [members, List.flatMap_cons, ← Multiset.coe_add] at ih ⊢
      rw [ih, add_assoc]

/-- The groups have the samples that they were made of. -/
theorem coe_members_groupsOf (samples : List Sample) :
    (members (groupsOf samples) : Multiset Sample) = samples := by
  have hfold : ∀ groups, (members (samples.foldl (fun groups s => addToGroup s groups) groups) :
      Multiset Sample) = members groups + samples := by
    induction samples with
    | nil => exact fun groups => (add_zero _).symm
    | cons s samples ih =>
      intro groups
      rw [List.foldl_cons, ih, coe_members_addToGroup, add_assoc]
      rfl
  exact (hfold []).trans (zero_add _)

/-- A buffer is exchanged: what it gains and loses is gained and lost by the account. -/
theorem account_set {s : Shared} {p : ℕ} {buffer : List Sample} (h : s.buffers[p]? = some buffer)
    (buffer' : List Sample) :
    ((s.buffers.set p buffer').map Multiset.ofList).sum + (buffer : Multiset Sample) =
      (s.buffers.map Multiset.ofList).sum + buffer' :=
  sum_set Multiset.ofList h buffer'

/-- What a step of a task does to what is shared. -/
inductive Moves (window : ℚ) (s : Shared) : Task → Shared → Task → Prop
  | quiet {t t' : Task} : (t'.held : Multiset Sample) = t.held → Moves window s t s t'
  | record {process : ℕ} {db : Text} {group : SeriesKey} {values : List (ℤ × ℚ)} {now : ℚ}
      {buffer : List Sample} : s.buffers[process]? = some buffer →
      Moves window s (.recording process db group values now)
        (s.record window process buffer now (number db group now s.recorded.length values)) .done
  | take {process : ℕ} {db : Text} {now : ℚ} {buffer : List Sample} :
      s.buffers[process]? = some buffer →
      Moves window s (.flushing process db now) (s.take window process buffer db now)
        (.writing process db now
          (groupsOf ((buffer.filter fun x => x.db = db).filter (inWindow window now))) 0)
  | write {process : ℕ} {db : Text} {now : ℚ} {k : SeriesKey} {group : List Sample}
      {rest : List (SeriesKey × List Sample)} {written : ℕ} :
      Moves window s (.writing process db now ((k, group) :: rest) written)
        (s.write window db k group now) (.writing process db now rest (written + group.length))
  | drop {process : ℕ} {db : Text} {now : ℚ} {k : SeriesKey} {group : List Sample}
      {rest : List (SeriesKey × List Sample)} {written : ℕ} :
      Moves window s (.writing process db now ((k, group) :: rest) written) (s.drop group)
        (.writing process db now rest written)
  | putBack {process : ℕ} {samples buffer : List Sample} {written : ℕ} :
      s.buffers[process]? = some buffer →
      Moves window s (.returning process samples written) (s.putBack process buffer samples)
        (.flushed written)

theorem moves_of_turn {window : ℚ} {s s' : Shared} {t t' : Task} {outcome : Outcome}
    (h : turn window s t outcome = some (s', t')) : Moves window s t s' t' := by
  cases t with
  | recording process db group values now =>
    obtain ⟨buffer, hbuffer, heq⟩ := Option.map_eq_some_iff.mp h
    split_ifs at heq
    · obtain ⟨rfl, rfl⟩ := Prod.mk.inj heq
      exact .quiet rfl
    · obtain ⟨rfl, rfl⟩ := Prod.mk.inj heq
      exact .record hbuffer
  | flushing process db now =>
    obtain ⟨buffer, hbuffer, heq⟩ := Option.map_eq_some_iff.mp h
    obtain ⟨rfl, rfl⟩ := Prod.mk.inj heq
    exact .take hbuffer
  -- A group that finds the database locked is put back with all that follow it.
  | writing process db now groups written =>
    cases groups with
    | nil =>
      obtain ⟨rfl, rfl⟩ := Prod.mk.inj (Option.some.inj h)
      exact .quiet rfl
    | cons entry rest =>
      obtain ⟨k, group⟩ := entry
      cases outcome with
      | ok =>
        obtain ⟨rfl, rfl⟩ := Prod.mk.inj (Option.some.inj h)
        exact .write
      | locked =>
        obtain ⟨rfl, rfl⟩ := Prod.mk.inj (Option.some.inj h)
        exact .quiet rfl
      | failed =>
        obtain ⟨rfl, rfl⟩ := Prod.mk.inj (Option.some.inj h)
        exact .drop
  | returning process samples written =>
    obtain ⟨buffer, hbuffer, heq⟩ := Option.map_eq_some_iff.mp h
    obtain ⟨rfl, rfl⟩ := Prod.mk.inj heq
    exact .putBack hbuffer
  | flushed written => cases h
  | reading process db group now =>
    cases outcome <;>
    · obtain ⟨rfl, rfl⟩ := Prod.mk.inj (Option.some.inj h)
      exact .quiet rfl
  | carrying process db group now rows =>
    cases outcome <;>
    · obtain ⟨rfl, rfl⟩ := Prod.mk.inj (Option.some.inj h)
      exact .quiet rfl
  | counting process db group now rows carried =>
    obtain ⟨buffer, hbuffer, heq⟩ := Option.map_eq_some_iff.mp h
    obtain ⟨rfl, rfl⟩ := Prod.mk.inj heq
    exact .quiet rfl
  | counted rows buffered state => cases h
  | done => cases h

/-- A step of a task moves samples, and adds those that it records. -/
theorem Moves.account {window : ℚ} {s s' : Shared} {t t' : Task} (h : Moves window s t s' t') :
    ∃ news, s'.recorded = s.recorded ++ news ∧
      s'.account + t'.held = s.account + t.held + (news : Multiset Sample) := by
  cases h with
  | quiet hheld => exact ⟨[], (List.append_nil _).symm, by rw [hheld, Multiset.coe_nil, add_zero]⟩
  | @record process db group values now buffer hbuffer =>
    -- What has expired goes from the buffer to the aged ones, and what is new to both sides.
    have hset := account_set hbuffer
      (buffer.filter (inWindow window now) ++ number db group now s.recorded.length values)
    have hkept := coe_filter_add (inWindow window now) buffer
    refine ⟨_, rfl, Multiset.ext' fun x => ?_⟩
    replace hset := congrArg (Multiset.count x) hset
    replace hkept := congrArg (Multiset.count x) hkept
    simp only [Shared.account, Shared.record, Task.held, ← Multiset.coe_add, Multiset.count_add]
      at hset hkept ⊢
    omega
  -- The buffer keeps the samples of other databases, and of the rest the task holds those in the
  -- window.
  | @take process db now buffer hbuffer =>
    have hset := account_set hbuffer (buffer.filter fun x => !decide (x.db = db))
    have hmine := coe_filter_add (fun x => decide (x.db = db)) buffer
    have hkept := coe_filter_add (inWindow window now) (buffer.filter fun x => x.db = db)
    refine ⟨[], (List.append_nil _).symm, Multiset.ext' fun x => ?_⟩
    replace hset := congrArg (Multiset.count x) hset
    replace hmine := congrArg (Multiset.count x) hmine
    replace hkept := congrArg (Multiset.count x) hkept
    simp only [Shared.account, Shared.take, Task.held, coe_members_groupsOf, ← Multiset.coe_add,
      Multiset.count_add] at hset hmine hkept ⊢
    rw [Multiset.coe_nil, Multiset.count_zero]
    omega
  | write =>
    refine ⟨[], (List.append_nil _).symm, ?_⟩
    simp only [Shared.account, Shared.write, Task.held, members, List.flatMap_cons,
      ← Multiset.coe_add, Multiset.coe_nil]
    abel
  | drop =>
    refine ⟨[], (List.append_nil _).symm, ?_⟩
    simp only [Shared.account, Shared.drop, Task.held, members, List.flatMap_cons,
      ← Multiset.coe_add, Multiset.coe_nil]
    abel
  | @putBack process samples buffer written hbuffer =>
    have hset := account_set hbuffer (buffer ++ samples)
    refine ⟨[], (List.append_nil _).symm, Multiset.ext' fun x => ?_⟩
    replace hset := congrArg (Multiset.count x) hset
    simp only [Shared.account, Shared.putBack, Task.held, ← Multiset.coe_add, Multiset.count_add,
      Multiset.coe_nil, Multiset.count_zero] at hset ⊢
    omega

/-! ## What is deleted -/

/-- The row stays when a group is written. -/
def keeps (window : ℚ) (k : SeriesKey) (now : ℚ) (x : Sample) : Bool :=
  (x.group.series ≠ k.series || inWindow window now x) &&
    (k.series ∉ shapeSeries || x.group.series ∉ retiredSeries)

theorem rows_recordCostSamples (window : ℚ) (d : Database) (k : SeriesKey) (samples : List Sample)
    (now : ℚ) : (recordCostSamples window d k samples now).rows =
      (d.rows ++ samples).filter (keeps window k now) := by
  unfold recordCostSamples
  dsimp only
  -- Only a series of a shape deletes the retired series too.
  split_ifs with hshape
  · rw [List.filter_filter]
    refine List.filter_congr fun x _ => ?_
    rw [keeps, decide_eq_false (not_not.mpr hshape), Bool.false_or, Bool.and_comm]
  · have hkeeps : ∀ x, keeps window k now x =
        (decide (x.group.series ≠ k.series) || inWindow window now x) := by
      intro x
      rw [keeps, decide_eq_true hshape, Bool.true_or, Bool.and_true]
    rw [List.filter_congr fun x _ => hkeeps x]
    split <;> rfl

/-- A clock has shown a time at which the sample was out of the window. -/
def Expired (window : ℚ) (s : Shared) (x : Sample) : Prop :=
  ∃ now ∈ s.readings, inWindow window now x = false

/-- The sample is of a retired series, and there is one of a shape series. -/
def Retired (s : Shared) (x : Sample) : Prop :=
  x.group.series ∈ retiredSeries ∧ ∃ y ∈ s.inserted, y.group.series ∈ shapeSeries

/-- A row that goes has expired, or is of a retired series. -/
theorem of_not_keeps {window now : ℚ} {k : SeriesKey} {x : Sample}
    (h : keeps window k now x = false) :
    inWindow window now x = false ∨ x.group.series ∈ retiredSeries ∧ k.series ∈ shapeSeries := by
  simp only [keeps, Bool.and_eq_false_iff, Bool.or_eq_false_iff, decide_eq_false_iff_not,
    not_not] at h
  rcases h with h | h
  · exact .inl h.2
  · exact .inr ⟨h.2, h.1⟩

/-! ## The invariant -/

/-- The groups have the samples of a database under their keys. -/
def Grouped (db : Text) (groups : List (SeriesKey × List Sample)) : Prop :=
  ∀ e ∈ groups, e.2 ≠ [] ∧ ∀ x ∈ e.2, x.db = db ∧ x.group = e.1

/-- What a task relies on. -/
def Task.Sound (s : Shared) : Task → Prop
  | .recording _ _ _ _ now => now ∈ s.readings
  | .flushing _ _ now => now ∈ s.readings
  | .writing _ db now groups _ => now ∈ s.readings ∧ Grouped db groups
  | .carrying _ _ _ _ rows => rows.Sublist s.inserted
  | .counting _ _ _ _ rows _ => rows.Sublist s.inserted
  | .counted rows buffered state => ((rows ++ buffered).map Sample.number).Nodup ∧
    state.sums = (windowSums (rows.map Sample.value)).add (buffered.map Sample.value)
  | _ => True

/-- What holds of the samples, whatever the order of the steps. -/
structure Account (window : ℚ) (w : World) : Prop where
  balanced : w.account = w.shared.recorded
  numbered : w.shared.recorded.map Sample.number = List.range w.shared.recorded.length
  aged : ∀ x ∈ w.shared.aged, Expired window w.shared x
  rows : ∀ db, (w.shared.databases db).rows.Sublist w.shared.inserted
  found : ∀ x ∈ w.shared.inserted, x ∈ (w.shared.databases x.db).rows ∨
    Expired window w.shared x ∨ Retired w.shared x
  tasks : ∀ t ∈ w.tasks, t.Sound w.shared

/-- What is shared goes on: clocks are read, and rows are inserted. -/
structure Grows (s s' : Shared) : Prop where
  readings : ∀ now ∈ s.readings, now ∈ s'.readings
  inserted : s.inserted.Sublist s'.inserted

theorem Task.Sound.mono {s s' : Shared} (h : Grows s s') {t : Task} (ht : t.Sound s) :
    t.Sound s' := by
  cases t with
  | recording => exact h.readings _ ht
  | flushing => exact h.readings _ ht
  | writing => exact ⟨h.readings _ ht.1, ht.2⟩
  | carrying => exact ht.trans h.inserted
  | counting => exact ht.trans h.inserted
  | counted => exact ht
  | returning => trivial
  | flushed => trivial
  | reading => trivial
  | done => trivial

theorem Expired.mono {window : ℚ} {s s' : Shared} (h : Grows s s') {x : Sample}
    (hx : Expired window s x) : Expired window s' x := by
  obtain ⟨now, hnow, hout⟩ := hx
  exact ⟨now, h.readings now hnow, hout⟩

theorem Retired.mono {s s' : Shared} (h : Grows s s') {x : Sample} (hx : Retired s x) :
    Retired s' x := by
  obtain ⟨hseries, y, hy, hshape⟩ := hx
  exact ⟨hseries, y, h.inserted.subset hy, hshape⟩

theorem Moves.grows {window : ℚ} {s s' : Shared} {t t' : Task} (h : Moves window s t s' t') :
    Grows s s' := by
  cases h with
  | write => exact ⟨fun _ h => h, List.sublist_append_left _ _⟩
  | quiet => exact ⟨fun _ h => h, List.Sublist.refl _⟩
  | record => exact ⟨fun _ h => h, List.Sublist.refl _⟩
  | take => exact ⟨fun _ h => h, List.Sublist.refl _⟩
  | drop => exact ⟨fun _ h => h, List.Sublist.refl _⟩
  | putBack => exact ⟨fun _ h => h, List.Sublist.refl _⟩

theorem Moves.aged {window : ℚ} {s s' : Shared} {t t' : Task} (h : Moves window s t s' t')
    (ht : t.Sound s) (haged : ∀ x ∈ s.aged, Expired window s x) :
    ∀ x ∈ s'.aged, Expired window s' x := by
  have hold : ∀ x ∈ s.aged, Expired window s' x := fun x hx => (haged x hx).mono h.grows
  cases h with
  | record hbuffer =>
    intro x hx
    rcases List.mem_append.mp hx with hx | hx
    · exact hold x hx
    · exact ⟨_, ht, by simpa using (List.mem_filter.mp hx).2⟩
  | take hbuffer =>
    intro x hx
    rcases List.mem_append.mp hx with hx | hx
    · exact hold x hx
    · exact ⟨_, ht, by simpa using (List.mem_filter.mp hx).2⟩
  | quiet => exact hold
  | write => exact hold
  | drop => exact hold
  | putBack => exact hold

theorem Moves.rows {window : ℚ} {s s' : Shared} {t t' : Task} (h : Moves window s t s' t')
    (hrows : ∀ db, (s.databases db).rows.Sublist s.inserted) :
    ∀ db, (s'.databases db).rows.Sublist s'.inserted := by
  cases h with
  | @write process db now k group rest written =>
    intro db'
    show (Function.update s.databases db _ db').rows.Sublist (s.inserted ++ group)
    by_cases hdb : db' = db
    · subst hdb
      rw [Function.update_self, rows_recordCostSamples]
      exact List.filter_sublist.trans ((hrows db').append_right group)
    · rw [Function.update_of_ne hdb]
      exact (hrows db').trans (List.sublist_append_left _ _)
  | quiet => exact hrows
  | record => exact hrows
  | take => exact hrows
  | drop => exact hrows
  | putBack => exact hrows

/-- A row that was inserted is there, unless it was deleted as it had to be. -/
def Found (window : ℚ) (s : Shared) (x : Sample) : Prop :=
  x ∈ (s.databases x.db).rows ∨ Expired window s x ∨ Retired s x

theorem Found.mono {window : ℚ} {s s' : Shared} (h : Grows s s') {x : Sample}
    (hrows : x ∈ (s.databases x.db).rows → Found window s' x) (hx : Found window s x) :
    Found window s' x := by
  rcases hx with hx | hx | hx
  · exact hrows hx
  · exact .inr (.inl (hx.mono h))
  · exact .inr (.inr (hx.mono h))

/-- The rows of a table, and those of a group that is written to it. -/
theorem found_write {window now : ℚ} {s : Shared} {db : Text} {k : SeriesKey} {group : List Sample}
    (hnow : now ∈ s.readings) (hgroup : group ≠ []) (hkey : ∀ x ∈ group, x.group = k) {x : Sample}
    (hdb : x.db = db) (hx : x ∈ (s.databases db).rows ++ group) :
    Found window (s.write window db k group now) x := by
  cases hkeeps : keeps window k now x with
  | true =>
    refine .inl ?_
    show x ∈ (Function.update s.databases db _ x.db).rows
    rw [hdb, Function.update_self, rows_recordCostSamples]
    exact List.mem_filter.mpr ⟨hx, hkeeps⟩
  | false =>
    rcases of_not_keeps hkeeps with hout | ⟨hretired, hshape⟩
    · exact .inr (.inl ⟨now, hnow, hout⟩)
    · obtain ⟨y, hy⟩ := List.exists_mem_of_ne_nil group hgroup
      exact .inr (.inr ⟨hretired, y, List.mem_append_right _ hy, hkey y hy ▸ hshape⟩)

theorem Moves.found {window : ℚ} {s s' : Shared} {t t' : Task} (h : Moves window s t s' t')
    (ht : t.Sound s) (hfound : ∀ x ∈ s.inserted, Found window s x) :
    ∀ x ∈ s'.inserted, Found window s' x := by
  have hgrows := h.grows
  cases h with
  | @write process db now k group rest written =>
    obtain ⟨hnow, hgroups⟩ := ht
    obtain ⟨hgroup, hmembers⟩ := hgroups (k, group) List.mem_cons_self
    have hwrite : ∀ x, x.db = db → x ∈ (s.databases db).rows ++ group →
        Found window (s.write window db k group now) x :=
      fun x => found_write hnow hgroup fun y hy => (hmembers y hy).2
    intro x hx
    -- A row of another table is not touched by the write.
    rcases List.mem_append.mp hx with hold | hnew
    · refine (hfound x hold).mono hgrows fun hrow => ?_
      by_cases hdb : x.db = db
      · exact hwrite x hdb (List.mem_append_left _ (hdb ▸ hrow))
      · refine .inl ?_
        show x ∈ (Function.update s.databases db _ x.db).rows
        rwa [Function.update_of_ne hdb]
    · exact hwrite x (hmembers x hnew).1 (List.mem_append_right _ hnew)
  | quiet => exact hfound
  | record => exact hfound
  | take => exact hfound
  | drop => exact hfound
  | putBack => exact hfound

theorem number_number (db : Text) (group : SeriesKey) (now : ℚ) (n : ℕ) (values : List (ℤ × ℚ)) :
    (number db group now n values).map Sample.number = List.range' n values.length := by
  induction values generalizing n with
  | nil => rfl
  | cons value values ih =>
    rw [number, List.map_cons, ih, List.length_cons, List.range'_succ]

theorem Moves.numbered {window : ℚ} {s s' : Shared} {t t' : Task} (h : Moves window s t s' t')
    (hnumbered : s.recorded.map Sample.number = List.range s.recorded.length) :
    s'.recorded.map Sample.number = List.range s'.recorded.length := by
  cases h with
  | @record process db group values now buffer hbuffer =>
    -- The new samples take the numbers from the count of the old ones on.
    have hlength : (number db group now s.recorded.length values).length = values.length := by
      have hmap := congrArg List.length (number_number db group now s.recorded.length values)
      rwa [List.length_map, List.length_range'] at hmap
    show (s.recorded ++ _).map Sample.number = List.range (s.recorded ++ _).length
    rw [List.map_append, hnumbered, number_number, List.length_append, hlength,
      List.range_eq_range', List.range_eq_range']
    simpa using List.range'_append_1 (s := 0) (m := s.recorded.length) (n := values.length)
  | quiet => exact hnumbered
  | take => exact hnumbered
  | write => exact hnumbered
  | drop => exact hnumbered
  | putBack => exact hnumbered

theorem grouped_addToGroup {db : Text} {groups : List (SeriesKey × List Sample)} {s : Sample}
    (hs : s.db = db) (h : Grouped db groups) : Grouped db (addToGroup s groups) := by
  induction groups with
  | nil =>
    intro e he
    obtain rfl := List.mem_singleton.mp he
    exact ⟨List.cons_ne_nil _ _, fun x hx => by rw [List.mem_singleton.mp hx]; exact ⟨hs, rfl⟩⟩
  | cons entry groups ih =>
    obtain ⟨k, group⟩ := entry
    have hfirst := h (k, group) List.mem_cons_self
    have hrest := fun e he => h e (List.mem_cons_of_mem (k, group) he)
    rw [addToGroup]
    split_ifs with hk
    · intro e he
      rcases List.mem_cons.mp he with rfl | he
      · refine ⟨List.append_ne_nil_of_left_ne_nil hfirst.1 _, fun x hx => ?_⟩
        rcases List.mem_append.mp hx with hx | hx
        · exact hfirst.2 x hx
        · rw [List.mem_singleton.mp hx]
          exact ⟨hs, hk⟩
      · exact hrest e he
    · intro e he
      rcases List.mem_cons.mp he with rfl | he
      · exact hfirst
      · exact ih hrest e he

theorem grouped_groupsOf {db : Text} {samples : List Sample} (h : ∀ x ∈ samples, x.db = db) :
    Grouped db (groupsOf samples) := by
  have hfold : ∀ groups, Grouped db groups →
      Grouped db (samples.foldl (fun groups s => addToGroup s groups) groups) := by
    induction samples with
    | nil => exact fun _ hgroups => hgroups
    | cons s samples ih =>
      exact fun groups hgroups => ih (fun x hx => h x (List.mem_cons_of_mem s hx)) _
        (grouped_addToGroup (h s List.mem_cons_self) hgroups)
  exact hfold [] nofun

/-! ## Every run -/

theorem Account.nodup {window : ℚ} {w : World} (h : Account window w) :
    (w.account.map Sample.number).Nodup := by
  rw [h.balanced, Multiset.map_coe, Multiset.coe_nodup, h.numbered]
  exact List.nodup_range

/-- Samples that are in the account at once have different numbers. -/
theorem Account.nodup_of_le {window : ℚ} {w : World} (h : Account window w) {samples : List Sample}
    (hle : (samples : Multiset Sample) ≤ w.account) : (samples.map Sample.number).Nodup := by
  have hmap := Multiset.nodup_of_le (Multiset.map_le_map hle) h.nodup
  rwa [Multiset.map_coe, Multiset.coe_nodup] at hmap

theorem inserted_le_account (w : World) : (w.shared.inserted : Multiset Sample) ≤ w.account := by
  refine le_trans ?_ (Multiset.le_add_right _ _)
  refine le_trans ?_ (Multiset.le_add_right _ _)
  refine le_trans ?_ (Multiset.le_add_right _ _)
  exact Multiset.le_add_left _ _

/-- A buffer and the inserted rows are in the account at once. -/
theorem buffer_inserted_le_account {w : World} {process : ℕ} {buffer : List Sample}
    (h : w.shared.buffers[process]? = some buffer) :
    (w.shared.inserted : Multiset Sample) + buffer ≤ w.account := by
  have hbuffer : (buffer : Multiset Sample) ≤ (w.shared.buffers.map Multiset.ofList).sum := by
    have hset := account_set h []
    rw [Multiset.coe_nil, add_zero] at hset
    exact hset ▸ Multiset.le_add_left _ _
  refine le_trans ?_ (Multiset.le_add_right _ _)
  refine le_trans ?_ (Multiset.le_add_right _ _)
  refine le_trans ?_ (Multiset.le_add_right _ _)
  rw [add_comm]
  exact add_le_add_left hbuffer _

/-- What a task comes to rely on. -/
theorem sound_of_turn {window : ℚ} {w : World} (hw : Account window w) {t t' : Task}
    (ht : t.Sound w.shared) {outcome : Outcome} {s' : Shared}
    (h : turn window w.shared t outcome = some (s', t')) : t'.Sound s' := by
  cases t with
  | recording process db group values now =>
    obtain ⟨buffer, -, heq⟩ := Option.map_eq_some_iff.mp h
    split_ifs at heq
    · obtain ⟨-, rfl⟩ := Prod.mk.inj heq
      trivial
    · obtain ⟨-, rfl⟩ := Prod.mk.inj heq
      trivial
  | flushing process db now =>
    obtain ⟨buffer, -, heq⟩ := Option.map_eq_some_iff.mp h
    obtain ⟨rfl, rfl⟩ := Prod.mk.inj heq
    refine ⟨ht, grouped_groupsOf fun x hx => ?_⟩
    exact of_decide_eq_true (List.mem_filter.mp (List.mem_of_mem_filter hx)).2
  | writing process db now groups written =>
    cases groups with
    | nil =>
      obtain ⟨-, rfl⟩ := Prod.mk.inj (Option.some.inj h)
      trivial
    | cons entry rest =>
      have hrest : Grouped db rest := fun e he => ht.2 e (List.mem_cons_of_mem entry he)
      cases outcome with
      | ok =>
        obtain ⟨rfl, rfl⟩ := Prod.mk.inj (Option.some.inj h)
        exact ⟨ht.1, hrest⟩
      | locked =>
        obtain ⟨-, rfl⟩ := Prod.mk.inj (Option.some.inj h)
        trivial
      | failed =>
        obtain ⟨rfl, rfl⟩ := Prod.mk.inj (Option.some.inj h)
        exact ⟨ht.1, hrest⟩
  | returning process samples written =>
    obtain ⟨buffer, -, heq⟩ := Option.map_eq_some_iff.mp h
    obtain ⟨-, rfl⟩ := Prod.mk.inj heq
    trivial
  | flushed written => cases h
  -- What is read off a table was inserted, and it is not read again.
  | reading process db group now =>
    cases outcome with
    | ok =>
      obtain ⟨rfl, rfl⟩ := Prod.mk.inj (Option.some.inj h)
      exact List.filter_sublist.trans (hw.rows db)
    | locked =>
      obtain ⟨-, rfl⟩ := Prod.mk.inj (Option.some.inj h)
      trivial
    | failed =>
      obtain ⟨-, rfl⟩ := Prod.mk.inj (Option.some.inj h)
      trivial
  | carrying process db group now rows =>
    cases outcome with
    | ok =>
      obtain ⟨rfl, rfl⟩ := Prod.mk.inj (Option.some.inj h)
      exact ht
    | locked =>
      obtain ⟨-, rfl⟩ := Prod.mk.inj (Option.some.inj h)
      trivial
    | failed =>
      obtain ⟨-, rfl⟩ := Prod.mk.inj (Option.some.inj h)
      trivial
  | counting process db group now rows carried =>
    obtain ⟨buffer, hbuffer, heq⟩ := Option.map_eq_some_iff.mp h
    obtain ⟨-, rfl⟩ := Prod.mk.inj heq
    -- The rows were inserted, and what was inserted is in no buffer.
    refine ⟨hw.nodup_of_le (le_trans ?_ (buffer_inserted_le_account hbuffer)), rfl⟩
    rw [← Multiset.coe_add]
    exact add_le_add (Multiset.coe_le.mpr ht.subperm)
      (Multiset.coe_le.mpr List.filter_sublist.subperm)
  | counted rows buffered state => cases h
  | done => cases h

/-- A call that begins reads its clock. -/
theorem Account.begin {window : ℚ} {w : World} (h : Account window w) (now : ℚ) {t : Task}
    (hheld : t.held = []) (ht : t.Sound (w.begin now t).shared) : Account window (w.begin now t) := by
  have hgrows : Grows w.shared (w.begin now t).shared :=
    ⟨fun _ h => List.mem_append_left _ h, List.Sublist.refl _⟩
  refine ⟨?_, h.numbered, fun x hx => (h.aged x hx).mono hgrows, h.rows, fun x hx => ?_, ?_⟩
  · -- The new task holds nothing.
    have hbalanced := h.balanced
    show w.shared.account + ((w.tasks ++ [t]).map _).sum = _
    rw [List.map_append, List.sum_append, List.map_singleton, List.sum_singleton, hheld]
    exact (add_assoc _ _ _).symm.trans ((add_zero _).trans hbalanced)
  · exact Found.mono hgrows .inl (h.found x hx)
  · intro t' ht'
    rcases List.mem_append.mp ht' with hold | hnew
    · exact (h.tasks t' hold).mono hgrows
    · exact List.mem_singleton.mp hnew ▸ ht

theorem Account.step {window : ℚ} {w w' : World} {a : Act} (h : Account window w)
    (hstep : step window w a = some w') : Account window w' := by
  have hreading : ∀ now t, now ∈ (w.begin now t).shared.readings :=
    fun now _ => List.mem_append_right _ List.mem_cons_self
  cases a with
  | recordMany process db group values now =>
    obtain rfl := Option.some.inj hstep
    exact h.begin now rfl (hreading now _)
  | flush process db now =>
    obtain rfl := Option.some.inj hstep
    exact h.begin now rfl (hreading now _)
  | state process db group now =>
    obtain rfl := Option.some.inj hstep
    exact h.begin now rfl trivial
  | turn i outcome =>
    obtain ⟨t, ht, hturn⟩ := Option.bind_eq_some_iff.mp hstep
    obtain ⟨⟨s', t'⟩, hmoves, rfl⟩ := Option.map_eq_some_iff.mp hturn
    have hsound := h.tasks t (List.mem_of_getElem? ht)
    have hmove := moves_of_turn hmoves
    obtain ⟨news, hrecorded, haccount⟩ := hmove.account
    refine ⟨?_, hmove.numbered h.numbered, hmove.aged hsound h.aged, hmove.rows h.rows,
      hmove.found hsound h.found, fun u hu => ?_⟩
    · -- What the step moves is between the shared part and one task.
      have hset := sum_set (fun t : Task => (t.held : Multiset Sample)) ht t'
      have hbalanced := h.balanced
      refine Multiset.ext' fun x => ?_
      replace hset := congrArg (Multiset.count x) hset
      replace haccount := congrArg (Multiset.count x) haccount
      replace hbalanced := congrArg (Multiset.count x) hbalanced
      simp only [World.account, hrecorded, ← Multiset.coe_add, Multiset.count_add]
        at hset haccount hbalanced ⊢
      omega
    · rcases List.mem_or_eq_of_mem_set hu with hold | rfl
      · exact (h.tasks u hold).mono hmove.grows
      · exact sound_of_turn h hsound hmoves

theorem account_of_reach {window : ℚ} {w : World} (h : (machine window).Reachable w) :
    Account window w := by
  refine h.invariant (fun w hw => ?_) fun w a w' hI _ hstep => hI.step hstep
  obtain ⟨⟨n, hshared⟩, htasks⟩ := hw
  obtain ⟨shared, tasks⟩ := w
  subst hshared htasks
  refine ⟨?_, rfl, nofun, fun _ => List.Sublist.refl _, nofun, nofun⟩
  simp [World.account, Shared.account]

/-- What becomes of the samples, in every state that is reached. -/
structure CountedOnce (window : ℚ) (w : World) : Prop where
  once : (w.shared.inserted.map Sample.number).Nodup
  kept : ∀ x ∈ w.shared.recorded, (∀ t ∈ w.tasks, x ∉ t.held) →
    (∃ buffer ∈ w.shared.buffers, x ∈ buffer) ∨ x ∈ (w.shared.databases x.db).rows ∨
      Expired window w.shared x ∨ x ∈ w.shared.dropped ∨ Retired w.shared x
  state : ∀ rows buffered state, .counted rows buffered state ∈ w.tasks →
    ((rows ++ buffered).map Sample.number).Nodup ∧
      state.sums = (windowSums (rows.map Sample.value)).add (buffered.map Sample.value)

theorem mem_sum {α : Type} {f : α → Multiset Sample} {l : List α} {x : Sample} :
    x ∈ (l.map f).sum ↔ ∃ a ∈ l, x ∈ f a := by
  induction l with
  | nil => simp
  | cons a l ih => simp [ih]

theorem Account.countedOnce {window : ℚ} {w : World} (h : Account window w) :
    CountedOnce window w := by
  refine ⟨h.nodup_of_le (inserted_le_account w), fun x hx hheld => ?_, fun rows buffered state ht =>
    h.tasks _ ht⟩
  have hmem : x ∈ w.account := h.balanced ▸ Multiset.mem_coe.mpr hx
  simp only [World.account, Shared.account, Multiset.mem_add, mem_sum, Multiset.mem_coe] at hmem
  -- Each recorded sample is in one part of the account.
  rcases hmem with (((hbuffer | hinserted) | haged) | hdropped) | ⟨t, ht, hin⟩
  · exact .inl hbuffer
  · rcases h.found x hinserted with hrow | hexpired | hretired
    · exact .inr (.inl hrow)
    · exact .inr (.inr (.inl hexpired))
    · exact .inr (.inr (.inr (.inr hretired)))
  · exact .inr (.inr (.inl (h.aged x haged)))
  · exact .inr (.inr (.inr (.inl hdropped)))
  · exact absurd hin (hheld t ht)

/-! ## Estimates -/

/-- The sizes that are recorded are from one on. -/
def Sized (_ : World) : Act → Prop
  | .recordMany _ _ _ values _ => ∀ v ∈ values, 1 ≤ v.1
  | _ => True

/-- What a task relies on where the sizes are from one on. -/
def Task.Fits : Task → Prop
  | .recording _ _ _ values _ => ∀ v ∈ values, 1 ≤ v.1
  | .counting _ _ _ _ _ carried => ∀ c ∈ carried, c.fit.Nonneg
  | .counted _ _ state => ∀ e ∈ state.estimate, e.fit.Nonneg
  | _ => True

/-- Nothing that is carried is negative. -/
structure Fitted (w : World) : Prop where
  samples : ∀ x ∈ w.shared.recorded, IsSample x.value
  carried : ∀ db k c, (w.shared.databases db).carried.get? k = some c → c.fit.Nonneg
  tasks : ∀ t ∈ w.tasks, t.Fits

/-- What a write carries over is not negative. -/
theorem carried_recordCostSamples {window : ℚ} {d : Database} {k : SeriesKey} {samples : List Sample}
    {now : ℚ} (hsamples : ∀ x ∈ d.rows ++ samples, IsSample x.value)
    (hcarried : ∀ k c, d.carried.get? k = some c → c.fit.Nonneg) :
    ∀ k' c, (recordCostSamples window d k samples now).carried.get? k' = some c → c.fit.Nonneg := by
  intro k' c hc
  unfold recordCostSamples at hc
  dsimp only at hc
  split_ifs at hc with hshape
  · rw [Dict.get?_filterMap] at hc
    obtain ⟨c', hc', hsome⟩ := Option.bind_eq_some_iff.mp hc
    split_ifs at hsome
    obtain rfl := Option.some.inj hsome
    exact hcarried k' _ hc'
  · split at hc
    next => exact hcarried k' c hc
    next estimate hestimate =>
      rw [Dict.get?_set] at hc
      split_ifs at hc
      · obtain rfl := Option.some.inj hc
        refine estimate_nonneg (fun p hp => ?_) (hcarried k) hestimate
        obtain ⟨x, hx, rfl⟩ := List.mem_map.mp hp
        exact hsamples x (List.mem_of_mem_filter (List.mem_of_mem_filter hx))
      · exact hcarried k' c hc

theorem mem_number {db : Text} {group : SeriesKey} {now : ℚ} {n : ℕ} {values : List (ℤ × ℚ)}
    {x : Sample} (hx : x ∈ number db group now n values) :
    ∃ v ∈ values, x.x = v.1 ∧ x.seconds = max 0 v.2 := by
  induction values generalizing n with
  | nil => cases hx
  | cons v values ih =>
    rcases List.mem_cons.mp hx with rfl | hx
    · exact ⟨v, List.mem_cons_self, rfl, rfl⟩
    · obtain ⟨v', hv', heq⟩ := ih hx
      exact ⟨v', List.mem_cons_of_mem v hv', heq⟩

/-- What is inserted, held or in a buffer was recorded. -/
theorem Account.recorded {window : ℚ} {w : World} (h : Account window w) {x : Sample}
    (hx : x ∈ w.account) : x ∈ w.shared.recorded :=
  Multiset.mem_coe.mp (h.balanced ▸ hx)

theorem Moves.samples {window : ℚ} {s s' : Shared} {t t' : Task} (h : Moves window s t s' t')
    (ht : t.Fits) (hsamples : ∀ x ∈ s.recorded, IsSample x.value) :
    ∀ x ∈ s'.recorded, IsSample x.value := by
  cases h with
  | record hbuffer =>
    intro x hx
    rcases List.mem_append.mp hx with hold | hnew
    · exact hsamples x hold
    · obtain ⟨v, hv, hx, hseconds⟩ := mem_number hnew
      exact ⟨(ht v hv).trans_eq hx.symm, (le_max_left 0 v.2).trans_eq hseconds.symm⟩
  | quiet => exact hsamples
  | take => exact hsamples
  | write => exact hsamples
  | drop => exact hsamples
  | putBack => exact hsamples

/-- A write carries over what is not negative, to a table whose rows were recorded. -/
theorem Moves.carried {window : ℚ} {w : World} (hw : Account window w) (hfitted : Fitted w)
    {s' : Shared} {t t' : Task} (hmem : t ∈ w.tasks) (h : Moves window w.shared t s' t') :
    ∀ db k c, (s'.databases db).carried.get? k = some c → c.fit.Nonneg := by
  cases h with
  | @write process db now k group rest written =>
    intro db' k' c hc
    simp only [Shared.write] at hc
    by_cases hdb : db' = db
    · subst hdb
      rw [Function.update_self] at hc
      refine carried_recordCostSamples (fun x hx => hfitted.samples x (hw.recorded ?_))
        (hfitted.carried db') k' c hc
      -- The rows of the table were inserted, and the group was held by the task.
      rcases List.mem_append.mp hx with hrow | hgroup
      · exact Multiset.mem_of_le (inserted_le_account w) ((hw.rows db').subset hrow)
      · refine Multiset.mem_add.mpr (.inr (mem_sum.mpr ⟨_, hmem, ?_⟩))
        exact List.mem_append_left _ hgroup
    · rw [Function.update_of_ne hdb] at hc
      exact hfitted.carried db' k' c hc
  | quiet => exact hfitted.carried
  | record => exact hfitted.carried
  | take => exact hfitted.carried
  | drop => exact hfitted.carried
  | putBack => exact hfitted.carried

theorem fits_of_turn {window : ℚ} {w : World} (hw : Account window w) (hfitted : Fitted w)
    {t t' : Task} (hmem : t ∈ w.tasks) {outcome : Outcome} {s' : Shared}
    (h : turn window w.shared t outcome = some (s', t')) : t'.Fits := by
  cases t with
  | recording process db group values now =>
    obtain ⟨buffer, -, heq⟩ := Option.map_eq_some_iff.mp h
    split_ifs at heq <;>
    · obtain ⟨-, rfl⟩ := Prod.mk.inj heq
      trivial
  | flushing process db now =>
    obtain ⟨buffer, -, heq⟩ := Option.map_eq_some_iff.mp h
    obtain ⟨-, rfl⟩ := Prod.mk.inj heq
    trivial
  | writing process db now groups written =>
    cases groups with
    | nil =>
      obtain ⟨-, rfl⟩ := Prod.mk.inj (Option.some.inj h)
      trivial
    | cons entry rest =>
      cases outcome <;>
      · obtain ⟨-, rfl⟩ := Prod.mk.inj (Option.some.inj h)
        trivial
  | returning process samples written =>
    obtain ⟨buffer, -, heq⟩ := Option.map_eq_some_iff.mp h
    obtain ⟨-, rfl⟩ := Prod.mk.inj heq
    trivial
  | flushed written => cases h
  | reading process db group now =>
    cases outcome <;>
    · obtain ⟨-, rfl⟩ := Prod.mk.inj (Option.some.inj h)
      trivial
  | carrying process db group now rows =>
    cases outcome with
    | ok =>
      obtain ⟨-, rfl⟩ := Prod.mk.inj (Option.some.inj h)
      exact fun c hc => hfitted.carried db group c hc
    | locked =>
      obtain ⟨-, rfl⟩ := Prod.mk.inj (Option.some.inj h)
      trivial
    | failed =>
      obtain ⟨-, rfl⟩ := Prod.mk.inj (Option.some.inj h)
      trivial
  | counting process db group now rows carried =>
    obtain ⟨buffer, hbuffer, heq⟩ := Option.map_eq_some_iff.mp h
    obtain ⟨-, rfl⟩ := Prod.mk.inj heq
    -- What is counted was recorded, with a size from one on and without negative seconds.
    have hboth : ∀ x ∈ (w.shared.inserted : Multiset Sample) + buffer, IsSample x.value :=
      fun x hx => hfitted.samples x
        (hw.recorded (Multiset.mem_of_le (buffer_inserted_le_account hbuffer) hx))
    intro e he
    refine (estimates_of_samples carried fun p hp => ?_).nonneg (hfitted.tasks _ hmem) e he
    rcases List.mem_append.mp hp with hrow | hbuffered
    · obtain ⟨x, hx, rfl⟩ := List.mem_map.mp hrow
      have hrows : rows.Sublist w.shared.inserted := hw.tasks _ hmem
      exact hboth x (Multiset.mem_add.mpr (.inl (hrows.subset hx)))
    · obtain ⟨x, hx, rfl⟩ := List.mem_map.mp hbuffered
      exact hboth x (Multiset.mem_add.mpr (.inr (List.mem_of_mem_filter hx)))
  | counted rows buffered state => cases h
  | done => cases h

theorem Fitted.step {window : ℚ} {w w' : World} {a : Act} (h : Fitted w) (hw : Account window w)
    (hsized : Sized w a) (hstep : step window w a = some w') : Fitted w' := by
  have hbegin : ∀ now t, t.Fits → Fitted (w.begin now t) := by
    refine fun now t ht => ⟨h.samples, h.carried, fun t' ht' => ?_⟩
    rcases List.mem_append.mp ht' with hold | hnew
    · exact h.tasks t' hold
    · exact List.mem_singleton.mp hnew ▸ ht
  cases a with
  | recordMany process db group values now =>
    obtain rfl := Option.some.inj hstep
    exact hbegin now _ hsized
  | flush process db now =>
    obtain rfl := Option.some.inj hstep
    exact hbegin now _ trivial
  | state process db group now =>
    obtain rfl := Option.some.inj hstep
    exact hbegin now _ trivial
  | turn i outcome =>
    obtain ⟨t, ht, hturn⟩ := Option.bind_eq_some_iff.mp hstep
    obtain ⟨⟨s', t'⟩, hmoves, rfl⟩ := Option.map_eq_some_iff.mp hturn
    have hmem := List.mem_of_getElem? ht
    have hmove := moves_of_turn hmoves
    refine ⟨hmove.samples (h.tasks t hmem) h.samples, hmove.carried hw h hmem, fun u hu => ?_⟩
    rcases List.mem_or_eq_of_mem_set hu with hold | rfl
    · exact h.tasks u hold
    · exact fits_of_turn hw h hmem hmoves

theorem fitted_of_reach {window : ℚ} {w : World} (h : (machine window).Reach Sized w) :
    Fitted w := by
  refine (h.invariant (I := fun w => Account window w ∧ Fitted w) (fun w hw => ?_)
    fun w a w' hI hsized hstep => ⟨hI.1.step hstep, hI.2.step hI.1 hsized hstep⟩).2
  refine ⟨account_of_reach (.init hw), ?_⟩
  obtain ⟨⟨n, hshared⟩, htasks⟩ := hw
  obtain ⟨shared, tasks⟩ := w
  subst hshared htasks
  exact ⟨nofun, nofun, nofun⟩

/-- In every run each sample is inserted at most once and lost by its age or its group's failure
alone, and no state counts it twice. The estimates of sizes from one on are not negative, do not
depend on where the samples are, and are the line of least squares where that can be one. -/
theorem samples_counted_once (window : ℚ) :
    (∀ w, (machine window).Reachable w → CountedOnce window w) ∧
    (∀ w, (machine window).Reach Sized w → ∀ rows buffered state,
      .counted rows buffered state ∈ w.tasks → ∀ e ∈ state.estimate, e.fit.Nonneg) ∧
    ∀ carried rows buffered, (∀ p ∈ rows ++ buffered, IsSample p) →
      Estimates carried rows buffered :=
  ⟨fun _ h => (account_of_reach h).countedOnce, fun _ h _ _ _ ht => (fitted_of_reach h).tasks _ ht,
    fun carried _ _ => estimates_of_samples carried⟩

end Companion.Memory.CostSeries

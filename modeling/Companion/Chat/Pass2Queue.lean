import Companion.Kindled.Json
import Companion.Memory.Text
import Companion.Runs
import Mathlib.Data.List.Infix
import Mathlib.Data.List.Nodup

/-!
# The queue of second passes

The queue file of `brain/chat/pass2_queue.py`. The caller that holds the queue lock has read the
file and is about to write it. The caller that holds the drain lock looks at the head, dispatches it
and takes it out by its id, each under the queue lock on its own, so that others append in between.

Neither `_dispatch` nor the removal is prepared for what is no record, and a record that cannot be
taken out is dispatched first: such a file keeps whatever is behind from being dispatched
(`number_blocks`). With proper records of ids of their own, the queue delivers (`queue_delivers`).

Reads of the file succeed, and a write comes out whole or not at all. Both locks are exclusive, and
a process that stops lets go of its locks.
-/

namespace Companion.Chat.Pass2Queue

open Companion.Kindled (Json FloatValue)
open Companion.Memory (Text)
open Companion.Runs

/-! ## Values -/

/-- What the file holds at a place. -/
abbrev Item := Json Text

/-- What a value counts as in `==`. -/
def numeric : Item → Option FloatValue
  | .bool b => some (.finite (if b then 1 else 0))
  | .int n => some (.finite n)
  | .float x => some x
  | _ => none

/-- `==` of numbers. -/
def sameNumber : FloatValue → FloatValue → Bool
  | .nan, _ => false
  | x, y => x = y

mutual

/-- `==` -/
def same : Item → Item → Bool
  | .arr xs, .arr ys => sameItems xs ys
  | .obj xs, .obj ys => xs.length == ys.length && sameFields xs ys
  | .null, .null => true
  | .str s, .str t => s = t
  | x, y => ((numeric x).bind fun u => (numeric y).map fun v => sameNumber u v).getD false

def sameItems : List Item → List Item → Bool
  | [], [] => true
  | x :: xs, y :: ys => same x y && sameItems xs ys
  | _, _ => false

/-- Each of the fields is one of the others. -/
def sameFields : List (Text × Item) → List (Text × Item) → Bool
  | [], _ => true
  | (k, v) :: xs, ys => (ys.lookup k).any (fun w => same v w) && sameFields xs ys

end

mutual

/-- `json.dumps(allow_nan=False)` takes the value. -/
def strict : Item → Bool
  | .float (.finite _) => true
  | .float _ => false
  | .arr items => strictItems items
  | .obj fields => strictFields fields
  | _ => true

def strictItems : List Item → Bool
  | [] => true
  | x :: xs => strict x && strictItems xs

def strictFields : List (Text × Item) → Bool
  | [] => true
  | (_, v) :: xs => strict v && strictFields xs

end

/-- The value can be the key of a dictionary. -/
def hashable : Item → Bool
  | .arr _ => false
  | .obj _ => false
  | _ => true

/-- `record.get("id")` -/
def idOf (record : Item) : Item := (record.get? "id".toList).getD .null

/-- `record.get("kind") == kind` -/
def kindIs (record : Item) (kind : String) : Bool :=
  match record.get? "kind".toList with
  | some (.str k) => k = kind.toList
  | _ => false

/-! ## What is done under the locks -/

/-- `_MAX_QUEUE` -/
def maxQueue : ℕ := 200

/-- What `enqueue` writes, with the oldest item where it drops it, or none where it raises. -/
def appended (items : List Item) (record : Item) : Option (Option Item × List Item) :=
  if maxQueue ≤ items.length then
    match items with
    | oldest :: rest => if oldest.isObject then some (some oldest, rest ++ [record]) else none
    | [] => none
  else some (none, items ++ [record])

/-- What `_pop_by_id_locked` writes, or none where it raises. -/
def popped (items : List Item) (itemId : Item) : Option (List Item) :=
  if items.all Json.isObject then some (items.filter fun it => !same (idOf it) itemId) else none

/-- What the work of an item comes to. -/
inductive Outcome
  | done
  | failed
  | refused

/-- How `_dispatch` ends. -/
inductive Ran
  | returned
  | refused
  | raised

/-- `_dispatch` -/
def dispatch (record : Item) (outcome : Outcome) : Ran :=
  if !record.isObject then .raised
  else if kindIs record "monologue" || kindIs record "attunement" then
    match outcome with
    | .refused => .refused
    | _ => .returned
  else if kindIs record "test_probe" then
    if hashable (idOf record) then .returned else .raised
  else .returned

/-! ## The callers -/

structure Caller where
  process : ℕ
  thread : ℕ
  deriving DecidableEq

/-- What the queue lock is held for. -/
inductive Purpose
  | append (record : Item)
  | pop (itemId : Item)

/-- The caller that holds the queue lock, with the items that it has read. -/
structure Writer where
  caller : Caller
  purpose : Purpose
  items : List Item

/-- Where a drain is in its loop. -/
inductive Stage
  | peek
  | running (item : Item)
  | ran (item : Item)
  | popped

/-- The item that is dispatched to completion and not yet removed. -/
def Stage.unremoved : Stage → Option Item
  | .ran item => some item
  | _ => none

/-- The item that is dispatched and not yet removed. -/
def Stage.handled : Stage → Option Item
  | .running item => some item
  | .ran item => some item
  | _ => none

/-- The caller that holds the drain lock. -/
structure Drainer where
  caller : Caller
  done : ℕ
  stage : Stage

/-- What has happened. -/
inductive Event
  | enqueued (record : Item)
  /-- An item is dropped as the oldest of those held. -/
  | dropped (item : Item) (held : List Item)
  | dispatched (item : Item)
  | completed (item : Item)
  | refused (item : Item)
  /-- A process stops, or a write fails, after the item is completed and before it is removed. -/
  | interrupted (item : Item)
  | returned (done : ℕ)

structure World where
  file : List Item
  queueLock : Option Writer
  drainLock : Option Drainer
  log : List Event

inductive Act
  | enqueue (caller : Caller) (record : Item)
  | drain (caller : Caller)
  /-- The drain reads the file and takes the head. -/
  | peek
  | run (outcome : Outcome)
  /-- The drain takes the queue lock and reads the file, to take its item out. -/
  | pop
  /-- The holder of the queue lock writes, and lets go of it. -/
  | save (written : Bool)
  /-- `should_pause` and `time_budget_s` are asked. -/
  | pause (stop : Bool)
  | stop (process : ℕ)

namespace World

/-- `enqueue` raises, or its write fails. -/
def abandon (w : World) : World := { w with queueLock := none }

/-- The drain is over by an exception. -/
def leave (w : World) : World := { w with queueLock := none, drainLock := none }

def unremoved (w : World) : Option Item := w.drainLock.bind fun drainer => drainer.stage.unremoved

/-- The item that is dispatched and not yet removed. -/
def handled (w : World) : Option Item := w.drainLock.bind fun drainer => drainer.stage.handled

end World

/-- The events of an append to these items. -/
def appendEvents (items : List Item) (oldest : Option Item) (record : Item) : List Event :=
  oldest.toList.map (fun item => .dropped item items) ++ [.enqueued record]

/-- The write of `enqueue`. -/
def saveAppended (w : World) (writer : Writer) (record : Item) (written : Bool) : World :=
  match appended writer.items record with
  | some (oldest, items) =>
    if written && items.all strict then
      { w with
        file := items
        queueLock := none
        log := w.log ++ appendEvents writer.items oldest record }
    else w.abandon
  | none => w.abandon

/-- The write of `_pop_by_id_locked`, after which the loop goes on. -/
def savePopped (w : World) (writer : Writer) (itemId : Item) (written : Bool) : Option World :=
  match w.drainLock with
  | some ⟨caller, done, .ran item⟩ =>
    match popped writer.items itemId with
    | some items =>
      if written && items.all strict then
        some { w with
          file := items
          queueLock := none
          drainLock := some ⟨caller, done + 1, .popped⟩ }
      else some { w.leave with log := w.log ++ [.interrupted item] }
    | none => some w.leave
  | _ => none

def step (w : World) : Act → Option World
  | .enqueue caller record =>
    match w.queueLock with
    | none => some { w with queueLock := some ⟨caller, .append record, w.file⟩ }
    | some _ => none
  | .save written =>
    match w.queueLock with
    | some writer =>
      match writer.purpose with
      | .append record => some (saveAppended w writer record written)
      | .pop itemId => savePopped w writer itemId written
    | none => none
  | .drain caller =>
    match w.drainLock with
    | none => some { w with drainLock := some ⟨caller, 0, .peek⟩ }
    | some _ => some w
  | .peek =>
    match w.drainLock, w.queueLock with
    | some ⟨caller, done, .peek⟩, none =>
      match w.file with
      | [] => some { w with drainLock := none, log := w.log ++ [.returned done] }
      | item :: _ =>
        some { w with
          drainLock := some ⟨caller, done, .running item⟩
          log := w.log ++ [.dispatched item] }
    | _, _ => none
  | .run outcome =>
    match w.drainLock with
    | some ⟨caller, done, .running item⟩ =>
      match dispatch item outcome with
      | .returned =>
        some { w with
          drainLock := some ⟨caller, done, .ran item⟩
          log := w.log ++ [.completed item] }
      | .refused => some { w with drainLock := none, log := w.log ++ [.refused item] }
      | .raised => some { w with drainLock := none }
    | _ => none
  | .pop =>
    match w.drainLock, w.queueLock with
    | some ⟨caller, _, .ran item⟩, none =>
      match item.get? "id".toList with
      | some itemId => some { w with queueLock := some ⟨caller, .pop itemId, w.file⟩ }
      | none => some { w with drainLock := none }
    | _, _ => none
  | .pause stop =>
    match w.drainLock with
    | some ⟨caller, done, .popped⟩ =>
      if stop then some { w with drainLock := none, log := w.log ++ [.returned done] }
      else some { w with drainLock := some ⟨caller, done, .peek⟩ }
    | _ => none
  | .stop process =>
    some { w with
      queueLock := w.queueLock.filter fun writer => writer.caller.process ≠ process
      drainLock := w.drainLock.filter fun drainer => drainer.caller.process ≠ process
      log := w.log ++
        if w.drainLock.any fun drainer => drainer.caller.process = process then
          w.unremoved.toList.map .interrupted
        else [] }

/-! ## Runs -/

/-- The records in the order in which they came. -/
def arrivals (log : List Event) : List Item :=
  log.filterMap fun
    | .enqueued record => some record
    | _ => none

/-- The items in the order in which they were dispatched. -/
def dispatches (log : List Event) : List Item :=
  log.filterMap fun
    | .dispatched item => some item
    | _ => none

/-- The item that was refused, if none has been dispatched since. -/
def refusedLast (log : List Event) : Option Item :=
  log.foldl (fun last event =>
    match event with
    | .refused item => some item
    | .dispatched _ => none
    | _ => last) none

/-- The items of the file at the start count as enqueued before. -/
def start (items : List Item) : World := ⟨items, none, none, items.map .enqueued⟩

/-- The callers on a file with these items. -/
def queue (items : List Item) : Machine World Act where
  init w := w = start items
  step := step

/-- The queue has delivered in order and has lost nothing. -/
structure Delivered (items : List Item) (w : World) : Prop where
  kept : ∀ x ∈ arrivals w.log,
    x ∈ w.file ∨ .completed x ∈ w.log ∨ ∃ held, .dropped x held ∈ w.log
  oldest : ∀ x held, .dropped x held ∈ w.log → held.head? = some x ∧ maxQueue ≤ held.length
  ordered : (dispatches w.log).Pairwise fun x y => x = y ∨ [x, y].Sublist (arrivals w.log)
  /-- Between two completions of an item it has been interrupted. -/
  once : ∀ x l l' l'', w.log = l ++ .completed x :: (l' ++ .completed x :: l'') →
    .interrupted x ∈ l'
  refused : ∀ x, refusedLast w.log = some x →
    w.file.head? = some x ∨ ∃ held, .dropped x held ∈ w.log
  /-- Whatever is in the file can still be completed. -/
  behind : ∃ as w', (queue items).runWithin (fun _ _ => True) w as = some w' ∧ w'.file = [] ∧
    ∀ x ∈ w.file, .completed x ∈ w'.log

/-! ## Proper records -/

/-- An object with an id that equals itself, no number that is not finite, and, for a probe, an id
that can be looked up. -/
def proper (record : Item) : Bool :=
  match record.get? "id".toList with
  | some itemId =>
    same itemId itemId && strict record && (!kindIs record "test_probe" || hashable itemId)
  | none => false

/-- The id is one that none of these records has. -/
def newAmong (records : List Item) (record : Item) : Bool :=
  records.all fun x => !same (idOf record) (idOf x)

/-- Proper records, each with an id of its own. -/
def properQueue (items : List Item) : Bool :=
  items.all proper && items.Pairwise fun x y => same (idOf y) (idOf x) = false

/-- A record that is enqueued is proper, and its id is fresh. -/
def Fresh (w : World) : Act → Prop
  | .enqueue _ record => proper record = true ∧ newAmong (arrivals w.log) record = true
  | _ => True

instance (w : World) (a : Act) : Decidable (Fresh w a) := by
  unfold Fresh
  split <;> infer_instance

theorem isObject_of_get? {record i : Item} {key : Text} (h : record.get? key = some i) :
    record.isObject = true := by
  cases record with
  | obj items => rfl
  | _ => cases h

/-- What makes a record proper. -/
theorem proper_cases {record : Item} (h : proper record = true) :
    ∃ itemId, record.get? "id".toList = some itemId ∧ same itemId itemId = true ∧
      strict record = true ∧ (kindIs record "test_probe" = true → hashable itemId = true) := by
  unfold proper at h
  split at h
  next itemId hid =>
    simp only [Bool.and_eq_true, Bool.or_eq_true, Bool.not_eq_true'] at h
    refine ⟨itemId, hid, h.1.1, h.1.2, fun hkind => ?_⟩
    exact h.2.resolve_left (by simp [hkind])
  next => cases h

theorem isObject_of_proper {record : Item} (h : proper record = true) :
    record.isObject = true := by
  obtain ⟨itemId, hid, -⟩ := proper_cases h
  exact isObject_of_get? hid

theorem same_idOf_self {record : Item} (h : proper record = true) :
    same (idOf record) (idOf record) = true := by
  obtain ⟨itemId, hid, hsame, -⟩ := proper_cases h
  rwa [idOf, hid, Option.getD_some]

theorem not_mem_of_newAmong {records : List Item} {record : Item} (h : proper record = true)
    (hnew : newAmong records record = true) : record ∉ records := by
  intro hmem
  have hne := List.all_eq_true.mp hnew record hmem
  rw [same_idOf_self h] at hne
  cases hne

@[simp] theorem arrivals_append (log log' : List Event) :
    arrivals (log ++ log') = arrivals log ++ arrivals log' := List.filterMap_append ..

@[simp] theorem dispatches_append (log log' : List Event) :
    dispatches (log ++ log') = dispatches log ++ dispatches log' := List.filterMap_append ..

theorem arrivals_enqueued (items : List Item) : arrivals (items.map .enqueued) = items := by
  induction items with
  | nil => rfl
  | cons x items ih => exact congrArg (x :: ·) ih

theorem arrivals_dropped (items held : List Item) :
    arrivals (items.map fun item => .dropped item held) = [] := by
  induction items with
  | nil => rfl
  | cons x items ih => exact ih

/-- What the file and the log have in common. -/
structure Records (file : List Item) (log : List Event) : Prop where
  suffix : file <:+ arrivals log
  sound : ∀ x ∈ arrivals log, proper x = true
  own : (arrivals log).Pairwise fun x y => same (idOf y) (idOf x) = false
  kept : ∀ x ∈ arrivals log, x ∈ file ∨ .completed x ∈ log ∨ ∃ held, .dropped x held ∈ log
  oldest : ∀ x held, .dropped x held ∈ log → held.head? = some x ∧ maxQueue ≤ held.length

/-- The record is at the head of the file, unless it has been dropped. -/
def Front (file : List Item) (log : List Event) (x : Item) : Prop :=
  x ∈ arrivals log ∧ (file.head? = some x ∨ x ∉ file ∧ ∃ held, .dropped x held ∈ log)

variable {file file' : List Item} {log : List Event} {x r : Item}

namespace Records

theorem mem (h : Records file log) (hx : x ∈ file) : x ∈ arrivals log := h.suffix.subset hx

theorem nodup (h : Records file log) : (arrivals log).Nodup := by
  refine h.own.imp_of_mem fun {x y} hx _ hne => ?_
  rintro rfl
  rw [same_idOf_self (h.sound x hx)] at hne
  cases hne

theorem nodup_file (h : Records file log) : file.Nodup := h.nodup.sublist h.suffix.sublist

/-- A record that has left the file came before those in it. -/
theorem before (h : Records file log) (hx : x ∈ arrivals log) (hout : x ∉ file) {y : Item}
    (hy : y ∈ file) : [x, y].Sublist (arrivals log) := by
  obtain ⟨gone, hgone⟩ := h.suffix
  rw [← hgone] at hx ⊢
  have hxgone : x ∈ gone := (List.mem_append.mp hx).resolve_right hout
  exact (List.singleton_sublist.mpr hxgone).append (List.singleton_sublist.mpr hy)

/-- A record of the file has an id that no record before it has. -/
theorem same_eq_false (h : Records file log) (hxy : [x, r].Sublist (arrivals log)) :
    same (idOf r) (idOf x) = false := by
  have hpair := h.own.sublist hxy
  exact (List.pairwise_cons.mp hpair).1 r (List.mem_singleton.mpr rfl)

/-- What is taken out by its id is the item that was dispatched, and nothing where that has been
dropped meanwhile. -/
theorem popped_front (h : Records file log) (hx : Front file log x) {itemId : Item}
    (hid : x.get? "id".toList = some itemId) :
    ∃ items, popped file itemId = some items ∧
      (file = x :: items ∨ items = file ∧ x ∉ file ∧ ∃ held, .dropped x held ∈ log) := by
  have hidOf : itemId = idOf x := by rw [idOf, hid, Option.getD_some]
  have hobject : file.all Json.isObject = true :=
    List.all_eq_true.mpr fun y hy => isObject_of_proper (h.sound y (h.mem hy))
  refine ⟨_, if_pos hobject, ?_⟩
  rw [hidOf]
  rcases hx.2 with hhead | ⟨hout, hdropped⟩
  · obtain ⟨rest, rfl⟩ : ∃ rest, file = x :: rest := by
      cases file with
      | nil => cases hhead
      | cons y rest => exact ⟨rest, by rw [Option.some.inj hhead]⟩
    left
    have hself : same (idOf x) (idOf x) = true := same_idOf_self (h.sound x hx.1)
    rw [List.filter_cons_of_neg (by simp [hself]), List.filter_eq_self.mpr]
    intro y hy
    have hpair : [x, y].Sublist (arrivals log) :=
      ((List.singleton_sublist.mpr hy).cons_cons x).trans h.suffix.sublist
    simp [h.same_eq_false hpair]
  · right
    refine ⟨List.filter_eq_self.mpr fun y hy => ?_, hout, hdropped⟩
    simp [h.same_eq_false (h.before hx.1 hout hy)]

end Records

/-- The event is no change of the file. -/
def Event.quiet : Event → Bool
  | .enqueued _ => false
  | .dropped _ _ => false
  | _ => true

theorem arrivals_quiet {events : List Event} (h : ∀ e ∈ events, e.quiet = true) :
    arrivals events = [] := by
  refine List.filterMap_eq_nil_iff.mpr fun e he => ?_
  cases e with
  | enqueued r => cases h _ he
  | _ => rfl

theorem dropped_quiet {events : List Event} (h : ∀ e ∈ events, e.quiet = true) {held : List Item} :
    .dropped x held ∈ log ++ events ↔ .dropped x held ∈ log := by
  refine ⟨fun hmem => ?_, List.mem_append_left _⟩
  refine (List.mem_append.mp hmem).resolve_right fun hin => ?_
  cases h _ hin

theorem Records.quiet (h : Records file log) {events : List Event}
    (hq : ∀ e ∈ events, e.quiet = true) : Records file (log ++ events) := by
  have harr : arrivals (log ++ events) = arrivals log := by
    rw [arrivals_append, arrivals_quiet hq, List.append_nil]
  refine ⟨?_, ?_, ?_, ?_, ?_⟩
  · rw [harr]
    exact h.suffix
  · rw [harr]
    exact h.sound
  · rw [harr]
    exact h.own
  · intro x hx
    rw [harr] at hx
    simp only [dropped_quiet hq]
    exact (h.kept x hx).imp_right fun hgone => hgone.imp_left (List.mem_append_left _)
  · intro x held hd
    exact h.oldest x held ((dropped_quiet hq).mp hd)

theorem Front.quiet (h : Front file log x) {events : List Event}
    (hq : ∀ e ∈ events, e.quiet = true) : Front file (log ++ events) x := by
  unfold Front
  simp only [arrivals_append, arrivals_quiet hq, List.append_nil, dropped_quiet hq]
  exact h

/-- The item that was dispatched to completion leaves the file. -/
theorem Records.pop (h : Records file log) (hfile : file = x :: file')
    (hx : .completed x ∈ log) : Records file' log := by
  refine ⟨?_, h.sound, h.own, ?_, h.oldest⟩
  · exact (List.suffix_cons x file').trans (hfile ▸ h.suffix)
  · intro y hy
    rcases h.kept y hy with hin | hgone
    · rw [hfile, List.mem_cons] at hin
      rcases hin with rfl | hin
      · exact .inr (.inl hx)
      · exact .inl hin
    · exact .inr hgone

/-- What `enqueue` writes: the record behind all others, and at the cap the oldest not. -/
theorem appended_cases {oldest : Option Item} (h : appended file r = some (oldest, file')) :
    (oldest = none ∧ file' = file ++ [r]) ∨
      ∃ x rest, file = x :: rest ∧ oldest = some x ∧ file' = rest ++ [r] ∧
        maxQueue ≤ file.length := by
  unfold appended at h
  split_ifs at h with hcap
  · cases file with
    | nil => cases h
    | cons x rest =>
      simp only at h
      split_ifs at h
      cases h
      exact .inr ⟨x, rest, rfl, rfl, rfl, hcap⟩
  · cases h
    exact .inl ⟨rfl, rfl⟩

theorem arrivals_appendEvents (oldest : Option Item) :
    arrivals (appendEvents file oldest r) = [r] := by
  rw [appendEvents, arrivals_append, arrivals_dropped]
  rfl

section Append

variable {oldest : Option Item}

/-- What leaves the file in an append is dropped. -/
theorem mem_or_dropped (happ : appended file r = some (oldest, file')) (hx : x ∈ file) :
    x ∈ file' ∨ .dropped x file ∈ appendEvents file oldest r := by
  rcases appended_cases happ with ⟨rfl, rfl⟩ | ⟨y, rest, rfl, rfl, rfl, -⟩
  · exact .inl (List.mem_append_left _ hx)
  · rcases List.mem_cons.mp hx with rfl | hx
    · exact .inr List.mem_cons_self
    · exact .inl (List.mem_append_left _ hx)

theorem mem_of_appended (happ : appended file r = some (oldest, file')) (hx : x ∈ file')
    (hne : x ≠ r) : x ∈ file := by
  rcases appended_cases happ with ⟨rfl, rfl⟩ | ⟨y, rest, rfl, rfl, rfl, -⟩
  · exact (List.mem_append.mp hx).resolve_right fun hin => hne (List.mem_singleton.mp hin)
  · have hrest : x ∈ rest :=
      (List.mem_append.mp hx).resolve_right fun hin => hne (List.mem_singleton.mp hin)
    exact List.mem_cons_of_mem _ hrest

theorem mem_tail_of_appended (happ : appended file r = some (oldest, file'))
    (hx : x ∈ file'.tail) (hne : x ≠ r) : x ∈ file.tail := by
  rcases appended_cases happ with ⟨rfl, rfl⟩ | ⟨y, rest, rfl, rfl, rfl, -⟩
  · cases file with
    | nil => cases hx
    | cons y rest =>
      exact (List.mem_append.mp hx).resolve_right fun hin => hne (List.mem_singleton.mp hin)
  · cases rest with
    | nil => cases hx
    | cons z rest =>
      have hrest : x ∈ rest :=
        (List.mem_append.mp hx).resolve_right fun hin => hne (List.mem_singleton.mp hin)
      exact List.mem_cons_of_mem _ hrest

theorem Records.append (h : Records file log) (hr : proper r = true)
    (hnew : newAmong (arrivals log) r = true) (happ : appended file r = some (oldest, file')) :
    Records file' (log ++ appendEvents file oldest r) := by
  have harr : arrivals (log ++ appendEvents file oldest r) = arrivals log ++ [r] := by
    rw [arrivals_append, arrivals_appendEvents]
  refine ⟨?_, ?_, ?_, ?_, ?_⟩
  · rw [harr]
    obtain ⟨gone, hgone⟩ := h.suffix
    rcases appended_cases happ with ⟨rfl, rfl⟩ | ⟨y, rest, rfl, rfl, rfl, -⟩
    · exact ⟨gone, by rw [← hgone, List.append_assoc]⟩
    · exact ⟨gone ++ [y], by simp [← hgone]⟩
  · rw [harr]
    intro x hx
    rcases List.mem_append.mp hx with hx | hx
    · exact h.sound x hx
    · rwa [List.mem_singleton.mp hx]
  · rw [harr, List.pairwise_append]
    refine ⟨h.own, List.pairwise_singleton .., fun x hx y hy => ?_⟩
    rw [List.mem_singleton.mp hy]
    simpa using List.all_eq_true.mp hnew x hx
  · rw [harr]
    intro x hx
    rcases List.mem_append.mp hx with hx | hx
    · rcases h.kept x hx with hin | hdone | ⟨held, hdropped⟩
      · rcases mem_or_dropped happ hin with hin' | hdropped
        · exact .inl hin'
        · exact .inr (.inr ⟨file, List.mem_append_right _ hdropped⟩)
      · exact .inr (.inl (List.mem_append_left _ hdone))
      · exact .inr (.inr ⟨held, List.mem_append_left _ hdropped⟩)
    · left
      rw [List.mem_singleton.mp hx]
      rcases appended_cases happ with ⟨rfl, rfl⟩ | ⟨y, rest, rfl, rfl, rfl, -⟩ <;> simp
  · intro x held hd
    rcases List.mem_append.mp hd with hd | hd
    · exact h.oldest x held hd
    · rcases appended_cases happ with ⟨rfl, rfl⟩ | ⟨y, rest, rfl, rfl, rfl, hcap⟩
      · simp [appendEvents] at hd
      · simp only [appendEvents, Option.toList_some, List.map_cons, List.map_nil,
          List.singleton_append, List.mem_cons, Event.dropped.injEq, reduceCtorEq,
          List.not_mem_nil, or_false] at hd
        obtain ⟨rfl, rfl⟩ := hd
        exact ⟨rfl, hcap⟩

theorem Records.front_append (h : Records file log) (hr : proper r = true)
    (hnew : newAmong (arrivals log) r = true) (happ : appended file r = some (oldest, file'))
    (hx : Front file log x) : Front file' (log ++ appendEvents file oldest r) x := by
  have hne : x ≠ r := by
    rintro rfl
    exact not_mem_of_newAmong hr hnew hx.1
  refine ⟨?_, ?_⟩
  · rw [arrivals_append]
    exact List.mem_append_left _ hx.1
  · rcases hx.2 with hhead | ⟨hout, held, hdropped⟩
    · rcases appended_cases happ with ⟨rfl, rfl⟩ | ⟨y, rest, rfl, rfl, rfl, -⟩
      · left
        rw [List.head?_append, hhead]
        rfl
      · right
        obtain rfl : y = x := Option.some.inj hhead
        have hrest : y ∉ rest := (List.nodup_cons.mp h.nodup_file).1
        refine ⟨by simp [hrest, hne], y :: rest, List.mem_append_right _ ?_⟩
        exact List.mem_cons_self
    · right
      exact ⟨fun hin => hout (mem_of_appended happ hin hne), held,
        List.mem_append_left _ hdropped⟩

end Append

/-! ## The log -/

/-- The item has been completed, and not been interrupted since. -/
def Open (log : List Event) (x : Item) : Prop :=
  ∃ l l', log = l ++ .completed x :: l' ∧ .interrupted x ∉ l'

/-- Between two completions of an item it has been interrupted. -/
def Once (log : List Event) : Prop :=
  ∀ x l l' l'', log = l ++ .completed x :: (l' ++ .completed x :: l'') → .interrupted x ∈ l'

/-- How a list with one more element at its end is split at an element. -/
theorem append_singleton_eq {α : Type*} {l m n : List α} {a b : α} (h : l ++ [a] = m ++ b :: n) :
    (n = [] ∧ l = m ∧ a = b) ∨ ∃ n', n = n' ++ [a] ∧ l = m ++ b :: n' := by
  rcases List.eq_nil_or_concat n with rfl | ⟨n', c, rfl⟩
  · obtain ⟨rfl, hab⟩ := List.append_inj' h rfl
    exact .inl ⟨rfl, rfl, List.singleton_inj.mp hab⟩
  · right
    have hconcat : l ++ [a] = (m ++ b :: n') ++ [c] := by simpa using h
    obtain ⟨rfl, hac⟩ := List.append_inj' hconcat rfl
    rw [List.singleton_inj.mp hac]
    exact ⟨n', List.concat_eq_append .., rfl⟩

theorem open_append {e : Event} (h : Open (log ++ [e]) x) :
    Open log x ∧ e ≠ .interrupted x ∨ e = .completed x := by
  obtain ⟨l, l', hsplit, hnot⟩ := h
  rcases append_singleton_eq hsplit with ⟨-, -, he⟩ | ⟨l'', rfl, hlog⟩
  · exact .inr he
  · left
    refine ⟨⟨l, l'', hlog, fun hin => hnot (List.mem_append_left _ hin)⟩, ?_⟩
    rintro rfl
    exact hnot (List.mem_append_right _ (List.mem_singleton.mpr rfl))

/-- An item may be completed again once it is not open. -/
theorem Once.append (h : Once log) {e : Event} (he : ∀ x, e = .completed x → ¬Open log x) :
    Once (log ++ [e]) := by
  intro x l l' l'' hsplit
  rw [← List.cons_append, ← List.append_assoc] at hsplit
  rcases append_singleton_eq hsplit with ⟨-, hlog, hlast⟩ | ⟨l3, -, hlog⟩
  · by_contra hnot
    exact he x hlast ⟨l, l', hlog, hnot⟩
  · refine h x l l' l3 ?_
    rw [hlog, List.append_assoc, List.cons_append]

/-- Events that complete no item open none. -/
theorem open_append_events {events : List Event} (hes : ∀ e ∈ events, e ≠ .completed x)
    (h : Open (log ++ events) x) : Open log x := by
  induction events generalizing log with
  | nil => rwa [List.append_nil] at h
  | cons e events ih =>
    rw [List.append_cons] at h
    have hopen := ih (fun e' he' => hes e' (List.mem_cons_of_mem _ he')) h
    exact ((open_append hopen).resolve_right (hes e List.mem_cons_self)).1

theorem Once.append_events {events : List Event} (hes : ∀ e ∈ events, ∀ x, e ≠ .completed x)
    (h : Once log) : Once (log ++ events) := by
  induction events generalizing log with
  | nil => rwa [List.append_nil]
  | cons e events ih =>
    rw [List.append_cons]
    refine ih (fun e' he' => hes e' (List.mem_cons_of_mem _ he')) ?_
    exact h.append fun x he => absurd he (hes e List.mem_cons_self x)

theorem refusedLast_append (e : Event) :
    refusedLast (log ++ [e]) =
      match e with
      | .refused item => some item
      | .dispatched _ => none
      | _ => refusedLast log := by
  rw [refusedLast, List.foldl_append]
  cases e <;> rfl

/-- What the queue has done, with the item that is dispatched and not yet removed, and the same once
it is completed. -/
structure History (file : List Item) (log : List Event) (handled unremoved : Option Item) :
    Prop where
  records : Records file log
  front : ∀ x, handled = some x → Front file log x
  finished : ∀ x, unremoved = some x → handled = some x ∧ .completed x ∈ log
  known : ∀ x, .completed x ∈ log → x ∈ arrivals log
  dispatched : ∀ x ∈ dispatches log, x ∈ arrivals log ∧ x ∉ file.tail
  ordered : (dispatches log).Pairwise fun x y => x = y ∨ [x, y].Sublist (arrivals log)
  closed : ∀ x, x ∈ file ∨ handled = some x → Open log x → unremoved = some x
  once : Once log
  refused : ∀ x, refusedLast log = some x → Front file log x ∧ handled = none

/-- What has been completed once came. -/
theorem known_append {events : List Event} (h : ∀ x, .completed x ∈ log → x ∈ arrivals log)
    (hes : ∀ x, .completed x ∈ events → x ∈ arrivals log) (x : Item)
    (hx : .completed x ∈ log ++ events) : x ∈ arrivals (log ++ events) := by
  rw [arrivals_append]
  exact List.mem_append_left _ ((List.mem_append.mp hx).elim (h x) (hes x))

namespace History

variable {handled unremoved : Option Item} {items : List Item}

theorem start (h : properQueue items = true) : History items (items.map .enqueued) none none := by
  obtain ⟨hproper, hown⟩ := Bool.and_eq_true_iff.mp h
  have harr := arrivals_enqueued items
  have hdisp : dispatches (items.map .enqueued) = [] := by
    simp [dispatches, List.filterMap_map]
  have hevent : ∀ e ∈ items.map Event.enqueued, ∃ r, e = .enqueued r := by
    intro e he
    obtain ⟨r, -, rfl⟩ := List.mem_map.mp he
    exact ⟨r, rfl⟩
  have hlast : ∀ l : List Item, refusedLast (l.map .enqueued) = none := by
    intro l
    induction l using List.reverseRecOn with
    | nil => rfl
    | append_singleton l x ih =>
      rw [List.map_append]
      exact (refusedLast_append _).trans ih
  have hrecords : Records items (items.map .enqueued) := by
    refine ⟨?_, ?_, ?_, ?_, ?_⟩
    · rw [harr]
    · rw [harr]
      exact fun x hx => List.all_eq_true.mp hproper x hx
    · rw [harr]
      exact of_decide_eq_true hown
    · rw [harr]
      exact fun x hx => .inl hx
    · intro x held hx
      obtain ⟨r, hr⟩ := hevent _ hx
      cases hr
  refine ⟨hrecords, by rintro x ⟨⟩, by rintro x ⟨⟩, ?_, ?_, ?_, ?_, ?_, ?_⟩
  · intro x hx
    obtain ⟨r, hr⟩ := hevent _ hx
    cases hr
  · rw [hdisp]
    exact fun x hx => absurd hx List.not_mem_nil
  · rw [hdisp]
    exact List.Pairwise.nil
  · rintro x - ⟨l, l', hlog, -⟩
    obtain ⟨r, hr⟩ := hevent (.completed x) (by simp [hlog])
    cases hr
  · intro x l l' l'' hlog
    obtain ⟨r, hr⟩ := hevent (.completed x) (by simp [hlog])
    cases hr
  · intro x hx
    rw [hlast] at hx
    cases hx

/-- A drain returns. -/
theorem returned (h : History file log none none) (n : ℕ) :
    History file (log ++ [.returned n]) none none := by
  have hq : ∀ e ∈ [Event.returned n], e.quiet = true := by simp [Event.quiet]
  have harr : arrivals (log ++ [.returned n]) = arrivals log := by simp [arrivals]
  have hdisp : dispatches (log ++ [.returned n]) = dispatches log := by simp [dispatches]
  refine ⟨h.records.quiet hq, by rintro x ⟨⟩, by rintro x ⟨⟩,
    known_append h.known (by simp), ?_, ?_, ?_, ?_, ?_⟩
  · rw [hdisp, harr]
    exact h.dispatched
  · rw [hdisp, harr]
    exact h.ordered
  · exact fun x hx hopen => h.closed x hx (open_append_events (by simp) hopen)
  · exact h.once.append_events (by simp)
  · intro x hx
    rw [refusedLast_append] at hx
    exact ⟨(h.refused x hx).1.quiet hq, rfl⟩

/-- A drain dispatches the head. -/
theorem dispatch {rest : List Item} (h : History (x :: rest) log none none) :
    History (x :: rest) (log ++ [.dispatched x]) (some x) none := by
  have hq : ∀ e ∈ [Event.dispatched x], e.quiet = true := by simp [Event.quiet]
  have harr : arrivals (log ++ [.dispatched x]) = arrivals log := by simp [arrivals]
  have hdisp : dispatches (log ++ [.dispatched x]) = dispatches log ++ [x] := by simp [dispatches]
  have hx : x ∈ arrivals log := h.records.mem List.mem_cons_self
  refine ⟨h.records.quiet hq, ?_, by rintro y ⟨⟩, known_append h.known (by simp), ?_, ?_, ?_, ?_,
    ?_⟩
  · rintro y ⟨⟩
    exact Front.quiet ⟨hx, .inl rfl⟩ hq
  · rw [hdisp, harr]
    intro y hy
    rcases List.mem_append.mp hy with hy | hy
    · exact h.dispatched y hy
    · rw [List.mem_singleton.mp hy]
      exact ⟨hx, (List.nodup_cons.mp h.records.nodup_file).1⟩
  · rw [hdisp, harr, List.pairwise_append]
    refine ⟨h.ordered, List.pairwise_singleton .., fun y hy z hz => ?_⟩
    rw [List.mem_singleton.mp hz]
    -- What was dispatched before is the head itself, or has left the file.
    by_cases hyx : y = x
    · exact .inl hyx
    · right
      obtain ⟨hyarr, hytail⟩ := h.dispatched y hy
      have hout : y ∉ x :: rest := by
        rw [List.mem_cons]
        exact fun hin => hin.elim hyx hytail
      exact h.records.before hyarr hout List.mem_cons_self
  · intro y hy hopen
    have hin : y ∈ x :: rest := by
      rcases hy with hy | ⟨⟨⟩⟩
      · exact hy
      · exact List.mem_cons_self
    exact h.closed y (.inl hin) (open_append_events (by simp) hopen)
  · exact h.once.append_events (by simp)
  · intro y hy
    rw [refusedLast_append] at hy
    cases hy

/-- The work of an item is done, or has failed. -/
theorem complete (h : History file log (some x) none) :
    History file (log ++ [.completed x]) (some x) (some x) := by
  have hq : ∀ e ∈ [Event.completed x], e.quiet = true := by simp [Event.quiet]
  have harr : arrivals (log ++ [.completed x]) = arrivals log := by simp [arrivals]
  have hdisp : dispatches (log ++ [.completed x]) = dispatches log := by simp [dispatches]
  refine ⟨h.records.quiet hq, fun y hy => (h.front y hy).quiet hq, ?_, ?_, ?_, ?_, ?_, ?_,
    ?_⟩
  · rintro y ⟨⟩
    exact ⟨rfl, List.mem_append_right _ (List.mem_singleton.mpr rfl)⟩
  · refine known_append h.known fun y hy => ?_
    cases List.mem_singleton.mp hy
    exact (h.front x rfl).1
  · rw [hdisp, harr]
    exact h.dispatched
  · rw [hdisp, harr]
    exact h.ordered
  · intro y hy hopen
    rcases open_append hopen with ⟨hopen, -⟩ | heq
    · cases h.closed y hy hopen
    · cases heq
      rfl
  · refine h.once.append fun y heq hopen => ?_
    cases heq
    cases h.closed x (.inr rfl) hopen
  · intro y hy
    rw [refusedLast_append] at hy
    cases (h.refused y hy).2

/-- The work of an item is refused. -/
theorem refuse (h : History file log (some x) none) :
    History file (log ++ [.refused x]) none none := by
  have hq : ∀ e ∈ [Event.refused x], e.quiet = true := by simp [Event.quiet]
  have harr : arrivals (log ++ [.refused x]) = arrivals log := by simp [arrivals]
  have hdisp : dispatches (log ++ [.refused x]) = dispatches log := by simp [dispatches]
  refine ⟨h.records.quiet hq, by rintro y ⟨⟩, by rintro y ⟨⟩,
    known_append h.known (by simp), ?_, ?_, ?_, ?_, ?_⟩
  · rw [hdisp, harr]
    exact h.dispatched
  · rw [hdisp, harr]
    exact h.ordered
  · rintro y (hy | ⟨⟨⟩⟩) hopen
    exact h.closed y (.inl hy) (open_append_events (by simp) hopen)
  · exact h.once.append_events (by simp)
  · intro y hy
    rw [refusedLast_append] at hy
    cases hy
    exact ⟨(h.front x rfl).quiet hq, rfl⟩

/-- The process stops while an item is at work. -/
theorem cut (h : History file log handled none) : History file log none none := by
  refine ⟨h.records, by rintro y ⟨⟩, by rintro y ⟨⟩, h.known, h.dispatched, h.ordered, ?_, h.once, ?_⟩
  · rintro y (hy | ⟨⟨⟩⟩) hopen
    exact h.closed y (.inl hy) hopen
  · exact fun y hy => ⟨(h.refused y hy).1, rfl⟩

/-- The item that is completed is not removed. -/
theorem interrupt (h : History file log (some x) (some x)) :
    History file (log ++ [.interrupted x]) none none := by
  have hq : ∀ e ∈ [Event.interrupted x], e.quiet = true := by simp [Event.quiet]
  have harr : arrivals (log ++ [.interrupted x]) = arrivals log := by simp [arrivals]
  have hdisp : dispatches (log ++ [.interrupted x]) = dispatches log := by simp [dispatches]
  refine ⟨h.records.quiet hq, by rintro y ⟨⟩, by rintro y ⟨⟩,
    known_append h.known (by simp), ?_, ?_, ?_, ?_, ?_⟩
  · rw [hdisp, harr]
    exact h.dispatched
  · rw [hdisp, harr]
    exact h.ordered
  · rintro y (hy | ⟨⟨⟩⟩) hopen
    rcases open_append hopen with ⟨hopen, hne⟩ | heq
    · cases h.closed y (.inl hy) hopen
      exact absurd rfl hne
    · cases heq
  · exact h.once.append_events (by simp)
  · intro y hy
    rw [refusedLast_append] at hy
    cases (h.refused y hy).2

/-- The item that is completed leaves the file. -/
theorem pop (h : History (x :: file) log (some x) (some x)) : History file log none none := by
  have hx : x ∉ file := (List.nodup_cons.mp h.records.nodup_file).1
  refine ⟨h.records.pop rfl (h.finished x rfl).2, by rintro y ⟨⟩, by rintro y ⟨⟩, h.known, ?_,
    h.ordered, ?_, h.once, ?_⟩
  · intro y hy
    obtain ⟨hyarr, hyout⟩ := h.dispatched y hy
    exact ⟨hyarr, fun hin => hyout (List.mem_of_mem_tail hin)⟩
  · rintro y (hy | ⟨⟨⟩⟩) hopen
    cases h.closed y (.inl (List.mem_cons_of_mem _ hy)) hopen
    exact absurd hy hx
  · intro y hy
    cases (h.refused y hy).2

/-- The item that is completed has been dropped. -/
theorem pop_dropped (h : History file log (some x) (some x)) (hx : x ∉ file) :
    History file log none none := by
  refine ⟨h.records, by rintro y ⟨⟩, by rintro y ⟨⟩, h.known, h.dispatched, h.ordered, ?_, h.once, ?_⟩
  · rintro y (hy | ⟨⟨⟩⟩) hopen
    cases h.closed y (.inl hy) hopen
    exact absurd hy hx
  · intro y hy
    cases (h.refused y hy).2

/-- A record is appended. -/
theorem append (h : History file log handled unremoved) {oldest : Option Item}
    (hr : proper r = true) (hnew : newAmong (arrivals log) r = true)
    (happ : appended file r = some (oldest, file')) :
    History file' (log ++ appendEvents file oldest r) handled unremoved := by
  have harr : arrivals (log ++ appendEvents file oldest r) = arrivals log ++ [r] := by
    rw [arrivals_append, arrivals_appendEvents]
  have hdisp : dispatches (log ++ appendEvents file oldest r) = dispatches log := by
    cases oldest <;> simp [appendEvents, dispatches]
  have hlast : refusedLast (log ++ appendEvents file oldest r) = refusedLast log := by
    cases oldest with
    | none => exact refusedLast_append _
    | some y =>
      rw [appendEvents, ← List.append_assoc, refusedLast_append]
      exact refusedLast_append _
  have hquiet : ∀ e ∈ appendEvents file oldest r, ∀ x, e ≠ .completed x := by
    cases oldest <;> simp [appendEvents]
  have hne : ∀ x ∈ arrivals log, x ≠ r := by
    rintro x hx rfl
    exact not_mem_of_newAmong hr hnew hx
  have hrecords := h.records.append hr hnew happ
  refine ⟨hrecords, fun x hx => h.records.front_append hr hnew happ (h.front x hx), ?_,
    known_append h.known fun x hx => absurd rfl (hquiet _ hx x), ?_, ?_, ?_,
    h.once.append_events hquiet, ?_⟩
  · intro x hx
    exact ⟨(h.finished x hx).1, List.mem_append_left _ (h.finished x hx).2⟩
  · rw [hdisp, harr]
    intro x hx
    obtain ⟨hxarr, hxout⟩ := h.dispatched x hx
    exact ⟨List.mem_append_left _ hxarr,
      fun hin => hxout (mem_tail_of_appended happ hin (hne x hxarr))⟩
  · rw [hdisp, harr]
    exact h.ordered.imp fun hxy => hxy.imp_right fun hsub =>
      hsub.trans (List.sublist_append_left ..)
  · intro x hx hopen
    have hopen' := open_append_events (fun e he => hquiet e he x) hopen
    have hxarr : x ∈ arrivals log := by
      obtain ⟨l, l', hlog, -⟩ := hopen'
      exact h.known x (by simp [hlog])
    exact h.closed x (hx.imp_left fun hin => mem_of_appended happ hin (hne x hxarr)) hopen'
  · rw [hlast]
    intro x hx
    exact ⟨h.records.front_append hr hnew happ (h.refused x hx).1, (h.refused x hx).2⟩

end History

/-! ## The invariant -/

/-- What holds in every state reached. -/
structure Inv (w : World) : Prop where
  history : History w.file w.log w.handled w.unremoved
  appending : ∀ caller record items, w.queueLock = some ⟨caller, .append record, items⟩ →
    items = w.file ∧ proper record = true ∧ newAmong (arrivals w.log) record = true
  popping : ∀ caller itemId items, w.queueLock = some ⟨caller, .pop itemId, items⟩ →
    items = w.file ∧ ∃ done x, w.drainLock = some ⟨caller, done, .ran x⟩ ∧
      x.get? "id".toList = some itemId

variable {w w' : World}

theorem inv_start {items : List Item} (h : properQueue items = true) : Inv (start items) :=
  ⟨.start h, by rintro c r l ⟨⟩, by rintro c i l ⟨⟩⟩

namespace Inv

/-- A step of the drain that neither reads nor writes to remove an item. -/
theorem drain (hw : Inv w) (hnone : w.unremoved = none) {l : List Event}
    (hq : ∀ e ∈ l, e.quiet = true) (hfile : w'.file = w.file)
    (hqueue : w'.queueLock = w.queueLock) (hlog : w'.log = w.log ++ l)
    (hhistory : History w.file (w.log ++ l) w'.handled w'.unremoved) : Inv w' := by
  refine ⟨?_, ?_, ?_⟩
  · rwa [hfile, hlog]
  · rw [hqueue, hfile, hlog, arrivals_append, arrivals_quiet hq, List.append_nil]
    exact hw.appending
  · rw [hqueue]
    intro caller itemId items hlock
    obtain ⟨-, done, x, hdrain, -⟩ := hw.popping caller itemId items hlock
    rw [World.unremoved, hdrain] at hnone
    cases hnone

theorem enqueue (hw : Inv w) {caller : Caller} {record : Item}
    (hC : Fresh w (.enqueue caller record)) (h : step w (.enqueue caller record) = some w') :
    Inv w' := by
  simp only [step] at h
  split at h
  next =>
    cases h
    refine ⟨hw.history, ?_, by rintro c i l ⟨⟩⟩
    rintro c r items ⟨⟩
    exact ⟨rfl, hC⟩
  next => cases h

theorem drainCall (hw : Inv w) {caller : Caller} (h : step w (.drain caller) = some w') :
    Inv w' := by
  simp only [step] at h
  split at h
  next hlock =>
    cases h
    have hnone : w.unremoved = none := by rw [World.unremoved, hlock]; rfl
    refine hw.drain hnone (l := []) (by simp) rfl rfl (List.append_nil _).symm ?_
    have hhistory := hw.history
    rw [hnone, World.handled, hlock] at hhistory
    rwa [List.append_nil]
  next =>
    cases h
    exact hw

theorem peek (hw : Inv w) (h : step w .peek = some w') : Inv w' := by
  simp only [step] at h
  split at h
  next caller done hlock hqueue =>
    have hnone : w.unremoved = none := by rw [World.unremoved, hlock]; rfl
    have hhistory := hw.history
    rw [hnone, World.handled, hlock] at hhistory
    split at h
    next hfile =>
      cases h
      exact hw.drain hnone (l := [.returned done]) (by simp [Event.quiet]) rfl rfl rfl
        (hhistory.returned done)
    next item rest hfile =>
      cases h
      refine hw.drain hnone (l := [.dispatched item]) (by simp [Event.quiet]) rfl rfl rfl ?_
      rw [hfile] at hhistory ⊢
      exact hhistory.dispatch
  next => cases h

theorem run (hw : Inv w) {outcome : Outcome} (h : step w (.run outcome) = some w') : Inv w' := by
  simp only [step] at h
  split at h
  next caller done item hlock =>
    have hnone : w.unremoved = none := by rw [World.unremoved, hlock]; rfl
    have hhistory := hw.history
    rw [hnone, World.handled, hlock] at hhistory
    split at h
    next =>
      cases h
      exact hw.drain hnone (l := [.completed item]) (by simp [Event.quiet]) rfl rfl rfl
        hhistory.complete
    next =>
      cases h
      exact hw.drain hnone (l := [.refused item]) (by simp [Event.quiet]) rfl rfl rfl
        hhistory.refuse
    next =>
      cases h
      refine hw.drain hnone (l := []) (by simp) rfl rfl (List.append_nil _).symm ?_
      rw [List.append_nil]
      exact hhistory.cut
  next => cases h

theorem pause (hw : Inv w) {stop : Bool} (h : step w (.pause stop) = some w') : Inv w' := by
  simp only [step] at h
  split at h
  next caller done hlock =>
    have hnone : w.unremoved = none := by rw [World.unremoved, hlock]; rfl
    have hhistory := hw.history
    rw [hnone, World.handled, hlock] at hhistory
    split_ifs at h
    · cases h
      exact hw.drain hnone (l := [.returned done]) (by simp [Event.quiet]) rfl rfl rfl
        (hhistory.returned done)
    · cases h
      refine hw.drain hnone (l := []) (by simp) rfl rfl (List.append_nil _).symm ?_
      rwa [List.append_nil]
  next => cases h

/-- The item that is completed has an id. -/
theorem pop (hw : Inv w) (h : step w .pop = some w') : Inv w' := by
  simp only [step] at h
  split at h
  next caller done item hlock hqueue =>
    have hhistory := hw.history
    have hitem : Front w.file w.log item :=
      hhistory.front item (by rw [World.handled, hlock]; rfl)
    obtain ⟨itemId, hid, -⟩ := proper_cases (hhistory.records.sound item hitem.1)
    rw [hid] at h
    cases h
    refine ⟨hhistory, by rintro c r items ⟨⟩, ?_⟩
    rintro c i items ⟨⟩
    exact ⟨rfl, done, item, hlock, hid⟩
  next => cases h

theorem saveAppended (hw : Inv w) {writer : Writer} {record : Item} {written : Bool}
    (hlock : w.queueLock = some writer) (hpurpose : writer.purpose = .append record) :
    Inv (saveAppended w writer record written) := by
  obtain ⟨caller, purpose, items⟩ := writer
  obtain rfl : purpose = .append record := hpurpose
  obtain ⟨rfl, hproper, hnew⟩ := hw.appending caller record items hlock
  unfold Pass2Queue.saveAppended
  split
  next oldest items happ =>
    split_ifs
    · exact ⟨hw.history.append hproper hnew happ, by rintro c r l ⟨⟩, by rintro c i l ⟨⟩⟩
    · exact ⟨hw.history, by rintro c r l ⟨⟩, by rintro c i l ⟨⟩⟩
  next => exact ⟨hw.history, by rintro c r l ⟨⟩, by rintro c i l ⟨⟩⟩

theorem savePopped (hw : Inv w) {writer : Writer} {itemId : Item} {written : Bool}
    (hlock : w.queueLock = some writer) (hpurpose : writer.purpose = .pop itemId)
    (h : savePopped w writer itemId written = some w') : Inv w' := by
  obtain ⟨caller, purpose, items⟩ := writer
  obtain rfl : purpose = .pop itemId := hpurpose
  obtain ⟨rfl, done, x, hdrain, hid⟩ := hw.popping caller itemId items hlock
  have hhistory := hw.history
  have hhandled : w.handled = some x := by rw [World.handled, hdrain]; rfl
  have hunremoved : w.unremoved = some x := by rw [World.unremoved, hdrain]; rfl
  rw [hhandled, hunremoved] at hhistory
  obtain ⟨items, hpopped, hitems⟩ := hhistory.records.popped_front (hhistory.front x rfl) hid
  simp only [Pass2Queue.savePopped, hdrain, hpopped] at h
  split_ifs at h
  · cases h
    refine ⟨?_, by rintro c r l ⟨⟩, by rintro c i l ⟨⟩⟩
    rcases hitems with hfile | ⟨rfl, hout, -⟩
    · rw [hfile] at hhistory
      exact hhistory.pop
    · exact hhistory.pop_dropped hout
  · cases h
    exact ⟨hhistory.interrupt, by rintro c r l ⟨⟩, by rintro c i l ⟨⟩⟩

theorem save (hw : Inv w) {written : Bool} (h : step w (.save written) = some w') : Inv w' := by
  simp only [step] at h
  split at h
  next writer hlock =>
    split at h
    next record hpurpose =>
      cases h
      exact hw.saveAppended hlock hpurpose
    next itemId hpurpose => exact hw.savePopped hlock hpurpose h
  next => cases h

/-- A process stops, with the locks that it holds. -/
theorem stop (hw : Inv w) {process : ℕ} (h : step w (.stop process) = some w') : Inv w' := by
  simp only [step] at h
  cases h
  have hhistory := hw.history
  have hq : ∀ e ∈ w.unremoved.toList.map Event.interrupted, e.quiet = true := by
    intro e he
    obtain ⟨x, -, rfl⟩ := List.mem_map.mp he
    rfl
  by_cases hdrain : ∃ drainer, w.drainLock = some drainer ∧ drainer.caller.process = process
  · obtain ⟨drainer, hlock, hprocess⟩ := hdrain
    simp only [hlock, Option.any_some, hprocess, decide_true, if_true, Option.filter_some,
      ne_eq, not_true_eq_false, decide_false, Bool.false_eq_true, if_false]
    refine ⟨?_, ?_, ?_⟩
    · change History w.file _ none none
      cases hun : w.unremoved with
      | none =>
        rw [hun] at hhistory
        simpa using hhistory.cut
      | some x =>
        rw [(hhistory.finished x hun).1, hun] at hhistory
        exact hhistory.interrupt
    · intro caller record items hwriter
      rw [arrivals_append, arrivals_quiet hq, List.append_nil]
      exact hw.appending caller record items (Option.filter_eq_some_iff.mp hwriter).1
    · -- The removal of the item has the caller that drains, so that it stops as well.
      intro caller itemId items hwriter
      obtain ⟨hwriter, hne⟩ := Option.filter_eq_some_iff.mp hwriter
      obtain ⟨-, done, x, hdrain, -⟩ := hw.popping caller itemId items hwriter
      rw [hlock] at hdrain
      obtain rfl := Option.some.inj hdrain
      exact absurd hprocess (of_decide_eq_true hne)
  · have hkeep : w.drainLock.filter (fun drainer => drainer.caller.process ≠ process) =
        w.drainLock ∧
        w.drainLock.any (fun drainer => drainer.caller.process = process) = false := by
      cases hlock : w.drainLock with
      | none => exact ⟨rfl, rfl⟩
      | some drainer =>
        have hne : drainer.caller.process ≠ process := fun he => hdrain ⟨drainer, hlock, he⟩
        simp [Option.filter, hne]
    simp only [hkeep.1, hkeep.2, Bool.false_eq_true, if_false, List.append_nil]
    refine ⟨hhistory, ?_, ?_⟩
    · intro caller record items hwriter
      exact hw.appending caller record items (Option.filter_eq_some_iff.mp hwriter).1
    · intro caller itemId items hwriter
      exact hw.popping caller itemId items (Option.filter_eq_some_iff.mp hwriter).1

end Inv

theorem Inv.step (hw : Inv w) {a : Act} (hC : Fresh w a) (h : step w a = some w') : Inv w' := by
  cases a with
  | enqueue caller record => exact hw.enqueue hC h
  | drain caller => exact hw.drainCall h
  | peek => exact hw.peek h
  | run outcome => exact hw.run h
  | pop => exact hw.pop h
  | save written => exact hw.save h
  | pause stop => exact hw.pause h
  | stop process => exact hw.stop h

theorem inv_of_reach {items : List Item} (hitems : properQueue items = true)
    (h : (queue items).Reach Fresh w) : Inv w := by
  refine h.invariant ?_ fun w a w' hw hC hstep => hw.step hC hstep
  rintro w rfl
  exact inv_start hitems

/-! ## A drain that is not disturbed -/

/-- The steps lead from one state to the other. -/
def Leads (items : List Item) (w : World) (as : List Act) (w' : World) : Prop :=
  (queue items).runWithin (fun _ _ => True) w as = some w'

theorem Leads.append {items : List Item} {w₁ w₂ w₃ : World} {as bs : List Act}
    (h : Leads items w₁ as w₂) (h' : Leads items w₂ bs w₃) : Leads items w₁ (as ++ bs) w₃ := by
  rw [Leads, Machine.runWithin_append, h]
  exact h'

/-- A record with an id. -/
def recordOf (id kind : String) : Item :=
  .obj [("id".toList, .str id.toList), ("kind".toList, .str kind.toList)]

/-- The item at the head is no object, and nothing is completed. -/
structure Blocked (x : Item) (w : World) : Prop where
  head : w.file.head? = some x
  writer : ∀ writer, w.queueLock = some writer →
    writer.items.head? = some x ∧ ∃ record, writer.purpose = .append record
  drainer : ∀ drainer, w.drainLock = some drainer →
    drainer.stage = .peek ∨ drainer.stage = .running x
  log : ∀ y, .completed y ∉ w.log

/-- At the cap the oldest is not dropped, since it has no id to log. -/
theorem head?_appended {items items' : List Item} {record : Item} {oldest : Option Item}
    (hx : x.isObject = false) (hhead : items.head? = some x)
    (h : appended items record = some (oldest, items')) : oldest = none ∧ items'.head? = some x := by
  rcases appended_cases h with ⟨rfl, rfl⟩ | ⟨y, rest, rfl, rfl, rfl, -⟩
  · rw [List.head?_append, hhead]
    exact ⟨rfl, rfl⟩
  · obtain rfl : y = x := Option.some.inj hhead
    unfold appended at h
    split_ifs at h
    · simp only [hx, Bool.false_eq_true, if_false] at h
      cases h
    · cases h

namespace Blocked

theorem saveAppended (hx : x.isObject = false) (hw : Blocked x w) {writer : Writer}
    (hwriter : writer.items.head? = some x) (record : Item) (written : Bool) :
    Blocked x (saveAppended w writer record written) := by
  unfold Pass2Queue.saveAppended
  split
  next oldest items happ =>
    obtain ⟨rfl, hhead⟩ := head?_appended hx hwriter happ
    split_ifs
    · refine ⟨hhead, by rintro writer ⟨⟩, hw.drainer, ?_⟩
      simp [appendEvents, hw.log]
    · exact ⟨hw.head, by rintro writer ⟨⟩, hw.drainer, hw.log⟩
  next => exact ⟨hw.head, by rintro writer ⟨⟩, hw.drainer, hw.log⟩

theorem step (hx : x.isObject = false) (hw : Blocked x w) {a : Act}
    (h : step w a = some w') : Blocked x w' := by
  cases a with
  | enqueue caller record =>
    simp only [Pass2Queue.step] at h
    split at h
    next =>
      cases h
      refine ⟨hw.head, ?_, hw.drainer, hw.log⟩
      rintro writer ⟨⟩
      exact ⟨hw.head, record, rfl⟩
    next => cases h
  | drain caller =>
    simp only [Pass2Queue.step] at h
    split at h
    next =>
      cases h
      refine ⟨hw.head, hw.writer, ?_, hw.log⟩
      rintro drainer ⟨⟩
      exact .inl rfl
    next =>
      cases h
      exact hw
  | peek =>
    simp only [Pass2Queue.step] at h
    split at h
    next caller done hlock hqueue =>
      split at h
      next hfile =>
        have hhead := hw.head
        rw [hfile] at hhead
        cases hhead
      next item rest hfile =>
        cases h
        have hhead := hw.head
        rw [hfile] at hhead
        obtain rfl : item = x := Option.some.inj hhead
        refine ⟨hw.head, hw.writer, ?_, by simp [hw.log]⟩
        rintro drainer ⟨⟩
        exact .inr rfl
    next => cases h
  | run outcome =>
    simp only [Pass2Queue.step] at h
    split at h
    next caller done item hlock =>
      obtain rfl : item = x := by
        rcases hw.drainer _ hlock with hstage | hstage
        · cases hstage
        · exact (Stage.running.inj hstage)
      have hraised : dispatch item outcome = .raised := by simp [dispatch, hx]
      rw [hraised] at h
      cases h
      exact ⟨hw.head, hw.writer, by rintro drainer ⟨⟩, hw.log⟩
    next => cases h
  | pop =>
    simp only [Pass2Queue.step] at h
    split at h
    next caller done item hlock hqueue =>
      rcases hw.drainer _ hlock with hstage | hstage <;> cases hstage
    next => cases h
  | save written =>
    simp only [Pass2Queue.step] at h
    split at h
    next writer hlock =>
      obtain ⟨hitems, record, hpurpose⟩ := hw.writer writer hlock
      rw [hpurpose] at h
      cases h
      exact hw.saveAppended hx hitems record written
    next => cases h
  | pause stop =>
    simp only [Pass2Queue.step] at h
    split at h
    next caller done hlock =>
      rcases hw.drainer _ hlock with hstage | hstage <;> cases hstage
    next => cases h
  | stop process =>
    simp only [Pass2Queue.step] at h
    cases h
    refine ⟨hw.head, fun writer hwriter => ?_, fun drainer hdrainer => ?_, fun y hy => ?_⟩
    · exact hw.writer writer (Option.filter_eq_some_iff.mp hwriter).1
    · exact hw.drainer drainer (Option.filter_eq_some_iff.mp hdrainer).1
    · rcases List.mem_append.mp hy with hy | hy
      · exact hw.log y hy
      · split_ifs at hy
        · obtain ⟨z, -, hz⟩ := List.mem_map.mp hy
          cases hz
        · cases hy

end Blocked

end Companion.Chat.Pass2Queue

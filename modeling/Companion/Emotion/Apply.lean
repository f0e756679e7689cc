import Companion.Emotion.Days
import Mathlib

/-!
# The apply step

`_run_apply` of `brain/emotion/engine.py`, which a drain of the queue and a direct apply share, and
the reading of the queue file (`brain/emotion/engine_files.py`). What the step does to the two files
is the list of its writes: a write that fails ends the step, as a stop of the process does, so that
what a step does is a first part of that list.

Left out is the change log.
-/

namespace Companion.Emotion

open Companion.Memory

/-! ## The queue file -/

/-- The lines of a file that end with a newline. -/
def completeLines : Text → List Text
  | [] => []
  | c :: cs => if c = '\n' then [] :: completeLines cs else (completeLines cs).modifyHead (c :: ·)

/-- `_tail_is_torn` -/
def isTorn (file : Text) : Bool := file.getLast?.any (· ≠ '\n')

/-- What `append_jsonl` writes to a file for one record. -/
def appendPayload (file record : Text) : Text :=
  (if isTorn file then ['\n'] else []) ++ record ++ ['\n']

section Reading

variable {K : Type*} [Field K] [LinearOrder K]

local instance atLeastTwo_ten : Nat.AtLeastTwo 10 := ⟨by decide⟩

/-- `_MODIFIER_LOW` -/
def modifierLow : K := 1 / 10

/-- `_MODIFIER_HIGH` -/
def modifierHigh : K := 1

/-- `event_from_json`, of a record that has the shape of an event. -/
def Event.check (e : Event K) : Option (Event K) :=
  match e.kind with
  | .start => some ⟨.start, e.time, none, ∅, 1, 0⟩
  | .change => some ⟨.change, e.time, none, e.emotions, 1, 0⟩
  | kind =>
    if e.memoryId = none ∨ e.memoryId = some [] then none
    else if kind.anchored ∧ e.emotions.entries = [] then none
    else
      some
        { e with
          modifier := min (max e.modifier modifierLow) modifierHigh
          climax := if kind = .commit then e.climax else 0 }

/-- An event to fold, with its line where it is of the queue. Lines are counted from 0. -/
structure Item (K : Type*) where
  line : Option ℕ
  event : Event K
  deriving DecidableEq

structure QueueRead (K : Type*) where
  items : List (Item K)
  endLine : ℕ

/-- The event of a line of the queue. -/
def Setting.readLine (S : Setting K) (line : Text) : Option (Event K) :=
  (S.parse line).bind Event.check

/-- The line from which `read_queue` reads, given the lines that the file has. -/
def effectiveFrom (fromLine lines : ℕ) : ℕ := if lines < fromLine then 0 else fromLine

/-- `read_queue` -/
def Setting.readQueue (S : Setting K) (file : Text) (fromLine : ℕ) : QueueRead K :=
  let lines := completeLines file
  { items := (lines.zipIdx.drop (effectiveFrom fromLine lines.length)).filterMap fun l =>
      (S.readLine l.1).map fun e => ⟨some l.2, e⟩
    endLine := lines.length }

/-! ## Folding -/

/-- The memory of an event that folds once at most for it. -/
def Event.ownMemory (e : Event K) : Option Text := if e.kind.anchored then e.memoryId else none

/-- The items that fold: no item for a memory that was counted before, nor a second one. -/
def keep (skipIds : List Text) : List (Item K) → List (Item K)
  | [] => []
  | i :: is =>
    match i.event.ownMemory with
    | none => i :: keep skipIds is
    | some id => if id ∈ skipIds then keep skipIds is else i :: keep (id :: skipIds) is

/-- The items in time order, those at one time in the order that they have. -/
def inTimeOrder (items : List (Item K)) : List (Item K) :=
  items.insertionSort fun i j => i.event.time ≤ j.event.time

variable (S : Setting K)

/-- The close of the days before an item, and its fold. -/
def EngineState.foldItem (s : EngineState K) (now : Instant) (i : Item K) : EngineState K :=
  (s.closeDays S (min i.event.time now)).foldEvent S i.event now

/-- `_fold_events`, with the items that folded. -/
def EngineState.foldEvents (s : EngineState K) (items : List (Item K)) (now : Instant)
    (skipIds : List Text) : EngineState K × List (Item K) :=
  let kept := keep skipIds (inTimeOrder items)
  (kept.foldl (fun s i => s.foldItem S now i) s, kept)

/-- The repeat records whose window has not ended. -/
def EngineState.pruneRepeats (s : EngineState K) (now : Instant) : EngineState K :=
  { s with
    repeats := s.repeats.filterMap fun _ entry =>
      if entry.firstAt + repeatWindow ≤ now then none else some entry }

/-! ## The step -/

/-- A write of the step. With a state go the items that it has and the one loaded has not. -/
inductive Write (K : Type*)
  | saveState (s : EngineState K) (folded : List (Item K))
  | emptyQueue

/-- What the step has once the state is loaded. -/
structure Ready (K : Type*) where
  state : EngineState K
  now : Instant
  skipIds : List Text
  caughtUp : Bool
  fallbackEmpty : Bool
  /-- The active day before the step. -/
  preDay : Option ℤ
  /-- What the recovery has read of the queue. -/
  queueRead : Option (QueueRead K)

/-- A state of the main file. `now` is held to its `saved_at`. -/
def Ready.main (s : EngineState K) (now : Instant) : Ready K where
  state := s
  now := s.savedAt.elim now (max now)
  skipIds := []
  caughtUp := false
  fallbackEmpty := false
  preDay := s.activeDay
  queueRead := none

/-- What the step is run for. -/
inductive Job (K : Type*)
  | drain
  | direct (events : List (Event K))

/-- The items of a job, and for a drain the number of lines of the queue and whether any are read.
-/
structure Intake (K : Type*) where
  items : List (Item K)
  endLine : Option ℕ
  linesRead : Bool

def Ready.intake (r : Ready K) (job : Job K) (queue : Text) : Intake K :=
  match job with
  | .drain =>
    let read := r.queueRead.getD (S.readQueue queue r.state.queueLine)
    let from' := if r.caughtUp then 0 else effectiveFrom r.state.queueLine read.endLine
    ⟨read.items, some read.endLine, from' < read.endLine⟩
  | .direct events => ⟨(events.filterMap Event.check).map fun e => ⟨none, e⟩, none, false⟩

/-- `_empty_and_remember` -/
def emptyAndRemember (s : EngineState K) (endLine : Option ℕ) : List (Write K) :=
  if endLine.any (0 < ·) then [.emptyQueue, .saveState { s with queueLine := 0 } []] else []

/-- The state after the folds, the close of the days and the prune, with the items that folded. -/
def Ready.folded (r : Ready K) (items : List (Item K)) : EngineState K × List (Item K) :=
  let (s, kept) := r.state.foldEvents S items r.now r.skipIds
  ((s.closeDays S r.now).pruneRepeats r.now, kept)

/-- Whether the step saves what it has folded. -/
def Ready.saves (r : Ready K) (intake : Intake K) (s : EngineState K) (kept : List (Item K)) : Bool :=
  intake.linesRead || (r.preDay.isSome && s.activeDay ≠ r.preDay) || r.caughtUp || r.fallbackEmpty ||
    -- A position over an empty queue is stale.
    (intake.endLine = some 0 && 0 < s.queueLine) || (intake.endLine.isNone && kept ≠ [])

/-- The state as it is saved. -/
def Ready.stamped (r : Ready K) (endLine : Option ℕ) (s : EngineState K) : EngineState K :=
  { s with
    savedAt := some r.now
    resetAt := if r.caughtUp then some r.now else s.resetAt
    queueLine := endLine.getD s.queueLine }

/-- `_run_apply`, once the state is loaded. -/
def Ready.apply (r : Ready K) (job : Job K) (queue : Text) : List (Write K) :=
  let intake := r.intake S job queue
  let (s, kept) := r.folded S intake.items
  if r.saves intake s kept then
    let s := r.stamped intake.endLine s
    .saveState s kept :: emptyAndRemember s intake.endLine
  else emptyAndRemember s intake.endLine

/-! ## What the step folds -/

variable {S}

theorem modifier_check [IsStrictOrderedRing K] {e e' : Event K} (h : e.check = some e') :
    0 ≤ e'.modifier := by
  have hlow : (0 : K) ≤ modifierLow := by unfold modifierLow; positivity
  have hheld : (0 : K) ≤ min (max e.modifier modifierLow) modifierHigh :=
    le_min (hlow.trans (le_max_right _ _)) zero_le_one
  unfold Event.check at h
  split at h
  · obtain rfl := Option.some.inj h
    exact zero_le_one
  · obtain rfl := Option.some.inj h
    exact zero_le_one
  · split_ifs at h <;>
    · obtain rfl := Option.some.inj h
      exact hheld

theorem keep_sublist (skipIds : List Text) (items : List (Item K)) :
    (keep skipIds items).Sublist items := by
  induction items generalizing skipIds with
  | nil => exact .slnil
  | cons i is ih =>
    unfold keep
    cases i.event.ownMemory with
    | none => exact (ih skipIds).cons_cons i
    | some id =>
      simp only
      split_ifs
      · exact (ih skipIds).cons i
      · exact (ih (id :: skipIds)).cons_cons i

/-- An item that no memory counts is kept. -/
theorem mem_keep {items : List (Item K)} {i : Item K} (hi : i ∈ items)
    (hown : i.event.ownMemory = none) (skipIds : List Text) : i ∈ keep skipIds items := by
  induction items generalizing skipIds with
  | nil => cases hi
  | cons j js ih =>
    unfold keep
    rcases List.mem_cons.mp hi with rfl | hi
    · rw [hown]
      exact List.mem_cons_self
    · cases j.event.ownMemory with
      | none => exact List.mem_cons_of_mem j (ih hi skipIds)
      | some id =>
        simp only
        split_ifs
        · exact ih hi skipIds
        · exact List.mem_cons_of_mem j (ih hi (id :: skipIds))

/-- An item of a memory that was counted before is not kept. -/
theorem notMem_of_mem_keep {skipIds : List Text} {items : List (Item K)} {i : Item K}
    (hi : i ∈ keep skipIds items) {id : Text} (hid : i.event.ownMemory = some id) :
    id ∉ skipIds := by
  induction items generalizing skipIds with
  | nil => cases hi
  | cons j js ih =>
    unfold keep at hi
    cases hown : j.event.ownMemory with
    | none =>
      rw [hown] at hi
      rcases List.mem_cons.mp hi with rfl | hi
      · exact nomatch hown.symm.trans hid
      · exact ih hi
    | some id' =>
      rw [hown] at hi
      simp only at hi
      split_ifs at hi with hskip
      · exact ih hi
      · rcases List.mem_cons.mp hi with rfl | hi
        · obtain rfl := Option.some.inj (hown.symm.trans hid)
          exact hskip
        · exact fun hmem => ih hi (List.mem_cons_of_mem _ hmem)

theorem perm_inTimeOrder (items : List (Item K)) : (inTimeOrder items).Perm items :=
  List.perm_insertionSort _ items

/-- What the close of the days and each event keep, the folds of a step keep. -/
theorem foldEvents_keeps [IsStrictOrderedRing K] (now : Instant) {P : EngineState K → Prop}
    (hclose : ∀ s t, P s → P (s.closeDays S t))
    (hevent : ∀ (s : EngineState K) (e : Event K), P (s.closeDays S (min e.time now)) →
      0 ≤ e.modifier → P ((s.closeDays S (min e.time now)).foldEvent S e now))
    {items : List (Item K)} (hitems : ∀ i ∈ items, 0 ≤ i.event.modifier) (skipIds : List Text)
    {s : EngineState K} (hs : P s) : P (s.foldEvents S items now skipIds).1 := by
  have hkept : ∀ i ∈ keep skipIds (inTimeOrder items), 0 ≤ i.event.modifier := fun i hi =>
    hitems i ((perm_inTimeOrder items).mem_iff.mp ((keep_sublist skipIds _).mem hi))
  show P ((keep skipIds (inTimeOrder items)).foldl (fun s i => s.foldItem S now i) s)
  generalize keep skipIds (inTimeOrder items) = kept at hkept ⊢
  induction kept generalizing s with
  | nil => exact hs
  | cons i is ih =>
    obtain ⟨hi, his⟩ := List.forall_mem_cons.mp hkept
    exact ih (hevent s i.event (hclose s _ hs) hi) his

theorem header_folded [IsStrictOrderedRing K] (r : Ready K) {items : List (Item K)}
    (hitems : ∀ i ∈ items, 0 ≤ i.event.modifier) : (r.folded S items).1.header = r.state.header := by
  have hfold := foldEvents_keeps (S := S) r.now (P := fun s => s.header = r.state.header)
    (fun s t hs => (header_closeDays t).trans hs)
    (fun s e hs hmodifier => (keeps_header S _ _ _).foldEvent hmodifier hs) hitems r.skipIds rfl
  exact (header_closeDays r.now).trans hfold

/-- The items of a job have passed the check. -/
theorem check_of_mem_intake {r : Ready K}
    (hread : ∀ read, r.queueRead = some read → ∃ file fromLine, read = S.readQueue file fromLine)
    {job : Job K} {queue : Text} {i : Item K} (hi : i ∈ (r.intake S job queue).items) :
    ∃ e : Event K, e.check = some i.event := by
  cases job with
  | drain =>
    have hitems : ∃ file fromLine, i ∈ (S.readQueue file fromLine).items := by
      unfold Ready.intake at hi
      cases hqueue : r.queueRead with
      | none =>
        rw [hqueue] at hi
        exact ⟨_, _, hi⟩
      | some read =>
        rw [hqueue] at hi
        obtain ⟨file, fromLine, rfl⟩ := hread read hqueue
        exact ⟨file, fromLine, hi⟩
    obtain ⟨file, fromLine, hitem⟩ := hitems
    obtain ⟨l, -, hl⟩ := List.mem_filterMap.mp hitem
    obtain ⟨e, he, rfl⟩ := Option.map_eq_some_iff.mp hl
    obtain ⟨raw, -, hraw⟩ := Option.bind_eq_some_iff.mp he
    exact ⟨raw, hraw⟩
  | direct events =>
    obtain ⟨e, he, rfl⟩ := List.mem_map.mp hi
    obtain ⟨raw, -, hraw⟩ := List.mem_filterMap.mp he
    exact ⟨raw, hraw⟩

/-- A step saves what it has folded and then empties the queue, or empties the queue alone. -/
theorem apply_cases (r : Ready K) (job : Job K) (queue : Text) :
    ∃ (s : EngineState K) (kept : List (Item K)),
      r.folded S (r.intake S job queue).items = (s, kept) ∧
      (r.saves (r.intake S job queue) s kept = true ∧
          r.apply S job queue =
            .saveState (r.stamped (r.intake S job queue).endLine s) kept ::
              emptyAndRemember (r.stamped (r.intake S job queue).endLine s)
                (r.intake S job queue).endLine ∨
        r.saves (r.intake S job queue) s kept = false ∧
          r.apply S job queue = emptyAndRemember s (r.intake S job queue).endLine) := by
  obtain ⟨s, kept, hfolded⟩ : ∃ s kept, r.folded S (r.intake S job queue).items = (s, kept) :=
    ⟨_, _, rfl⟩
  refine ⟨s, kept, hfolded, ?_⟩
  unfold Ready.apply
  simp only [hfolded]
  cases hsaves : r.saves (r.intake S job queue) s kept with
  | true => exact Or.inl ⟨rfl, if_pos rfl⟩
  | false => exact Or.inr ⟨rfl, if_neg Bool.false_ne_true⟩

/-- A job keeps the header that was loaded up to its save, and folds what it takes in. -/
theorem folded_main [IsStrictOrderedRing K] {state s' : EngineState K} {kept : List (Item K)} {now : Instant} {job : Job K}
    {queue : Text}
    (h : (Ready.main state now).folded S ((Ready.main state now).intake S job queue).items =
      (s', kept)) :
    s'.header = state.header ∧
      kept = keep [] (inTimeOrder ((Ready.main state now).intake S job queue).items) := by
  have hitems : ∀ i ∈ ((Ready.main state now).intake S job queue).items, 0 ≤ i.event.modifier := by
    intro i hi
    obtain ⟨e, he⟩ := check_of_mem_intake (r := Ready.main state now) nofun hi
    exact modifier_check he
  have hheader := header_folded (S := S) (Ready.main state now) hitems
  rw [h] at hheader
  exact ⟨hheader, (congrArg Prod.snd h).symm⟩

/-- A drain that saves nothing has read no line, and its position is not past an empty queue. -/
theorem queueLine_of_unsaved {state s' : EngineState K} {kept : List (Item K)} {now : Instant}
    {queue : Text} (hline : s'.queueLine = state.queueLine)
    (h : (Ready.main state now).saves ((Ready.main state now).intake S .drain queue) s' kept =
      false) :
    state.queueLine = (completeLines queue).length := by
  have hread : ¬ effectiveFrom state.queueLine (completeLines queue).length <
      (completeLines queue).length := by
    intro hlt
    simp [Ready.saves, Ready.intake, Ready.main, Setting.readQueue, hlt] at h
  have hstale : ¬ ((completeLines queue).length = 0 ∧ 0 < state.queueLine) := by
    rintro ⟨h0, hpos⟩
    simp [Ready.saves, Ready.intake, Ready.main, Setting.readQueue, h0, hline, hpos] at h
  unfold effectiveFrom at hread
  split_ifs at hread <;> omega

end Reading

end Companion.Emotion

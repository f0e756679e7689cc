import Companion.Forgetting.Policy
import Companion.Runs
import Mathlib.Data.List.Sort

/-!
# Forgetting passes among other writers

`run_pass` of `brain/forgetting/__init__.py`, one statement or file write at a time, with the
writers that change the same rows on other connections: the consolidation gate's merge of a
candidate into a row (`_dispatch`), the write-back of a remembered row, recalls, and any others. At
most one pass and one merge are in progress. A pass reads its counters, the three legs of the soul
exemptions and the rows, and then walks over the rows in the order of their ids. It may be paused
between two memories, stopped anywhere, and is resumed after the saved cursor.

The salience is a parameter: it depends on the row, and on what else the pass can see (`Ctx`).

`evaluations`, `unrecorded`, `merged` and `buried` are bookkeeping: no operation reads them.
-/

namespace Companion.Forgetting

open Companion.Memory
open Companion.Runs

/-- The memory that a pass is at: the row as it was read, its salience, and `next_low`. -/
structure Item where
  id : MemoryId
  memory : Row
  salience : ℚ
  nextLow : ℕ
  deriving DecidableEq

/-- The next statement of a pass. -/
inductive Point
  /-- The three legs of `_load_soul_linked_ids`. -/
  | crystallised
  | underReview
  | mergeTargets
  /-- The rows and the cursor are read. -/
  | rows
  /-- The next memory is evaluated. -/
  | next
  /-- `fade` reads the state. -/
  | fade (it : Item)
  | fadeWrite (it : Item)
  /-- `unfade` reads the snapshot. -/
  | unfade (it : Item)
  | unfadeWrite (it : Item)
  /-- `graveyard.append` -/
  | bury (it : Item)
  /-- `hard_delete` looks the row up. -/
  | delete (it : Item)
  | deleteWrite (it : Item)
  /-- `save_progress` -/
  | save (it : Item)
  /-- `_persist_forgetting_state` -/
  | persist (it : Item)
  /-- A clean finish: the cursor is cleared, and the counters are written. -/
  | clear
  | finish
  deriving DecidableEq

/-- The memory that a pass has evaluated, until its counter is written. -/
def Point.item? : Point → Option Item
  | .fade it | .fadeWrite it | .unfade it | .unfadeWrite it | .bury it | .delete it | .deleteWrite it
  | .save it | .persist it => some it
  | _ => none

/-- A pass in progress. -/
structure Pass where
  env : Env
  counters : Dict MemoryId ℕ
  crystallised : List MemoryId
  underReview : List MemoryId
  todo : List (MemoryId × Row)
  point : Point
  deriving DecidableEq

/-- An entry of `forgotten_memories.jsonl`. -/
structure Entry where
  memoryId : MemoryId
  summary : Text
  salienceAtDrop : ℚ
  deriving DecidableEq

/-- A merge of the gate in progress. -/
inductive Merge
  /-- The target is read; `_archive_preimage` is next. -/
  | archive (source target : MemoryId) (text : Text)
  /-- `update` looks the row up. -/
  | lookup (target : MemoryId) (text : Text)
  | write (target : MemoryId) (text : Text)
  deriving DecidableEq

/-- A merge that was counted: its text, and the state of the row that its write met. -/
structure Merged where
  text : Text
  landed : Option MemoryState
  deriving DecidableEq

/-- The table, the files, and what is in progress. -/
structure State where
  rows : Dict MemoryId Row
  graveyard : List Entry
  /-- The ids protected by a live crystallisation, and those under review. -/
  crystallised : List MemoryId
  underReview : List MemoryId
  /-- The merges of `consolidation_archive.jsonl`: candidate and target. -/
  archive : List (MemoryId × MemoryId)
  /-- `forgetting_state.json` -/
  counters : Dict MemoryId ℕ
  /-- `last_id` of `forgetting_progress.json` -/
  cursor : Option MemoryId
  pass : Option Pass
  merge : Option Merge
  /-- The saliences that the passes gave a memory, the last one first. -/
  evaluations : MemoryId → List ℚ
  /-- A pass stopped between an evaluation at or above the threshold and the write of its counter.
  -/
  unrecorded : MemoryId → Bool
  /-- The last merge into a row that was counted. -/
  merged : MemoryId → Option Merged
  /-- The content, as the pass read it, of the row that a pass deleted last. -/
  buried : MemoryId → Option Text

/-- A step of a pass, of the gate, or of another writer. -/
inductive Act (Ctx : Type*)
  | startPass (env : Env)
  /-- The next statement of the pass: whether it succeeds, the time, what the salience depends on,
  and whether a pause is asked for. -/
  | pass (succeeds : Bool) (now : Instant) (ctx : Ctx) (pause : Bool)
  /-- The gate is to merge the candidate `source` into the row `target`. -/
  | startMerge (source target : MemoryId) (proposal : Text)
  | merge (succeeds : Bool)
  /-- `refresh_faded_emotions` -/
  | writeBack (id : MemoryId) (now : Instant)
  /-- `get` with a bump. -/
  | bump (id : MemoryId) (amount : ℚ) (now : Instant)
  /-- The soul's candidates and crystallisations change. -/
  | soul (crystallised underReview : List MemoryId)
  /-- Any other writes to the table. -/
  | write (rows : Dict MemoryId Row)
  | crash

variable {Ctx : Type*} (score : Ctx → Bool → Row → ℚ) (cal : Text.Calendar)

namespace State

/-- The ids of a set, and the rows that the gate merged them into. -/
def withMergeTargets (s : State) (ids : List MemoryId) : List MemoryId :=
  ids ++ (s.archive.filter fun m => ids.contains m.1).map Prod.snd

/-- The pass moves on. -/
def setPoint (s : State) (p : Pass) (point : Point) : State :=
  { s with pass := some { p with point := point } }

/-- The pass ends before its end. -/
def stop (s : State) (p : Pass) : State :=
  { s with
    pass := none
    unrecorded :=
      match p.point.item? with
      | some it =>
        if lostThreshold ≤ it.salience then Function.update s.unrecorded it.id true
        else s.unrecorded
      | none => s.unrecorded }

/-- The memory is done with, and its counter is set in the pass. -/
def toSave (s : State) (p : Pass) (it : Item) : State :=
  { s with
    pass := some { p with
      counters := if 0 < it.nextLow then p.counters.set it.id it.nextLow else p.counters.pop it.id
      point := .save it } }

/-- The memories of a pass: the rows in the order of their ids, after the cursor. -/
def memories (s : State) : List (MemoryId × Row) :=
  let rows := s.rows.entries.insertionSort fun a b => a.1 ≤ b.1
  match s.cursor with
  | some lastId => rows.dropWhile fun m => m.1 ≤ lastId
  | none => rows

/-- The evaluation of a memory that is not exempt. -/
def evaluate (s : State) (p : Pass) (id : MemoryId) (memory : Row) (ctx : Ctx) : State :=
  let salience := score ctx (p.crystallised.contains id || p.underReview.contains id) memory
  let nextLow := if salience < lostThreshold then (p.counters.get? id).getD 0 + 1 else 0
  let it : Item := ⟨id, memory, salience, nextLow⟩
  let s := { s with evaluations := Function.update s.evaluations id (salience :: s.evaluations id) }
  match nextState memory salience nextLow p.env.narrativeWeight with
  | .none => s.toSave p it
  | .fade => s.setPoint p (.fade it)
  | .unfade => s.setPoint p (.unfade it)
  | .lose => s.setPoint p (.bury it)

/-- The next memory of a pass, which an exempt one is not. -/
def judge (s : State) (p : Pass) (now : Instant) (ctx : Ctx) : State :=
  match p.todo with
  | [] => s.setPoint p .clear
  | (id, memory) :: todo =>
    if isExempt id memory p.crystallised p.underReview p.env now ||
        isWithinImportGrace memory p.env then
      s.setPoint { p with todo := todo } .next
    else s.evaluate score { p with todo := todo } id memory ctx

/-- The next statement of a pass that succeeds. -/
def advance (s : State) (p : Pass) (now : Instant) (ctx : Ctx) (pause : Bool) : State :=
  match p.point with
  | .crystallised => s.setPoint { p with crystallised := s.crystallised } .underReview
  | .underReview => s.setPoint { p with underReview := s.underReview } .mergeTargets
  | .mergeTargets =>
    s.setPoint { p with
      crystallised := s.withMergeTargets p.crystallised
      underReview := s.withMergeTargets p.underReview } .rows
  | .rows => s.setPoint { p with todo := s.memories } .next
  | .next => s.judge score p now ctx
  | .fade it =>
    match s.rows.get? it.id with
    | none => s.stop p
    | some r => if r.state = .fading then s.toSave p it else s.setPoint p (.fadeWrite it)
  | .fadeWrite it =>
    { s with rows := updateRow s.rows it.id (.fade (it.memory.content.summarise 240)) }.toSave p it
  | .unfade it =>
    match s.rows.get? it.id with
    | none => s.stop p
    | some r =>
      if r.contentSnapshot.isSome then s.setPoint p (.unfadeWrite it)
      else s.toSave p { it with nextLow := 0 }
  | .unfadeWrite it =>
    match s.rows.get? it.id with
    | none => s.toSave p { it with nextLow := 0 }
    | some r =>
      -- The content is not nullable, so the update of a row without a snapshot raises.
      match r.unfade with
      | none => s.stop p
      | some r' => { s with rows := s.rows.set it.id r' }.toSave p { it with nextLow := 0 }
  | .bury it =>
    let entry : Entry := ⟨it.id, it.memory.content, it.salience⟩
    { s with graveyard := s.graveyard ++ [entry] }.setPoint p (.delete it)
  | .delete it =>
    match s.rows.get? it.id with
    | none => s.stop p
    | some _ => s.setPoint p (.deleteWrite it)
  | .deleteWrite it =>
    { s with
      rows := s.rows.pop it.id
      buried := Function.update s.buried it.id (some it.memory.content) }.toSave p
      { it with nextLow := 0 }
  | .save it => { s with cursor := some it.id }.setPoint p (.persist it)
  | .persist _ =>
    let s := { s with counters := p.counters }
    if pause = true ∧ p.todo ≠ [] then { s with pass := none } else s.setPoint p .next
  | .clear => { s with cursor := none }.setPoint p .finish
  | .finish => { s with counters := p.counters, pass := none }

/-- The next statement of a pass that fails. A cursor that is not saved, or not cleared, is only
logged. -/
def fail (s : State) (p : Pass) : State :=
  match p.point with
  | .save it => s.setPoint p (.persist it)
  | .clear => s.setPoint p .finish
  | _ => s.stop p

/-- The next statement of a merge that succeeds. -/
def advanceMerge (s : State) : Merge → State
  | .archive source target text =>
    { s with archive := s.archive ++ [(source, target)], merge := some (.lookup target text) }
  | .lookup target text =>
    { s with merge := if (s.rows.get? target).isSome then some (.write target text) else none }
  | .write target text =>
    { s with
      merge := none
      rows := updateRow s.rows target (.updateContent text)
      merged := Function.update s.merged target
        (some ⟨text, (s.rows.get? target).map Row.state⟩) }

end State

/-- Passes, merges and the other writers, from any table and files. -/
def machine : Machine State (Act Ctx) where
  init s := s.pass = none ∧ s.merge = none ∧ (∀ id, s.evaluations id = [] ∧ s.merged id = none) ∧
    s.counters = ∅
  step s
    | .startPass env =>
      if s.pass.isSome then none
      else some { s with pass := some ⟨env, s.counters, [], [], [], .crystallised⟩ }
    | .pass succeeds now ctx pause =>
      s.pass.map fun p => if succeeds then s.advance score p now ctx pause else s.fail p
    | .startMerge source target proposal =>
      if s.merge.isSome then none
      else
        -- A merge of a missing or fading target is deferred.
        match s.rows.get? target with
        | none => some s
        | some r =>
          if r.state = .fading then some s
          else some { s with
            merge := some (.archive source target (.carryDatePrefix r.content proposal)) }
    | .merge succeeds =>
      s.merge.map fun m => if succeeds then s.advanceMerge m else { s with merge := none }
    | .writeBack id now => some { s with rows := updateRow s.rows id (.refreshFadedEmotions cal now) }
    | .bump id amount now =>
      some { s with
        rows := updateRow s.rows id fun r =>
          { r with recallCount := r.recallCount + amount, lastAccessedAt := some now } }
    | .soul crystallised underReview =>
      some { s with crystallised := crystallised, underReview := underReview }
    | .write rows => some { s with rows := rows }
    | .crash =>
      some { (match s.pass with | some p => s.stop p | none => s) with merge := none }

end Companion.Forgetting

import Companion.Memory.Store
import Companion.Runs
import Mathlib

/-!
# The consolidation gate

The queue of pending candidates (`brain/memory/pending.py`) and the passes of the gate over it
(`run_consolidation` of `brain/engines/consolidation.py`), one file or database operation at a time,
among `enqueue` and `enqueue_reappraisals` of any process. The gate lock admits one pass at a time,
and a pass may be stopped anywhere.

A pass claims the queue: it writes the processing file, resets the settled file and empties the
queue. It then works through the batch, and records each entry that it is done with in the settled
file.

What the classifier and the re-appraiser answer, and which operation raises what, is in the label of
a step. Candidate ids are fresh when a candidate is enqueued, and so are claim ids. `casefold` is a
parameter.

`enqueued`, `created`, `absorbed` and `dropped`, and the ids in `seen`, are bookkeeping: no
operation reads them.
-/

namespace Companion.Consolidation

open Companion.Memory
open Companion.Runs

/-- A candidate memory. `parses` says that `Memory.from_dict` reads its entry. -/
structure Candidate where
  id : MemoryId
  content : Text
  memoryType : Text
  importance : ℚ
  createdAt : Instant
  active : Bool
  parses : Bool
  deriving DecidableEq

/-- A line of the queue. -/
inductive Item
  | candidate (m : Candidate)
  | reappraise (id : MemoryId)
  deriving DecidableEq

/-- What a claim stamped with a `_claim_id`. -/
structure Claimed (α : Type*) where
  claimId : ℕ
  payload : α
  deriving DecidableEq

inductive Verdict
  | duplicate
  | merge
  | correction
  | continuation
  /-- `new`, `distinct`, or a verdict that is not one of `VERDICTS`. -/
  | new
  deriving DecidableEq

/-- A `Decision`, cleaned. -/
structure Decision where
  verdict : Verdict
  targetId : Option MemoryId
  mergedContent : Option Text
  deriving DecidableEq

/-- `settle_scope` of an exception. -/
inductive Scope
  | item
  | environment
  deriving DecidableEq

/-- What an operation of a pass comes to. -/
inductive Answer
  | done
  | raised (scope : Scope)
  /-- `ThrottleDeferred` -/
  | deferred
  | judged (d : Decision)
  /-- The re-appraiser's importance, and the time of the write-back once the engine is live. -/
  | appraised (importance : ℚ) (writeBack : Option Instant)
  /-- The re-appraiser raised, or returned something else. -/
  | skipped
  deriving DecidableEq

/-- The loops of a pass, and its end. -/
inductive Loop
  | reappraise
  | parse
  | pass1
  | pass2
  /-- `close` -/
  | close
  deriving DecidableEq

/-- The next operation of a pass. -/
inductive Point
  /-- The queue is read, and the processing file written. -/
  | claim
  /-- The settled file is reset. -/
  | reset
  /-- The queue is emptied. -/
  | empty
  /-- The next item of a loop. -/
  | loop (l : Loop)
  /-- `update` of the importance. -/
  | reappraise (e : Claimed MemoryId) (importance : ℚ) (writeBack : Option Instant)
  | writeBack (e : Claimed MemoryId) (now : Instant)
  | dispatch (e : Claimed Candidate) (d : Decision)
  /-- A deferred merge enqueues the candidate. -/
  | defer (e : Claimed Candidate)
  /-- `_archive_preimage` -/
  | archive (e : Claimed Candidate) (target : MemoryId) (text : Text)
  /-- `update` of the content. -/
  | update (e : Claimed Candidate) (target : MemoryId) (text : Text)
  | create (e : Claimed Candidate)
  /-- `set_edge_weight` -/
  | link (e : Claimed Candidate)
  /-- `_settle_failed_item` probes for the row. -/
  | failed (e : Claimed Item) (scope : Scope) (next : Loop)
  | quarantine (e : Claimed Item) (next : Loop)
  | requeue (e : Claimed Item)
  | settle (e : Claimed Item) (next : Loop)
  /-- `close` deletes the settled file. -/
  | closeSettled
  deriving DecidableEq

/-- The lock of the queue is held until the queue is emptied. -/
def Point.locked : Point → Bool
  | .reset | .empty => true
  | _ => false

/-- A pass in progress: its batch, what it knows to be settled, and what its loops have still to do.
-/
structure Run where
  salienceFloor : Option ℚ
  entries : List (Claimed Item)
  settled : List ℕ
  reappraisals : List (Claimed MemoryId)
  unparsed : List (Claimed Candidate)
  candidates : List (Claimed Candidate)
  survivors : List (Claimed Candidate)
  /-- `seen_norm`, with the id of the candidate that each came from. -/
  seen : List (Text × MemoryId)
  point : Point
  deriving DecidableEq

/-- Why a candidate is dropped on purpose. -/
inductive Drop
  | unparseable
  /-- The text of an active row, or of another candidate of the batch. -/
  | exactRepeat
  /-- Below the salience floor. -/
  | salience
  /-- By the verdict. -/
  | duplicate
  deriving DecidableEq

/-- The files, the table, and the pass in progress. -/
structure State where
  queue : List Item
  processing : List (Claimed Item)
  settled : List ℕ
  quarantine : List Item
  rows : Dict MemoryId Row
  /-- The claim ids below it were used. -/
  nextClaim : ℕ
  run : Option Run
  enqueued : List Candidate
  /-- The ids of the rows that the gate inserted. -/
  created : List MemoryId
  /-- The candidates that were merged, and into which row. -/
  absorbed : List (MemoryId × MemoryId)
  /-- The candidates that were dropped. -/
  dropped : List (MemoryId × Drop)

/-- A step of an enqueuing process, or of the gate. -/
inductive Act
  | enqueue (m : Candidate)
  | enqueueReappraisals (ids : List MemoryId)
  | start (salienceFloor : Option ℚ)
  | run (answer : Answer)
  | crash

/-! ## Texts -/

section Texts

variable (casefold : Text → Text)

/-- `_normalize` -/
def normalize (t : Text) : Text := casefold (Text.strip (Text.collapseFrom false t))

/-- `_fold` -/
def fold (existing addition : Text) : Text :=
  if normalize casefold addition <:+: normalize casefold existing then existing
  else existing.rstrip ++ '\n' :: addition.strip

/-- A letter of ASCII in lower case, as `COLLATE NOCASE` compares it. -/
def nocase (c : Char) : Char := if 'A' ≤ c ∧ c ≤ 'Z' then Char.ofNat (c.toNat + 32) else c

/-- What `LIKE` reads of a text: it ends at a NUL. -/
def likeText (t : Text) : Text := (t.takeWhile (· ≠ '\x00')).map nocase

/-- `LIKE` with the escaped query between two `%`, of which a NUL in the query cuts off the last. -/
def like (query content : Text) : Bool :=
  if '\x00' ∈ query then decide (likeText query <:+ likeText content)
  else decide (likeText query <:+: likeText content)

/-- The active rows that are found, the newest first. Rows of one time come in the order of the
table, which may be any. -/
def found (rows : Dict MemoryId Row) (query : Text) : List Row :=
  ((rows.entries.map Prod.snd).filter fun r => r.active && like query r.content).insertionSort
    fun r r' => r'.createdAt ≤ r.createdAt

/-- `search_text` over the active rows. -/
def searchText (rows : Dict MemoryId Row) (query : Text) (limit : ℕ) : List Row :=
  (found rows query).take limit

/-- `_has_exact_existing` -/
def hasExactExisting (rows : Dict MemoryId Row) (content norm : Text) : Bool :=
  let snippet := content.strip.take 200
  if snippet = [] then false
  else (searchText rows snippet 20).any fun r => normalize casefold r.content = norm

/-- Whether `_saved_state` takes a row of the candidate's id to be the candidate. -/
def isSaved (r : Row) (m : Candidate) : Bool :=
  let candNorm := normalize casefold m.content
  let rowNorm := normalize casefold r.content
  let snapshotNorm := normalize casefold (r.contentSnapshot.getD [])
  candNorm = rowNorm || (snapshotNorm ≠ [] && candNorm = snapshotNorm) ||
    (candNorm ≠ [] && decide (candNorm <:+: rowNorm))

end Texts

/-- `SALIENCE_ELIGIBLE_TYPES` -/
def salienceEligibleTypes : List Text :=
  ["monologue".toList, "monologue_emotion".toList, "monologue_soul_candidate".toList]

/-- A candidate below the floor, of a type that the floor is for. -/
def belowFloor (floor : Option ℚ) (m : Candidate) : Bool :=
  floor.any fun x => decide (m.memoryType ∈ salienceEligibleTypes) && decide (m.importance < x)

/-! ## Claims -/

/-- One re-appraise item for each memory, the first. -/
def dedupeReappraise (seen : List MemoryId) : List Item → List Item
  | [] => []
  | .candidate m :: items => .candidate m :: dedupeReappraise seen items
  | .reappraise id :: items =>
    if id ∈ seen then dedupeReappraise seen items
    else .reappraise id :: dedupeReappraise (id :: seen) items

/-- Fresh claim ids, from `n` on. -/
def stamp (n : ℕ) : List Item → List (Claimed Item)
  | [] => []
  | i :: items => ⟨n, i⟩ :: stamp (n + 1) items

def Claimed.candidate? (e : Claimed Item) : Option (Claimed Candidate) :=
  match e.payload with
  | .candidate m => some ⟨e.claimId, m⟩
  | .reappraise _ => none

def Claimed.reappraisal? (e : Claimed Item) : Option (Claimed MemoryId) :=
  match e.payload with
  | .candidate _ => none
  | .reappraise id => some ⟨e.claimId, id⟩

/-- The entry of a candidate. -/
def Claimed.entry (e : Claimed Candidate) : Claimed Item := ⟨e.claimId, .candidate e.payload⟩

/-- The entry of a re-appraise item. -/
def Claimed.request (e : Claimed MemoryId) : Claimed Item := ⟨e.claimId, .reappraise e.payload⟩

/-! ## Passes -/

variable (casefold : Text → Text) (cal : Text.Calendar)

namespace State

def setPoint (s : State) (r : Run) (p : Point) : State :=
  { s with run := some { r with point := p } }

def endRun (s : State) : State := { s with run := none }

def drop (s : State) (m : Candidate) (why : Drop) : State :=
  { s with dropped := (m.id, why) :: s.dropped }

/-- The entries that a claim takes: what an earlier one left unsettled, then the queue. -/
def claimable (s : State) : List Item :=
  let leftovers := (s.processing.filter fun e => e.claimId ∉ s.settled).map Claimed.payload
  dedupeReappraise [] (leftovers ++ s.queue)

/-- The processing file is written. -/
def claim (s : State) (r : Run) : State :=
  let entries := stamp s.nextClaim s.claimable
  if entries = [] then s.setPoint { r with entries := [] } (.loop .close)
  else { s with processing := entries, nextClaim := s.nextClaim + entries.length }.setPoint
    { r with
      entries := entries
      reappraisals := entries.filterMap Claimed.reappraisal?
      unparsed := entries.filterMap Claimed.candidate? } .reset

/-- The first pass over one candidate. -/
def pass1 (s : State) (r : Run) (e : Claimed Candidate) : State :=
  let norm := normalize casefold e.payload.content
  if norm ≠ [] ∧ norm ∈ r.seen.map Prod.fst then
    -- A copy of the candidate that was seen is the same candidate, claimed twice.
    let s := if (norm, e.payload.id) ∈ r.seen then s else s.drop e.payload .exactRepeat
    s.setPoint r (.settle e.entry .pass1)
  else if norm ≠ [] ∧ hasExactExisting casefold s.rows e.payload.content norm then
    (s.drop e.payload .exactRepeat).setPoint { r with seen := (norm, e.payload.id) :: r.seen }
      (.settle e.entry .pass1)
  else if belowFloor r.salienceFloor e.payload then
    (s.drop e.payload .salience).setPoint r (.settle e.entry .pass1)
  else
    s.setPoint { r with
      seen := if norm ≠ [] then (norm, e.payload.id) :: r.seen else r.seen
      survivors := r.survivors ++ [e] } (.loop .pass1)

/-- The next item of a loop. -/
def advanceLoop (s : State) (r : Run) (answer : Answer) : Loop → Option State
  | .reappraise =>
    match r.reappraisals with
    | [] => some (s.setPoint r (.loop .parse))
    | e :: rest =>
      let r := { r with reappraisals := rest }
      match answer, s.rows.get? e.payload with
      | .raised scope, _ =>
        some (s.setPoint r (.failed e.request scope .reappraise))
      | _, none => some (s.setPoint r (.settle e.request .reappraise))
      | .deferred, some _ => some (s.setPoint r (.loop .close))
      | .skipped, some _ => some (s.setPoint r (.settle e.request .reappraise))
      | .appraised importance writeBack, some _ =>
        some (s.setPoint r (.reappraise e importance writeBack))
      | _, some _ => none
  | .parse =>
    match r.unparsed with
    | [] => some (s.setPoint r (.loop .pass1))
    | e :: rest =>
      let r := { r with unparsed := rest }
      if e.payload.parses then
        some (s.setPoint { r with candidates := r.candidates ++ [e] } (.loop .parse))
      else some ((s.drop e.payload .unparseable).setPoint r (.settle e.entry .parse))
  | .pass1 =>
    match r.candidates with
    | [] => some (s.setPoint r (.loop .pass2))
    | e :: rest =>
      let r := { r with candidates := rest }
      match answer with
      | .raised scope => some (s.setPoint r (.failed e.entry scope .pass1))
      | .done => some (s.pass1 casefold r e)
      | _ => none
  | .pass2 =>
    match r.survivors with
    | [] => some (s.setPoint r (.loop .close))
    | e :: rest =>
      let r := { r with survivors := rest }
      match answer with
      | .raised scope => some (s.setPoint r (.failed e.entry scope .pass2))
      | .deferred => some (s.setPoint r (.loop .close))
      | .judged d => some (s.setPoint r (.dispatch e d))
      | _ => none
  | .close =>
    if r.entries.all (·.claimId ∈ r.settled) then
      match answer with
      | .done => some ({ s with processing := [] }.setPoint r .closeSettled)
      | _ => some s.endRun
    else some s.endRun

/-- What `_dispatch` does first with a decision. -/
def dispatch (s : State) (r : Run) (e : Claimed Candidate) (d : Decision) : State :=
  match d.verdict with
  | .duplicate => (s.drop e.payload .duplicate).setPoint r (.settle e.entry .pass2)
  | .merge =>
    match d.targetId.bind fun target => (s.rows.get? target).map (target, ·) with
    | none => s.setPoint r (.defer e)
    | some (target, row) =>
      if row.state = .fading then s.setPoint r (.defer e)
      else
        let merged :=
          match d.mergedContent with
          | some (c :: cs) => c :: cs
          | _ => fold casefold row.content e.payload.content
        s.setPoint r (.archive e target (.carryDatePrefix row.content merged))
  | _ => s.setPoint r (.create e)

/-- The probe of `_settle_failed_item`, which may fail itself. -/
def failed (s : State) (r : Run) (probed : Bool) (e : Claimed Item) (scope : Scope) (next : Loop) :
    State :=
  let byScope := s.setPoint r (if scope = .item then .quarantine e next else .requeue e)
  match e.payload with
  | .reappraise _ => byScope
  | .candidate m =>
    match probed, s.rows.get? m.id with
    | true, some row =>
      if isSaved casefold row m then s.setPoint r (.settle e next)
      else s.setPoint r (.quarantine e next)
    | _, _ => byScope

/-- The next operation of a pass, where the answer is of the kind that it asks for. -/
def advance (s : State) (r : Run) (answer : Answer) : Option State :=
  match r.point, answer with
  | .claim, .done => some (s.claim r)
  | .claim, .raised _ => some s.endRun
  | .reset, .done =>
    let p : Point := if s.queue = [] then .loop .reappraise else .empty
    some ({ s with settled := [] }.setPoint r p)
  | .reset, .raised _ => some s.endRun
  | .empty, .done => some ({ s with queue := [] }.setPoint r (.loop .reappraise))
  | .empty, .raised _ => some s.endRun
  | .loop l, answer => s.advanceLoop casefold r answer l
  | .reappraise e importance writeBack, .done =>
    let p : Point :=
      match s.rows.get? e.payload, writeBack with
      | some _, some now => .writeBack e now
      | _, _ => .settle e.request .reappraise
    let rows := updateRow s.rows e.payload ({ · with importance := importance })
    some ({ s with rows := rows }.setPoint r p)
  | .reappraise e _ _, .raised scope => some (s.setPoint r (.failed e.request scope .reappraise))
  | .writeBack e now, .done =>
    some ({ s with rows := updateRow s.rows e.payload (.refreshFadedEmotions cal now) }.setPoint r
      (.settle e.request .reappraise))
  | .writeBack e _, .raised _ => some (s.setPoint r (.settle e.request .reappraise))
  | .dispatch e d, .done => some (s.dispatch casefold r e d)
  | .dispatch e _, .raised scope => some (s.setPoint r (.failed e.entry scope .pass2))
  | .defer e, .done =>
    some ({ s with queue := s.queue ++ [Item.candidate e.payload] }.setPoint r (.settle e.entry .pass2))
  | .defer e, .raised scope => some (s.setPoint r (.failed e.entry scope .pass2))
  | .archive e target text, .done => some (s.setPoint r (.update e target text))
  | .archive e _ _, .raised scope => some (s.setPoint r (.failed e.entry scope .pass2))
  | .update e target text, .done =>
    if (s.rows.get? target).isSome then
      some ({ s with
        rows := updateRow s.rows target (.updateContent text)
        absorbed := (e.payload.id, target) :: s.absorbed }.setPoint r (.settle e.entry .pass2))
    else some (s.setPoint r (.defer e))
  | .update e _ _, .raised scope => some (s.setPoint r (.failed e.entry scope .pass2))
  | .create e, .done =>
    -- A row of the id is an integrity error, which is the item's.
    if (s.rows.get? e.payload.id).isSome then some (s.setPoint r (.failed e.entry .item .pass2))
    else
      let row := Row.created e.payload.content e.payload.active e.payload.createdAt e.payload.importance
      some ({ s with
        rows := s.rows.set e.payload.id row
        created := e.payload.id :: s.created }.setPoint r (.link e))
  | .create e, .raised scope => some (s.setPoint r (.failed e.entry scope .pass2))
  | .link e, .done => some (s.setPoint r (.settle e.entry .pass2))
  | .link e, .raised scope => some (s.setPoint r (.failed e.entry scope .pass2))
  | .failed e scope next, .done => some (s.failed casefold r true e scope next)
  | .failed e scope next, .raised _ => some (s.failed casefold r false e scope next)
  | .quarantine e next, .done =>
    some ({ s with quarantine := s.quarantine ++ [e.payload] }.setPoint r (.settle e next))
  | .quarantine _ _, .raised _ => some (s.setPoint r (.loop .close))
  | .requeue e, .done =>
    some ({ s with queue := s.queue ++ [e.payload] }.setPoint r (.settle e .close))
  | .requeue _, .raised _ => some (s.setPoint r (.loop .close))
  | .settle e next, .done =>
    some ({ s with settled := e.claimId :: s.settled }.setPoint
      { r with settled := e.claimId :: r.settled } (.loop next))
  -- An entry that could not be recorded stays unsettled.
  | .settle _ next, .raised _ => some (s.setPoint r (.loop next))
  | .closeSettled, .done => some { s with settled := [] }.endRun
  | .closeSettled, .raised _ => some s.endRun
  | _, _ => none

end State

/-- The gate of one persona, from empty queue files and any table. -/
def machine : Machine State Act where
  init s := s.queue = [] ∧ s.processing = [] ∧ s.settled = [] ∧ s.run = none ∧ s.enqueued = [] ∧
    s.created = []
  step s
    | .enqueue m =>
      if s.run.any (·.point.locked) ∨ m.id ∈ s.enqueued.map Candidate.id ∨
          (s.rows.get? m.id).isSome then none
      else some { s with queue := s.queue ++ [Item.candidate m], enqueued := m :: s.enqueued }
    | .enqueueReappraisals ids =>
      if s.run.any (·.point.locked) then none
      else some { s with queue := s.queue ++ ids.map .reappraise }
    | .start salienceFloor =>
      if s.run.isSome then none
      else some { s with run := some ⟨salienceFloor, [], [], [], [], [], [], [], .claim⟩ }
    | .run answer => s.run.bind fun r => s.advance casefold cal r answer
    | .crash => some s.endRun

end Companion.Consolidation

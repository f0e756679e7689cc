import Companion.Memory.Text
import Companion.Runs
import Mathlib.Algebra.Order.Ring.Int
import Mathlib.Data.List.Infix
import Mathlib.Logic.Function.Basic

/-!
# One pending write

`commit_write`, `decline_write`, `sweep_expired` and `reconcile_stale_commits` (`brain/files`) on
one record, by any number of workers, one read, guard, mark or file write at a time. A mark is
atomic under the lock of the records, and may fail; a worker may stop anywhere.

A commit claims the record by a mark that compares, and so do a decline, a sweep and a
reconciliation. So the block is written once at most. The marks `refused` and `error` of a commit
compare nothing: the first may meet a record that another commit has claimed, since the guard of a
create fails once that commit has created the file, and the second one that a reconciliation has
committed.
-/

namespace Companion.Files

open Companion.Memory Companion.Runs

inductive Op
  | create
  | append
  deriving DecidableEq

inductive Status
  | pending
  | committing
  | committed
  | declined
  | expired
  | refused
  | error
  deriving DecidableEq

/-- The fields of a record that are read. A stamp that is not usable is none. -/
structure Record where
  op : Op
  content : Text
  status : Status
  proposedAt : Option Instant
  claimedAt : Option Instant
  /-- `resolved_by` is `"reconcile"`. -/
  resolvedByReconcile : Bool
  deriving DecidableEq

/-- What is at the resolved path. -/
inductive Target
  /-- Nothing, nor a directory to put it in. -/
  | missingParent
  | missing
  | file (data : Text)
  /-- A directory, or another thing that is not a file. -/
  | other
  deriving DecidableEq

/-- `_TTL_HOURS`, in microseconds -/
def ttl : Instant := 24 * 3600 * 1000000

/-- `_COMMIT_STALE` -/
def commitStale : Instant := 10 * 60 * 1000000

/-- `_MAX_WRITE_BYTES` -/
def maxWriteBytes : ℕ := 1024 * 1024

/-- `_MAX_RESULT_FILE_BYTES` -/
def maxResultFileBytes : ℕ := 25 * 1024 * 1024

/-- The length in UTF-8. -/
def byteLength (text : Text) : ℕ := (text.map Char.utf8Size).sum

/-- `is_expired` -/
def Record.isExpired (r : Record) (now : Instant) : Bool := r.proposedAt.any fun t => ttl < now - t

/-- `_claim_age` -/
def Record.claimAge (r : Record) (now : Instant) : Option Instant :=
  (r.claimedAt.or r.proposedAt).map (now - ·)

/-- `check_write_target`, where `denied` is whether the path is in a protected location. -/
def checkWriteTarget (denied : Bool) (op : Op) (target : Target) : Bool :=
  !denied &&
    match op, target with
    | .create, .missing => true
    | .create, .missingParent => true
    | .create, _ => false
    | .append, .file _ => true
    | .append, _ => false

/-- `check_size` -/
def checkSize (content : Text) (op : Op) (target : Target) : Bool :=
  byteLength content ≤ maxWriteBytes &&
    match op, target with
    | .append, .file data => byteLength data + byteLength content ≤ maxResultFileBytes
    | _, _ => true

/-- The target once `n` characters of the write have landed, or none where it cannot be opened. -/
def Target.written (target : Target) (r : Record) (n : ℕ) : Option Target :=
  match r.op, target with
  | _, .other => none
  | .append, .file data =>
    let separator := if data = [] ∨ data.getLast? = some '\n' then [] else ['\n']
    some (.file (data ++ (separator ++ r.content).take n))
  | _, _ => some (.file (r.content.take n))

/-- A character at which `str.splitlines` ends a line. -/
def isLineBoundary (c : Char) : Bool :=
  c ∈ ['\n', '\r', '\x0b', '\x0c', '\x1c', '\x1d', '\x1e', '\x85', '\u2028', '\u2029']

/-- `str.splitlines`, where `line` is what the current line has so far, in reverse. -/
def splitLines (line : Text) : Text → List Text
  | [] => if line = [] then [] else [line.reverse]
  | '\r' :: '\n' :: cs => line.reverse :: splitLines [] cs
  | c :: cs =>
    if isLineBoundary c then line.reverse :: splitLines [] cs else splitLines (c :: line) cs

/-- `_block_present` -/
def blockPresent (existing content : Text) : Bool :=
  splitLines [] content <:+: splitLines [] existing

/-- What `_inspect_target` finds. -/
inductive Verdict
  | landed
  | absent
  | unreadable
  deriving DecidableEq

/-- `_inspect_target`, where a read may fail. -/
def Target.inspect (target : Target) (r : Record) (readable : Bool) : Verdict :=
  match readable, target with
  | false, _ => .unreadable
  | true, .missingParent => .unreadable
  | true, .other => .unreadable
  | true, .missing => .absent
  | true, .file data =>
    if maxResultFileBytes < byteLength data then .unreadable
    else
      match r.op with
      | .create => if r.content <:+: data then .landed else .absent
      | .append => if blockPresent data r.content then .landed else .absent

/-- The status that `_reconcile_one` is to record, or none where the record is left for later. -/
def Record.resolution (r : Record) (now : Instant) : Verdict → Option Status
  | .unreadable =>
    match r.claimAge now with
    | some age => if age ≤ ttl then none else some .error
    | none => some .error
  | .landed => some .committed
  | .absent => some .error

/-- The next operation of a worker. -/
inductive Phase
  | idle
  /-- The mark `expired` of a commit or a sweep. -/
  | expiring
  /-- The guard of a commit that read the record. -/
  | guarding (r : Record)
  | refusing
  | claiming (r : Record)
  | writing (r : Record)
  /-- The mark `committed`, with the attempts that are left after it. -/
  | finishing (attempts : ℕ)
  /-- The mark `error` after an `OSError` of the write. -/
  | failing
  | declining
  /-- The look at the target of a reconciliation that read the record. -/
  | inspecting (r : Record) (now : Instant)
  | resolving (status : Status)
  deriving DecidableEq

/-- How a file write ends, with the number of characters that have landed where the target was
opened. -/
inductive Outcome
  | complete
  | raised (landed : Option ℕ)
  | stopped (landed : Option ℕ)
  deriving DecidableEq

/-- The record, its target and the workers. -/
structure State where
  record : Record
  target : Target
  phase : ℕ → Phase
  /-- The worker whose claim took. -/
  owner : Option ℕ
  /-- How many writes of the block have opened the target. -/
  writes : ℕ
  /-- The record has been marked `committed`. -/
  wasCommitted : Bool

/-- A step: a worker reads the record or makes its next operation, or another program changes the
target. Whether a record or a target can be read, and whether a mark takes, is part of the step. -/
inductive Act
  | commitWrite (w : ℕ) (now : Instant) (readable : Bool)
  | declineWrite (w : ℕ) (readable : Bool)
  | sweepExpired (w : ℕ) (now : Instant) (readable : Bool)
  | reconcile (w : ℕ) (now : Instant) (readable : Bool)
  | check (w : ℕ) (denied : Bool)
  | mark (w : ℕ) (now : Instant) (takes : Bool)
  | write (w : ℕ) (outcome : Outcome)
  | inspect (w : ℕ) (readable : Bool)
  | stop (w : ℕ)
  | edit (target : Target)
  deriving DecidableEq

namespace State

variable (s : State)

def setPhase (w : ℕ) (p : Phase) : State := { s with phase := Function.update s.phase w p }

/-- `mark`: the status is set, or compared and set. -/
def setStatus (status : Status) : State :=
  { s with
    record := { s.record with status := status }
    wasCommitted := s.wasCommitted || status = .committed }

/-- The mark of the phase of a worker, where it takes. -/
def marked (w : ℕ) (now : Instant) : Phase → Option State
  | .expiring =>
    some (if s.record.status = .pending then (s.setStatus .expired).setPhase w .idle
      else s.setPhase w .idle)
  | .refusing => some ((s.setStatus .refused).setPhase w .idle)
  | .claiming r =>
    some (if s.record.status = .pending then
        { (s.setStatus .committing).setPhase w (.writing r) with
          record := { s.record with status := .committing, claimedAt := some now }
          owner := some w }
      else s.setPhase w .idle)
  | .finishing _ => some ((s.setStatus .committed).setPhase w .idle)
  | .failing => some ((s.setStatus .error).setPhase w .idle)
  | .declining =>
    some (if s.record.status = .pending then (s.setStatus .declined).setPhase w .idle
      else s.setPhase w .idle)
  | .resolving status =>
    some (if s.record.status = .committing then
        { (s.setStatus status).setPhase w .idle with
          record := { s.record with status := status, resolvedByReconcile := true } }
      else s.setPhase w .idle)
  | _ => none

/-- The mark of the phase of a worker, where it fails. -/
def unmarked (w : ℕ) : Phase → Option State
  | .finishing (n + 1) => some (s.setPhase w (.finishing n))
  | .finishing 0 => some (s.setPhase w .idle)
  | .expiring | .refusing | .claiming _ | .failing | .declining | .resolving _ =>
    some (s.setPhase w .idle)
  | _ => none

/-- The file write of a worker. -/
def wrote (w : ℕ) (r : Record) : Outcome → Option State
  | .complete =>
    (s.target.written r (r.content.length + 1)).map fun target =>
      { s.setPhase w (.finishing 1) with target := target, writes := s.writes + 1 }
  | .raised none => some (s.setPhase w .failing)
  | .raised (some n) =>
    (s.target.written r n).map fun target =>
      { s.setPhase w .failing with target := target, writes := s.writes + 1 }
  | .stopped none => some (s.setPhase w .idle)
  | .stopped (some n) =>
    (s.target.written r n).map fun target =>
      { s.setPhase w .idle with target := target, writes := s.writes + 1 }

end State

/-- The phase of a commit that has read the record. -/
def afterGet (r : Record) (now : Instant) : Phase :=
  if r.status ≠ .pending then .idle else if r.isExpired now then .expiring else .guarding r

/-- The phase of a reconciliation that has read the record. -/
def afterList (r : Record) (now : Instant) : Phase :=
  if r.status ≠ .committing then .idle
  else
    match r.claimAge now with
    | some age => if age ≤ commitStale then .idle else .inspecting r now
    | none => .inspecting r now

/-- The state after a step. A worker reads the record when it is idle. -/
def step (s : State) : Act → Option State
  | .commitWrite w now readable =>
    if s.phase w = .idle then some (s.setPhase w (if readable then afterGet s.record now else .idle))
    else none
  | .declineWrite w readable =>
    if s.phase w = .idle then
      some (s.setPhase w (if readable ∧ s.record.status = .pending then .declining else .idle))
    else none
  | .sweepExpired w now readable =>
    if s.phase w = .idle then
      some (s.setPhase w
        (if readable ∧ s.record.status = .pending ∧ s.record.isExpired now then .expiring else .idle))
    else none
  | .reconcile w now readable =>
    if s.phase w = .idle then some (s.setPhase w (if readable then afterList s.record now else .idle))
    else none
  | .check w denied =>
    match s.phase w with
    | .guarding r =>
      some (s.setPhase w
        (if checkWriteTarget denied r.op s.target && checkSize r.content r.op s.target
          then .claiming r else .refusing))
    | _ => none
  | .mark w now takes => if takes then s.marked w now (s.phase w) else s.unmarked w (s.phase w)
  | .write w outcome =>
    match s.phase w with
    | .writing r => s.wrote w r outcome
    | _ => none
  | .inspect w readable =>
    match s.phase w with
    | .inspecting r now =>
      some (s.setPhase w
        (match r.resolution now (s.target.inspect r readable) with
        | some status => .resolving status
        | none => .idle))
    | _ => none
  | .stop w => some (s.setPhase w .idle)
  | .edit target => some { s with target := target }

/-- A record that was just created, with its target. -/
def start (r : Record) (target : Target) : State := ⟨r, target, fun _ => .idle, none, 0, false⟩

/-- The workers on a record that was created with this operation and content. -/
def machine : Machine State Act where
  init s := ∃ r target, r.status = .pending ∧ s = start r target
  step := step

/-- The block is written once at most, a record that is declined, expired or refused has none, and
one that was committed stays so. -/
def Truthful (s : State) : Prop :=
  s.writes ≤ 1 ∧
    (s.record.status = .declined ∨ s.record.status = .expired ∨ s.record.status = .refused → s.writes = 0) ∧
    (s.wasCommitted = true → s.record.status = .committed)

/-- A mark `refused` takes only on a record that no worker has claimed, and a mark `error` of a
commit only on one that is not committed. -/
def MarksWhatItMay (s : State) : Act → Prop
  | .mark w _ true =>
    match s.phase w with
    | .refusing => s.owner = none
    | .failing => s.record.status ≠ .committed
    | _ => True
  | _ => True

instance (s : State) (a : Act) : Decidable (MarksWhatItMay s a) := by
  unfold MarksWhatItMay
  split
  · split <;> infer_instance
  · infer_instance

/-! ## The invariant -/

/-- The phases of a commit whose claim took. -/
def Phase.Claimed : Phase → Prop
  | .writing _ | .finishing _ | .failing => True
  | _ => False

/-- The statuses of a record that was claimed. -/
abbrev Status.Claimed (status : Status) : Prop :=
  status = .committing ∨ status = .committed ∨ status = .error

/-- One worker has claimed the record at most, and only it writes, once. -/
structure Inv (s : State) : Prop where
  /-- A record that was not claimed has no block. -/
  unclaimed : s.owner = none → ¬s.record.status.Claimed ∧ s.writes = 0
  claimed : s.owner ≠ none → s.record.status.Claimed
  owns : ∀ w, (s.phase w).Claimed → s.owner = some w
  once : s.writes ≤ 1
  writing : ∀ w r, s.phase w = .writing r → s.writes = 0
  /-- A reconciliation commits, or records an error. -/
  resolving : ∀ w status, s.phase w = .resolving status → status = .committed ∨ status = .error
  committed : s.wasCommitted = true → s.record.status = .committed

variable {s s' : State} {w : ℕ} {p : Phase}

theorem inv_start {r : Record} {target : Target} (h : r.status = .pending) :
    Inv (start r target) where
  unclaimed _ := by
    show ¬r.status.Claimed ∧ 0 = 0
    rw [h]
    decide
  claimed h0 := absurd rfl h0
  owns _ h0 := h0.elim
  once := Nat.zero_le _
  writing _ _ h0 := nomatch h0
  resolving _ _ h0 := nomatch h0
  committed h0 := nomatch h0

/-- A worker moves to a phase that its claim allows. -/
theorem Inv.setPhase (hi : Inv s) (howns : p.Claimed → s.owner = some w)
    (hwriting : ∀ r, p = .writing r → s.writes = 0)
    (hresolving : ∀ status, p = .resolving status → status = .committed ∨ status = .error) :
    Inv (s.setPhase w p) := by
  refine ⟨hi.unclaimed, hi.claimed, fun w' h => ?_, hi.once, fun w' r h => ?_, fun w' st h => ?_,
    hi.committed⟩
  all_goals
    simp only [State.setPhase, Function.update_apply] at h
    split_ifs at h with hw
  · rw [hw]
    exact howns h
  · exact hi.owns w' h
  · exact hwriting r h
  · exact hi.writing w' r h
  · exact hresolving st h
  · exact hi.resolving w' st h

/-- A worker moves to a phase without a claim. -/
theorem Inv.move (hi : Inv s) (hclaimed : ¬p.Claimed)
    (hresolving : ∀ status, p = .resolving status → status = .committed ∨ status = .error) :
    Inv (s.setPhase w p) := by
  refine hi.setPhase (fun h => absurd h hclaimed) (fun r h => ?_) hresolving
  subst h
  exact absurd trivial hclaimed

/-- The phases that need no claim and no resolution. -/
def Phase.Free : Phase → Prop
  | .writing _ | .finishing _ | .failing | .resolving _ => False
  | _ => True

theorem Inv.free (hi : Inv s) (h : p.Free) : Inv (s.setPhase w p) := by
  refine hi.move (fun hc => ?_) fun status hp => ?_
  · cases p <;> first | exact hc | exact h
  · rw [hp] at h
    exact h.elim

theorem free_afterGet (r : Record) (now : Instant) : (afterGet r now).Free := by
  unfold afterGet
  split_ifs <;> trivial

theorem free_afterList (r : Record) (now : Instant) : (afterList r now).Free := by
  unfold afterList
  split_ifs
  · trivial
  · split
    · split_ifs <;> trivial
    · trivial

theorem Inv.idle (hi : Inv s) (w : ℕ) : Inv (s.setPhase w .idle) :=
  hi.move id fun _ h => nomatch h

theorem Inv.edit (hi : Inv s) (target : Target) : Inv { s with target := target } :=
  ⟨hi.unclaimed, hi.claimed, hi.owns, hi.once, hi.writing, hi.resolving, hi.committed⟩

/-- The fields of the record but its status do not matter. -/
theorem Inv.of_status (hi : Inv s) {r : Record} (h : r.status = s.record.status) :
    Inv { s with record := r } where
  unclaimed h0 := by
    rw [h]
    exact hi.unclaimed h0
  claimed h0 := by
    rw [h]
    exact hi.claimed h0
  owns := hi.owns
  once := hi.once
  writing := hi.writing
  resolving := hi.resolving
  committed h0 := h.trans (hi.committed h0)

/-- A status is recorded that goes with the claim, and not over `committed`. -/
theorem Inv.setStatus (hi : Inv s) {status : Status} (hstatus : status.Claimed ↔ s.owner ≠ none)
    (hcommitted : s.record.status = .committed → status = .committed) :
    Inv (s.setStatus status) where
  unclaimed h0 := ⟨fun h => hstatus.mp h h0, (hi.unclaimed h0).2⟩
  claimed h0 := hstatus.mpr h0
  owns := hi.owns
  once := hi.once
  writing := hi.writing
  resolving := hi.resolving
  committed h0 := by
    simp only [State.setStatus, Bool.or_eq_true, decide_eq_true_eq] at h0
    rcases h0 with h0 | h0
    · exact hcommitted (hi.committed h0)
    · exact h0

/-- A claimed status belongs to an owner. -/
theorem Inv.owner_iff (hi : Inv s) : s.record.status.Claimed ↔ s.owner ≠ none :=
  ⟨fun h h0 => (hi.unclaimed h0).1 h, hi.claimed⟩

/-- A mark that compares with `pending` finds a record without a claim. -/
theorem Inv.owner_of_pending (hi : Inv s) (h : s.record.status = .pending) : s.owner = none := by
  by_contra h0
  have hclaimed := hi.claimed h0
  rw [h] at hclaimed
  exact absurd hclaimed (by decide)

/-- A worker takes the claim. -/
theorem Inv.claim (hi : Inv s) (r : Record) (w : ℕ) (h : s.record.status = .pending) :
    Inv { (s.setStatus .committing).setPhase w (.writing r) with owner := some w } := by
  have howner := hi.owner_of_pending h
  obtain ⟨-, hwrites⟩ := hi.unclaimed howner
  have hnone : ∀ w', ¬(s.phase w').Claimed := fun w' h' => by
    have := hi.owns w' h'
    rw [howner] at this
    cases this
  refine ⟨nofun, fun _ => .inl rfl, fun w' h' => ?_, hi.once,
    fun _ _ _ => hwrites, fun w' st h' => ?_, fun h' => ?_⟩
  · simp only [State.setPhase, State.setStatus, Function.update_apply] at h'
    split_ifs at h' with hw
    · rw [hw]
    · exact absurd h' (hnone w')
  · simp only [State.setPhase, State.setStatus, Function.update_apply] at h'
    split_ifs at h'
    exact hi.resolving w' st h'
  · have hwas : s.wasCommitted = true := by simpa [State.setPhase, State.setStatus] using h'
    rw [hi.committed hwas] at h
    cases h

/-- The owner writes once, and then has no more to write. -/
theorem Inv.wrote (hi : Inv s) {r : Record} (hw : s.phase w = .writing r) (hp : ∀ r, p ≠ .writing r)
    (hresolving : ∀ status, p ≠ .resolving status) (target : Target) :
    Inv { s.setPhase w p with target := target, writes := s.writes + 1 } := by
  have hclaimed : (s.phase w).Claimed := by rw [hw]; trivial
  have howner := hi.owns w hclaimed
  have hwrites := hi.writing w r hw
  have hmoved : Inv (s.setPhase w p) :=
    hi.setPhase (fun _ => howner) (fun r h => absurd h (hp r)) fun st h => absurd h (hresolving st)
  have honce : s.writes + 1 ≤ 1 := by omega
  refine ⟨fun h0 => ?_, hmoved.claimed, hmoved.owns, honce, fun w' r' h' => ?_,
    hmoved.resolving, hmoved.committed⟩
  · rw [show s.owner = none from h0] at howner
    cases howner
  · -- Another worker that is to write would be the owner too.
    simp only [State.setPhase, Function.update_apply] at h'
    split_ifs at h' with heq
    · exact absurd h' (hp r')
    · have howner' := hi.owns w' (by rw [h']; trivial)
      rw [howner] at howner'
      exact absurd (Option.some.inj howner').symm heq

/-- A mark that takes, where it is one that may. -/
theorem Inv.marked {now : Instant} (hi : Inv s) (hmay : MarksWhatItMay s (.mark w now true))
    (h : s.marked w now (s.phase w) = some s') : Inv s' := by
  simp only [MarksWhatItMay] at hmay
  cases hphase : s.phase w with
  | idle => rw [hphase] at h; cases h
  | guarding r => rw [hphase] at h; cases h
  | writing r => rw [hphase] at h; cases h
  | inspecting r now => rw [hphase] at h; cases h
  | expiring =>
    rw [hphase] at h
    obtain rfl := Option.some.inj h
    split_ifs with hpending
    · have hstatus : Status.expired.Claimed ↔ s.owner ≠ none :=
        iff_of_false (by decide) (not_not.mpr (hi.owner_of_pending hpending))
      exact (hi.setStatus hstatus fun h0 => by rw [hpending] at h0; cases h0).idle w
    · exact hi.idle w
  | declining =>
    rw [hphase] at h
    obtain rfl := Option.some.inj h
    split_ifs with hpending
    · have hstatus : Status.declined.Claimed ↔ s.owner ≠ none :=
        iff_of_false (by decide) (not_not.mpr (hi.owner_of_pending hpending))
      exact (hi.setStatus hstatus fun h0 => by rw [hpending] at h0; cases h0).idle w
    · exact hi.idle w
  | refusing =>
    rw [hphase] at h hmay
    obtain rfl := Option.some.inj h
    have hstatus : Status.refused.Claimed ↔ s.owner ≠ none :=
      iff_of_false (by decide) (not_not.mpr hmay)
    refine (hi.setStatus hstatus fun h0 => ?_).idle w
    exact absurd (.inr (.inl h0)) (hi.unclaimed hmay).1
  | claiming r =>
    rw [hphase] at h
    obtain rfl := Option.some.inj h
    split_ifs with hpending
    · exact (hi.claim r w hpending).of_status rfl
    · exact hi.idle w
  | finishing n =>
    rw [hphase] at h
    obtain rfl := Option.some.inj h
    have howner := hi.owns w (by rw [hphase]; trivial)
    -- A worker that has claimed the record owns it until it has marked it.
    have hstatus : Status.committed.Claimed ↔ s.owner ≠ none :=
      iff_of_true (by decide) (by rw [howner]; exact nofun)
    exact (hi.setStatus hstatus fun _ => rfl).idle w
  | failing =>
    rw [hphase] at h hmay
    obtain rfl := Option.some.inj h
    have howner := hi.owns w (by rw [hphase]; trivial)
    have hstatus : Status.error.Claimed ↔ s.owner ≠ none :=
      iff_of_true (by decide) (by rw [howner]; exact nofun)
    exact (hi.setStatus hstatus fun h0 => absurd h0 hmay).idle w
  | resolving status =>
    rw [hphase] at h
    obtain rfl := Option.some.inj h
    split_ifs with hcommitting
    · -- The record was claimed and not marked, and the status of a pass is one of a claimed record.
      have howner : s.owner ≠ none := hi.owner_iff.mp (.inl hcommitting)
      have hclaimed : status.Claimed := .inr (hi.resolving w status hphase)
      have hset := hi.setStatus (iff_of_true hclaimed howner) fun h0 => by
        rw [hcommitting] at h0
        cases h0
      exact (hset.idle w).of_status rfl
    · exact hi.idle w

/-- A mark that fails leaves the record as it is. -/
theorem Inv.unmarked (hi : Inv s) (h : s.unmarked w (s.phase w) = some s') : Inv s' := by
  cases hphase : s.phase w with
  | idle => rw [hphase] at h; cases h
  | guarding r => rw [hphase] at h; cases h
  | writing r => rw [hphase] at h; cases h
  | inspecting r now => rw [hphase] at h; cases h
  | finishing n =>
    rw [hphase] at h
    cases n with
    | zero =>
      obtain rfl := Option.some.inj h
      exact hi.idle w
    | succ n =>
      obtain rfl := Option.some.inj h
      have howner := hi.owns w (by rw [hphase]; trivial)
      exact hi.setPhase (fun _ => howner) (fun _ h0 => nomatch h0) fun _ h0 => nomatch h0
  | expiring | refusing | claiming _ | failing | declining | resolving _ =>
    rw [hphase] at h
    obtain rfl := Option.some.inj h
    exact hi.idle w

theorem Inv.write {r : Record} {outcome : Outcome} (hi : Inv s) (hw : s.phase w = .writing r)
    (h : s.wrote w r outcome = some s') : Inv s' := by
  cases outcome with
  | complete =>
    obtain ⟨target, -, rfl⟩ := Option.map_eq_some_iff.mp h
    exact hi.wrote (p := .finishing 1) hw nofun nofun target
  | raised landed =>
    cases landed with
    | none =>
      obtain rfl := Option.some.inj h
      have howner := hi.owns w (by rw [hw]; trivial)
      exact hi.setPhase (fun _ => howner) (fun _ h0 => nomatch h0) fun _ h0 => nomatch h0
    | some n =>
      obtain ⟨target, -, rfl⟩ := Option.map_eq_some_iff.mp h
      exact hi.wrote (p := .failing) hw nofun nofun target
  | stopped landed =>
    cases landed with
    | none =>
      obtain rfl := Option.some.inj h
      exact hi.idle w
    | some n =>
      obtain ⟨target, -, rfl⟩ := Option.map_eq_some_iff.mp h
      exact hi.wrote (p := .idle) hw nofun nofun target

/-- What a reconciliation is to record is a status of a claimed record. -/
theorem Record.resolution_eq {r : Record} {now : Instant} {v : Verdict} {status : Status}
    (h : r.resolution now v = some status) : status = .committed ∨ status = .error := by
  unfold Record.resolution at h
  split at h
  · split at h
    · split_ifs at h
      exact .inr (Option.some.inj h).symm
    · exact .inr (Option.some.inj h).symm
  · exact .inl (Option.some.inj h).symm
  · exact .inr (Option.some.inj h).symm

theorem Inv.step {a : Act} (hi : Inv s) (hmay : MarksWhatItMay s a) (h : step s a = some s') :
    Inv s' := by
  cases a with
  | commitWrite w now readable =>
    simp only [Files.step] at h
    split_ifs at h <;> obtain rfl := Option.some.inj h
    · exact hi.free (free_afterGet _ _)
    · exact hi.idle w
  | declineWrite w readable =>
    simp only [Files.step] at h
    split_ifs at h <;> obtain rfl := Option.some.inj h
    · exact hi.free trivial
    · exact hi.idle w
  | sweepExpired w now readable =>
    simp only [Files.step] at h
    split_ifs at h <;> obtain rfl := Option.some.inj h
    · exact hi.free trivial
    · exact hi.idle w
  | reconcile w now readable =>
    simp only [Files.step] at h
    split_ifs at h <;> obtain rfl := Option.some.inj h
    · exact hi.free (free_afterList _ _)
    · exact hi.idle w
  | check w denied =>
    simp only [Files.step] at h
    split at h
    · obtain rfl := Option.some.inj h
      split_ifs
      · exact hi.free trivial
      · exact hi.free trivial
    · cases h
  -- Only a mark that takes writes a status.
  | mark w now takes =>
    cases takes with
    | true => exact hi.marked hmay h
    | false => exact hi.unmarked h
  | write w outcome =>
    simp only [Files.step] at h
    split at h
    next r hw => exact hi.write hw h
    next => cases h
  | inspect w readable =>
    simp only [Files.step] at h
    split at h
    next r now hw =>
      obtain rfl := Option.some.inj h
      cases hres : r.resolution now (s.target.inspect r readable) with
      | none => exact hi.idle w
      | some status =>
        -- What the target shows decides which status the record is resolved to.
        refine hi.move id fun st h0 => ?_
        obtain rfl := Phase.resolving.inj h0
        exact Record.resolution_eq hres
    next => cases h
  | stop w =>
    obtain rfl := Option.some.inj h
    exact hi.idle w
  | edit target =>
    obtain rfl := Option.some.inj h
    exact hi.edit target

/-! ## Runs -/

/-- Where the marks that compare nothing meet what they may, an approved write lands once at most
and the record tells the truth. -/
theorem record_truthful (s : State) (hs : machine.Reach MarksWhatItMay s) : Truthful s := by
  have hinv : Inv s := by
    refine hs.invariant ?_ fun _ _ _ hi hmay hstep => Inv.step hi hmay hstep
    rintro _ ⟨r, target, hr, rfl⟩
    exact inv_start hr
  refine ⟨hinv.once, fun hstatus => ?_, hinv.committed⟩
  have hunclaimed : ¬s.record.status.Claimed := by
    rcases hstatus with h | h | h
    all_goals
      rw [h]
      decide
  have howner : s.owner = none := by
    by_contra h
    exact hunclaimed (hinv.claimed h)
  exact (hinv.unclaimed howner).2

/-- A new file with one line. -/
def newNote : Record := ⟨.create, "hi\n".toList, .pending, some 0, none, false⟩

/-- One worker claims and writes while another reads the record, and the second guard fails. -/
def twoApprovals : List Act :=
  [.commitWrite 0 5 true, .commitWrite 1 5 true, .check 0 false, .mark 0 5 true,
    .write 0 .complete, .check 1 false]

/-- The second worker stops before its mark. -/
theorem record_truthful_newNote :
    ∃ s, machine.Reach MarksWhatItMay s ∧
      ((s.writes = 1 ∧ s.record.status = .committed) ∧ Truthful s) := by
  obtain ⟨s, hs, hp⟩ := Machine.exists_reach_of_runWithin (M := machine) (D := MarksWhatItMay)
    (fun _ _ h => h) ⟨newNote, .missing, rfl, rfl⟩ (twoApprovals ++ [.stop 1, .mark 0 6 true])
    (fun s => s.writes = 1 ∧ s.record.status = .committed) (by decide +kernel)
  exact ⟨s, hs, of_decide_eq_true hp, record_truthful s hs⟩

/-- Its mark `refused` takes, after the first worker's `committed`. -/
theorem committed_refused : ∃ s, machine.Reachable s ∧ s.writes = 1 ∧ s.wasCommitted = true ∧
    s.record.status = .refused ∧ ¬Truthful s := by
  obtain ⟨s, hs, hp⟩ := Machine.exists_reach_of_runWithin (M := machine) (D := fun _ _ => True)
    (fun _ _ h => h) ⟨newNote, .missing, rfl, rfl⟩
    (twoApprovals ++ [.mark 0 6 true, .mark 1 7 true])
    (fun s => s.writes = 1 ∧ s.wasCommitted = true ∧ s.record.status = .refused)
    (by decide +kernel)
  obtain ⟨hwrites, hwas, hstatus⟩ : s.writes = 1 ∧ s.wasCommitted = true ∧
      s.record.status = .refused := of_decide_eq_true hp
  refine ⟨s, hs, hwrites, hwas, hstatus, fun h => ?_⟩
  rw [h.2.2 hwas] at hstatus
  cases hstatus

end Companion.Files

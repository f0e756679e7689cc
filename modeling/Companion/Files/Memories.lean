import Companion.Files.Commit
import Mathlib.Data.List.Count
import Mathlib.Data.List.Perm.Basic

/-!
# The memories of a write

One `commit_write` on a record that is pending, with any number of `reconcile_stale_commits` passes
(`brain/files/commit.py`), one read, guard, mark, file write or memory at a time. None of them is
stopped, but a mark may fail, and each step may wait for any time. Other programs may change the
target.

The commit tells that it wrote once its final mark takes, and a pass tells what it found once its
own mark takes. The mark of a pass compares with `committing`, and the final mark of the commit
compares nothing: where it meets a record that a pass has committed, both tell the same
(`told_twice`).

`told`, `landed` and `resolved` are bookkeeping: no operation reads them.
-/

namespace Companion.Files.Memories

open Companion.Memory Companion.Runs

/-- The outcomes of `_wire_memory` for a write that was approved. -/
inductive Told
  | committed
  | abandoned
  | late
  | unverified
  deriving DecidableEq

/-- The memory says that the write landed. -/
def Told.saysLanded : Told → Bool
  | .committed | .late => true
  | .abandoned | .unverified => false

/-- What a pass tells of its verdict. -/
def Told.of : Verdict → Told
  | .landed => .committed
  | .absent => .abandoned
  | .unreadable => .unverified

/-- The next operation of the commit. -/
inductive Commit
  | start
  | expiring
  | guarding (r : Record)
  | refusing
  | claiming (r : Record)
  | writing (r : Record)
  /-- The read of the record after the write. -/
  | recalling
  /-- The mark `committed`, with the attempts that are left after it. -/
  | finishing (lost : Bool) (attempts : ℕ)
  /-- The mark `error` after an `OSError` of the write. -/
  | failing
  | wiring (told : Told)
  | ended
  deriving DecidableEq

/-- The next operation of a pass. -/
inductive Pass
  | idle
  | inspecting (r : Record) (now : Instant)
  | resolving (status : Status) (told : Told)
  | wiring (told : Told)
  deriving DecidableEq

structure State where
  record : Record
  target : Target
  commit : Commit
  passes : ℕ → Pass
  /-- The `file_write` memories of the record. -/
  memories : List Told
  /-- What the commit has told. -/
  told : Option Told
  /-- The write of the commit is complete. -/
  landed : Bool
  /-- The pass whose mark took, and what it is to tell. -/
  resolved : Option (ℕ × Told)

/-- A step of the commit or of a pass, or a change of the target. Whether a record or a target can
be read, and whether a mark takes, is part of the step. -/
inductive Act
  | commitWrite (now : Instant) (readable : Bool)
  | check (denied : Bool)
  | mark (now : Instant) (takes : Bool)
  | write (outcome : Outcome)
  | reread (readable : Bool)
  | wire
  | list (w : ℕ) (now : Instant) (readable : Bool)
  | inspect (w : ℕ) (readable : Bool)
  /-- A pass raises, as where it cannot open the store of the memories. -/
  | giveUp (w : ℕ)
  | resolve (w : ℕ) (takes : Bool)
  | wireResolved (w : ℕ)
  | edit (target : Target)
  deriving DecidableEq

namespace State

variable (s : State)

def setStatus (status : Status) : State := { s with record := { s.record with status := status } }

def setPass (w : ℕ) (p : Pass) : State := { s with passes := Function.update s.passes w p }

/-- The mark of the commit, where it takes. -/
def marked (now : Instant) : Option State :=
  match s.commit with
  | .expiring =>
    some { (if s.record.status = .pending then s.setStatus .expired else s) with commit := .ended }
  | .refusing => some { s.setStatus .refused with commit := .ended }
  | .claiming r =>
    some (if s.record.status = .pending then
        { s with
          record := { s.record with status := .committing, claimedAt := some now }
          commit := .writing r }
      else { s with commit := .ended })
  | .finishing lost _ =>
    some { s.setStatus .committed with commit := .wiring (if lost then .late else .committed) }
  | .failing => some { s.setStatus .error with commit := .ended }
  | _ => none

/-- The mark of the commit, where it fails. -/
def unmarked : Option State :=
  match s.commit with
  | .finishing lost (n + 1) => some { s with commit := .finishing lost n }
  | .expiring | .refusing | .claiming _ | .finishing _ 0 | .failing => some { s with commit := .ended }
  | _ => none

/-- The file write of the commit. -/
def wrote (r : Record) : Outcome → Option State
  | .complete =>
    (s.target.written r (r.content.length + 1)).map fun target =>
      { s with target := target, commit := .recalling, landed := true }
  | .raised none => some { s with commit := .failing }
  | .raised (some n) =>
    (s.target.written r n).map fun target => { s with target := target, commit := .failing }
  | .stopped _ => none

/-- The mark of a pass. -/
def resolve (w : ℕ) (takes : Bool) : Option State :=
  match s.passes w with
  | .resolving status told =>
    some (if takes ∧ s.record.status = .committing then
        { s.setPass w (.wiring told) with
          record := { s.record with status := status, resolvedByReconcile := true }
          resolved := some (w, told) }
      else s.setPass w .idle)
  | _ => none

/-- What the pass that resolved the record is to tell. -/
def verdict : Option Told := s.resolved.map Prod.snd

end State

/-- What a commit does next that has read the record. -/
def afterGet (r : Record) (now : Instant) : Commit :=
  if r.status ≠ .pending then .ended else if r.isExpired now then .expiring else .guarding r

/-- What a pass does next that has read the record. -/
def afterList (r : Record) (now : Instant) : Pass :=
  if r.status = .committing ∧ (r.claimAge now).all (commitStale < ·) then .inspecting r now else .idle

def step (s : State) : Act → Option State
  | .commitWrite now readable =>
    if s.commit = .start then
      some { s with commit := if readable then afterGet s.record now else .ended }
    else none
  | .check denied =>
    match s.commit with
    | .guarding r =>
      some
        { s with
          commit :=
            if checkWriteTarget denied r.op s.target && checkSize r.content r.op s.target
              then .claiming r else .refusing }
    | _ => none
  | .mark now takes => if takes then s.marked now else s.unmarked
  | .write outcome =>
    match s.commit with
    | .writing r => s.wrote r outcome
    | _ => none
  | .reread readable =>
    if s.commit = .recalling then
      -- `reconciled_lost`
      let lost := readable && s.record.status = .error && s.record.resolvedByReconcile
      some { s with commit := .finishing lost 1 }
    else none
  | .wire =>
    match s.commit with
    | .wiring told =>
      some { s with commit := .ended, memories := s.memories ++ [told], told := some told }
    | _ => none
  | .list w now readable =>
    if s.passes w = .idle then some (s.setPass w (if readable then afterList s.record now else .idle))
    else none
  | .inspect w readable =>
    match s.passes w with
    | .inspecting r now =>
      let verdict := s.target.inspect r readable
      some (s.setPass w
        (match r.resolution now verdict with
        | some status => .resolving status (.of verdict)
        | none => .idle))
    | _ => none
  | .giveUp w =>
    match s.passes w with
    | .inspecting _ _ | .resolving _ _ => some (s.setPass w .idle)
    | _ => none
  | .resolve w takes => s.resolve w takes
  | .wireResolved w =>
    match s.passes w with
    | .wiring told => some { s.setPass w .idle with memories := s.memories ++ [told] }
    | _ => none
  | .edit target => some { s with target := target }

/-- A record that was just created, with its target. -/
def start (r : Record) (target : Target) : State :=
  ⟨r, target, .start, fun _ => .idle, [], none, false, none⟩

/-- One commit of a record that is pending, and any number of passes. -/
def machine : Machine State Act where
  init s := ∃ r target, r.status = .pending ∧ s = start r target
  step := step

/-- A pass from the read of the record to its memory. -/
def passOf (w : ℕ) (now : Instant) : List Act :=
  [.list w now true, .inspect w true, .resolve w true, .wireResolved w]

/-- No two memories say `committed`. Once all is done, one memory says that the write landed:
`committed`, or `late` where a pass has told `abandoned`; and a commit that has left that to the
passes has it from the next one that finds the block. -/
structure ToldOnce (s : State) : Prop where
  once : s.memories.count .committed ≤ 1
  done : s.landed = true → s.commit = .ended → s.record.status ≠ .committing →
    (∀ w told, s.passes w ≠ .wiring told) →
    ∃ told, s.memories.filter Told.saysLanded = [told] ∧
      (told = .committed ∨ told = .late ∧ .abandoned ∈ s.memories)
  left : s.landed = true → s.commit = .ended → s.record.status = .committing →
    ∀ w now, s.passes w = .idle → (s.record.claimAge now).all (commitStale < ·) = true →
      s.target.inspect s.record true = .landed →
      ∃ s', machine.runWithin (fun _ _ => True) s (passOf w now) = some s' ∧
        s'.record.status = .committed ∧ s'.memories.filter Told.saysLanded = [.committed]

/-- The final mark of the commit does not meet a record that a pass has committed, and its last
attempt does not fail on one that a pass has given up; the commit does not find that a pass has
given up without a look at the target; and no pass gives the record up once the commit has ended. -/
def Apart (s : State) : Act → Prop
  | .mark _ takes =>
    match s.commit, takes with
    | .finishing _ _, true => s.record.status ≠ .committed
    | .finishing _ 0, false => s.record.status ≠ .error
    | _, _ => True
  | .reread readable => readable = true → s.verdict ≠ some .unverified
  | .resolve w true =>
    match s.passes w with
    | .resolving .error _ => s.record.status = .committing → s.landed = true → s.commit ≠ .ended
    | _ => True
  | _ => True

instance (s : State) (a : Act) : Decidable (Apart s a) := by
  unfold Apart
  split
  · split <;> infer_instance
  · infer_instance
  · split <;> infer_instance
  · infer_instance

/-! ## The invariant -/

/-- What passes have told. -/
def State.passTold (s : State) : List Told :=
  match s.resolved with
  | none => []
  | some (w, told) => if s.passes w = .wiring told then [] else [told]

theorem passTold_of_resolved {s : State} {w : ℕ} {told : Told}
    (h : s.resolved = some (w, told)) :
    s.passTold = if s.passes w = .wiring told then [] else [told] := by
  unfold State.passTold
  rw [h]

/-- The commit has claimed the record and has told nothing, and the record has what a pass has
found. -/
def Open (s : State) : Prop :=
  s.told = none ∧
    (s.record.status = .committing ∧ s.resolved = none ∨
      s.record.status = .committed ∧ s.verdict = some .committed ∨
      s.record.status = .error ∧ (s.verdict = some .abandoned ∨ s.verdict = some .unverified))

/-- The commit has marked the record, and tells that no pass has said so. -/
def Speaks (s : State) (told : Told) : Prop :=
  s.record.status = .committed ∧ s.verdict ≠ some .committed ∧
    (told = .committed ∨ told = .late ∧ s.verdict = some .abandoned)

/-- What holds while the commit is at an operation. -/
def Stage (s : State) : Commit → Prop
  | .start | .expiring | .guarding _ | .refusing | .claiming _ =>
    s.told = none ∧ s.landed = false ∧ s.record.status ≠ .committing ∧ s.resolved = none
  | .writing _ | .failing => s.landed = false ∧ Open s
  | .recalling => s.landed = true ∧ Open s
  | .finishing lost _ => s.landed = true ∧ Open s ∧ (lost = true → s.verdict = some .abandoned)
  | .wiring told => s.landed = true ∧ s.told = none ∧ Speaks s told
  | .ended =>
    if s.landed then
      Open s ∧ s.record.status ≠ .error ∨ ∃ told, s.told = some told ∧ Speaks s told
    else s.told = none ∧ (s.record.status = .committing → s.resolved = none)

structure Inv (s : State) : Prop where
  stage : Stage s s.commit
  resolving : ∀ w status told, s.passes w = .resolving status told →
    status = .committed ∧ told = .committed ∨
      status = .error ∧ (told = .abandoned ∨ told = .unverified)
  /-- The pass that is to tell is the one whose mark took. -/
  wiring : ∀ w told, s.passes w = .wiring told → s.resolved = some (w, told)
  /-- `late` is for the commit to tell. -/
  verdict : s.verdict ≠ some .late
  memories : s.memories.Perm (s.passTold ++ s.told.toList)

variable {s s' : State}

theorem inv_start {r : Record} {target : Target} (h : r.status = .pending) :
    Inv (start r target) where
  stage := ⟨rfl, rfl, by show r.status ≠ _; rw [h]; decide, rfl⟩
  resolving _ _ _ h0 := nomatch h0
  wiring _ _ h0 := nomatch h0
  verdict h0 := nomatch h0
  memories := .nil

/-- The target and the rest of the record do not matter, and the commit moves on. -/
theorem Inv.move (hi : Inv s) {r : Record} {target : Target} {commit : Commit} {landed : Bool}
    (hstage : Stage { s with record := r, target := target, commit := commit, landed := landed }
      commit) :
    Inv { s with record := r, target := target, commit := commit, landed := landed } :=
  ⟨hstage, hi.resolving, hi.wiring, hi.verdict, hi.memories⟩

/-- A pass moves on that is not to tell, and does not come to tell. -/
theorem Inv.setPass (hi : Inv s) {w : ℕ} {p : Pass} (hw : ∀ told, s.passes w ≠ .wiring told)
    (hp : ∀ told, p ≠ .wiring told)
    (hresolving : ∀ status told, p = .resolving status told →
      status = .committed ∧ told = .committed ∨
        status = .error ∧ (told = .abandoned ∨ told = .unverified)) :
    Inv (s.setPass w p) := by
  have hpasses : ∀ w' told, (s.setPass w p).passes w' = .wiring told ↔
      s.passes w' = .wiring told := by
    intro w' told
    simp only [State.setPass, Function.update_apply]
    split_ifs with heq
    · rw [heq]
      exact iff_of_false (hp told) (hw told)
    · exact Iff.rfl
  have htold : (s.setPass w p).passTold = s.passTold := by
    unfold State.passTold
    show (match s.resolved with | none => [] | some (w, told) => _) = _
    cases s.resolved with
    | none => rfl
    | some x => simp only [hpasses]
  refine ⟨hi.stage, fun w' status told h => ?_, fun w' told h => ?_, hi.verdict, ?_⟩
  · simp only [State.setPass, Function.update_apply] at h
    split_ifs at h with heq
    · exact hresolving status told h
    · exact hi.resolving w' status told h
  · exact hi.wiring w' told ((hpasses w' told).mp h)
  · rw [htold]
    exact hi.memories

/-- The commit has not claimed the record yet. -/
abbrev Unclaimed (s : State) : Prop :=
  s.told = none ∧ s.landed = false ∧ s.record.status ≠ .committing ∧ s.resolved = none

/-- A commit that ends before it has written leaves the record to nobody. -/
theorem stage_ended (hlanded : s.landed = false) (htold : s.told = none)
    (hresolved : s.record.status = .committing → s.resolved = none) : Stage s .ended := by
  unfold Stage
  rw [if_neg (by rw [hlanded]; exact Bool.false_ne_true)]
  exact ⟨htold, hresolved⟩

theorem stage_afterGet (h : Unclaimed s) (r : Record) (now : Instant) :
    Stage s (afterGet r now) := by
  obtain ⟨htold, hlanded, hstatus, hresolved⟩ := h
  unfold afterGet
  split_ifs
  · exact stage_ended hlanded htold fun _ => hresolved
  · exact ⟨htold, hlanded, hstatus, hresolved⟩
  · exact ⟨htold, hlanded, hstatus, hresolved⟩

/-- What is open is open whatever the commit does next. -/
theorem Open.not_committed (h : Open s) (hstatus : s.record.status ≠ .committed) :
    s.verdict ≠ some .committed := by
  obtain ⟨-, ⟨-, hnone⟩ | ⟨hcommitted, -⟩ | ⟨-, hverdict⟩⟩ := h
  · rw [State.verdict, hnone]
    exact nofun
  · exact absurd hcommitted hstatus
  · rcases hverdict with hverdict | hverdict
    · rw [hverdict]
      exact nofun
    · rw [hverdict]
      exact nofun

theorem Inv.marked (hi : Inv s) {now : Instant} (hapart : Apart s (.mark now true))
    (h : s.marked now = some s') : Inv s' := by
  have hstage := hi.stage
  unfold State.marked at h
  unfold Apart at hapart
  cases hcommit : s.commit with
  | start => rw [hcommit] at h; cases h
  | guarding r => rw [hcommit] at h; cases h
  | writing r => rw [hcommit] at h; cases h
  | recalling => rw [hcommit] at h; cases h
  | wiring told => rw [hcommit] at h; cases h
  | ended => rw [hcommit] at h; cases h
  | expiring =>
    rw [hcommit] at h hstage
    obtain ⟨htold, hlanded, hstatus, hresolved⟩ := hstage
    obtain rfl := Option.some.inj h
    split_ifs
    · exact hi.move (stage_ended hlanded htold fun _ => hresolved)
    · exact hi.move (stage_ended hlanded htold fun _ => hresolved)
  | refusing =>
    rw [hcommit] at h hstage
    obtain ⟨htold, hlanded, hstatus, hresolved⟩ := hstage
    obtain rfl := Option.some.inj h
    exact hi.move (stage_ended hlanded htold fun _ => hresolved)
  | claiming r =>
    rw [hcommit] at h hstage
    obtain ⟨htold, hlanded, hstatus, hresolved⟩ := hstage
    obtain rfl := Option.some.inj h
    split_ifs
    · exact hi.move ⟨hlanded, htold, Or.inl ⟨rfl, hresolved⟩⟩
    · exact hi.move (stage_ended hlanded htold fun _ => hresolved)
  | finishing lost n =>
    rw [hcommit] at h hstage hapart
    obtain ⟨hlanded, hopen, hlost⟩ := hstage
    obtain rfl := Option.some.inj h
    have hverdict : s.verdict ≠ some .committed := hopen.not_committed hapart
    refine hi.move ⟨hlanded, hopen.1, rfl, hverdict, ?_⟩
    cases lost with
    | true => exact Or.inr ⟨rfl, hlost rfl⟩
    | false => exact Or.inl rfl
  | failing =>
    rw [hcommit] at h hstage
    obtain ⟨hlanded, hopen⟩ := hstage
    obtain rfl := Option.some.inj h
    exact hi.move (stage_ended hlanded hopen.1 fun h0 => nomatch h0)

/-- A record that is open, and not given up, is one that a commit may leave. -/
theorem stage_ended_of_open (hlanded : s.landed = true) (hopen : Open s)
    (hstatus : s.record.status ≠ .error) : Stage s .ended := by
  unfold Stage
  rw [if_pos hlanded]
  exact Or.inl ⟨hopen, hstatus⟩

theorem Open.resolved_of_committing (h : Open s) (hstatus : s.record.status = .committing) :
    s.resolved = none := by
  obtain ⟨-, ⟨-, hnone⟩ | ⟨hcommitted, -⟩ | ⟨herror, -⟩⟩ := h
  · exact hnone
  · rw [hcommitted] at hstatus
    cases hstatus
  · rw [herror] at hstatus
    cases hstatus

theorem Inv.unmarked (hi : Inv s) {now : Instant} (hapart : Apart s (.mark now false))
    (h : s.unmarked = some s') : Inv s' := by
  have hstage := hi.stage
  unfold State.unmarked at h
  unfold Apart at hapart
  cases hcommit : s.commit with
  | start => rw [hcommit] at h; cases h
  | guarding r => rw [hcommit] at h; cases h
  | writing r => rw [hcommit] at h; cases h
  | recalling => rw [hcommit] at h; cases h
  | wiring told => rw [hcommit] at h; cases h
  | ended => rw [hcommit] at h; cases h
  | expiring | refusing | claiming _ =>
    rw [hcommit] at h hstage
    obtain ⟨htold, hlanded, hstatus, hresolved⟩ := hstage
    obtain rfl := Option.some.inj h
    exact hi.move (stage_ended hlanded htold fun _ => hresolved)
  | failing =>
    rw [hcommit] at h hstage
    obtain ⟨hlanded, hopen⟩ := hstage
    obtain rfl := Option.some.inj h
    exact hi.move (stage_ended hlanded hopen.1 hopen.resolved_of_committing)
  | finishing lost n =>
    rw [hcommit] at h hstage hapart
    obtain ⟨hlanded, hopen, hlost⟩ := hstage
    cases n with
    | zero =>
      obtain rfl := Option.some.inj h
      exact hi.move (stage_ended_of_open hlanded hopen hapart)
    | succ n =>
      obtain rfl := Option.some.inj h
      exact hi.move ⟨hlanded, hopen, hlost⟩

theorem Inv.wrote (hi : Inv s) {r : Record} {outcome : Outcome} (hcommit : s.commit = .writing r)
    (h : s.wrote r outcome = some s') : Inv s' := by
  have hstage := hi.stage
  rw [hcommit] at hstage
  obtain ⟨hlanded, hopen⟩ := hstage
  cases outcome with
  | complete =>
    obtain ⟨target, -, rfl⟩ := Option.map_eq_some_iff.mp h
    exact hi.move ⟨rfl, hopen⟩
  | raised landed =>
    cases landed with
    | none =>
      obtain rfl := Option.some.inj h
      exact hi.move ⟨hlanded, hopen⟩
    | some n =>
      obtain ⟨target, -, rfl⟩ := Option.map_eq_some_iff.mp h
      exact hi.move ⟨hlanded, hopen⟩
  | stopped landed => cases h

/-- A record is resolved by no pass while it is `committing`. -/
theorem Inv.resolved_of_committing (hi : Inv s) (hstatus : s.record.status = .committing) :
    s.resolved = none := by
  have hstage := hi.stage
  cases hcommit : s.commit with
  | start | expiring | guarding _ | refusing | claiming _ =>
    rw [hcommit] at hstage
    exact hstage.2.2.2
  | writing _ | failing | recalling =>
    rw [hcommit] at hstage
    exact hstage.2.resolved_of_committing hstatus
  | finishing lost n =>
    rw [hcommit] at hstage
    exact hstage.2.1.resolved_of_committing hstatus
  | wiring told =>
    rw [hcommit] at hstage
    have hcommitted := hstage.2.2.1
    rw [hstatus] at hcommitted
    cases hcommitted
  | ended =>
    rw [hcommit] at hstage
    unfold Stage at hstage
    split_ifs at hstage
    · rcases hstage with ⟨hopen, -⟩ | ⟨told, -, hcommitted, -⟩
      · exact hopen.resolved_of_committing hstatus
      · rw [hstatus] at hcommitted
        cases hcommitted
    · exact hstage.2 hstatus

/-- A pass resolves what is open, and leaves it open. -/
theorem stage_resolved (hi : Inv s) (hcommitting : s.record.status = .committing) {r : Record}
    {passes : ℕ → Pass} {w : ℕ} {status : Status} {told : Told} (hr : r.status = status)
    (hverdict : status = .committed ∧ told = .committed ∨
      status = .error ∧ (told = .abandoned ∨ told = .unverified))
    (hended : status = .error → s.landed = true → s.commit ≠ .ended) :
    Stage { s with record := r, passes := passes, resolved := some (w, told) } s.commit := by
  have hnone := hi.resolved_of_committing hcommitting
  have hopen : s.told = none →
      Open { s with record := r, passes := passes, resolved := some (w, told) } := by
    intro htold
    refine ⟨htold, Or.inr ?_⟩
    show r.status = .committed ∧ some told = some .committed ∨
      r.status = .error ∧ (some told = some .abandoned ∨ some told = some .unverified)
    rw [hr]
    rcases hverdict with ⟨hstatus, rfl⟩ | ⟨hstatus, rfl | rfl⟩
    · exact Or.inl ⟨hstatus, rfl⟩
    · exact Or.inr ⟨hstatus, Or.inl rfl⟩
    · exact Or.inr ⟨hstatus, Or.inr rfl⟩
  have hstage := hi.stage
  cases hcommit : s.commit with
  | start | expiring | guarding _ | refusing | claiming _ =>
    rw [hcommit] at hstage
    exact absurd hcommitting hstage.2.2.1
  | writing _ | failing | recalling =>
    rw [hcommit] at hstage
    exact ⟨hstage.1, hopen hstage.2.1⟩
  | finishing lost n =>
    rw [hcommit] at hstage
    obtain ⟨hlanded, hbefore, hlost⟩ := hstage
    refine ⟨hlanded, hopen hbefore.1, fun h => ?_⟩
    -- The commit found nothing, since no pass had resolved the record.
    have habandoned := hlost h
    rw [State.verdict, hnone] at habandoned
    cases habandoned
  | wiring told =>
    rw [hcommit] at hstage
    have hcommitted := hstage.2.2.1
    rw [hcommitting] at hcommitted
    cases hcommitted
  | ended =>
    rw [hcommit] at hstage
    unfold Stage at hstage ⊢
    show if s.landed = true then _ else _
    split_ifs at hstage ⊢ with hlanded
    · rcases hstage with ⟨hbefore, -⟩ | ⟨told, -, hcommitted, -⟩
      · refine Or.inl ⟨hopen hbefore.1, fun herror => ?_⟩
        exact hended (hr.symm.trans herror) hlanded hcommit
      · rw [hcommitting] at hcommitted
        cases hcommitted
    · refine ⟨hstage.1, fun h => ?_⟩
      have hstatus : status = .committing := hr.symm.trans h
      rcases hverdict with ⟨rfl, -⟩ | ⟨rfl, -⟩
      · cases hstatus
      · cases hstatus

theorem Inv.resolve (hi : Inv s) {w : ℕ} {takes : Bool} (hapart : Apart s (.resolve w takes))
    (h : s.resolve w takes = some s') : Inv s' := by
  unfold State.resolve at h
  cases hpass : s.passes w with
  | idle => rw [hpass] at h; cases h
  | inspecting r now => rw [hpass] at h; cases h
  | wiring told => rw [hpass] at h; cases h
  | resolving status told =>
    rw [hpass] at h
    obtain rfl := Option.some.inj h
    have hnot : ∀ told', s.passes w ≠ .wiring told' := fun told' h0 => nomatch hpass.symm.trans h0
    split_ifs with htakes
    · obtain ⟨rfl, hcommitting⟩ := htakes
      have hnone := hi.resolved_of_committing hcommitting
      have hended : status = .error → s.landed = true → s.commit ≠ .ended := by
        rintro rfl
        simp only [Apart, hpass] at hapart
        exact hapart hcommitting
      refine ⟨?_, fun w' st t hw' => ?_, fun w' t hw' => ?_, fun hlate => ?_, ?_⟩
      · exact stage_resolved hi hcommitting rfl (hi.resolving w status told hpass) hended
      · simp only [State.setPass, Function.update_apply] at hw'
        split_ifs at hw'
        exact hi.resolving w' st t hw'
      · simp only [State.setPass, Function.update_apply] at hw'
        split_ifs at hw' with heq
        · rw [heq, Pass.wiring.inj hw']
        · -- No other pass is to tell, since none has resolved the record.
          have hsome := hi.wiring w' t hw'
          rw [hnone] at hsome
          cases hsome
      · obtain rfl : told = .late := Option.some.inj hlate
        rcases hi.resolving w status .late hpass with ⟨-, h0⟩ | ⟨-, h0 | h0⟩
        all_goals cases h0
      · have hmemories := hi.memories
        rw [State.passTold, hnone] at hmemories
        have hnone_told : ∀ s₁ : State, s₁.resolved = some (w, told) →
            s₁.passes w = .wiring told → s₁.passTold = [] := fun s₁ hresolved hwiring => by
          rw [passTold_of_resolved hresolved, if_pos hwiring]
        rw [hnone_told _ rfl (Function.update_self _ _ _)]
        exact hmemories
    · exact hi.setPass hnot nofun nofun

/-- The commit tells, and is the only one to tell so. -/
theorem Inv.wire (hi : Inv s) {told : Told} (hcommit : s.commit = .wiring told) :
    Inv { s with commit := .ended, memories := s.memories ++ [told], told := some told } := by
  have hstage := hi.stage
  rw [hcommit] at hstage
  obtain ⟨hlanded, hnone, hspeaks⟩ := hstage
  refine ⟨?_, hi.resolving, hi.wiring, hi.verdict, ?_⟩
  · show if s.landed = true then _ else _
    rw [if_pos hlanded]
    exact Or.inr ⟨told, rfl, hspeaks⟩
  · have hmemories := hi.memories
    rw [hnone] at hmemories
    show (s.memories ++ [told]).Perm (s.passTold ++ [told])
    rw [Option.toList_none, List.append_nil] at hmemories
    exact hmemories.append_right [told]

/-- The pass that resolved the record tells what it found. -/
theorem Inv.wireResolved (hi : Inv s) {w : ℕ} {told : Told} (hpass : s.passes w = .wiring told) :
    Inv { s.setPass w .idle with memories := s.memories ++ [told] } := by
  have hresolved := hi.wiring w told hpass
  refine ⟨hi.stage, fun w' st t h => ?_, fun w' t h => ?_, hi.verdict, ?_⟩
  · simp only [State.setPass, Function.update_apply] at h
    split_ifs at h
    exact hi.resolving w' st t h
  · simp only [State.setPass, Function.update_apply] at h
    split_ifs at h
    exact hi.wiring w' t h
  · have hmemories := hi.memories
    have hbefore : s.passTold = [] := by rw [passTold_of_resolved hresolved, if_pos hpass]
    have hidle : (s.setPass w .idle).passes w = .idle := Function.update_self _ _ _
    have htold : ∀ s₁ : State, s₁.resolved = some (w, told) → s₁.passes w = .idle →
        s₁.passTold = [told] := fun s₁ h₁ h₂ => by
      rw [passTold_of_resolved h₁, h₂, if_neg nofun]
    have hafter : State.passTold { s.setPass w .idle with memories := s.memories ++ [told] } =
        [told] := htold _ hresolved hidle
    rw [hbefore, List.nil_append] at hmemories
    rw [hafter]
    show (s.memories ++ [told]).Perm ([told] ++ s.told.toList)
    exact (hmemories.append_right [told]).trans List.perm_append_comm

/-- What a pass is to tell goes with the status that it is to record. -/
theorem told_of_resolution {r : Record} {now : Instant} {v : Verdict} {status : Status}
    (h : r.resolution now v = some status) :
    status = .committed ∧ Told.of v = .committed ∨
      status = .error ∧ (Told.of v = .abandoned ∨ Told.of v = .unverified) := by
  cases v with
  | landed => exact Or.inl ⟨(Option.some.inj h).symm, rfl⟩
  | absent => exact Or.inr ⟨(Option.some.inj h).symm, Or.inl rfl⟩
  | unreadable =>
    unfold Record.resolution at h
    simp only at h
    split at h
    · split_ifs at h
      exact Or.inr ⟨(Option.some.inj h).symm, Or.inr rfl⟩
    · exact Or.inr ⟨(Option.some.inj h).symm, Or.inr rfl⟩

theorem Inv.step {a : Act} (hi : Inv s) (hapart : Apart s a) (h : step s a = some s') : Inv s' := by
  have hstage := hi.stage
  cases a with
  | commitWrite now readable =>
    simp only [Memories.step] at h
    split_ifs at h with hcommit hreadable
    all_goals
      obtain rfl := Option.some.inj h
      rw [hcommit] at hstage
    · exact hi.move (stage_afterGet hstage _ _)
    · exact hi.move (stage_ended hstage.2.1 hstage.1 fun _ => hstage.2.2.2)
  | check denied =>
    simp only [Memories.step] at h
    split at h
    next r hcommit =>
      obtain rfl := Option.some.inj h
      rw [hcommit] at hstage
      split_ifs
      · exact hi.move hstage
      · exact hi.move hstage
    next => cases h
  | mark now takes =>
    cases takes with
    | true => exact hi.marked hapart h
    | false => exact hi.unmarked hapart h
  | write outcome =>
    simp only [Memories.step] at h
    split at h
    next r hcommit => exact hi.wrote hcommit h
    next => cases h
  | reread readable =>
    simp only [Memories.step] at h
    split_ifs at h with hcommit
    obtain rfl := Option.some.inj h
    rw [hcommit] at hstage
    obtain ⟨hlanded, hopen⟩ := hstage
    refine hi.move ⟨hlanded, hopen, fun hlost => ?_⟩
    rw [Bool.and_eq_true, Bool.and_eq_true, decide_eq_true_eq] at hlost
    obtain ⟨⟨hreadable, herror⟩, -⟩ := hlost
    have hread : s.verdict ≠ some .unverified := hapart hreadable
    -- The record is marked as an error by the pass that found the memory absent, and by no other.
    obtain ⟨-, ⟨hstatus, -⟩ | ⟨hstatus, -⟩ | ⟨-, habandoned | hunverified⟩⟩ := hopen
    · exact nomatch hstatus.symm.trans herror
    · exact nomatch hstatus.symm.trans herror
    · exact habandoned
    · exact absurd hunverified hread
  | wire =>
    simp only [Memories.step] at h
    split at h
    next told hcommit =>
      obtain rfl := Option.some.inj h
      exact hi.wire hcommit
    next => cases h
  | list w now readable =>
    simp only [Memories.step] at h
    split_ifs at h with hpass hreadable
    all_goals
      obtain rfl := Option.some.inj h
      have hnot : ∀ told, s.passes w ≠ .wiring told := fun told h0 => nomatch hpass.symm.trans h0
    · refine hi.setPass hnot (fun told h0 => ?_) fun status told h0 => ?_
      all_goals
        unfold afterList at h0
        split_ifs at h0
    · exact hi.setPass hnot nofun nofun
  | inspect w readable =>
    simp only [Memories.step] at h
    split at h
    next r now hpass =>
      obtain rfl := Option.some.inj h
      have hnot : ∀ told, s.passes w ≠ .wiring told := fun told h0 => nomatch hpass.symm.trans h0
      cases hres : r.resolution now (s.target.inspect r readable) with
      | none => exact hi.setPass hnot nofun nofun
      | some status =>
        refine hi.setPass hnot nofun fun status' told h0 => ?_
        -- What the pass is to tell was settled by what it found.
        obtain ⟨rfl, rfl⟩ := Pass.resolving.inj h0
        exact told_of_resolution hres
    next => cases h
  | giveUp w =>
    simp only [Memories.step] at h
    split at h
    next r now hpass =>
      obtain rfl := Option.some.inj h
      exact hi.setPass (fun told h0 => nomatch hpass.symm.trans h0) nofun nofun
    next status told hpass =>
      obtain rfl := Option.some.inj h
      exact hi.setPass (fun told h0 => nomatch hpass.symm.trans h0) nofun nofun
    next => cases h
  | resolve w takes => exact hi.resolve hapart h
  | wireResolved w =>
    simp only [Memories.step] at h
    split at h
    next told hpass =>
      obtain rfl := Option.some.inj h
      exact hi.wireResolved hpass
    next => cases h
  | edit target =>
    obtain rfl := Option.some.inj h
    exact ⟨hi.stage, hi.resolving, hi.wiring, hi.verdict, hi.memories⟩

/-! ## Runs -/

/-- Passes have told their verdict, or nothing yet. -/
theorem passTold_cases (s : State) : s.passTold = s.verdict.toList ∨
    s.passTold = [] ∧ ∃ w told, s.passes w = .wiring told := by
  unfold State.verdict
  cases hresolved : s.resolved with
  | none =>
    refine Or.inl ?_
    unfold State.passTold
    rw [hresolved]
    rfl
  | some x =>
    obtain ⟨w, told⟩ := x
    rw [passTold_of_resolved hresolved]
    split_ifs with hwiring
    · exact Or.inr ⟨rfl, w, told, hwiring⟩
    · exact Or.inl rfl

theorem count_passTold_le (s : State) (told : Told) :
    s.passTold.count told ≤ s.verdict.toList.count told := by
  rcases passTold_cases s with h | ⟨h, -⟩
  · exact Nat.le_of_eq (congrArg (List.count told) h)
  · rw [h]
    exact Nat.zero_le _

/-- What the commit has told, no pass has. -/
theorem Inv.speaks (hi : Inv s) {told : Told} (h : s.told = some told) : Speaks s told := by
  have hstage := hi.stage
  have hnone : s.told ≠ none := by
    rw [h]
    exact nofun
  cases hcommit : s.commit with
  | start | expiring | guarding _ | refusing | claiming _ =>
    rw [hcommit] at hstage
    exact absurd hstage.1 hnone
  | writing _ | failing | recalling =>
    rw [hcommit] at hstage
    exact absurd hstage.2.1 hnone
  | finishing lost n =>
    rw [hcommit] at hstage
    exact absurd hstage.2.1.1 hnone
  | wiring told =>
    rw [hcommit] at hstage
    exact absurd hstage.2.1 hnone
  | ended =>
    rw [hcommit] at hstage
    unfold Stage at hstage
    split_ifs at hstage
    · rcases hstage with ⟨hopen, -⟩ | ⟨told', htold, hspeaks⟩
      · exact absurd hopen.1 hnone
      · obtain rfl := Option.some.inj (htold.symm.trans h)
        exact hspeaks
    · exact absurd hstage.1 hnone

theorem Inv.count_le (hi : Inv s) : s.memories.count .committed ≤ 1 := by
  rw [hi.memories.count_eq, List.count_append]
  have hpass := count_passTold_le s .committed
  cases htold : s.told with
  | none =>
    have hle : s.verdict.toList.count .committed ≤ 1 := by
      cases s.verdict with
      | none => exact Nat.zero_le _
      | some t => exact List.count_le_length
    exact hpass.trans hle
  | some told =>
    obtain ⟨-, hverdict, -⟩ := hi.speaks htold
    have hzero : s.verdict.toList.count .committed = 0 := by
      refine List.count_eq_zero.mpr fun hmem => hverdict ?_
      exact Option.mem_toList.mp hmem
    have hle : [told].count .committed ≤ 1 := List.count_le_length
    show s.passTold.count .committed + [told].count .committed ≤ 1
    omega

/-- A pass that does not say that the write landed adds nothing to what does. -/
theorem filter_verdict (hi : Inv s) (h : s.verdict ≠ some .committed) :
    s.verdict.toList.filter Told.saysLanded = [] := by
  have hlate := hi.verdict
  cases hverdict : s.verdict with
  | none => rfl
  | some told =>
    cases told with
    | committed => exact absurd hverdict h
    | late => exact absurd hverdict hlate
    | abandoned => rfl
    | unverified => rfl

/-- A pass that finds the block of a record that is `committing` tells it. -/
theorem passOf_landed {w : ℕ} {now : Instant} (hstatus : s.record.status = .committing)
    (hidle : s.passes w = .idle) (hage : (s.record.claimAge now).all (commitStale < ·) = true)
    (hfound : s.target.inspect s.record true = .landed) :
    ∃ s', machine.runWithin (fun _ _ => True) s (passOf w now) = some s' ∧
      s'.record.status = .committed ∧ s'.memories = s.memories ++ [.committed] := by
  let s₁ := s.setPass w (.inspecting s.record now)
  let s₂ := s₁.setPass w (.resolving .committed .committed)
  let s₃ : State :=
    { s₂.setPass w (.wiring .committed) with
      record := { s.record with status := .committed, resolvedByReconcile := true }
      resolved := some (w, .committed) }
  let s₄ : State := { s₃.setPass w .idle with memories := s.memories ++ [.committed] }
  have hpass₁ : s₁.passes w = .inspecting s.record now := Function.update_self _ _ _
  have hpass₂ : s₂.passes w = .resolving .committed .committed := Function.update_self _ _ _
  have hpass₃ : s₃.passes w = .wiring .committed := Function.update_self _ _ _
  have hlist : step s (.list w now true) = some s₁ := by
    simp only [step, if_pos hidle, afterList, if_pos (And.intro hstatus hage), ↓reduceIte]
    rfl
  have hinspect : step s₁ (.inspect w true) = some s₂ := by
    have hfound₁ : s₁.target.inspect s.record true = .landed := hfound
    simp only [step, hpass₁, hfound₁]
    rfl
  have hresolve : step s₂ (.resolve w true) = some s₃ := by
    have hstatus₂ : s₂.record.status = .committing := hstatus
    simp only [step, State.resolve, hpass₂, hstatus₂, and_self, ↓reduceIte]
    rfl
  have hwire : step s₃ (.wireResolved w) = some s₄ := by
    simp only [step, hpass₃]
    rfl
  refine ⟨s₄, ?_, rfl, rfl⟩
  simp only [passOf, Machine.runWithin, machine, if_true, hlist, hinspect, hresolve, hwire,
    Option.bind_some]

theorem done_of_inv (hi : Inv s) (hlanded : s.landed = true) (hended : s.commit = .ended)
    (hresolved : s.record.status ≠ .committing) (hnone : ∀ w told, s.passes w ≠ .wiring told) :
    ∃ told, s.memories.filter Told.saysLanded = [told] ∧
      (told = .committed ∨ told = .late ∧ .abandoned ∈ s.memories) := by
  have hpass : s.passTold = s.verdict.toList := by
    rcases passTold_cases s with h | ⟨-, w, told, hwiring⟩
    · exact h
    · exact absurd hwiring (hnone w told)
  have hmemories := hi.memories
  rw [hpass] at hmemories
  have hstage := hi.stage
  rw [hended] at hstage
  unfold Stage at hstage
  rw [if_pos hlanded] at hstage
  rcases hstage with ⟨⟨htold, hopen⟩, herror⟩ | ⟨told, htold, -, hverdict, hspeaks⟩
  · -- The final mark did not take, and a pass has found the block.
    have hverdict : s.verdict = some .committed := by
      rcases hopen with ⟨hstatus, -⟩ | ⟨-, hverdict⟩ | ⟨hstatus, -⟩
      · exact absurd hstatus hresolved
      · exact hverdict
      · exact absurd hstatus herror
    rw [hverdict, htold] at hmemories
    have hone : s.memories = [.committed] := List.perm_singleton.mp hmemories
    rw [hone]
    exact ⟨.committed, rfl, Or.inl rfl⟩
  · rw [htold] at hmemories
    have hsays : told.saysLanded = true := by
      rcases hspeaks with rfl | ⟨rfl, -⟩
      · rfl
      · rfl
    have hfilter := hmemories.filter Told.saysLanded
    rw [List.filter_append, filter_verdict hi hverdict, List.nil_append] at hfilter
    have hone : [told].filter Told.saysLanded = [told] := List.filter_cons_of_pos hsays
    refine ⟨told, List.perm_singleton.mp (hfilter.trans (.of_eq hone)), ?_⟩
    rcases hspeaks with rfl | ⟨rfl, habandoned⟩
    · exact Or.inl rfl
    · refine Or.inr ⟨rfl, hmemories.mem_iff.mpr ?_⟩
      rw [habandoned]
      exact List.mem_append_left _ List.mem_cons_self

/-- Nothing is told of a record that a commit has left `committing`. -/
theorem memories_of_left (hi : Inv s) (hlanded : s.landed = true) (hended : s.commit = .ended)
    (hstatus : s.record.status = .committing) : s.memories = [] := by
  have hmemories := hi.memories
  have hresolved := hi.resolved_of_committing hstatus
  have hstage := hi.stage
  rw [hended] at hstage
  unfold Stage at hstage
  rw [if_pos hlanded] at hstage
  rcases hstage with ⟨⟨htold, -⟩, -⟩ | ⟨told, -, hcommitted, -⟩
  · rw [htold, State.passTold, hresolved] at hmemories
    exact List.perm_nil.mp hmemories
  · rw [hstatus] at hcommitted
    cases hcommitted

/-- **One memory per resolved write.** Where the final mark does not meet what a pass has recorded,
no two memories say `committed`; and once the write has landed, the record is resolved and the
passes have told what they found, one memory says that it landed. -/
theorem told_once {s : State} (h : machine.Reach Apart s) : ToldOnce s := by
  have hinv : Inv s := by
    refine h.invariant ?_ fun _ _ _ hi hapart hstep => Inv.step hi hapart hstep
    rintro _ ⟨r, target, hr, rfl⟩
    exact inv_start hr
  refine ⟨hinv.count_le, done_of_inv hinv, fun hlanded hended hstatus w now hidle hage hfound => ?_⟩
  obtain ⟨s', hrun, hcommitted, htells⟩ := passOf_landed hstatus hidle hage hfound
  refine ⟨s', hrun, hcommitted, ?_⟩
  have hempty := memories_of_left hinv hlanded hended hstatus
  rw [htells, hempty]
  rfl

/-- The commit is slow, and a pass gives the record up before the write. -/
theorem told_once_late : ∃ s, machine.Reach Apart s ∧
    ((s.landed = true ∧ s.commit = .ended ∧ s.memories = [.abandoned, .late]) ∧ ToldOnce s) := by
  obtain ⟨s, hs, hp⟩ := Machine.exists_reach_of_runWithin (M := machine) (D := Apart)
    (fun _ _ h => h) ⟨newNote, .missing, rfl, rfl⟩
    [.commitWrite 5 true, .check false, .mark 5 true, .list 0 600000006 true, .inspect 0 true,
      .resolve 0 true, .wireResolved 0, .write .complete, .reread true, .mark 600000007 true, .wire]
    (fun s => s.landed = true ∧ s.commit = .ended ∧ s.memories = [.abandoned, .late])
    (by decide +kernel)
  exact ⟨s, hs, of_decide_eq_true hp, told_once hs⟩

/-- The commit is slow after its write, and a pass finds the block: both say `committed`. -/
theorem told_twice : ∃ s, machine.Reachable s ∧ s.memories = [.committed, .committed] ∧
    ¬ToldOnce s := by
  obtain ⟨s, hs, hp⟩ := Machine.exists_reach_of_runWithin (M := machine) (D := fun _ _ => True)
    (fun _ _ h => h) ⟨newNote, .missing, rfl, rfl⟩
    [.commitWrite 5 true, .check false, .mark 5 true, .write .complete, .list 0 600000006 true,
      .inspect 0 true, .resolve 0 true, .wireResolved 0, .reread true, .mark 600000007 true, .wire]
    (fun s => s.memories = [.committed, .committed]) (by decide +kernel)
  have hmemories : s.memories = [.committed, .committed] := of_decide_eq_true hp
  refine ⟨s, hs, hmemories, fun h => ?_⟩
  have hcount := h.once
  rw [hmemories] at hcount
  exact absurd hcount (by decide)

end Companion.Files.Memories

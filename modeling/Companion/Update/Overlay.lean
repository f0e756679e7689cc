import Companion.Dict
import Companion.Memory.Text
import Companion.Runs
import Mathlib

/-!
# Updates of the brain

`brain/update/overlay.py` and `apply_update` of `brain/update/install.py`: the folders of the
overlay, the file `current.json` that names the active and the previous one, the lock file, and the
marks that bridges leave in the folder they run from. A process that updates takes the lock, works
through its steps and lets the lock go, or dies anywhere. A bridge reads `current.json` without the
lock when it starts, and marks its folder later.

The lock is a file with the pid of its holder, and a lock whose holder is dead is taken over. The
takeover unlinks whatever lock is there by then; the laws are about the runs in which it is not the
lock of a live process (`Orderly`).

A pid is used once, as the tokens beside the pids tell two users of it apart.
-/

namespace Companion.Update

open Companion.Memory (Text)
open Companion.Runs

/-- The name of a folder under the root. -/
abbrev Dir := Text

abbrev Pid := ℕ

/-! ## `current.json` -/

/-- How an unproven build is backed out. -/
inductive Undo
  | rollback
  | revert
  deriving DecidableEq

/-- An entry of `current.json`. -/
structure Entry where
  dir : Dir
  commit : Text
  brainVersion : Text
  bundleId : Text
  confirmed : Bool
  undo : Undo
  deriving DecidableEq

/-- `current.json` -/
structure Current where
  active : Option Entry
  previous : Option Entry
  deriving DecidableEq

namespace Current

/-- The folders that are named. -/
def dirs (c : Current) : List Dir := (c.active.toList ++ c.previous.toList).map Entry.dir

/-- `activate` -/
def activate (c : Current) (e : Entry) : Current :=
  match c.active with
  | some old => ⟨some e, if old.dir ≠ e.dir then some old else c.previous⟩
  | none => ⟨some e, c.previous⟩

/-- `revert` -/
def revert (c : Current) : Current :=
  match c.active with
  | none => c
  | some e => ⟨none, some e⟩

/-- `rollback` -/
def rollback (c : Current) : Current :=
  match c.previous with
  | none => c.revert
  | some e => ⟨some e, none⟩

/-- `confirm` -/
def confirm (c : Current) (commit : Text) : Current :=
  match c.active with
  | none => c
  | some e =>
    if e.commit = commit ∧ e.confirmed = false then ⟨some { e with confirmed := true }, c.previous⟩
    else c

/-- What is active once the undo of the active entry is applied. -/
def undone (c : Current) : Option Entry :=
  match c.active with
  | none => none
  | some e =>
    match e.undo with
    | .rollback => c.rollback.active
    | .revert => c.revert.active

end Current

/-! ## Folders -/

/-- What a stamp says about the build in its folder. -/
structure Stamp where
  commit : Text
  bundleId : Text
  deriving DecidableEq

/-- A folder under the root. -/
structure Folder where
  stamp : Option Stamp
  /-- The install of the folder has come to its end, and nothing of it was deleted since. -/
  complete : Bool
  /-- The processes with a marker in `.in-use`. -/
  marks : List Pid
  deriving DecidableEq

/-- The root: `current.json` and the folders. -/
structure Disk where
  current : Current
  folders : Dict Dir Folder
  deriving DecidableEq

/-- `_SAFE_COMMIT` -/
def safeCommit : Text → Bool
  | [] => false
  | c :: cs => c.isAlphanum && cs.all fun c => c.isAlphanum || c ∈ ['.', '_', '-']

/-- What `apply_update` installs. -/
structure Build where
  commit : Text
  brainVersion : Text
  bundleId : Text
  safe : safeCommit commit = true
  deriving DecidableEq

/-- `base` -/
def Build.base (b : Build) : Dir := b.commit.take 12 ++ '-' :: b.bundleId.take 8

/-- `{base}-r{n}` -/
def Build.numbered (b : Build) (n : ℕ) : Dir := b.base ++ "-r".toList ++ (Nat.repr n).toList

def Build.stamp (b : Build) : Stamp := ⟨b.commit, b.bundleId⟩

/-- How the build is backed out: to the overlay that is active for its bundle, or else to the
release brain. -/
def Build.undo (b : Build) (was : Option Entry) : Undo :=
  if was.any fun was => was.bundleId = b.bundleId then .rollback else .revert

/-- `in_use` -/
def inUse (alive : Pid → Bool) (folders : Dict Dir Folder) (dir : Dir) : Bool :=
  (folders.get? dir).any fun f => f.marks.any alive

/-! ## Processes -/

/-- What is done inside the lock. -/
inductive Op
  | apply (b : Build)
  | revert
  | rollback
  | confirm (commit : Text)
  | prune
  deriving DecidableEq

/-- What an operation other than an update or a prune does to `current.json`. -/
def Op.write : Op → Option (Current → Current)
  | .revert => some Current.revert
  | .rollback => some Current.rollback
  | .confirm commit => some fun c => c.confirm commit
  | .apply _ | .prune => none

/-- What `apply_update` has found out before it installs. -/
structure Plan where
  build : Build
  /-- The folder to install into. -/
  dir : Dir
  named : List Dir
  was : Option Entry
  undo : Undo
  deriving DecidableEq

/-- `protected` -/
def isProtected (alive : Pid → Bool) (folders : Dict Dir Folder) (named : List Dir) (dir : Dir) :
    Bool :=
  dir ∈ named || inUse alive folders dir

/-- The folder of a staged build. -/
def Plan.stagingDir (t : Plan) (me : Pid) : Dir :=
  ".staging-".toList ++ t.dir ++ '-' :: (Nat.repr me).toList

/-- The entry of a build that becomes active. -/
def Plan.entry (t : Plan) : Entry :=
  let fresh : Entry :=
    ⟨t.dir, t.build.commit, t.build.brainVersion, t.build.bundleId, false, t.undo⟩
  match t.was with
  | none => fresh
  | some was =>
    if was.dir = t.dir then { fresh with confirmed := was.confirmed, undo := was.undo } else fresh

/-- The mark of a bridge. -/
inductive Mark
  | unmarked
  /-- Made while `current.json` names the folder. -/
  | pinned
  | late
  deriving DecidableEq

/-- Where a process is. -/
inductive Phase
  | absent
  /-- Before a link of the lock, with so many tries left. -/
  | linking (op : Op) (tries : ℕ)
  /-- After a link that has found a lock. -/
  | blocked (op : Op) (tries : ℕ)
  /-- With the holder of the lock read. -/
  | judging (op : Op) (tries : ℕ) (holder : Option Pid)
  /-- Before it unlinks the lock of a dead holder. -/
  | taking (op : Op) (tries : ℕ)
  | inside (op : Op)
  | staging (t : Plan)
  | building (t : Plan)
  | guarding (t : Plan)
  | replacing (t : Plan)
  | activating (t : Plan)
  | pruneStart
  | pruning (keep children : List Dir)
  /-- Before it deletes a folder. -/
  | doomed (keep : List Dir) (child : Dir) (children : List Dir)
  | releasing
  | bridge (folder : Option Dir) (mark : Mark)
  | dead
  deriving DecidableEq

namespace Phase

/-- Inside `overlay_lock`. -/
def critical : Phase → Bool
  | inside _ | staging _ | building _ | guarding _ | replacing _ | activating _ | pruneStart
  | pruning .. | doomed .. | releasing => true
  | _ => false

def alive : Phase → Bool
  | absent | dead => false
  | _ => true

end Phase

/-- A step inside the lock. `ok` says whether it goes through. -/
inductive Work
  | operate (ok : Bool)
  | plan (n : ℕ)
  | stage
  | build (ok : Bool)
  | guard
  | clear (ok : Bool)
  | replace (ok : Bool)
  | activate (ok : Bool)
  | prune
  | pruneRead (children : List Dir)
  | examine
  | delete (ok : Bool)
  deriving DecidableEq

section Work

variable (alive : Pid → Bool) (me : Pid)

/-- `n` is the first counter whose folder is not protected. -/
def firstFree (d : Disk) (b : Build) (n : ℕ) : Bool :=
  1 ≤ n && !isProtected alive d.folders d.current.dirs (b.numbered n) &&
    (List.range n).all fun m => m = 0 || isProtected alive d.folders d.current.dirs (b.numbered m)

/-- Where `apply_update` installs a build, and whether it is there already. -/
def planPhase (b : Build) (n : ℕ) (d : Disk) : Option Phase :=
  let named := d.current.dirs
  let was := d.current.active
  let into : Dir → Plan := fun dir => ⟨b, dir, named, was, b.undo was⟩
  if b.base ∈ named ∧ ((d.folders.get? b.base).bind Folder.stamp) = some b.stamp then
    some (.activating (into b.base))
  else if (d.folders.get? b.base).isSome ∧ isProtected alive d.folders named b.base then
    if firstFree alive d b n then some (.staging (into (b.numbered n))) else none
  else some (.staging (into b.base))

/-- The end of `apply_update` on a failure: the staging folder is removed. -/
def abandon (t : Plan) (d : Disk) : Phase × Disk :=
  (.releasing, { d with folders := d.folders.pop (t.stagingDir me) })

/-- A folder that is half deleted. -/
def Folder.torn (f : Folder) : Folder := { f with stamp := none, complete := false }

/-- The folders once one of them is deleted, or half deleted. -/
def deleteDir (folders : Dict Dir Folder) (dir : Dir) (ok : Bool) : Dict Dir Folder :=
  if ok then folders.pop dir
  else
    match folders.get? dir with
    | none => folders
    | some f => folders.set dir f.torn

/-- A step of the process that holds the lock. -/
def work : Work → Phase → Disk → Option (Phase × Disk)
  | .operate ok, .inside op, d =>
    op.write.map fun write => (.releasing, if ok then { d with current := write d.current } else d)
  | .plan n, .inside (.apply b), d => (planPhase alive b n d).map (·, d)
  | .stage, .staging t, d =>
    some (.building t, { d with folders := d.folders.set (t.stagingDir me) ⟨none, false, []⟩ })
  | .build ok, .building t, d =>
    if ok then
      some (.guarding t,
        { d with folders := d.folders.set (t.stagingDir me) ⟨some t.build.stamp, true, []⟩ })
    else some (abandon me t d)
  | .guard, .guarding t, d =>
    if isProtected alive d.folders t.named t.dir then some (abandon me t d)
    else some (.replacing t, d)
  | .clear ok, .replacing t, d =>
    if (d.folders.get? t.dir).isSome then
      let d' := { d with folders := deleteDir d.folders t.dir ok }
      some (if ok then (.replacing t, d') else abandon me t d')
    else none
  | .replace ok, .replacing t, d =>
    if (d.folders.get? t.dir).isNone then
      if ok then
        (d.folders.get? (t.stagingDir me)).map fun staged =>
          (.activating t, { d with folders := (d.folders.pop (t.stagingDir me)).set t.dir staged })
      else some (abandon me t d)
    else none
  | .activate ok, .activating t, d =>
    some (if ok then (.pruneStart, { d with current := d.current.activate t.entry })
      else (.releasing, d))
  | .prune, .inside .prune, d => some (.pruneStart, d)
  | .pruneRead children, .pruneStart, d =>
    if children.isPerm (d.folders.entries.map Prod.fst) then
      some (.pruning d.current.dirs children, d)
    else none
  | .examine, .pruning keep children, d =>
    match children with
    | [] => some (.releasing, d)
    | child :: children =>
      if child ∈ keep ∨ inUse alive d.folders child then some (.pruning keep children, d)
      else some (.doomed keep child children, d)
  | .delete ok, .doomed keep child children, d =>
    some (.pruning keep children, { d with folders := deleteDir d.folders child ok })
  | _, _, _ => none

end Work

/-- The root with the lock, and the processes. -/
structure State where
  disk : Disk
  lock : Option Pid
  procs : Pid → Phase

/-- A step of a process. -/
inductive Act
  | spawn (p : Pid) (op : Op)
  | link (p : Pid)
  | readLock (p : Pid)
  | judge (p : Pid)
  | unlink (p : Pid)
  | work (p : Pid) (w : Work)
  | release (p : Pid)
  /-- A bridge starts, and reads `current.json`. -/
  | start (p : Pid) (bundle : Text)
  /-- `mark_in_use` -/
  | mark (p : Pid)
  | die (p : Pid)
  deriving DecidableEq

namespace State

def alive (s : State) (p : Pid) : Bool := (s.procs p).alive

/-- The processes with one of them in another phase. -/
def go (s : State) (p : Pid) (ph : Phase) : State :=
  { s with procs := Function.update s.procs p ph }

end State

/-- The folder that a starting bridge loads `brain` from. -/
def hookFolder (d : Disk) (bundle : Text) : Option Dir :=
  (d.current.active.filter fun e => e.bundleId = bundle && (d.folders.get? e.dir).isSome).map
    Entry.dir

/-- The root with one more mark in a folder. -/
def markDir (d : Disk) (dir : Dir) (f : Folder) (p : Pid) : Disk :=
  { d with folders := d.folders.set dir { f with marks := p :: f.marks } }

/-- A step of a process. -/
def step (s : State) : Act → Option State
  | .spawn p op => if s.procs p = .absent then some (s.go p (.linking op 2)) else none
  | .link p =>
    match s.procs p with
    | .linking _ 0 => some (s.go p .dead)
    | .linking op (n + 1) =>
      if s.lock = none then some { s.go p (.inside op) with lock := some p }
      else some (s.go p (.blocked op n))
    | _ => none
  | .readLock p =>
    match s.procs p with
    | .blocked op n => some (s.go p (.judging op n s.lock))
    | _ => none
  | .judge p =>
    match s.procs p with
    | .judging op n holder =>
      some (s.go p (if holder.any s.alive then .dead else .taking op n))
    | _ => none
  | .unlink p =>
    match s.procs p with
    | .taking op n => some { s.go p (.linking op n) with lock := none }
    | _ => none
  | .work p w =>
    (work s.alive p w (s.procs p) s.disk).map fun r => { s.go p r.1 with disk := r.2 }
  | .release p =>
    if s.procs p = .releasing then
      some { s.go p .dead with lock := if s.lock = some p then none else s.lock }
    else none
  | .start p bundle =>
    if s.procs p = .absent then some (s.go p (.bridge (hookFolder s.disk bundle) .unmarked))
    else none
  | .mark p =>
    match s.procs p with
    | .bridge (some dir) .unmarked =>
      (s.disk.folders.get? dir).map fun f =>
        { s.go p (.bridge (some dir) (if dir ∈ s.disk.current.dirs then .pinned else .late)) with
          disk := markDir s.disk dir f p }
    | _ => none
  | .die p => if s.alive p then some (s.go p .dead) else none

/-- The overlay, from an empty root on. -/
def machine : Machine State Act where
  init s := s = ⟨⟨⟨none, none⟩, ∅⟩, none, fun _ => .absent⟩
  step := step

/-- No takeover unlinks the lock of a live process. -/
def Orderly (s : State) : Act → Prop
  | .unlink _ => s.lock.all fun h => !s.alive h
  | _ => True

instance (s : State) : (a : Act) → Decidable (Orderly s a)
  | .unlink _ => inferInstanceAs (Decidable (_ = true))
  | .spawn .. | .link _ | .readLock _ | .judge _ | .work .. | .release _ | .start .. | .mark _
  | .die _ => .isTrue trivial

/-! ## What a step inside the lock can do -/

section Worked

variable {alive : Pid → Bool} {me : Pid}

/-- The steps inside the lock. -/
inductive Worked (alive : Pid → Bool) (me : Pid) : Phase → Disk → Phase → Disk → Prop
  | wrote {op : Op} {write : Current → Current} {d : Disk} : op.write = some write →
    Worked alive me (.inside op) d .releasing { d with current := write d.current }
  /-- A write that fails, or the end of a prune. -/
  | ended {ph : Phase} {d : Disk} : ph.critical = true → Worked alive me ph d .releasing d
  | planned {b : Build} {n : ℕ} {d : Disk} {ph : Phase} : planPhase alive b n d = some ph →
    Worked alive me (.inside (.apply b)) d ph d
  | staged {t : Plan} {d : Disk} : Worked alive me (.staging t) d (.building t)
    { d with folders := d.folders.set (t.stagingDir me) ⟨none, false, []⟩ }
  | built {t : Plan} {d : Disk} : Worked alive me (.building t) d (.guarding t)
    { d with folders := d.folders.set (t.stagingDir me) ⟨some t.build.stamp, true, []⟩ }
  | abandoned {t : Plan} {ph : Phase} {d : Disk} : ph.critical = true →
    Worked alive me ph d .releasing { d with folders := d.folders.pop (t.stagingDir me) }
  | guarded {t : Plan} {d : Disk} : isProtected alive d.folders t.named t.dir = false →
    Worked alive me (.guarding t) d (.replacing t) d
  | cleared {t : Plan} {d : Disk} : Worked alive me (.replacing t) d (.replacing t)
    { d with folders := deleteDir d.folders t.dir true }
  | uncleared {t : Plan} {d : Disk} : Worked alive me (.replacing t) d .releasing
    { d with folders := (deleteDir d.folders t.dir false).pop (t.stagingDir me) }
  | replaced {t : Plan} {d : Disk} {staged : Folder} :
    d.folders.get? (t.stagingDir me) = some staged → Worked alive me (.replacing t) d (.activating t)
      { d with folders := (d.folders.pop (t.stagingDir me)).set t.dir staged }
  | activated {t : Plan} {d : Disk} : Worked alive me (.activating t) d .pruneStart
    { d with current := d.current.activate t.entry }
  | pruneStarted {d : Disk} : Worked alive me (.inside .prune) d .pruneStart d
  | pruneRead {children : List Dir} {d : Disk} :
    Worked alive me .pruneStart d (.pruning d.current.dirs children) d
  | kept {keep children : List Dir} {child : Dir} {d : Disk} :
    Worked alive me (.pruning keep (child :: children)) d (.pruning keep children) d
  | chosen {keep children : List Dir} {child : Dir} {d : Disk} : child ∉ keep →
    inUse alive d.folders child = false →
    Worked alive me (.pruning keep (child :: children)) d (.doomed keep child children) d
  | deleted {keep children : List Dir} {child : Dir} {ok : Bool} {d : Disk} :
    Worked alive me (.doomed keep child children) d (.pruning keep children)
      { d with folders := deleteDir d.folders child ok }

theorem worked_examine {keep children : List Dir} {d d' : Disk} {ph' : Phase}
    (h : work alive me .examine (.pruning keep children) d = some (ph', d')) :
    Worked alive me (.pruning keep children) d ph' d' := by
  cases children with
  | nil =>
    cases h
    exact .ended rfl
  | cons child children =>
    dsimp only [work] at h
    split_ifs at h with hkept
    · cases h
      exact .kept
    · cases h
      obtain ⟨hkeep, huse⟩ := not_or.mp hkept
      exact .chosen hkeep (eq_false_of_ne_true huse)

theorem worked_replacing {w : Work} {t : Plan} {d d' : Disk} {ph' : Phase}
    (h : work alive me w (.replacing t) d = some (ph', d')) :
    Worked alive me (.replacing t) d ph' d' := by
  cases w with
  | clear ok =>
    dsimp only [work] at h
    split_ifs at h with _ hok
    · cases h
      rw [hok]
      exact .cleared
    · cases h
      rw [eq_false_of_ne_true hok]
      exact .uncleared
  | replace ok =>
    dsimp only [work] at h
    split_ifs at h with _ hok
    · obtain ⟨staged, hstaged, hr⟩ := Option.map_eq_some_iff.mp h
      cases hr
      exact .replaced hstaged
    · cases h
      exact .abandoned rfl
  | _ => cases h

/-- A step of `work` is one of them. -/
theorem worked_of_work {w : Work} {ph ph' : Phase} {d d' : Disk}
    (h : work alive me w ph d = some (ph', d')) : Worked alive me ph d ph' d' := by
  -- The phase tells which steps `work` takes, and each of these has its rule.
  cases ph with
  | inside op =>
    cases w with
    | operate ok =>
      obtain ⟨write, hwrite, hr⟩ := Option.map_eq_some_iff.mp h
      cases ok with
      | true =>
        cases hr
        exact .wrote hwrite
      | false =>
        cases hr
        exact .ended rfl
    | plan n =>
      cases op with
      | apply b =>
        obtain ⟨ph, hph, hr⟩ := Option.map_eq_some_iff.mp h
        cases hr
        exact .planned hph
      | _ => cases h
    | prune =>
      cases op with
      | prune =>
        cases h
        exact .pruneStarted
      | _ => cases h
    | _ => cases op <;> cases h
  | staging t =>
    cases w with
    | stage =>
      cases h
      exact .staged
    | _ => cases h
  | building t =>
    cases w with
    | build ok =>
      cases ok with
      | true =>
        cases h
        exact .built
      | false =>
        cases h
        exact .abandoned rfl
    | _ => cases h
  | guarding t =>
    cases w with
    | guard =>
      dsimp only [work] at h
      split_ifs at h with hprotected
      · cases h
        exact .abandoned rfl
      · cases h
        exact .guarded (eq_false_of_ne_true hprotected)
    | _ => cases h
  | replacing t => exact worked_replacing h
  | activating t =>
    cases w with
    | activate ok =>
      cases ok with
      | true =>
        cases h
        exact .activated
      | false =>
        cases h
        exact .ended rfl
    | _ => cases h
  | pruneStart =>
    cases w with
    | pruneRead children =>
      dsimp only [work] at h
      split_ifs at h
      cases h
      exact .pruneRead
    | _ => cases h
  | pruning keep children =>
    cases w with
    | examine => exact worked_examine h
    | _ => cases h
  | doomed keep child children =>
    cases w with
    | delete ok =>
      cases h
      exact .deleted
    | _ => cases h
  | _ => cases w <;> cases h

/-! ## Inside the lock -/

/-- The folder has all that its install put there. -/
def Complete (d : Disk) (dir : Dir) : Prop :=
  ∃ f, d.folders.get? dir = some f ∧ f.complete = true

/-- The name of an installed folder, which no staging folder has. -/
def Plain (dir : Dir) : Prop := dir.head? ≠ some '.'

/-- What `current.json` names is installed completely. -/
structure DiskOk (d : Disk) : Prop where
  complete : ∀ dir ∈ d.current.dirs, Complete d dir
  plain : ∀ dir ∈ d.current.dirs, Plain dir

/-- A plan is about `current.json` as it is, and installs into a folder that it does not name. -/
structure PlanOk (d : Disk) (t : Plan) : Prop where
  named : t.named = d.current.dirs
  fresh : t.dir ∉ d.current.dirs
  was : t.was = d.current.active
  undo : t.undo = t.build.undo t.was
  plain : Plain t.dir

theorem PlanOk.congr {d d' : Disk} {t : Plan} (h : PlanOk d t) (hcurrent : d'.current = d.current) :
    PlanOk d' t := by
  obtain ⟨hnamed, hfresh, hwas, hundo, hplain⟩ := h
  rw [← hcurrent] at hnamed hfresh hwas
  exact ⟨hnamed, hfresh, hwas, hundo, hplain⟩

/-- What the process that holds the lock knows of the root. -/
def PhaseOk (me : Pid) (d : Disk) : Phase → Prop
  | .staging t | .building t => PlanOk d t
  | .guarding t | .replacing t => PlanOk d t ∧ Complete d (t.stagingDir me)
  | .activating t => t.was = d.current.active ∧ t.undo = t.build.undo t.was ∧ Complete d t.dir ∧
      Plain t.dir
  | .pruning keep _ => keep = d.current.dirs
  | .doomed keep child _ => keep = d.current.dirs ∧ child ∉ keep
  | _ => True

/-- The next step may delete or replace the folder. -/
def Threatens : Phase → Dir → Prop
  | .replacing t, dir => t.dir = dir
  | .doomed _ child _, dir => child = dir
  | _, _ => False

variable {d d' : Disk} {ph ph' : Phase} {dir : Dir} {b : Build} {t : Plan}

theorem phaseOk_of_not_critical (h : ph.critical = false) : PhaseOk me d ph := by
  cases ph with
  | staging | building | guarding | replacing | activating | pruning | doomed => cases h
  | _ => trivial

theorem not_threatens_of_not_critical (h : ph.critical = false) : ¬ Threatens ph dir := by
  cases ph with
  | replacing | doomed => cases h
  | _ => exact id

/-! ### Names -/

theorem plain_base (b : Build) : Plain b.base := by
  obtain ⟨commit, version, bundle, safe⟩ := b
  cases commit with
  | nil => cases safe
  | cons c cs =>
    have halnum : c.isAlphanum = true := (Bool.and_eq_true_iff.mp safe).1
    intro hhead
    obtain rfl : c = '.' := Option.some.inj hhead
    exact absurd halnum (by decide)

theorem plain_append {t : Text} (h : Plain dir) (hne : dir ≠ []) : Plain (dir ++ t) := by
  obtain ⟨c, cs, rfl⟩ := List.exists_cons_of_ne_nil hne
  exact h

theorem base_ne_nil (b : Build) : b.base ≠ [] := by
  unfold Build.base
  simp

theorem plain_numbered (b : Build) (n : ℕ) : Plain (b.numbered n) := by
  unfold Build.numbered
  rw [List.append_assoc]
  exact plain_append (plain_base b) (base_ne_nil b)

theorem ne_stagingDir (h : Plain dir) (t : Plan) (me : Pid) : dir ≠ t.stagingDir me := by
  rintro rfl
  exact h rfl

/-! ### Folders -/

theorem get?_deleteDir (folders : Dict Dir Folder) (ok : Bool) {child : Dir} (h : dir ≠ child) :
    (deleteDir folders child ok).get? dir = folders.get? dir := by
  unfold deleteDir
  split_ifs
  · rw [Dict.get?_pop, if_neg h]
  · split
    · rfl
    · rw [Dict.get?_set, if_neg h]

theorem Complete.congr (h : Complete d dir) (hsame : d'.folders.get? dir = d.folders.get? dir) :
    Complete d' dir := by
  unfold Complete
  rw [hsame]
  exact h

/-- Where nothing but the folders has changed, and these only where nothing is named. -/
theorem DiskOk.congr (h : DiskOk d) (hcurrent : d'.current = d.current)
    (hsame : ∀ dir ∈ d.current.dirs, d'.folders.get? dir = d.folders.get? dir) : DiskOk d' where
  complete := by
    rw [hcurrent]
    exact fun dir hdir => (h.complete dir hdir).congr (hsame dir hdir)
  plain := by
    rw [hcurrent]
    exact h.plain

/-! ### What is named -/

theorem mem_dirs {c : Current} :
    dir ∈ c.dirs ↔ (∃ e, c.active = some e ∧ e.dir = dir) ∨ ∃ e, c.previous = some e ∧ e.dir = dir := by
  simp [Current.dirs]

theorem mem_dirs_revert {c : Current} (h : dir ∈ c.revert.dirs) : dir ∈ c.dirs := by
  unfold Current.revert at h
  split at h
  · exact h
  · next e he =>
    rw [mem_dirs] at h ⊢
    left
    simpa [he] using h

theorem mem_dirs_write {op : Op} {write : Current → Current} {c : Current}
    (hop : op.write = some write) (h : dir ∈ (write c).dirs) : dir ∈ c.dirs := by
  cases op with
  | revert =>
    cases hop
    exact mem_dirs_revert h
  | rollback =>
    cases hop
    unfold Current.rollback at h
    split at h
    · exact mem_dirs_revert h
    · next e he =>
      rw [mem_dirs] at h ⊢
      right
      simpa [he] using h
  | confirm commit =>
    cases hop
    dsimp only [Current.confirm] at h
    split at h
    · exact h
    · next e he =>
      split_ifs at h
      · rw [mem_dirs] at h ⊢
        simpa [he] using h
      · exact h
  | _ => cases hop

theorem mem_dirs_activate {c : Current} {e : Entry} (h : dir ∈ (c.activate e).dirs) :
    dir = e.dir ∨ dir ∈ c.dirs := by
  rw [mem_dirs]
  unfold Current.activate at h
  split at h
  · next old hold =>
    rw [mem_dirs] at h
    rcases h with ⟨e', he', hdir⟩ | ⟨e', he', hdir⟩
    · cases he'
      exact .inl hdir.symm
    · dsimp only at he'
      split_ifs at he'
      · cases he'
        exact .inr (.inl ⟨_, hold, hdir⟩)
      · exact .inr (.inr ⟨e', he', hdir⟩)
  · rw [mem_dirs] at h
    rcases h with ⟨e', he', hdir⟩ | h
    · cases he'
      exact .inl hdir.symm
    · exact .inr (.inr h)

@[simp]
theorem dir_entry (t : Plan) : t.entry.dir = t.dir := by
  unfold Plan.entry
  dsimp only
  split
  · rfl
  · split_ifs <;> rfl

/-- What a process threatens is not named. -/
theorem not_mem_of_threatens (hph : PhaseOk me d ph) (h : Threatens ph dir) :
    dir ∉ d.current.dirs := by
  cases ph with
  | replacing t =>
    obtain rfl : t.dir = dir := h
    exact hph.1.fresh
  | doomed keep child children =>
    obtain rfl : child = dir := h
    obtain ⟨rfl, hkeep⟩ := hph
    exact hkeep
  | _ => cases h

/-! ### The lemmas about a step -/

/-- A plan keeps to what is known. -/
theorem phaseOk_planPhase {n : ℕ} (me : Pid) (hd : DiskOk d)
    (h : planPhase alive b n d = some ph) : PhaseOk me d ph ∧ ∀ dir, ¬ Threatens ph dir := by
  have hexists : b.base ∈ d.current.dirs → (d.folders.get? b.base).isSome := by
    intro hmem
    obtain ⟨f, hf, -⟩ := hd.complete _ hmem
    rw [hf]
    rfl
  dsimp only [planPhase] at h
  split_ifs at h with hmatches hprotected hfree
  · cases h
    exact ⟨⟨rfl, rfl, hd.complete _ hmatches.1, plain_base b⟩, fun _ => id⟩
  · cases h
    simp only [firstFree, isProtected, Bool.and_eq_true, Bool.not_eq_true', Bool.or_eq_false_iff,
      decide_eq_false_iff_not] at hfree
    exact ⟨⟨rfl, hfree.1.2.1, rfl, rfl, plain_numbered b n⟩, fun _ => id⟩
  · cases h
    refine ⟨⟨rfl, fun hmem => hprotected ⟨hexists hmem, ?_⟩, rfl, rfl, plain_base b⟩, fun _ => id⟩
    simp [isProtected, show b.base ∈ d.current.dirs from hmem]

/-- A step leaves every folder that it does not threaten. -/
theorem Worked.frame (h : Worked alive me ph d ph' d') (hplain : Plain dir)
    (hsafe : ¬ Threatens ph dir) : d'.folders.get? dir = d.folders.get? dir := by
  cases h with
  | staged | built =>
    rw [Dict.get?_set, if_neg (ne_stagingDir hplain _ _)]
  | abandoned => rw [Dict.get?_pop, if_neg (ne_stagingDir hplain _ _)]
  | cleared => exact get?_deleteDir _ _ (Ne.symm hsafe)
  | uncleared =>
    rw [Dict.get?_pop, if_neg (ne_stagingDir hplain _ _)]
    exact get?_deleteDir _ _ (Ne.symm hsafe)
  | replaced =>
    rw [Dict.get?_set, if_neg (Ne.symm hsafe), Dict.get?_pop, if_neg (ne_stagingDir hplain _ _)]
  | deleted => exact get?_deleteDir _ _ (Ne.symm hsafe)
  | _ => rfl

/-- A step comes to threaten no folder that is in use. -/
theorem Worked.not_threatens (h : Worked alive me ph d ph' d') (hd : DiskOk d)
    (hsafe : ¬ Threatens ph dir) (huse : inUse alive d.folders dir = true) :
    ¬ Threatens ph' dir := by
  cases h with
  | planned hplan => exact (phaseOk_planPhase me hd hplan).2 dir
  | guarded hprotected =>
    rintro rfl
    simp [isProtected, huse] at hprotected
  | cleared => exact hsafe
  | chosen _ hfree =>
    rintro rfl
    rw [hfree] at huse
    cases huse
  | _ => exact id

/-- A step keeps what the process knows, and what is named complete. -/
theorem Worked.ok (h : Worked alive me ph d ph' d') (hd : DiskOk d) (hph : PhaseOk me d ph) :
    DiskOk d' ∧ PhaseOk me d' ph' := by
  have hframe : ∀ dir ∈ d.current.dirs, d'.folders.get? dir = d.folders.get? dir :=
    fun dir hdir => h.frame (hd.plain dir hdir) fun hthreat => not_mem_of_threatens hph hthreat hdir
  cases h with
  | wrote hop =>
    exact ⟨⟨fun dir hdir => hd.complete dir (mem_dirs_write hop hdir),
      fun dir hdir => hd.plain dir (mem_dirs_write hop hdir)⟩, trivial⟩
  | ended | abandoned | uncleared | pruneStarted => exact ⟨hd.congr rfl hframe, trivial⟩
  | planned hplan => exact ⟨hd, (phaseOk_planPhase me hd hplan).1⟩
  | staged => exact ⟨hd.congr rfl hframe, PlanOk.congr hph rfl⟩
  | @built t =>
    have hstaged : Complete ⟨d.current,
        d.folders.set (t.stagingDir me) ⟨some t.build.stamp, true, []⟩⟩ (t.stagingDir me) :=
      ⟨_, by rw [Dict.get?_set, if_pos rfl], rfl⟩
    exact ⟨hd.congr rfl hframe, PlanOk.congr hph rfl, hstaged⟩
  | guarded => exact ⟨hd, hph⟩
  | @cleared t =>
    obtain ⟨hplan, hstaged⟩ := hph
    have hkept : Complete ⟨d.current, deleteDir d.folders t.dir true⟩ (t.stagingDir me) :=
      -- no installed folder has the name of a staging folder
      hstaged.congr (get?_deleteDir d.folders true (ne_stagingDir hplan.plain t me).symm)
    exact ⟨hd.congr rfl hframe, hplan.congr rfl, hkept⟩
  | @replaced t _ staged hstaged =>
    obtain ⟨hplan, f, hf, hcomplete⟩ := hph
    obtain rfl : f = staged := Option.some.inj (hf.symm.trans hstaged)
    exact ⟨hd.congr rfl hframe, hplan.was, hplan.undo,
      ⟨f, by rw [Dict.get?_set, if_pos rfl], hcomplete⟩, hplan.plain⟩
  | @activated t =>
    obtain ⟨-, -, hcomplete, hplain⟩ := hph
    refine ⟨⟨fun dir hdir => ?_, fun dir hdir => ?_⟩, trivial⟩
    · rcases mem_dirs_activate hdir with hnew | hold
      · rw [hnew, dir_entry]
        exact hcomplete
      · exact hd.complete dir hold
    · rcases mem_dirs_activate hdir with hnew | hold
      · rw [hnew, dir_entry]
        exact hplain
      · exact hd.plain dir hold
  | pruneRead => exact ⟨hd, rfl⟩
  | kept => exact ⟨hd, hph⟩
  | chosen hkeep => exact ⟨hd, hph, hkeep⟩
  | deleted => exact ⟨hd.congr rfl hframe, hph.1⟩

theorem Worked.critical (h : Worked alive me ph d ph' d') : ph.critical = true := by
  cases h with
  | ended hcritical | abandoned hcritical => exact hcritical
  | _ => rfl

theorem Worked.ne_bridge (h : Worked alive me ph d ph' d') (folder : Option Dir) (mark : Mark) :
    ph' ≠ .bridge folder mark := by
  cases h with
  | planned hplan =>
    dsimp only [planPhase] at hplan
    split_ifs at hplan <;> cases hplan <;> rintro ⟨⟩
  | _ => rintro ⟨⟩

end Worked

/-! ## What holds in every run -/

/-- The folder is complete, with the mark of the process. -/
def Marked (d : Disk) (p : Pid) (dir : Dir) : Prop :=
  ∃ f, d.folders.get? dir = some f ∧ f.complete = true ∧ p ∈ f.marks

/-- What every run keeps. -/
structure Inv (s : State) : Prop where
  /-- Only the process that the lock names is inside. -/
  mutex : ∀ p, (s.procs p).critical = true → s.lock = some p
  disk : DiskOk s.disk
  phase : ∀ p, PhaseOk p s.disk (s.procs p)
  pinned : ∀ p dir, s.procs p = .bridge (some dir) .pinned → Plain dir ∧ Marked s.disk p dir
  safe : ∀ p dir q, s.procs p = .bridge (some dir) .pinned → ¬ Threatens (s.procs q) dir

variable {s s' : State} {a : Act} {p q : Pid} {ph : Phase} {dir : Dir}

@[simp]
theorem procs_go_self : (s.go p ph).procs p = ph := Function.update_self _ _ _

theorem procs_go_of_ne (h : q ≠ p) : (s.go p ph).procs q = s.procs q := Function.update_of_ne h _ _

theorem alive_of_critical (h : ph.critical = true) : ph.alive = true := by
  cases ph with
  | absent | dead => cases h
  | _ => rfl

/-- What holds of the process in its new phase, and of every other in its old one, holds of all. -/
theorem forall_go {P : Pid → Phase → Prop} (hself : P p ph)
    (hothers : ∀ q, q ≠ p → P q (s.procs q)) (q : Pid) : P q ((s.go p ph).procs q) := by
  rcases eq_or_ne q p with rfl | hne
  · rwa [procs_go_self]
  · rw [procs_go_of_ne hne]
    exact hothers q hne

/-- A process goes to a phase outside of the lock, where it is no bridge with a mark. -/
theorem Inv.go (h : Inv s) (hcritical : ph.critical = false)
    (hbridge : ∀ dir, ph ≠ .bridge (some dir) .pinned) : Inv (s.go p ph) where
  mutex := by
    refine forall_go (P := fun q ph => ph.critical = true → s.lock = some q) ?_ fun q _ => h.mutex q
    intro htrue
    rw [hcritical] at htrue
    cases htrue
  disk := h.disk
  phase := forall_go (P := fun q => PhaseOk q s.disk) (phaseOk_of_not_critical hcritical)
    fun q _ => h.phase q
  pinned q dir := forall_go
    (P := fun q ph => ph = .bridge (some dir) .pinned → Plain dir ∧ Marked s.disk q dir)
    (fun hp => absurd hp (hbridge dir)) (fun q _ => h.pinned q dir) q
  safe q dir r hq := by
    have hold : s.procs q = .bridge (some dir) .pinned := by
      rcases eq_or_ne q p with rfl | hne
      · rw [procs_go_self] at hq
        exact absurd hq (hbridge dir)
      · rwa [procs_go_of_ne hne] at hq
    exact forall_go (P := fun _ ph => ¬ Threatens ph dir) (not_threatens_of_not_critical hcritical)
      (fun r _ => h.safe q dir r hold) r

/-- The lock may change where no process is inside. -/
theorem Inv.free (h : Inv s) (hfree : ∀ p, (s.procs p).critical = false) (lock : Option Pid) :
    Inv { s with lock := lock } where
  mutex p hp := by
    rw [show (s.procs p).critical = false from hfree p] at hp
    cases hp
  disk := h.disk
  phase := h.phase
  pinned := h.pinned
  safe := h.safe

/-- Where the lock names nobody who lives, nobody is inside. -/
theorem Inv.not_critical (h : Inv s) (hlock : ∀ p, s.lock = some p → (s.procs p).critical = false)
    (p : Pid) : (s.procs p).critical = false := by
  by_contra hcritical
  have htrue : (s.procs p).critical = true := eq_true_of_ne_false hcritical
  rw [hlock p (h.mutex p htrue)] at htrue
  cases htrue

/-- A process takes a lock that is free. -/
theorem Inv.enter (h : Inv s) (hlock : s.lock = none) {op : Op} :
    Inv { s.go p (.inside op) with lock := some p } := by
  have hfree := h.not_critical fun q hq => by
    rw [hlock] at hq
    cases hq
  refine ⟨?_, h.disk, ?_, fun q dir => ?_, fun q dir r hq => ?_⟩
  · refine forall_go (P := fun q ph => ph.critical = true → some p = some q) (fun _ => rfl) ?_
    intro q _ hq
    rw [hfree q] at hq
    cases hq
  · exact forall_go (P := fun q => PhaseOk q s.disk) trivial fun q _ => h.phase q
  · refine forall_go (P := fun q ph => ph = .bridge (some dir) .pinned →
      Plain dir ∧ Marked s.disk q dir) (fun hp => ?_) (fun q _ => h.pinned q dir) q
    cases hp
  · exact forall_go (P := fun _ ph => ¬ Threatens ph dir) id
      (fun r _ => not_threatens_of_not_critical (hfree r)) r

/-- The process inside takes a step. -/
theorem Inv.worked (h : Inv s) {d' : Disk}
    (hwork : Worked s.alive p (s.procs p) s.disk ph d') :
    Inv { s.go p ph with disk := d' } ∧ ∀ q dir, s.procs q = .bridge (some dir) .pinned →
      d'.folders.get? dir = s.disk.folders.get? dir := by
  have hlock : s.lock = some p := h.mutex p hwork.critical
  obtain ⟨hdisk, hphase⟩ := hwork.ok h.disk (h.phase p)
  -- the lock names one process, so all others are outside of it
  have hothers : ∀ q, q ≠ p → (s.procs q).critical = false := by
    intro q hne
    by_contra hcritical
    have hq := h.mutex q (eq_true_of_ne_false hcritical)
    exact hne (Option.some.inj (hq.symm.trans hlock))
  have hframe : ∀ q dir, s.procs q = .bridge (some dir) .pinned →
      d'.folders.get? dir = s.disk.folders.get? dir :=
    fun q dir hq => hwork.frame (h.pinned q dir hq).1 (h.safe q dir p hq)
  have hold : ∀ q dir, (s.go p ph).procs q = .bridge (some dir) .pinned →
      s.procs q = .bridge (some dir) .pinned := by
    intro q dir hq
    rcases eq_or_ne q p with rfl | hne
    · rw [procs_go_self] at hq
      exact absurd hq (hwork.ne_bridge _ _)
    · rwa [procs_go_of_ne hne] at hq
  refine ⟨⟨?_, hdisk, ?_, fun q dir hq => ?_, fun q dir r hq => ?_⟩, hframe⟩
  · refine forall_go (P := fun q ph => ph.critical = true → s.lock = some q) (fun _ => hlock) ?_
    intro q hne hq
    rw [hothers q hne] at hq
    cases hq
  · exact forall_go (P := fun q => PhaseOk q d') hphase
      fun q hne => phaseOk_of_not_critical (hothers q hne)
  · obtain ⟨hplain, f, hf, hmark⟩ := h.pinned q dir (hold q dir hq)
    exact ⟨hplain, f, (hframe q dir (hold q dir hq)).trans hf, hmark⟩
  · have hpinned := hold q dir hq
    -- the bridge lives and has marked its folder, so `is_in_use` keeps the folder out of harm
    obtain ⟨-, f, hf, -, hmark⟩ := h.pinned q dir hpinned
    have halive : s.alive q = true := by
      unfold State.alive
      rw [hpinned]
      rfl
    have huse : inUse s.alive s.disk.folders dir = true := by
      rw [inUse, hf]
      exact List.any_eq_true.mpr ⟨q, hmark, halive⟩
    exact forall_go (P := fun _ ph => ¬ Threatens ph dir)
      (hwork.not_threatens h.disk (h.safe q dir p hpinned) huse)
      (fun r _ => h.safe q dir r hpinned) r

theorem get?_markDir {d : Disk} {f : Folder} {other : Dir} (h : d.folders.get? dir = some f)
    (p : Pid) : ((markDir d dir f p).folders.get? other) =
      (d.folders.get? other).map fun g =>
        if other = dir then { g with marks := p :: g.marks } else g := by
  unfold markDir
  rw [Dict.get?_set]
  split_ifs with heq
  · rw [heq, h]
    rfl
  · simp

theorem complete_markDir {d : Disk} {f : Folder} {other : Dir} (h : d.folders.get? dir = some f)
    (p : Pid) (hother : Complete d other) : Complete (markDir d dir f p) other := by
  obtain ⟨g, hg, hcomplete⟩ := hother
  refine ⟨_, (get?_markDir h p).trans (congrArg _ hg), ?_⟩
  split_ifs
  · exact hcomplete
  · exact hcomplete

theorem marked_markDir {d : Disk} {f : Folder} {other : Dir} (h : d.folders.get? dir = some f)
    (p : Pid) (hother : Marked d q other) : Marked (markDir d dir f p) q other := by
  obtain ⟨g, hg, hcomplete, hmark⟩ := hother
  refine ⟨_, (get?_markDir h p).trans (congrArg _ hg), ?_⟩
  split_ifs
  · exact ⟨hcomplete, List.mem_cons_of_mem p hmark⟩
  · exact ⟨hcomplete, hmark⟩

theorem phaseOk_markDir {d : Disk} {f : Folder} (h : d.folders.get? dir = some f) (p : Pid)
    (hph : PhaseOk q d ph) : PhaseOk q (markDir d dir f p) ph := by
  cases ph with
  | staging t => exact PlanOk.congr hph rfl
  | building t => exact PlanOk.congr hph rfl
  | guarding t => exact ⟨hph.1.congr rfl, complete_markDir h p hph.2⟩
  | replacing t => exact ⟨hph.1.congr rfl, complete_markDir h p hph.2⟩
  | activating t => exact ⟨hph.1, hph.2.1, complete_markDir h p hph.2.2.1, hph.2.2.2⟩
  | pruning keep children => exact hph
  | doomed keep child children => exact hph
  | _ => trivial

/-- A bridge marks its folder. -/
theorem Inv.mark (h : Inv s) {f : Folder} (hf : s.disk.folders.get? dir = some f) {mark : Mark}
    (hmark : mark = .pinned → dir ∈ s.disk.current.dirs) :
    Inv { s.go p (.bridge (some dir) mark) with disk := markDir s.disk dir f p } := by
  have hthreat : ∀ r other, Threatens ((s.go p (.bridge (some dir) mark)).procs r) other →
      Threatens (s.procs r) other := by
    intro r other
    refine forall_go (P := fun r ph => Threatens ph other → Threatens (s.procs r) other) ?_
      (fun r _ => id) r
    exact False.elim
  refine ⟨?_, ⟨fun other hother => ?_, h.disk.plain⟩, ?_, fun q other => ?_, fun q other r => ?_⟩
  · exact forall_go (P := fun q ph => ph.critical = true → s.lock = some q) nofun
      fun q _ => h.mutex q
  · exact complete_markDir hf p (h.disk.complete other hother)
  · exact forall_go (P := fun q => PhaseOk q (markDir s.disk dir f p)) trivial
      fun q _ => phaseOk_markDir hf p (h.phase q)
  · refine forall_go (P := fun q ph => ph = .bridge (some other) .pinned →
      Plain other ∧ Marked (markDir s.disk dir f p) q other) (fun hp => ?_) (fun q _ hq => ?_) q
    · obtain ⟨rfl, rfl⟩ : dir = other ∧ mark = .pinned := by simpa using hp
      obtain ⟨g, hg, hcomplete⟩ := h.disk.complete dir (hmark rfl)
      obtain rfl : f = g := Option.some.inj (hf.symm.trans hg)
      refine ⟨h.disk.plain dir (hmark rfl), _, (get?_markDir hf p).trans (congrArg _ hf), ?_⟩
      dsimp only
      rw [if_pos rfl]
      exact ⟨hcomplete, List.mem_cons_self⟩
    · obtain ⟨hplain, hmarked⟩ := h.pinned q other hq
      exact ⟨hplain, marked_markDir hf p hmarked⟩
  · refine forall_go (P := fun _ ph => ph = .bridge (some other) .pinned →
      ¬ Threatens ((s.go p (.bridge (some dir) mark)).procs r) other) (fun hp hr => ?_)
      (fun q _ hq hr => ?_) q
    · obtain ⟨rfl, rfl⟩ : dir = other ∧ mark = .pinned := by simpa using hp
      exact not_mem_of_threatens (h.phase r) (hthreat r dir hr) (hmark rfl)
    · exact h.safe q other r hq (hthreat r other hr)

theorem Inv.step (h : Inv s) (hC : Orderly s a) (hstep : step s a = some s') : Inv s' := by
  cases a with
  | spawn p op =>
    dsimp only [Update.step] at hstep
    split_ifs at hstep
    cases hstep
    exact h.go rfl nofun
  | link p =>
    dsimp only [Update.step] at hstep
    split at hstep
    · cases hstep
      exact h.go rfl nofun
    · split_ifs at hstep with hlock
      · cases hstep
        exact h.enter hlock
      · cases hstep
        exact h.go rfl nofun
    · cases hstep
  | readLock p =>
    dsimp only [Update.step] at hstep
    split at hstep
    · cases hstep
      exact h.go rfl nofun
    · cases hstep
  | judge p =>
    dsimp only [Update.step] at hstep
    split at hstep
    · cases hstep
      split_ifs
      · exact h.go rfl nofun
      · exact h.go rfl nofun
    · cases hstep
  | unlink p =>
    dsimp only [Update.step] at hstep
    split at hstep
    · next op n hp =>
      cases hstep
      -- the holder that the lock names is dead, so no live process is inside
      have hfree := h.not_critical fun q hq => by
        have hdead : s.alive q = false := by simpa [Orderly, hq] using hC
        by_contra hcritical
        have hlive := alive_of_critical (eq_true_of_ne_false hcritical)
        rw [State.alive, hlive] at hdead
        cases hdead
      exact (h.free hfree none).go rfl nofun
    · cases hstep
  | work p w =>
    obtain ⟨⟨ph, d'⟩, hwork, rfl⟩ := Option.map_eq_some_iff.mp hstep
    exact (h.worked (worked_of_work hwork)).1
  | release p =>
    dsimp only [Update.step] at hstep
    split_ifs at hstep with hp hlock
    · cases hstep
      -- the lock is still the process's own, and goes with it
      have hothers : Inv (s.go p .dead) := h.go rfl nofun
      refine hothers.free (hothers.not_critical fun q hq => ?_) none
      obtain rfl : p = q := Option.some.inj (hlock.symm.trans hq)
      rw [procs_go_self]
      rfl
    · cases hstep
      exact h.go rfl nofun
  | start p bundle =>
    dsimp only [Update.step] at hstep
    split_ifs at hstep
    cases hstep
    refine h.go rfl fun dir heq => ?_
    injection heq with _ hmark
    cases hmark
  | mark p =>
    dsimp only [Update.step] at hstep
    split at hstep
    · next dir _ =>
      obtain ⟨f, hf, rfl⟩ := Option.map_eq_some_iff.mp hstep
      refine h.mark hf fun hpinned => ?_
      by_contra hmem
      rw [if_neg hmem] at hpinned
      cases hpinned
    · cases hstep
  | die p =>
    dsimp only [Update.step] at hstep
    split_ifs at hstep
    cases hstep
    exact h.go rfl nofun

theorem inv (h : machine.Reach Orderly s) : Inv s := by
  refine h.invariant (I := Inv) ?_ fun s a s' hs hC hstep => hs.step hC hstep
  rintro _ rfl
  exact ⟨nofun, ⟨nofun, nofun⟩, fun _ => trivial, nofun, nofun⟩

/-- The active entry of `current.json` names a folder that is installed completely. -/
theorem active_complete (h : machine.Reach Orderly s) {e : Entry}
    (he : s.disk.current.active = some e) : Complete s.disk e.dir :=
  (inv h).disk.complete e.dir (mem_dirs.mpr (.inl ⟨e, he, rfl⟩))

/-- Only steps inside the lock and marks change the root. -/
theorem disk_of_step (hstep : step s a = some s') :
    s'.disk = s.disk ∨ (∃ p w r, work s.alive p w (s.procs p) s.disk = some r ∧ s'.disk = r.2 ∧
        a = .work p w) ∨
      ∃ p dir f, s.disk.folders.get? dir = some f ∧ s'.disk = markDir s.disk dir f p := by
  cases a with
  | work p w =>
    obtain ⟨r, hwork, rfl⟩ := Option.map_eq_some_iff.mp hstep
    exact .inr (.inl ⟨p, w, r, hwork, rfl, rfl⟩)
  | mark p =>
    dsimp only [step] at hstep
    split at hstep
    · next dir hp =>
      obtain ⟨f, hf, rfl⟩ := Option.map_eq_some_iff.mp hstep
      exact .inr (.inr ⟨p, dir, f, hf, rfl⟩)
    · cases hstep
  | spawn p op | release p | start p bundle | die p =>
    left
    dsimp only [step] at hstep
    split_ifs at hstep <;> cases hstep <;> rfl
  | link p =>
    left
    dsimp only [step] at hstep
    split at hstep
    · cases hstep
      rfl
    · split_ifs at hstep <;> cases hstep <;> rfl
    · cases hstep
  | readLock p | judge p | unlink p =>
    left
    dsimp only [step] at hstep
    split at hstep
    · cases hstep
      rfl
    · cases hstep

/-- A step leaves the folder that a live bridge has marked while it was named, but for marks. -/
theorem folder_of_pinned (h : machine.Reach Orderly s) (hstep : step s a = some s')
    (hp : s.procs p = .bridge (some dir) .pinned) :
    ∃ f f', s.disk.folders.get? dir = some f ∧ s'.disk.folders.get? dir = some f' ∧
      f.complete = true ∧ f'.complete = true ∧ f'.stamp = f.stamp ∧ p ∈ f'.marks := by
  have hinv := inv h
  obtain ⟨-, f, hf, hcomplete, hmark⟩ := hinv.pinned p dir hp
  rcases disk_of_step hstep with hsame | ⟨q, w, ⟨ph, d'⟩, hwork, hdisk, -⟩ | ⟨q, other, g, hg, hdisk⟩
  · exact ⟨f, f, hf, hsame ▸ hf, hcomplete, hcomplete, rfl, hmark⟩
  · have hframe := (hinv.worked (worked_of_work hwork)).2 p dir hp
    exact ⟨f, f, hf, hdisk ▸ hframe.trans hf, hcomplete, hcomplete, rfl, hmark⟩
  · have hnew : s'.disk.folders.get? dir =
        some (if dir = other then { f with marks := q :: f.marks } else f) := by
      rw [hdisk, get?_markDir hg, hf]
      rfl
    refine ⟨f, _, hf, hnew, hcomplete, ?_⟩
    split_ifs
    · exact ⟨hcomplete, rfl, List.mem_cons_of_mem q hmark⟩
    · exact ⟨hcomplete, rfl, hmark⟩

/-! ### Undoing a build -/

/-- The runs that go on from a state. -/
def continuing (s : State) : Machine State Act where
  init s' := s' = s
  step := step

/-- An orderly step that keeps the active build: no revert or rollback is written, and no build but
the active one is made active. -/
def Stays (s : State) (a : Act) : Prop :=
  Orderly s a ∧
    match a with
    | .work p (.operate true) => s.procs p ≠ .inside .revert ∧ s.procs p ≠ .inside .rollback
    | .work p (.activate true) =>
      ∀ t, s.procs p = .activating t → s.disk.current.active.map Entry.dir = some t.dir
    | _ => True

/-- `current.json` after a step that keeps the active build. -/
inductive Stayed (c : Current) : Current → Prop
  | same : Stayed c c
  | rewritten {e e' : Entry} : c.active = some e → e'.dir = e.dir → e'.undo = e.undo →
    Stayed c ⟨some e', c.previous⟩

theorem stayed_confirm (c : Current) (commit : Text) : Stayed c (c.confirm commit) := by
  unfold Current.confirm
  split
  · exact .same
  · next e he =>
    split_ifs
    · exact .rewritten he rfl rfl
    · exact .same

theorem stayed_activate {c : Current} {t : Plan} (hwas : t.was = c.active)
    (hdir : c.active.map Entry.dir = some t.dir) : Stayed c (c.activate t.entry) := by
  obtain ⟨e, he, hsame⟩ := Option.map_eq_some_iff.mp hdir
  have hentry : t.entry.dir = e.dir := by rw [dir_entry, hsame]
  have hundo : t.entry.undo = e.undo := by
    unfold Plan.entry
    rw [hwas, he]
    simp [hsame]
  have hactivate : c.activate t.entry = ⟨some t.entry, c.previous⟩ := by
    unfold Current.activate
    rw [he]
    dsimp only
    rw [if_neg (not_not.mpr hentry.symm)]
  rw [hactivate]
  exact .rewritten he hentry hundo

/-- A step inside the lock that is no write of an operation and no activation leaves
`current.json`. -/
theorem current_of_work {alive : Pid → Bool} {w : Work} {d d' : Disk} {ph' : Phase}
    (hwork : work alive p w ph d = some (ph', d')) (hoperate : ∀ ok, w ≠ .operate ok)
    (hactivate : ∀ ok, w ≠ .activate ok) : d'.current = d.current := by
  have hworked := worked_of_work hwork
  cases hworked with
  | @wrote op _ _ hop =>
    cases w with
    | operate ok => exact absurd rfl (hoperate ok)
    | _ => cases op <;> cases hop <;> cases hwork
  | activated =>
    cases w with
    | activate ok => exact absurd rfl (hactivate ok)
    | _ => cases hwork
  | _ => rfl

theorem stayed_of_step (h : Inv s) (hC : Stays s a) (hstep : step s a = some s') :
    Stayed s.disk.current s'.disk.current := by
  rcases disk_of_step hstep with hsame | ⟨q, w, ⟨ph, d'⟩, hwork, hdisk, rfl⟩ | ⟨q, other, g, -, hdisk⟩
  · rw [hsame]
    exact .same
  · have hphase := h.phase q
    have hstays := hC.2
    rw [hdisk]
    cases w with
    | operate ok =>
      cases hq : s.procs q with
      | inside op =>
        rw [hq] at hwork
        obtain ⟨write, hwrite, hr⟩ := Option.map_eq_some_iff.mp hwork
        cases hr
        cases ok with
        | true =>
          cases op with
          | revert => exact absurd hq hstays.1
          | rollback => exact absurd hq hstays.2
          | confirm commit =>
            cases hwrite
            exact stayed_confirm _ _
          | _ => cases hwrite
        | false => exact .same
      | _ =>
        rw [hq] at hwork
        cases hwork
    | activate ok =>
      cases hq : s.procs q with
      | activating t =>
        rw [hq] at hwork hphase
        cases ok with
        | true =>
          cases hwork
          exact stayed_activate hphase.1 (hstays t hq)
        | false =>
          cases hwork
          exact .same
      | _ =>
        rw [hq] at hwork
        cases hwork
    | _ =>
      rw [current_of_work hwork nofun nofun]
      exact .same
  · rw [hdisk]
    exact .same

/-- In the steps that keep the active build, its undo and the previous entry are kept as well. -/
theorem current_of_stays {s₁ s₂ : State} (hreach : machine.Reach Orderly s₁) {e₁ : Entry}
    (he₁ : s₁.disk.current.active = some e₁) (hrun : (continuing s₁).Reach Stays s₂) :
    Inv s₂ ∧ s₂.disk.current.previous = s₁.disk.current.previous ∧
      ∃ e, s₂.disk.current.active = some e ∧ e.undo = e₁.undo := by
  refine hrun.invariant (I := fun s => Inv s ∧
    s.disk.current.previous = s₁.disk.current.previous ∧
    ∃ e, s.disk.current.active = some e ∧ e.undo = e₁.undo) ?_ ?_
  · rintro _ rfl
    exact ⟨inv hreach, rfl, e₁, he₁, rfl⟩
  · rintro s a s' ⟨hinv, hprevious, e, he, hundo⟩ hC hstep
    refine ⟨hinv.step hC.1 hstep, ?_⟩
    have hstayed := stayed_of_step hinv hC hstep
    generalize s'.disk.current = c' at hstayed ⊢
    cases hstayed with
    | same => exact ⟨hprevious, e, he, hundo⟩
    | @rewritten e' e'' he' _ hundo' =>
      obtain rfl : e' = e := Option.some.inj (he'.symm.trans he)
      exact ⟨hprevious, e'', rfl, hundo'.trans hundo⟩

theorem undone_of_active {c : Current} {e : Entry} (he : c.active = some e) :
    c.undone = if e.undo = .rollback then c.previous else none := by
  obtain ⟨active, previous⟩ := c
  obtain rfl : active = some e := he
  unfold Current.undone
  dsimp only
  cases e.undo with
  | revert => rfl
  | rollback =>
    cases previous with
    | none => rfl
    | some e' => rfl

/-- The undo of a build that has stayed active since it was installed makes active what was active
before: the overlay for its bundle, or the release brain. -/
theorem undone_of_stays {s₁ s₂ : State} (h : machine.Reach Orderly s) {t : Plan}
    (hp : s.procs p = .activating t)
    (hnew : s.disk.current.active.map Entry.dir ≠ some t.dir)
    (hstep : step s (.work p (.activate true)) = some s₁)
    (hrun : (continuing s₁).Reach Stays s₂) :
    s₂.disk.current.undone =
      s.disk.current.active.filter fun was => was.bundleId = t.build.bundleId := by
  have hphase := (inv h).phase p
  rw [hp] at hphase
  obtain ⟨hwas, hundo, -, -⟩ := hphase
  have hcurrent : s₁.disk.current = s.disk.current.activate t.entry := by
    obtain ⟨⟨ph, d'⟩, hwork, rfl⟩ := Option.map_eq_some_iff.mp hstep
    rw [hp] at hwork
    cases hwork
    rfl
  have hreach : machine.Reach Orderly s₁ := .step (a := .work p (.activate true)) h trivial hstep
  cases hactive : s.disk.current.active with
  | none =>
    -- the release brain was running, so the build is backed out by a revert
    have hentry : t.entry.undo = .revert := by
      unfold Plan.entry
      rw [hwas, hactive, hundo, hwas, hactive]
      rfl
    have hnow : s₁.disk.current.active = some t.entry := by
      rw [hcurrent, Current.activate, hactive]
    obtain ⟨-, -, e, he, hkept⟩ := current_of_stays hreach hnow hrun
    rw [undone_of_active he, if_neg (by rw [hkept, hentry]; exact nofun)]
    rfl
  | some was =>
    -- another overlay was running, and is kept as the previous entry
    have hdir : was.dir ≠ t.dir := by
      rintro heq
      rw [hactive, Option.map_some, heq] at hnew
      exact hnew rfl
    have hentry : t.entry.undo = t.build.undo (some was) := by
      unfold Plan.entry
      rw [hwas, hactive, hundo, hwas, hactive]
      dsimp only
      rw [if_neg hdir]
    have hthen : s₁.disk.current = ⟨some t.entry, some was⟩ := by
      rw [hcurrent, Current.activate, hactive]
      dsimp only
      rw [dir_entry, if_pos hdir]
    obtain ⟨-, hprevious, e, he, hkept⟩ :=
      current_of_stays hreach (congrArg Current.active hthen) hrun
    rw [undone_of_active he, hprevious, hthen, hkept, hentry, Build.undo, Option.any_some,
      Option.filter_some]
    by_cases hbundle : was.bundleId = t.build.bundleId
    · simp [hbundle]
    · simp [hbundle]

/-- Nothing older is kept for the active entry. -/
def Bottom (c : Current) : Prop := c.active = none ∨ c.previous = none

theorem bottom_rollback (c : Current) : Bottom c.rollback := by
  obtain ⟨active, previous⟩ := c
  cases previous with
  | none =>
    cases active with
    | none => exact .inl rfl
    | some e => exact .inl rfl
  | some e => exact .inr rfl

theorem Bottom.stayed {c c' : Current} (h : Bottom c) (hstayed : Stayed c c') : Bottom c' := by
  cases hstayed with
  | same => exact h
  | rewritten he =>
    rcases h with hactive | hprevious
    · rw [hactive] at he
      cases he
    · exact .inr hprevious

theorem Bottom.undone {c : Current} (h : Bottom c) : c.undone = none := by
  cases he : c.active with
  | none =>
    unfold Current.undone
    rw [he]
  | some e =>
    rcases h with hactive | hprevious
    · rw [hactive] at he
      cases he
    · rw [undone_of_active he, hprevious, ite_self]

/-- The undo of an entry that a rollback has made active is the release brain. -/
theorem undone_of_rollback {s₁ s₂ : State} (h : machine.Reach Orderly s)
    (hp : s.procs p = .inside .rollback) (hstep : step s (.work p (.operate true)) = some s₁)
    (hrun : (continuing s₁).Reach Stays s₂) : s₂.disk.current.undone = none := by
  have hcurrent : s₁.disk.current = s.disk.current.rollback := by
    obtain ⟨⟨ph, d'⟩, hwork, rfl⟩ := Option.map_eq_some_iff.mp hstep
    rw [hp] at hwork
    cases hwork
    rfl
  have hreach : machine.Reach Orderly s₁ := .step (a := .work p (.operate true)) h trivial hstep
  have hbottom : Inv s₂ ∧ Bottom s₂.disk.current := by
    refine hrun.invariant (I := fun s => Inv s ∧ Bottom s.disk.current) ?_ ?_
    · rintro _ rfl
      refine ⟨inv hreach, ?_⟩
      rw [hcurrent]
      exact bottom_rollback _
    · rintro s a s' ⟨hinv, hbottom⟩ hC hstep
      exact ⟨hinv.step hC.1 hstep, hbottom.stayed (stayed_of_step hinv hC hstep)⟩
  exact hbottom.2.undone

/-- The law of the overlay. -/
theorem overlay_law :
    (∀ s e, machine.Reach Orderly s → s.disk.current.active = some e → Complete s.disk e.dir) ∧
      (∀ s a s' p dir, machine.Reach Orderly s → step s a = some s' →
        s.procs p = .bridge (some dir) .pinned →
        ∃ f f', s.disk.folders.get? dir = some f ∧ s'.disk.folders.get? dir = some f' ∧
          f.complete = true ∧ f'.complete = true ∧ f'.stamp = f.stamp ∧ p ∈ f'.marks) ∧
      (∀ s p t s₁ s₂, machine.Reach Orderly s → s.procs p = .activating t →
        s.disk.current.active.map Entry.dir ≠ some t.dir →
        step s (.work p (.activate true)) = some s₁ → (continuing s₁).Reach Stays s₂ →
        s₂.disk.current.undone =
          s.disk.current.active.filter fun was => was.bundleId = t.build.bundleId) ∧
      ∀ s p s₁ s₂, machine.Reach Orderly s → s.procs p = .inside .rollback →
        step s (.work p (.operate true)) = some s₁ → (continuing s₁).Reach Stays s₂ →
        s₂.disk.current.undone = none :=
  ⟨fun _ _ h he => active_complete h he, fun _ _ _ _ _ h hstep hp => folder_of_pinned h hstep hp,
    fun _ _ _ _ _ h hp hnew hstep hrun => undone_of_stays h hp hnew hstep hrun,
    fun _ _ _ _ h hp hstep hrun => undone_of_rollback h hp hstep hrun⟩

/-! ### Where a start is slow, a takeover unlucky, or a build rolled back to -/

def empty : State := ⟨⟨⟨none, none⟩, ∅⟩, none, fun _ => .absent⟩

def buildA : Build := ⟨"a".toList, "1".toList, "k".toList, rfl⟩

def buildB : Build := ⟨"b".toList, "2".toList, "k".toList, rfl⟩

def buildC : Build := ⟨"c".toList, "3".toList, "k".toList, rfl⟩

/-- The steps of a process inside the lock, up to where the build is made active. -/
def installing (p : Pid) : List Act :=
  [.plan 0, .stage, .build true, .guard, .replace true].map (Act.work p)

/-- The steps of a prune of some folders, the first of which is deleted or not. -/
def pruning (p : Pid) (children : List Dir) (deletes : Bool) : List Act :=
  let deleted : List Work := if deletes then [.examine, .delete true] else [.examine]
  let works : List Work := [.pruneRead children] ++ deleted ++
    List.replicate children.length .examine
  works.map (Act.work p) ++ [.release p]

/-- An update that nothing interrupts. -/
def updating (p : Pid) (b : Build) (children : List Dir) (deletes : Bool) : List Act :=
  [.spawn p (.apply b), .link p] ++ installing p ++ [.work p (.activate true)] ++
    pruning p children deletes

/-- A bridge starts from the first build, and two more builds are installed before it has marked its
folder. -/
def slowStart : List Act :=
  updating 1 buildA [buildA.base] false ++ [.start 9 "k".toList] ++
    updating 2 buildB [buildA.base, buildB.base] false ++
    updating 3 buildC [buildA.base, buildB.base, buildC.base] true

/-- Two processes find the same dead holder, and the second unlinks the lock of the first. The prune
of the first is under way when the second makes its build active. -/
def collision : List Act :=
  [.spawn 1 .prune, .link 1, .die 1, .spawn 2 (.apply buildA), .spawn 3 (.apply buildB),
    .link 2, .link 3, .readLock 2, .readLock 3, .judge 2, .judge 3, .unlink 2, .link 2, .unlink 3,
    .link 3] ++ installing 2 ++ [.work 2 (.activate true)] ++ installing 3 ++
    [.work 2 (.pruneRead [buildB.base, buildA.base]), .work 3 (.activate true), .work 2 .examine,
      .work 2 (.delete true)]

/-- What the process that installs the second build knows. -/
def planB : Plan :=
  ⟨buildB, buildB.base, [buildA.base],
    some ⟨buildA.base, "a".toList, "1".toList, "k".toList, false, .revert⟩, .rollback⟩

/-- A bridge that has marked its folder, while a second build is installed over the first; and a
rollback of the second. -/
theorem overlay_law_updated :
    (∃ s s' e, (machine.Reach Orderly s ∧ s.disk.current.active = some e ∧
        s.procs 9 = .bridge (some e.dir) .pinned ∧
        step s (.work 2 (.activate true)) = some s' ∧ s.procs 2 = .activating planB) ∧
      Complete s.disk e.dir ∧ Complete s'.disk e.dir ∧ s'.disk.current.undone = some e) ∧
      ∃ s s', (machine.Reach Orderly s ∧ s.procs 4 = .inside .rollback ∧
        step s (.work 4 (.operate true)) = some s') ∧ s'.disk.current.undone = none := by
  obtain ⟨hcomplete, hpinned, hundone, hrolled⟩ := overlay_law
  let bridged : List Act := updating 1 buildA [buildA.base] false ++
    [.start 9 "k".toList, .mark 9, .spawn 2 (.apply buildB), .link 2] ++ installing 2
  refine ⟨?_, ?_⟩
  · let replaces : State → Bool := fun s =>
      s.disk.current.active = some ⟨buildA.base, "a".toList, "1".toList, "k".toList, false, .revert⟩ ∧
        s.procs 9 = .bridge (some buildA.base) .pinned ∧ s.procs 2 = .activating planB ∧
        (step s (.work 2 (.activate true))).isSome
    obtain ⟨s, hreach, hs⟩ := Machine.exists_reach_of_runWithin (M := machine) (D := Orderly)
      (fun _ _ h => h) rfl bridged replaces (s := empty) (by decide +kernel)
    obtain ⟨hactive, hbridge, hactivating, hsome⟩ := of_decide_eq_true hs
    obtain ⟨s', hstep⟩ := Option.isSome_iff_exists.mp hsome
    obtain ⟨-, f', -, hf', -, hkept, -⟩ := hpinned s _ s' 9 buildA.base hreach hstep hbridge
    have hnew : s.disk.current.active.map Entry.dir ≠ some planB.dir := by
      rw [hactive]
      decide
    have hback := hundone s 2 planB s' s' hreach hactivating hnew hstep (.init rfl)
    rw [hactive] at hback
    exact ⟨s, s', _, ⟨hreach, hactive, hbridge, hstep, hactivating⟩, hcomplete s _ hreach hactive,
      ⟨f', hf', hkept⟩, hback.trans (by decide)⟩
  · let rolls : State → Bool := fun s =>
      s.procs 4 = .inside .rollback ∧ (step s (.work 4 (.operate true))).isSome
    obtain ⟨s, hreach, hs⟩ := Machine.exists_reach_of_runWithin (M := machine) (D := Orderly)
      (fun _ _ h => h) rfl
      (bridged ++ [.work 2 (.activate true)] ++ pruning 2 [buildA.base, buildB.base] false ++
        [.spawn 4 .rollback, .link 4]) rolls (s := empty) (by decide +kernel)
    obtain ⟨hinside, hsome⟩ := of_decide_eq_true hs
    obtain ⟨s', hstep⟩ := Option.isSome_iff_exists.mp hsome
    exact ⟨s, s', ⟨hreach, hinside, hstep⟩, hrolled s 4 s' s' hreach hinside hstep (.init rfl)⟩

/-- A third build is installed over the second, and rolled back. -/
def rolledBack : List Act :=
  pruning 2 [buildA.base, buildB.base] false ++
    updating 3 buildC [buildA.base, buildB.base, buildC.base] true ++
    [.spawn 4 .rollback, .link 4, .work 4 (.operate true), .release 4]

/-- The active entry can come to name no folder where two processes take over one lock, the folder
of a bridge that has not marked it can be deleted, and the undo of a build that a rollback has made
active again does not lead to what was active before its install. -/
theorem overlay_torn :
    (∃ s e, machine.Reachable s ∧ s.disk.current.active = some e ∧
        s.disk.folders.get? e.dir = none) ∧
      (∃ s p dir mark, machine.Reach Orderly s ∧ s.procs p = .bridge (some dir) mark ∧
        s.disk.folders.get? dir = none) ∧
      ∃ s p t s₁ s₂, machine.Reach Orderly s ∧ s.procs p = .activating t ∧
        step s (.work p (.activate true)) = some s₁ ∧ (continuing s₁).Reach Orderly s₂ ∧
        s₂.disk.current.active.map Entry.dir = some t.dir ∧
        s₂.disk.current.undone ≠ s.disk.current.active := by
  refine ⟨?_, ?_, ?_⟩
  · let dangles : State → Bool := fun s =>
      s.disk.current.active.any fun e => (s.disk.folders.get? e.dir).isNone
    obtain ⟨s, hreach, hs⟩ := Machine.exists_reach_of_runWithin (M := machine)
      (D := fun _ _ => True) (fun _ _ h => h) rfl collision dangles (s := empty)
      (by decide +kernel)
    obtain ⟨e, he, hnone⟩ := (Option.any_eq_true _ _).mp hs
    exact ⟨s, e, hreach, he, Option.isNone_iff_eq_none.mp hnone⟩
  · let pulled : State → Bool := fun s =>
      s.procs 9 = .bridge (some buildA.base) .unmarked && (s.disk.folders.get? buildA.base).isNone
    obtain ⟨s, hreach, hs⟩ := Machine.exists_reach_of_runWithin (M := machine) (D := Orderly)
      (fun _ _ h => h) rfl slowStart pulled (s := empty) (by decide +kernel)
    obtain ⟨hbridge, hnone⟩ := Bool.and_eq_true_iff.mp hs
    exact ⟨s, 9, _, _, hreach, of_decide_eq_true hbridge, Option.isNone_iff_eq_none.mp hnone⟩
  · let installed : List Act := updating 1 buildA [buildA.base] false ++
      [.spawn 2 (.apply buildB), .link 2] ++ installing 2
    let lost : State → State → Bool := fun s s₂ =>
      s.procs 2 = .activating planB && s₂.disk.current.active.map Entry.dir = some planB.dir &&
        s₂.disk.current.undone ≠ s.disk.current.active
    have hrun : ((machine.runWithin Orderly empty installed).any fun s =>
        (step s (.work 2 (.activate true))).any fun s₁ =>
          ((continuing s₁).runWithin Orderly s₁ rolledBack).any (lost s)) = true := by
      decide +kernel
    obtain ⟨s, hs, hrest⟩ := (Option.any_eq_true _ _).mp hrun
    obtain ⟨s₁, hstep, hrest⟩ := (Option.any_eq_true _ _).mp hrest
    obtain ⟨s₂, hs₂, hlost⟩ := (Option.any_eq_true _ _).mp hrest
    simp only [lost, Bool.and_eq_true, decide_eq_true_eq] at hlost
    obtain ⟨⟨hactivating, hdir⟩, hundone⟩ := hlost
    exact ⟨s, 2, planB, s₁, s₂, .of_runWithin (fun _ _ h => h) (.init rfl) hs, hactivating, hstep,
      .of_runWithin (fun _ _ h => h) (.init rfl) hs₂, hdir, hundone⟩

end Companion.Update

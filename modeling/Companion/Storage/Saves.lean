import Companion.Memory.Text
import Companion.Runs
import Mathlib.Logic.Function.Basic
import Mathlib.Order.Monotone.Basic

/-!
# Saves with a chain of backups

The saves of one path (`save_with_backup_text` in `brain/utils/atomic_write.py`, which `write_json`
ends in), one after the other and one file operation at a time, and the two readers that fall back
on the backups: `read_json_walk` and `read_json` under `Recovery.RESTORE`
(`brain/health/json_io.py`). A save may stop or raise anywhere, also within the write of a temp.

The copies of the path are the live file and its backups. A save moves every copy one place down at
most, each onto an older one, so the copies stay in order whatever the holes a stop leaves. The
backup of the live file is made as a copy, so the live file is there at every moment.

The number of the save that a file stems from, the texts of the saves, and which save returned last
are bookkeeping: no operation reads them.
-/

namespace Companion.Storage.Saves

open Companion.Memory Companion.Runs

/-! ## The files -/

/-- A name beside the path. The temps are named for their save. -/
inductive Name
  | live
  /-- `.bak{i}` -/
  | bak (i : ℕ)
  /-- The temp of the new text. -/
  | newTemp (k : ℕ)
  /-- The temp of the backup of the live file. -/
  | bakTemp (k : ℕ)
  deriving DecidableEq

/-- A file, and the number of the save that its text stems from. -/
structure File where
  text : Text
  save : ℕ
  deriving DecidableEq

/-- The directory of the path. -/
abbrev Directory := Name → Option File

namespace Directory

variable (d : Directory)

/-- `replace_file`, or none where there is no file to move. -/
def rename (src dst : Name) : Option Directory :=
  (d src).map fun f => Function.update (Function.update d src none) dst (some f)

def remove (name : Name) : Directory := Function.update d name none

/-- `_remove_stale_temps`, which finds the temps of the saves `stale` to be stale. -/
def removeStaleTemps (stale : List ℕ) : Directory
  | .newTemp k => if k ∈ stale then none else d (.newTemp k)
  | .bakTemp k => if k ∈ stale then none else d (.bakTemp k)
  | name => d name

end Directory

/-- The copies of the path, by age: the live file, then its backups. -/
def copyAt : ℕ → Name
  | 0 => .live
  | i + 1 => .bak (i + 1)

/-! ## A save -/

/-- The arguments of `save_with_backup_text` that matter here. -/
structure Save where
  text : Text
  backupCount : ℕ := 3
  keepBackups : Bool := true
  deriving DecidableEq

/-- The next file operation of a save. -/
inductive Next
  | sweep
  | write
  | copy
  | drop
  /-- The walk from `.bak{i}` down to the live file. -/
  | shift (i : ℕ)
  | publishBackup
  | publish
  /-- The modes of the backups and the sync of the directory. -/
  | settle
  deriving DecidableEq

/-- A save in progress. -/
structure Active where
  save : Save
  number : ℕ
  next : Next
  backedUp : Bool
  deriving DecidableEq

structure State where
  files : Directory
  active : Option Active
  /-- The text of every save that has begun. -/
  saves : List Text
  /-- The last save that returned. -/
  returned : Option ℕ
  /-- The live path has existed. -/
  existed : Bool

/-- What can happen. -/
inductive Act
  | begin (save : Save)
  | sweep (stale : List ℕ)
  /-- The next file operation, in full. -/
  | op
  /-- The save stops or raises. Where it was within the write of a temp, part of that may have
  landed, and a save that raises removes its temps where it can. -/
  | stop (landed : Option ℕ) (cleaned : Bool)
  deriving DecidableEq

namespace State

variable (s : State) (a : Active)

/-- The save `a` goes on to `next`, with the files `d`. -/
def goOn (d : Directory) (next : Next) : State :=
  { s with files := d, active := some { a with next := next } }

/-- `_save_payload`: the next file operation of the save `a`. -/
def perform : Option State :=
  match a.next with
  | .sweep => none
  | .write =>
    let d := Function.update s.files (.newTemp a.number) (some ⟨a.save.text, a.number⟩)
    some (s.goOn a d (if a.save.keepBackups then .copy else .publish))
  | .copy =>
    match s.files .live with
    | none => some (s.goOn { a with backedUp := false } s.files .drop)
    | some f =>
      let d := Function.update s.files (.bakTemp a.number) (some f)
      some (s.goOn { a with backedUp := true } d .drop)
  | .drop =>
    some (s.goOn a (s.files.remove (.bak a.save.backupCount)) (.shift (a.save.backupCount - 1)))
  | .shift 0 => some (s.goOn a s.files .publishBackup)
  | .shift (i + 1) =>
    some (s.goOn a ((s.files.rename (.bak (i + 1)) (.bak (i + 2))).getD s.files) (.shift i))
  | .publishBackup =>
    if a.backedUp then
      (s.files.rename (.bakTemp a.number) (.bak 1)).map fun d => s.goOn a d .publish
    else some (s.goOn a s.files .publish)
  | .publish =>
    (s.files.rename (.newTemp a.number) .live).map fun d =>
      { s.goOn a d .settle with existed := true }
  | .settle => some { s with active := none, returned := some a.number }

/-- The files once `n` characters of the temp that the save `a` is writing have landed. -/
def cutAt (n : ℕ) : Directory :=
  match a.next with
  | .write =>
    Function.update s.files (.newTemp a.number) (some ⟨a.save.text.take n, a.number⟩)
  | .copy =>
    Function.update s.files (.bakTemp a.number)
      ((s.files .live).map fun f => ⟨f.text.take n, f.save⟩)
  | _ => s.files

/-- The files where the save `a` stops or raises. -/
def stopped (landed : Option ℕ) (cleaned : Bool) : Directory :=
  let d := landed.elim s.files (s.cutAt a)
  if cleaned then (d.remove (.newTemp a.number)).remove (.bakTemp a.number) else d

def step (s : State) : Act → Option State
  | .begin save =>
    if s.active = none then
      some { s with
        active := some ⟨save, s.saves.length, .sweep, false⟩
        saves := s.saves ++ [save.text] }
    else none
  | .sweep stale =>
    s.active.bind fun a =>
      if a.next = .sweep then some (s.goOn a (s.files.removeStaleTemps stale) .write) else none
  | .op => s.active.bind s.perform
  | .stop landed cleaned =>
    s.active.map fun a => { s with files := s.stopped a landed cleaned, active := none }

end State

/-- Nothing of the path is there yet. -/
def State.Start (s : State) : Prop :=
  s.files = (fun _ => none) ∧ s.active = none ∧ s.saves = [] ∧ s.returned = none ∧ s.existed = false

/-- The saves of the path. -/
def machine : Machine State Act := ⟨State.Start, State.step⟩

/-! ## The readers -/

section Readers

/-- The kinds of a `JsonFileError` for a content that cannot be used. -/
inductive Kind
  | encoding
  | empty
  | malformed
  | shape
  | schema
  deriving DecidableEq

variable {Data : Type*} (check : Text → Except Kind Data) (d : Directory)

/-- `problem` of a `JsonWalk` -/
inductive Problem
  | missing
  | unreadable
  deriving DecidableEq

/-- `JsonWalk`. The source is the number of the copy: `main`, `bak1`, `bak2`, `bak3`. -/
structure JsonWalk (Data : Type*) where
  data : Option Data
  source : Option ℕ
  problem : Option Problem

/-- The loop of `read_json_walk` over the copies that are left. -/
def walkFrom (found : Bool) : List ℕ → JsonWalk Data
  | [] => ⟨none, none, some (if found then .unreadable else .missing)⟩
  | i :: rest =>
    match d (copyAt i) with
    | none => walkFrom found rest
    | some f =>
      match check f.text with
      | .error _ => walkFrom true rest
      | .ok data => ⟨some data, some i, none⟩

/-- `read_json_walk`, where `check` is `_check` with its `expect` and `validate`. -/
def readJsonWalk : JsonWalk Data := walkFrom check d false [0, 1, 2, 3]

/-- `_pick` without fallbacks, over the backups that are left: the first valid one with its data,
and the corrupt ones before it. -/
def pick : List ℕ → Option (ℕ × Data) × List ℕ
  | [] => (none, [])
  | i :: rest =>
    match d (.bak i) with
    | none => pick rest
    | some f =>
      match check f.text with
      | .error _ => ((pick rest).1, i :: (pick rest).2)
      | .ok data => (some (i, data), [])

/-- `outcome` of a `JsonRead` -/
inductive Outcome
  | ok
  | missing
  | restored
  deriving DecidableEq

/-- `JsonRead`. The kind is none for a missing file. -/
structure JsonRead (Data : Type*) where
  data : Data
  outcome : Outcome
  kind : Option Kind

/-- `_install` of a backup. -/
def install (i : ℕ) : Directory := (d.rename (.bak i) .live).getD d

/-- The corrupt backups are moved aside. -/
def moveAside (walked : List ℕ) : Directory := walked.foldl (fun d i => d.remove (.bak i)) d

/-- `read_json_result` under `Recovery.RESTORE`, without fallbacks: what it returns or raises, and
the files that it leaves. -/
def readRestore (default : Data) : Except Kind (JsonRead Data) × Directory :=
  let (chosen, walked) := pick check d [1, 2, 3]
  match d .live with
  | none =>
    match chosen with
    | none => (.ok ⟨default, .missing, none⟩, d)
    | some (i, data) => (.ok ⟨data, .restored, none⟩, install d i)
  | some f =>
    match check f.text with
    | .ok data => (.ok ⟨data, .ok, none⟩, d)
    | .error kind =>
      match chosen with
      | none => (.error kind, d)
      | some (i, data) => (.ok ⟨data, .restored, some kind⟩, moveAside (install d i) walked)

/-- The file `f` is the newest of the copies whose content `check` accepts. -/
structure Newest (f : File) (data : Data) : Prop where
  exists_copy : ∃ i ≤ 3, d (copyAt i) = some f
  valid : check f.text = .ok data
  newest : ∀ j ≤ 3, ∀ g, d (copyAt j) = some g → (check g.text).isOk → g.save ≤ f.save

/-- What a reader found is the newest valid copy, and it found nothing where none is valid. -/
def Recovers : Option Data → Prop
  | some data => ∃ f, Newest check d f data
  | none => ∀ i ≤ 3, ∀ f, d (copyAt i) = some f → ¬ (check f.text).isOk

end Readers

/-! ## The chain of copies -/

/-- The text of `f` is that of its save, in full. -/
def File.Complete (saves : List Text) (f : File) : Prop := saves[f.save]? = some f.text

/-- The copies are complete texts of saves, from newest to oldest. -/
structure Directory.Chain (d : Directory) (saves : List Text) : Prop where
  complete : ∀ i f, d (copyAt i) = some f → f.Complete saves
  ordered : ∀ i j, i ≤ j → ∀ f g, d (copyAt i) = some f → d (copyAt j) = some g → g.save ≤ f.save

@[simp] theorem copyAt_zero : copyAt 0 = .live := rfl

@[simp] theorem copyAt_succ (i : ℕ) : copyAt (i + 1) = .bak (i + 1) := rfl

theorem copyAt_ne_newTemp (i k : ℕ) : copyAt i ≠ .newTemp k := by
  cases i <;> simp

theorem copyAt_ne_bakTemp (i k : ℕ) : copyAt i ≠ .bakTemp k := by
  cases i <;> simp

theorem copyAt_eq_bak {i n : ℕ} (h : copyAt i = .bak n) : i = n ∧ 0 < i := by
  cases i with
  | zero => cases h
  | succ i =>
    have heq : i + 1 = n := Name.bak.inj h
    omega

section Chain

variable {d d' : Directory} {saves : List Text}

theorem File.Complete.lt_length {f : File} (h : f.Complete saves) : f.save < saves.length :=
  (List.getElem?_eq_some_iff.mp h).1

/-- Copies that come each from one no later in the chain, in order, are a chain. -/
theorem Directory.Chain.of_monotone (h : d.Chain saves) {σ : ℕ → ℕ} (hσ : Monotone σ)
    (hd : ∀ i f, d' (copyAt i) = some f → d (copyAt (σ i)) = some f) : d'.Chain saves where
  complete i f hf := h.complete (σ i) f (hd i f hf)
  ordered i j hij f g hf hg := h.ordered (σ i) (σ j) (hσ hij) f g (hd i f hf) (hd j g hg)

/-- What only takes copies away keeps the chain. -/
theorem Directory.Chain.of_subset (h : d.Chain saves)
    (hd : ∀ i f, d' (copyAt i) = some f → d (copyAt i) = some f) : d'.Chain saves :=
  h.of_monotone monotone_id hd

/-- Each step of the walk moves a copy onto the next older one. -/
theorem Directory.Chain.shift (h : d.Chain saves) (i : ℕ) :
    ((d.rename (.bak (i + 1)) (.bak (i + 2))).getD d).Chain saves := by
  cases hsrc : d (.bak (i + 1)) with
  | none =>
    have hd : d.rename (.bak (i + 1)) (.bak (i + 2)) = none := by simp [Directory.rename, hsrc]
    rw [hd]
    exact h
  | some f =>
    have hd : d.rename (.bak (i + 1)) (.bak (i + 2)) = some
        (Function.update (Function.update d (.bak (i + 1)) none) (.bak (i + 2)) (some f)) := by
      simp [Directory.rename, hsrc]
    rw [hd]
    -- The slot of the moved copy is now empty, so that its source may count as the one below it.
    have hσ : Monotone fun j => if j = i + 2 then i + 1 else j := by
      intro j k hjk
      dsimp only
      split_ifs <;> omega
    refine h.of_monotone hσ fun j g hg => ?_
    rw [Option.getD_some] at hg
    by_cases hj : copyAt j = .bak (i + 2)
    · have hij := copyAt_eq_bak hj
      rw [hj, Function.update_self] at hg
      rw [if_pos hij.1, copyAt_succ, hsrc, hg]
    · have hij : j ≠ i + 2 := fun heq => hj (by rw [heq]; rfl)
      rw [Function.update_of_ne hj] at hg
      rw [if_neg hij]
      by_cases hj' : copyAt j = .bak (i + 1)
      · rw [hj', Function.update_self] at hg
        cases hg
      · rwa [Function.update_of_ne hj'] at hg

theorem Directory.rename_eq_some {src dst : Name} :
    d.rename src dst = some d' ↔
      ∃ f, d src = some f ∧ d' = Function.update (Function.update d src none) dst (some f) := by
  simp only [Directory.rename, Option.map_eq_some_iff, eq_comm]

/-- A copy of the live file is no newer than it, and no older than the backups. -/
theorem Directory.Chain.publishBackup (h : d.Chain saves) {k : ℕ}
    (hcopy : ∀ f, d (.bakTemp k) = some f → d .live = some f)
    (hd : d.rename (.bakTemp k) (.bak 1) = some d') : d'.Chain saves := by
  obtain ⟨f, hf, rfl⟩ := Directory.rename_eq_some.mp hd
  have hlive : d .live = some f := hcopy f hf
  have hσ : Monotone fun j => if j = 1 then 0 else j := by
    intro j k hjk
    dsimp only
    split_ifs <;> omega
  refine h.of_monotone hσ fun j g hg => ?_
  by_cases hj : copyAt j = .bak 1
  · have hij := copyAt_eq_bak hj
    rw [hj, Function.update_self] at hg
    rw [if_pos hij.1, copyAt_zero, hlive, hg]
  · have hij : j ≠ 1 := fun heq => hj (by rw [heq]; rfl)
    rw [Function.update_of_ne hj, Function.update_of_ne (copyAt_ne_bakTemp j k)] at hg
    rwa [if_neg hij]

/-- The text of the newest save goes in front. -/
theorem Directory.Chain.publish (h : d.Chain saves) {f : File} {k : ℕ} (hf : f.Complete saves)
    (hnew : saves.length ≤ f.save + 1) (hsrc : d (.newTemp k) = some f)
    (hd : d.rename (.newTemp k) .live = some d') : d'.Chain saves := by
  obtain ⟨f', hf', rfl⟩ := Directory.rename_eq_some.mp hd
  obtain rfl : f = f' := Option.some.inj (hsrc.symm.trans hf')
  have hlive : Function.update (Function.update d (.newTemp k) none) .live (some f) .live = some f :=
    Function.update_self ..
  have hbak : ∀ i, Function.update (Function.update d (.newTemp k) none) .live (some f)
      (copyAt (i + 1)) = d (copyAt (i + 1)) := by
    intro i
    rw [Function.update_of_ne (by simp), Function.update_of_ne (by simp)]
  constructor
  · intro i g hg
    cases i with
    | zero =>
      rw [copyAt_zero, hlive] at hg
      exact Option.some.inj hg ▸ hf
    | succ i => exact h.complete (i + 1) g (by rwa [hbak] at hg)
  · intro i j hij g g' hg hg'
    cases j with
    | zero =>
      have hi : i = 0 := by omega
      rw [hi, copyAt_zero, hlive] at hg
      rw [copyAt_zero, hlive] at hg'
      rw [← Option.some.inj hg, ← Option.some.inj hg']
    | succ j =>
      rw [hbak] at hg'
      cases i with
      | zero =>
        rw [copyAt_zero, hlive] at hg
        have hlt := (h.complete _ _ hg').lt_length
        rw [← Option.some.inj hg]
        omega
      | succ i => exact h.ordered _ _ hij _ _ (by rwa [hbak] at hg) hg'

theorem File.Complete.append {f : File} (h : f.Complete saves) (text : Text) :
    f.Complete (saves ++ [text]) := by
  have hlt := h.lt_length
  unfold File.Complete
  rw [List.getElem?_append_left hlt]
  exact h

theorem Directory.Chain.append (h : d.Chain saves) (text : Text) : d.Chain (saves ++ [text]) where
  complete i f hf := (h.complete i f hf).append text
  ordered := h.ordered

end Chain

/-! ## The invariant -/

/-- The save `a` is under way. -/
structure State.Working (s : State) (a : Active) : Prop where
  number : a.number + 1 = s.saves.length
  text : s.saves[a.number]? = some a.save.text
  newTemp : a.next ≠ .settle → ∀ f, s.files (.newTemp a.number) = some f →
    f = ⟨a.save.text, a.number⟩
  /-- The live file has not changed since its copy was made. -/
  bakTemp : a.next ≠ .settle → ∀ f, s.files (.bakTemp a.number) = some f → s.files .live = some f
  settle : a.next = .settle → s.existed = true ∧ s.files .live = some ⟨a.save.text, a.number⟩

structure State.Inv (s : State) : Prop where
  chain : s.files.Chain s.saves
  existed : s.existed = true → (s.files .live).isSome
  returned : ∀ k, s.returned = some k →
    s.existed = true ∧ ∀ f, s.files .live = some f → k ≤ f.save
  unused : ∀ k, s.saves.length ≤ k → s.files (.newTemp k) = none ∧ s.files (.bakTemp k) = none
  working : ∀ a, s.active = some a → s.Working a

section Inv

variable {s s' : State} {a : Active}

theorem inv_start (h : s.Start) : s.Inv := by
  obtain ⟨hfiles, hactive, hsaves, hreturned, hexisted⟩ := h
  constructor
  · constructor <;> simp [hfiles]
  · simp [hexisted]
  · simp [hreturned]
  · simp [hfiles]
  · simp [hactive]

/-- A stop leaves temps that no later save uses. -/
theorem State.Inv.leave (h : s.Inv) {d : Directory} (hd : ∀ i, d (copyAt i) = s.files (copyAt i))
    (hunused : ∀ k, s.saves.length ≤ k → d (.newTemp k) = none ∧ d (.bakTemp k) = none) :
    ({ s with files := d, active := none } : State).Inv where
  chain := h.chain.of_subset fun i f hf => (hd i).symm.trans hf
  existed hex := by
    have hlive : d .live = s.files .live := hd 0
    simpa only [hlive] using h.existed hex
  returned k hk := ⟨(h.returned k hk).1, fun f hf => (h.returned k hk).2 f ((hd 0).symm.trans hf)⟩
  unused := hunused
  working := nofun

/-- An operation before the new file is published leaves the live file alone. -/
theorem State.Inv.goOn (h : s.Inv) (ha : s.active = some a) (hbefore : a.next ≠ .settle)
    {d : Directory} {next : Next} {backedUp : Bool} (hnext : next ≠ .settle)
    (hchain : d.Chain s.saves) (hlive : d .live = s.files .live)
    (hnew : ∀ k f, d (.newTemp k) = some f →
      s.files (.newTemp k) = some f ∨ k = a.number ∧ f = ⟨a.save.text, a.number⟩)
    (hbak : ∀ k f, d (.bakTemp k) = some f →
      s.files (.bakTemp k) = some f ∨ k = a.number ∧ s.files .live = some f) :
    (s.goOn { a with backedUp := backedUp } d next).Inv := by
  have hw := h.working a ha
  constructor
  · exact hchain
  · intro hex
    have hsome := h.existed hex
    rwa [← hlive] at hsome
  · intro k hk
    exact ⟨(h.returned k hk).1, fun f hf => (h.returned k hk).2 f (hlive.symm.trans hf)⟩
  · intro k hk
    have hk' : s.saves.length ≤ k := hk
    have hne : k ≠ a.number := by
      have hnumber := hw.number
      omega
    constructor
    · rw [Option.eq_none_iff_forall_ne_some]
      intro f hf
      rcases hnew k f hf with hold | hold
      · exact nomatch (h.unused k hk').1.symm.trans hold
      · exact hne hold.1
    · rw [Option.eq_none_iff_forall_ne_some]
      intro f hf
      rcases hbak k f hf with hold | hold
      · exact nomatch (h.unused k hk').2.symm.trans hold
      · exact hne hold.1
  · intro b hb
    obtain rfl := Option.some.inj hb
    refine ⟨hw.number, hw.text, fun _ f hf => ?_, fun _ f hf => ?_, fun hsettle => ?_⟩
    · exact (hnew _ f hf).elim (hw.newTemp hbefore f) And.right
    · have hcopy := (hbak _ f hf).elim (hw.bakTemp hbefore f) And.right
      exact hlive.trans hcopy
    · exact absurd hsettle hnext

theorem State.Inv.perform (h : s.Inv) (ha : s.active = some a) (hs : s.perform a = some s') :
    s'.Inv := by
  have hw := h.working a ha
  cases hnext : a.next with
  | sweep => simp [State.perform, hnext] at hs
  | write =>
    simp only [State.perform, hnext, Option.some.injEq] at hs
    subst hs
    refine h.goOn ha (by simp [hnext]) (by split_ifs <;> simp) ?_ ?_ ?_ ?_
    · refine h.chain.of_subset fun i f hf => ?_
      rwa [Function.update_of_ne (copyAt_ne_newTemp i _)] at hf
    · rw [Function.update_of_ne (by simp)]
    · intro k f hf
      by_cases hk : k = a.number
      · rw [hk, Function.update_self] at hf
        exact .inr ⟨hk, (Option.some.inj hf).symm⟩
      · rw [Function.update_of_ne (by simp [hk])] at hf
        exact .inl hf
    · intro k f hf
      rw [Function.update_of_ne (by simp)] at hf
      exact .inl hf
  | copy =>
    cases hlive : s.files .live with
    | none =>
      simp only [State.perform, hnext, hlive, Option.some.injEq] at hs
      subst hs
      exact h.goOn ha (by simp [hnext]) (by simp) h.chain rfl (fun _ _ => .inl) (fun _ _ => .inl)
    | some f =>
      simp only [State.perform, hnext, hlive, Option.some.injEq] at hs
      subst hs
      refine h.goOn ha (by simp [hnext]) (by simp) ?_ ?_ ?_ ?_
      · refine h.chain.of_subset fun i g hg => ?_
        rwa [Function.update_of_ne (copyAt_ne_bakTemp i _)] at hg
      · rw [Function.update_of_ne (by simp)]
      · intro k g hg
        rw [Function.update_of_ne (by simp)] at hg
        exact .inl hg
      · intro k g hg
        by_cases hk : k = a.number
        · rw [hk, Function.update_self] at hg
          exact .inr ⟨hk, hlive.trans hg⟩
        · rw [Function.update_of_ne (by simp [hk])] at hg
          exact .inl hg
  | drop =>
    simp only [State.perform, hnext, Option.some.injEq] at hs
    subst hs
    have hother : ∀ name, (∀ n, name ≠ .bak n) →
        s.files.remove (.bak a.save.backupCount) name = s.files name := by
      intro name hname
      exact Function.update_of_ne (hname _) ..
    refine h.goOn ha (by simp [hnext]) (by simp) ?_ (hother _ (by simp)) ?_ ?_
    · refine h.chain.of_subset fun i f hf => ?_
      by_cases hi : copyAt i = .bak a.save.backupCount
      · rw [hi, Directory.remove, Function.update_self] at hf
        cases hf
      · rwa [Directory.remove, Function.update_of_ne hi] at hf
    · intro k f hf
      exact .inl (by rwa [hother _ (by simp)] at hf)
    · intro k f hf
      exact .inl (by rwa [hother _ (by simp)] at hf)
  | shift i =>
    cases i with
    | zero =>
      simp only [State.perform, hnext, Option.some.injEq] at hs
      subst hs
      exact h.goOn ha (by simp [hnext]) (by simp) h.chain rfl (fun _ _ => .inl) (fun _ _ => .inl)
    | succ i =>
      simp only [State.perform, hnext, Option.some.injEq] at hs
      subst hs
      have hother : ∀ name, (∀ n, name ≠ .bak n) →
          (s.files.rename (.bak (i + 1)) (.bak (i + 2))).getD s.files name = s.files name := by
        intro name hname
        cases hd : s.files.rename (.bak (i + 1)) (.bak (i + 2)) with
        | none => rfl
        | some d =>
          obtain ⟨f, -, rfl⟩ := Directory.rename_eq_some.mp hd
          rw [Option.getD_some, Function.update_of_ne (hname _), Function.update_of_ne (hname _)]
      refine h.goOn ha (by simp [hnext]) (by simp) (h.chain.shift i) (hother _ (by simp)) ?_ ?_
      · intro k f hf
        exact .inl (by rwa [hother _ (by simp)] at hf)
      · intro k f hf
        exact .inl (by rwa [hother _ (by simp)] at hf)
  | publishBackup =>
    have hcopy := hw.bakTemp (by simp [hnext])
    by_cases hbacked : a.backedUp
    · simp only [State.perform, hnext, hbacked, if_true, Option.map_eq_some_iff] at hs
      obtain ⟨d, hd, rfl⟩ := hs
      have hchain := h.chain.publishBackup hcopy hd
      obtain ⟨f, hf, rfl⟩ := Directory.rename_eq_some.mp hd
      refine h.goOn ha (by simp [hnext]) (by simp) hchain ?_ ?_ ?_
      · rw [Function.update_of_ne (by simp), Function.update_of_ne (by simp)]
      · intro k g hg
        rw [Function.update_of_ne (by simp), Function.update_of_ne (by simp)] at hg
        exact .inl hg
      · intro k g hg
        rw [Function.update_of_ne (by simp)] at hg
        by_cases hk : k = a.number
        · rw [hk, Function.update_self] at hg
          cases hg
        · rw [Function.update_of_ne (by simp [hk])] at hg
          exact .inl hg
    · simp only [State.perform, hnext, hbacked, Bool.false_eq_true, if_false,
        Option.some.injEq] at hs
      subst hs
      exact h.goOn ha (by simp [hnext]) (by simp) h.chain rfl (fun _ _ => .inl) (fun _ _ => .inl)
  | publish =>
    simp only [State.perform, hnext, Option.map_eq_some_iff] at hs
    obtain ⟨d, hd, rfl⟩ := hs
    obtain ⟨f, hf, hd'⟩ := Directory.rename_eq_some.mp hd
    have hnew : f = ⟨a.save.text, a.number⟩ := hw.newTemp (by simp [hnext]) f hf
    have hsave : f.save = a.number := by rw [hnew]
    have hcomplete : f.Complete s.saves := by
      unfold File.Complete
      rw [hnew]
      exact hw.text
    have hlive : d .live = some f := by rw [hd', Function.update_self]
    have hnumber := hw.number
    have hchain : d.Chain s.saves := h.chain.publish hcomplete (by omega) hf hd
    constructor
    · exact hchain
    · intro _
      change (d .live).isSome
      simp [hlive]
    · intro k hk
      refine ⟨rfl, fun g hg => ?_⟩
      obtain rfl : f = g := Option.some.inj (hlive.symm.trans hg)
      -- The save that returned last left a live file of its number or a later one.
      obtain ⟨hex, hle⟩ := h.returned k hk
      obtain ⟨old, hold⟩ := Option.isSome_iff_exists.mp (h.existed hex)
      have hkold := hle old hold
      have hlt := (h.chain.complete 0 old hold).lt_length
      omega
    · intro k hk
      have hunused := h.unused k hk
      have hk' : s.saves.length ≤ k := hk
      have hne : k ≠ a.number := by omega
      change d _ = none ∧ d _ = none
      rw [hd', Function.update_of_ne (by simp), Function.update_of_ne (by simp [hne]),
        Function.update_of_ne (by simp), Function.update_of_ne (by simp)]
      exact hunused
    · intro b hb
      obtain rfl := Option.some.inj hb
      refine ⟨hnumber, hw.text, fun hne => absurd rfl hne, fun hne => absurd rfl hne, fun _ => ?_⟩
      exact ⟨rfl, hlive.trans (congrArg some hnew)⟩
  | settle =>
    simp only [State.perform, hnext, Option.some.injEq] at hs
    subst hs
    obtain ⟨hex, hlive⟩ := hw.settle hnext
    refine ⟨h.chain, h.existed, fun k hk => ⟨hex, fun f hf => ?_⟩, h.unused, nofun⟩
    obtain rfl : a.number = k := Option.some.inj hk
    obtain rfl := Option.some.inj (hlive.symm.trans hf)
    exact le_rfl

/-- A cut write changes one temp of its save at most. -/
theorem State.cutAt_cases (n : ℕ) : s.cutAt a n = s.files ∨
    (∃ f, s.cutAt a n = Function.update s.files (.newTemp a.number) f) ∨
      ∃ f, s.cutAt a n = Function.update s.files (.bakTemp a.number) f := by
  cases hnext : a.next with
  | write => exact .inr (.inl ⟨_, by simp only [State.cutAt, hnext]; rfl⟩)
  | copy => exact .inr (.inr ⟨_, by simp only [State.cutAt, hnext]; rfl⟩)
  | _ => exact .inl (by simp only [State.cutAt, hnext])

theorem State.copyAt_cutAt (n i : ℕ) : s.cutAt a n (copyAt i) = s.files (copyAt i) := by
  rcases State.cutAt_cases (s := s) (a := a) n with h | ⟨f, h⟩ | ⟨f, h⟩
  · rw [h]
  · rw [h, Function.update_of_ne (copyAt_ne_newTemp i _)]
  · rw [h, Function.update_of_ne (copyAt_ne_bakTemp i _)]

theorem State.copyAt_stopped (landed : Option ℕ) (cleaned : Bool) (i : ℕ) :
    s.stopped a landed cleaned (copyAt i) = s.files (copyAt i) := by
  have hcut : landed.elim s.files (s.cutAt a) (copyAt i) = s.files (copyAt i) := by
    cases landed with
    | none => rfl
    | some n => exact copyAt_cutAt n i
  unfold State.stopped
  split_ifs
  · rwa [Directory.remove, Function.update_of_ne (copyAt_ne_bakTemp i _), Directory.remove,
      Function.update_of_ne (copyAt_ne_newTemp i _)]
  · exact hcut

/-- Only the temps of the save itself are new. -/
theorem State.stopped_of_ne (landed : Option ℕ) (cleaned : Bool) {k : ℕ} (hk : k ≠ a.number) :
    s.stopped a landed cleaned (.newTemp k) = s.files (.newTemp k) ∧
      s.stopped a landed cleaned (.bakTemp k) = s.files (.bakTemp k) := by
  have hcut : ∀ n, s.cutAt a n (.newTemp k) = s.files (.newTemp k) ∧
      s.cutAt a n (.bakTemp k) = s.files (.bakTemp k) := by
    intro n
    rcases State.cutAt_cases (s := s) (a := a) n with h | ⟨f, h⟩ | ⟨f, h⟩ <;>
      simp [h, Function.update_of_ne, hk]
  cases landed with
  | none => cases cleaned <;> simp [State.stopped, Directory.remove, Function.update_of_ne, hk]
  | some n => cases cleaned <;> simp [State.stopped, Directory.remove, Function.update_of_ne, hk, hcut]

theorem State.Inv.step {act : Act} (h : s.Inv) (hs : s.step act = some s') : s'.Inv := by
  cases act with
  | begin save =>
    unfold State.step at hs
    split_ifs at hs with hidle
    obtain rfl := Option.some.inj hs
    have hunused := h.unused s.saves.length le_rfl
    refine ⟨h.chain.append save.text, h.existed, h.returned, fun k hk => h.unused k ?_, ?_⟩
    · rw [List.length_append] at hk
      omega
    · intro b hb
      obtain rfl := Option.some.inj hb
      refine ⟨by simp, by simp, fun _ f hf => ?_, fun _ f hf => ?_, nofun⟩
      · exact nomatch hunused.1.symm.trans hf
      · exact nomatch hunused.2.symm.trans hf
  | sweep stale =>
    simp only [State.step, Option.bind_eq_some_iff] at hs
    obtain ⟨a, ha, hs⟩ := hs
    split_ifs at hs with hnext
    obtain rfl := Option.some.inj hs
    have hcopies : ∀ i, s.files.removeStaleTemps stale (copyAt i) = s.files (copyAt i) := by
      intro i
      cases i <;> rfl
    refine h.goOn ha (by simp [hnext]) (by simp) ?_ (hcopies 0) ?_ ?_
    · exact h.chain.of_subset fun i f hf => by rwa [hcopies] at hf
    · intro k f hf
      simp only [Directory.removeStaleTemps] at hf
      split_ifs at hf
      exact .inl hf
    · intro k f hf
      simp only [Directory.removeStaleTemps] at hf
      split_ifs at hf
      exact .inl hf
  | op =>
    obtain ⟨a, ha, hs⟩ := Option.bind_eq_some_iff.mp hs
    exact h.perform ha hs
  | stop landed cleaned =>
    obtain ⟨a, ha, rfl⟩ := Option.map_eq_some_iff.mp hs
    refine h.leave (State.copyAt_stopped landed cleaned) fun k hk => ?_
    have hnumber := (h.working a ha).number
    have hne : k ≠ a.number := by omega
    rw [(State.stopped_of_ne landed cleaned hne).1, (State.stopped_of_ne landed cleaned hne).2]
    exact h.unused k hk

end Inv

/-! ## Recovery -/

section Recovery

variable {Data : Type*} (check : Text → Except Kind Data) (d : Directory)

/-- The data of the copy `i`, where it is there and valid. -/
def validAt (i : ℕ) : Option (ℕ × Data) :=
  (d (copyAt i)).bind fun f => (check f.text).toOption.map fun data => (i, data)

variable {check d}

theorem validAt_eq_some {i j : ℕ} {data : Data} :
    validAt check d i = some (j, data) ↔
      i = j ∧ ∃ f, d (copyAt i) = some f ∧ check f.text = .ok data := by
  cases hf : d (copyAt i) with
  | none => simp [validAt, hf]
  | some f => cases hc : check f.text <;> simp [validAt, hf, hc, Except.toOption, and_comm]

theorem validAt_eq_none {i : ℕ} :
    validAt check d i = none ↔ ∀ f, d (copyAt i) = some f → ¬ (check f.text).isOk := by
  cases hf : d (copyAt i) with
  | none => simp [validAt, hf]
  | some f =>
    cases hc : check f.text <;> simp [validAt, hf, hc, Except.toOption, Except.isOk, Except.toBool]

theorem data_walkFrom (found : Bool) (copies : List ℕ) :
    (walkFrom check d found copies).data =
      (copies.findSome? (validAt check d)).map Prod.snd := by
  induction copies generalizing found with
  | nil => rfl
  | cons i rest ih =>
    rw [walkFrom, List.findSome?_cons]
    cases hf : d (copyAt i) with
    | none => simp [validAt, hf, ih]
    | some f => cases hc : check f.text <;> simp [validAt, hf, hc, Except.toOption, ih]

variable (check d) in
theorem fst_pick (baks : List ℕ) (hbaks : ∀ i ∈ baks, 0 < i) :
    (pick check d baks).1 = baks.findSome? (validAt check d) := by
  induction baks with
  | nil => rfl
  | cons i rest ih =>
    have hrest := ih fun j hj => hbaks j (List.mem_cons_of_mem i hj)
    obtain ⟨k, rfl⟩ : ∃ k, i = k + 1 :=
      Nat.exists_eq_succ_of_ne_zero (hbaks i List.mem_cons_self).ne'
    rw [pick, List.findSome?_cons]
    cases hf : d (.bak (k + 1)) with
    | none => simp [validAt, hf, hrest]
    | some f => cases hc : check f.text <;> simp [validAt, hf, hc, Except.toOption, hrest]

/-- Over copies from newest to oldest, the first valid one is the newest valid one. -/
theorem recovers_findSome? (hordered : ∀ i j, 0 < i → i ≤ j → ∀ f g, d (copyAt i) = some f →
      d (copyAt j) = some g → g.save ≤ f.save) (hlive : validAt check d 0 = none) :
    Recovers check d (([1, 2, 3].findSome? (validAt check d)).map Prod.snd) := by
  cases hfound : [1, 2, 3].findSome? (validAt check d) with
  | none =>
    intro i hi
    rw [← validAt_eq_none]
    by_cases h0 : i = 0
    · rwa [h0]
    · have hmem : i ∈ [1, 2, 3] := by
        simp only [List.mem_cons, List.not_mem_nil, or_false]
        omega
      exact List.findSome?_eq_none_iff.mp hfound i hmem
  | some found =>
    obtain ⟨k, data⟩ := found
    obtain ⟨before, i, after, hsplit, hi, hbefore⟩ := List.findSome?_eq_some_iff.mp hfound
    obtain ⟨-, f, hf, hc⟩ := validAt_eq_some.mp hi
    have hmem : i ∈ [1, 2, 3] := by simp [hsplit]
    have hi3 : 0 < i ∧ i ≤ 3 := by
      simp only [List.mem_cons, List.not_mem_nil, or_false] at hmem
      omega
    refine ⟨f, ⟨i, hi3.2, hf⟩, hc, fun j hj g hg hvalid => ?_⟩
    have hj0 : j ≠ 0 := by
      rintro rfl
      exact validAt_eq_none.mp hlive g hg hvalid
    have hjmem : j ∈ before ++ i :: after := by
      rw [← hsplit]
      simp only [List.mem_cons, List.not_mem_nil, or_false]
      omega
    -- A valid copy is not one of those that were passed over.
    have hjafter : j ∈ i :: after := by
      refine (List.mem_append.mp hjmem).resolve_left fun hjbefore => ?_
      exact validAt_eq_none.mp (hbefore j hjbefore) g hg hvalid
    have hsorted : (before ++ i :: after).Pairwise (· < ·) := by
      rw [← hsplit]
      decide
    have hij : i ≤ j := by
      rcases List.mem_cons.mp hjafter with rfl | hlater
      · exact le_rfl
      · have htail := (List.pairwise_append.mp hsorted).2.1
        exact (List.rel_of_pairwise_cons htail hlater).le
    exact hordered i j hi3.1 hij f g hf hg

end Recovery

/-- The directory with the live file overwritten. -/
def Directory.corrupt (d : Directory) (junk : File) : Directory :=
  Function.update d .live (some junk)

/-- The backups of a chain whose live file is overwritten by something that is not valid: the first
valid one is the newest valid copy. -/
theorem Directory.Chain.recovers_corrupt {Data : Type*} {check : Text → Except Kind Data}
    {d : Directory} {saves : List Text} (h : d.Chain saves) {junk : File}
    (hjunk : ¬ (check junk.text).isOk) :
    validAt check (d.corrupt junk) 0 = none ∧ Recovers check (d.corrupt junk)
      (([1, 2, 3].findSome? (validAt check (d.corrupt junk))).map Prod.snd) := by
  have hlive : d.corrupt junk .live = some junk := Function.update_self ..
  have hbak : ∀ i, 0 < i → d.corrupt junk (copyAt i) = d (copyAt i) := by
    intro i hi
    refine Function.update_of_ne (fun heq => ?_) ..
    cases i with
    | zero => exact absurd hi (lt_irrefl 0)
    | succ i => cases heq
  have hinvalid : validAt check (d.corrupt junk) 0 = none := by
    rw [validAt_eq_none]
    intro f hf
    obtain rfl := Option.some.inj (hlive.symm.trans hf)
    exact hjunk
  refine ⟨hinvalid, recovers_findSome? (fun i j hi hij f g hf hg => ?_) hinvalid⟩
  rw [hbak i hi] at hf
  rw [hbak j (by omega)] at hg
  exact h.ordered i j hij f g hf hg

/-- No saved version is lost in `s`. -/
structure State.Kept {Data : Type*} (check : Text → Except Kind Data) (s : State) : Prop where
  /-- The live file is one complete text, no older than the last save that returned. -/
  live : s.existed = true → ∃ f, s.files .live = some f ∧ f.Complete s.saves ∧
    ∀ k, s.returned = some k → k ≤ f.save
  existed : s.returned.isSome → s.existed = true
  chain : s.files.Chain s.saves
  /-- Where the live file is then overwritten by something that is not valid, both readers find the
  newest valid copy that is left. -/
  walk : ∀ junk, ¬ (check junk.text).isOk →
    Recovers check (s.files.corrupt junk) (readJsonWalk check (s.files.corrupt junk)).data
  restore : ∀ junk, ¬ (check junk.text).isOk → ∀ default,
    Recovers check (s.files.corrupt junk)
      ((readRestore check (s.files.corrupt junk) default).1.toOption.map JsonRead.data)

/-- A crash never loses a saved version. -/
theorem saved_versions_kept {Data : Type*} (check : Text → Except Kind Data) {s : State}
    (h : machine.Reachable s) : s.Kept check := by
  have hinv : s.Inv :=
    h.invariant (fun _ => inv_start) fun _ _ _ hinv _ hstep => hinv.step hstep
  refine ⟨fun hex => ?_, fun hsome => ?_, hinv.chain, fun junk hjunk => ?_,
    fun junk hjunk default => ?_⟩
  · obtain ⟨f, hf⟩ := Option.isSome_iff_exists.mp (hinv.existed hex)
    exact ⟨f, hf, hinv.chain.complete 0 f hf, fun k hk => (hinv.returned k hk).2 f hf⟩
  · obtain ⟨k, hk⟩ := Option.isSome_iff_exists.mp hsome
    exact (hinv.returned k hk).1
  · obtain ⟨hinvalid, hrecovers⟩ := hinv.chain.recovers_corrupt hjunk
    rw [readJsonWalk, data_walkFrom, List.findSome?_cons, hinvalid]
    exact hrecovers
  · obtain ⟨-, hrecovers⟩ := hinv.chain.recovers_corrupt hjunk
    have hlive : s.files.corrupt junk .live = some junk := Function.update_self ..
    have hpick := fst_pick check (s.files.corrupt junk) [1, 2, 3] (by decide)
    obtain ⟨kind, hkind⟩ : ∃ kind, check junk.text = .error kind := by
      cases hc : check junk.text with
      | error kind => exact ⟨kind, rfl⟩
      | ok data => simp [hc, Except.isOk, Except.toBool] at hjunk
    rw [← hpick] at hrecovers
    cases hp : pick check (s.files.corrupt junk) [1, 2, 3] with
    | mk chosen walked =>
      rw [hp] at hrecovers
      cases chosen with
      | none => simpa [readRestore, hp, hlive, hkind, Except.toOption] using hrecovers
      | some found => simpa [readRestore, hp, hlive, hkind, Except.toOption] using hrecovers

/-- The third save stops after the walk, where the chain has a hole below the live file. The file is
then emptied, and the text of the first save is what is left. -/
theorem saved_versions_kept_hole : ∃ s, machine.Reachable s ∧
    ((s.returned = some 1 ∧ s.files (.bak 1) = none ∧
      (readJsonWalk (fun t => if t = [] then .error .empty else .ok t)
        (s.files.corrupt ⟨[], 0⟩)).data = some ['a']) ∧
      s.Kept fun t => if t = [] then Except.error Kind.empty else Except.ok t) := by
  obtain ⟨s, hs, hp⟩ := Machine.exists_reach_of_runWithin (M := machine) (D := fun _ _ => True)
    (fun _ _ h => h) (s := ⟨fun _ => none, none, [], none, false⟩) ⟨rfl, rfl, rfl, rfl, rfl⟩
    (.begin ⟨['a'], 3, true⟩ :: .sweep [] :: List.replicate 9 .op ++
      .begin ⟨['b'], 3, true⟩ :: .sweep [] :: List.replicate 9 .op ++
      .begin ⟨['c'], 3, true⟩ :: .sweep [] :: List.replicate 6 .op ++ [.stop none false])
    (fun s => s.returned = some 1 ∧ s.files (.bak 1) = none ∧
      (readJsonWalk (fun t => if t = [] then .error .empty else .ok t)
        (s.files.corrupt ⟨[], 0⟩)).data = some ['a'])
    (by decide +kernel)
  exact ⟨s, hs, of_decide_eq_true hp, saved_versions_kept _ hs⟩

end Companion.Storage.Saves

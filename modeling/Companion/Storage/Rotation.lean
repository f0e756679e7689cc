import Companion.Runs
import Mathlib.Algebra.BigOperators.Fin
import Mathlib.Algebra.BigOperators.Intervals
import Mathlib.Algebra.Order.BigOperators.Group.Finset
import Mathlib.Data.List.Count
import Mathlib.Data.List.Dedup
import Mathlib.Data.List.Sort
import Mathlib.Logic.Function.Basic

/-!
# The rotation of a log

`rotate_rolling_size` and `rotate_age_archive_yearly` (`brain/health/log_rotation.py`) on one log,
one file operation at a time. Appends wait for the lock of the rotation; any operation may fail, and
the process may stop before it.

A file is its list of rows, the whole lines, and a compressed archive is what it decompresses to.
The year of a row is a parameter: none for a line that the reader skips, and no year for a row whose
timestamp does not say one, which counts as of the current year.

A rolling archive is published before the log is emptied, and a year archive written before the log
is rewritten. The second is made up for by content: of the rows that the log offers, as many as the
archive holds already are skipped. So a row that is appended once more after its year was archived
is taken for one that an unfinished rotation has left in the log (`Fresh` says when this does not
happen).

`appended`, `evicted`, `published`, `offered` and `doubled`, and the numbers of the archives, are
bookkeeping: no operation reads them.
-/

namespace Companion.Storage.Rotation

open Companion.Runs

variable {Row : Type}

/-- A rolling archive, and how many were published before it. -/
structure Archive (Row : Type) where
  rows : List Row
  number : ℕ
  deriving DecidableEq

/-- The next operation of a rotation. -/
inductive Phase (Row : Type)
  | idle
  /-- The write of the staging file. -/
  | staging (data : List Row)
  /-- The disk was full: the unlink of the oldest archive, and the second write. -/
  | evicting (data : List Row)
  | restaging (data : List Row)
  /-- The moves from `.{i}.gz` down to `.1.gz`. -/
  | shifting (i : ℕ)
  | publishing
  | truncating
  /-- The merges into the archives of these years. -/
  | merging (now : ℤ) (years : List ℤ)
  | rewriting (now : ℤ)
  deriving DecidableEq

structure State (Row : Type) where
  log : Option (List Row)
  /-- `.next.gz` -/
  staging : Option (List Row)
  /-- `.{n}.gz` -/
  slots : ℕ → Option (Archive Row)
  /-- `.{year}.jsonl.gz` -/
  years : ℤ → Option (List Row)
  phase : Phase Row
  /-- Every row so far. -/
  appended : List Row
  /-- The rolling archives that were evicted. -/
  evicted : List (Archive Row)
  /-- How many rolling archives were published. -/
  published : ℕ
  /-- The rows of the log that the current yearly rotation, or one that did not finish, has put into
  the archive of their year. -/
  offered : List Row
  /-- The rows that a rotation has published and then left in the log, or that were offered before
  the log was emptied. -/
  doubled : List Row

/-- What can happen. -/
inductive Act (Row : Type)
  | append (rows : List Row)
  /-- The log is over its size. -/
  | rotateRolling
  | rotateYearly (now : ℤ)
  /-- The next operation. -/
  | op
  /-- `ENOSPC` -/
  | diskFull
  /-- An operation fails, or the process stops. -/
  | stop
  deriving DecidableEq

section Step

variable [DecidableEq Row] (year : Row → Option (Option ℤ)) (keep : ℕ)

/-- `_entry_year` of a row that the reader does not skip. -/
def yearIn (now : ℤ) (r : Row) : Option ℤ := (year r).map fun y => y.getD now

/-- `by_year[y]` -/
def rowsOf (now y : ℤ) (rows : List Row) : List Row := rows.filter fun r => yearIn year now r = some y

/-- The years of the rows, in order. -/
def sortedYears (now : ℤ) (rows : List Row) : List ℤ :=
  (rows.filterMap (yearIn year now)).dedup.insertionSort (· ≤ ·)

/-- `cold_years` -/
def coldYears (now : ℤ) (rows : List Row) : List ℤ := (sortedYears year now rows).filter (· < now)

/-- The rows that the rewritten log keeps. -/
def kept (now : ℤ) (rows : List Row) : List Row :=
  ((sortedYears year now rows).filter (now ≤ ·)).flatMap fun y => rowsOf year now y rows

/-- `to_add`: the new rows without those of which `held` has one left. -/
def toAdd (held : List Row) : List Row → List Row
  | [] => []
  | r :: rest => if r ∈ held then toAdd (held.erase r) rest else r :: toAdd held rest

namespace State

variable (s : State Row)

/-- The rows of the log, none where there is no file. -/
def rows : List Row := s.log.getD []

/-- Slots are occupied from 1 to `keep`. -/
def full : Bool := (List.range keep).all fun n => (s.slots (n + 1)).isSome

/-- `first_empty`, or the slot past the last. -/
def firstEmpty : ℕ :=
  ((List.range keep).map (· + 1)).find? (fun n => (s.slots n).isNone) |>.getD (keep + 1)

/-- A file is put in a slot, and what was there is evicted. -/
def put (n : ℕ) (a : Archive Row) : State Row :=
  { s with slots := Function.update s.slots n (some a), evicted := s.evicted ++ (s.slots n).toList }

/-- The unlink of the archive in a slot. -/
def unlink (n : ℕ) : State Row :=
  { s with slots := Function.update s.slots n none, evicted := s.evicted ++ (s.slots n).toList }

/-- `_merge_into_year_archive` -/
def merge (now y : ℤ) : State Row :=
  let existing := (s.years y).getD []
  let new := rowsOf year now y s.rows
  { s with
    years := Function.update s.years y (some (existing ++ toAdd existing new))
    offered := s.offered.filter (fun r => yearIn year now r ≠ some y) ++ new }

/-- The staging file is written, and the moves begin below the first empty slot. -/
def staged (data : List Row) : State Row :=
  { s with staging := some data, phase := .shifting (min (s.firstEmpty keep) keep - 1) }

/-- The next operation of the rotation. -/
def perform : Option (State Row) :=
  match s.phase with
  | .idle => none
  | .staging data => some (s.staged keep data)
  | .evicting data => some { s.unlink keep with phase := .restaging data }
  | .restaging data => some (s.staged keep data)
  | .shifting 0 => some { s with phase := .publishing }
  | .shifting (i + 1) =>
    (s.slots (i + 1)).map fun a =>
      let moved := s.put (i + 2) a
      { moved with slots := Function.update moved.slots (i + 1) none, phase := .shifting i }
  | .publishing =>
    s.staging.map fun data =>
      { s.put 1 ⟨data, s.published⟩ with
        staging := none, published := s.published + 1, phase := .truncating }
  | .truncating =>
    some { s with log := some [], phase := .idle, doubled := s.doubled ++ s.offered, offered := [] }
  | .merging now [] => some { s with phase := .rewriting now }
  | .merging now (y :: years) => some { s.merge year now y with phase := .merging now years }
  | .rewriting now =>
    some { s with
      log := some (kept year now s.rows)
      phase := .idle
      offered := s.offered.filter fun r => (yearIn year now r).any (now ≤ ·) }

def step (s : State Row) : Act Row → Option (State Row)
  | .append rows =>
    if s.phase = .idle then
      some { s with log := some (s.rows ++ rows), appended := s.appended ++ rows }
    else none
  | .rotateRolling =>
    if s.phase = .idle then s.log.map fun rows => { s with phase := .staging rows } else none
  | .rotateYearly now =>
    if s.phase = .idle then
      s.log.map fun rows =>
        if coldYears year now rows = [] then s
        else { s with phase := .merging now (coldYears year now rows) }
    else none
  | .op => s.perform year keep
  | .diskFull =>
    match s.phase with
    | .staging data => if s.full keep then some { s with phase := .evicting data } else none
    | _ => none
  | .stop =>
    match s.phase with
    | .idle => none
    | .truncating => some { s with phase := .idle, doubled := s.doubled ++ s.rows }
    | _ => some { s with phase := .idle }

end State

/-- Nothing is there yet. -/
def State.Start (s : State Row) : Prop :=
  s.log = none ∧ s.staging = none ∧ s.slots = (fun _ => none) ∧ s.years = (fun _ => none) ∧
    s.phase = .idle ∧ s.appended = [] ∧ s.evicted = [] ∧ s.published = 0 ∧ s.offered = [] ∧
      s.doubled = []

/-- One log with its archives, of which `keep` are rolling. -/
def machine : Machine (State Row) (Act Row) := ⟨State.Start, State.step year keep⟩

end Step

/-! ## Sums over the slots -/

section Total

/-- What is in a slot counts for. -/
def weigh (w : Archive Row → ℕ) (a : Option (Archive Row)) : ℕ := a.elim 0 w

/-- The weight of the archives in the slots from 1 to `k`. -/
def total (w : Archive Row → ℕ) (slots : ℕ → Option (Archive Row)) (k : ℕ) : ℕ :=
  ∑ n ∈ Finset.range k, weigh w (slots (n + 1))

variable (w : Archive Row → ℕ) (slots : ℕ → Option (Archive Row))

theorem total_update {n k : ℕ} (h0 : 0 < n) (hn : n ≤ k) (a : Option (Archive Row)) :
    total w (Function.update slots n a) k + weigh w (slots n) = total w slots k + weigh w a := by
  obtain ⟨m, rfl⟩ : ∃ m, n = m + 1 := Nat.exists_eq_succ_of_ne_zero h0.ne'
  have hm : m ∈ Finset.range k := Finset.mem_range.mpr hn
  have hrest : ∑ i ∈ (Finset.range k).erase m, weigh w (Function.update slots (m + 1) a (i + 1)) =
      ∑ i ∈ (Finset.range k).erase m, weigh w (slots (i + 1)) := by
    refine Finset.sum_congr rfl fun i hi => ?_
    have hne : i ≠ m := Finset.ne_of_mem_erase hi
    rw [Function.update_of_ne (by omega)]
  have hnew := Finset.add_sum_erase (Finset.range k)
    (fun i => weigh w (Function.update slots (m + 1) a (i + 1))) hm
  have hold := Finset.add_sum_erase (Finset.range k) (fun i => weigh w (slots (i + 1))) hm
  rw [Function.update_self, hrest] at hnew
  unfold total
  omega

/-- No slot weighs more than all. -/
theorem weigh_le_total {n k : ℕ} (h0 : 0 < n) (hn : n ≤ k) : weigh w (slots n) ≤ total w slots k := by
  obtain ⟨m, rfl⟩ : ∃ m, n = m + 1 := Nat.exists_eq_succ_of_ne_zero h0.ne'
  exact Finset.single_le_sum (f := fun i => weigh w (slots (i + 1))) (fun _ _ => Nat.zero_le _)
    (Finset.mem_range.mpr hn)

end Total

/-! ## The rows of a year -/

section Years

variable [DecidableEq Row] (year : Row → Option (Option ℤ))

theorem count_toAdd (held new : List Row) (r : Row) :
    (toAdd held new).count r = new.count r - held.count r := by
  induction new generalizing held with
  | nil => simp [toAdd]
  | cons a rest ih =>
    rw [toAdd]
    by_cases hmem : a ∈ held
    · rw [if_pos hmem, ih, List.count_cons]
      by_cases har : a = r
      · subst har
        have hpos : 0 < held.count a := List.count_pos_iff.mpr hmem
        rw [List.count_erase_self, beq_self_eq_true, if_pos rfl]
        omega
      · have hra : r ≠ a := Ne.symm har
        rw [List.count_erase_of_ne hra, beq_eq_false_iff_ne.mpr har]
        simp
    · rw [if_neg hmem, List.count_cons, List.count_cons, ih]
      by_cases har : a = r
      · subst har
        have hzero : held.count a = 0 := List.count_eq_zero.mpr hmem
        rw [beq_self_eq_true, if_pos rfl]
        omega
      · rw [beq_eq_false_iff_ne.mpr har]
        simp

variable {year}

theorem count_rowsOf (now y : ℤ) (rows : List Row) (r : Row) :
    (rowsOf year now y rows).count r = if yearIn year now r = some y then rows.count r else 0 := by
  by_cases hy : yearIn year now r = some y
  · rw [if_pos hy, rowsOf, List.count_filter (by simpa using hy)]
  · rw [if_neg hy, List.count_eq_zero]
    intro hmem
    exact hy (by simpa [rowsOf] using (List.mem_filter.mp hmem).2)

omit [DecidableEq Row] in
theorem mem_sortedYears {now y : ℤ} {rows : List Row} :
    y ∈ sortedYears year now rows ↔ ∃ r ∈ rows, yearIn year now r = some y := by
  rw [sortedYears, List.mem_insertionSort, List.mem_dedup, List.mem_filterMap]

omit [DecidableEq Row] in
theorem nodup_sortedYears (now : ℤ) (rows : List Row) : (sortedYears year now rows).Nodup :=
  (List.perm_insertionSort _ _).nodup_iff.mpr (List.nodup_dedup _)

/-- Of distinct years, one gives a row its copies. -/
theorem count_flatMap_rowsOf {years : List ℤ} (hyears : years.Nodup) (now : ℤ) (rows : List Row)
    (r : Row) : (years.flatMap fun y => rowsOf year now y rows).count r =
      if ∃ y ∈ years, yearIn year now r = some y then rows.count r else 0 := by
  induction years with
  | nil => simp
  | cons y years ih =>
    obtain ⟨hy, hrest⟩ := List.nodup_cons.mp hyears
    rw [List.flatMap_cons, List.count_append, count_rowsOf, ih hrest]
    by_cases hhere : yearIn year now r = some y
    · have hnot : ¬ ∃ y' ∈ years, yearIn year now r = some y' := by
        rintro ⟨y', hy', heq⟩
        obtain rfl := Option.some.inj (hhere.symm.trans heq)
        exact hy hy'
      have hthere : ∃ y' ∈ y :: years, yearIn year now r = some y' := ⟨y, List.mem_cons_self, hhere⟩
      rw [if_pos hhere, if_neg hnot, if_pos hthere, Nat.add_zero]
    · have hiff : (∃ y' ∈ y :: years, yearIn year now r = some y') ↔
          ∃ y' ∈ years, yearIn year now r = some y' := by simp [hhere]
      rw [if_neg hhere, Nat.zero_add]
      simp only [hiff]

/-- The rewritten log keeps the rows that are not cold. -/
theorem count_kept (now : ℤ) (rows : List Row) (r : Row) :
    (kept year now rows).count r = if (yearIn year now r).any (now ≤ ·) then rows.count r else 0 := by
  rw [kept, count_flatMap_rowsOf ((nodup_sortedYears now rows).filter _)]
  by_cases hkeep : (yearIn year now r).any (now ≤ ·)
  · rw [if_pos hkeep]
    obtain ⟨y, hy, hle⟩ := (Option.any_eq_true _ _).mp hkeep
    by_cases hmem : r ∈ rows
    · rw [if_pos]
      exact ⟨y, List.mem_filter.mpr ⟨mem_sortedYears.mpr ⟨r, hmem, hy⟩, hle⟩, hy⟩
    · rw [List.count_eq_zero_of_not_mem hmem, ite_self]
  · rw [if_neg hkeep, if_neg]
    rintro ⟨y, hmem, hy⟩
    refine hkeep ((Option.any_eq_true _ _).mpr ⟨y, hy, ?_⟩)
    exact (List.mem_filter.mp hmem).2

end Years

/-! ## The rolling archives -/

/-- The slots that archives may be in. -/
def slotCount (keep : ℕ) : ℕ := max keep 1

/-- All slots hold an archive. -/
def AllFull (keep : ℕ) (s : State Row) : Prop := ∀ n < slotCount keep, (s.slots (n + 1)).isSome

/-- What the next operation finds in the slots. -/
def Room (keep : ℕ) (s : State Row) : Prop :=
  match s.phase with
  | .evicting _ => ∀ n < keep, (s.slots (n + 1)).isSome
  | .shifting i => i < slotCount keep ∧
      (s.slots (i + 1) = none ∨ i + 1 = slotCount keep ∧ AllFull keep s)
  | .publishing => s.slots 1 = none ∨ slotCount keep = 1 ∧ AllFull keep s
  | _ => True

/-- The rolling archives, from the newest to the oldest. -/
structure Rolling (keep : ℕ) (s : State Row) : Prop where
  outside : ∀ n, n = 0 ∨ slotCount keep < n → s.slots n = none
  newer : ∀ i j a b, i < j → s.slots i = some a → s.slots j = some b → b.number < a.number
  published : ∀ n a, s.slots n = some a → a.number < s.published
  accounted : s.evicted.length + total (fun _ => 1) s.slots (slotCount keep) = s.published
  room : Room keep s

section Rolling

variable {keep : ℕ} {s s' : State Row}

/-- A step leaves the slots and what was evicted alone. -/
theorem Rolling.of_slots (h : Rolling keep s) (hslots : s'.slots = s.slots)
    (hevicted : s'.evicted = s.evicted) (hpublished : s'.published = s.published)
    (hroom : Room keep s') : Rolling keep s' where
  outside := hslots ▸ h.outside
  newer := hslots ▸ h.newer
  published := by rw [hslots, hpublished]; exact h.published
  accounted := by rw [hslots, hevicted, hpublished]; exact h.accounted
  room := hroom

theorem length_toList (a : Option (Archive Row)) : a.toList.length = weigh (fun _ => 1) a := by
  cases a <;> rfl

/-- The slots are the same but for one that is emptied, into the archives that were evicted. -/
theorem Rolling.unlink (h : Rolling keep s) {n : ℕ} (hn : n ≤ slotCount keep) {phase : Phase Row}
    (hroom : Room keep { s.unlink n with phase := phase }) :
    Rolling keep { s.unlink n with phase := phase } := by
  have hother : ∀ m a, Function.update s.slots n none m = some a → s.slots m = some a := by
    intro m a ha
    by_cases hm : m = n
    · rw [hm, Function.update_self] at ha
      cases ha
    · rwa [Function.update_of_ne hm] at ha
  refine ⟨fun m hm => ?_, fun i j a b hij ha hb => ?_, fun m a ha => h.published m a (hother m a ha),
    ?_, hroom⟩
  · change Function.update s.slots n none m = none
    rw [Option.eq_none_iff_forall_ne_some]
    intro a ha
    exact nomatch (h.outside m hm).symm.trans (hother m a ha)
  · exact h.newer i j a b hij (hother i a ha) (hother j b hb)
  · change (s.evicted ++ (s.slots n).toList).length +
      total (fun _ => 1) (Function.update s.slots n none) (slotCount keep) = s.published
    have haccounted := h.accounted
    rw [List.length_append, length_toList]
    by_cases h0 : 0 < n
    · have htotal := total_update (fun _ => 1) s.slots h0 hn none
      have hnone : weigh (fun _ => 1) (none : Option (Archive Row)) = 0 := rfl
      omega
    · have hzero : n = 0 := by omega
      have hempty := h.outside 0 (.inl rfl)
      rw [hzero, hempty, ← hempty, Function.update_eq_self, hempty]
      exact haccounted

/-- The move of an archive one slot up. -/
theorem Rolling.shift (h : Rolling keep s) {i : ℕ} {a : Archive Row}
    (hphase : s.phase = .shifting (i + 1)) (ha : s.slots (i + 1) = some a) :
    Rolling keep { s.put (i + 2) a with
      slots := Function.update (s.put (i + 2) a).slots (i + 1) none, phase := .shifting i } := by
  have hroom := h.room
  rw [Room, hphase] at hroom
  obtain ⟨hi, -⟩ := hroom
  have hslots : (s.put (i + 2) a).slots = Function.update s.slots (i + 2) (some a) := rfl
  -- Where an archive is now, and where it was.
  have hmoved : ∀ m b, Function.update (s.put (i + 2) a).slots (i + 1) none m = some b →
      m ≠ i + 1 ∧ s.slots (if m = i + 2 then i + 1 else m) = some b := by
    intro m b hb
    have hm : m ≠ i + 1 := by
      rintro rfl
      rw [Function.update_self] at hb
      cases hb
    rw [Function.update_of_ne hm, hslots] at hb
    refine ⟨hm, ?_⟩
    by_cases hm2 : m = i + 2
    · rw [hm2, Function.update_self] at hb
      rw [if_pos hm2, ha, hb]
    · rw [Function.update_of_ne hm2] at hb
      rwa [if_neg hm2]
  refine ⟨fun m hm => ?_, fun j k b c hjk hb hc => ?_, fun m b hb => h.published _ b (hmoved m b hb).2,
    ?_, ?_⟩
  · rw [Option.eq_none_iff_forall_ne_some]
    intro b hb
    obtain ⟨-, hb⟩ := hmoved m b hb
    have hne : m ≠ i + 2 := by omega
    rw [if_neg hne, h.outside m hm] at hb
    cases hb
  · obtain ⟨hj, hb⟩ := hmoved j b hb
    obtain ⟨hk, hc⟩ := hmoved k c hc
    refine h.newer _ _ b c ?_ hb hc
    split_ifs <;> omega
  · change (s.evicted ++ (s.slots (i + 2)).toList).length + total (fun _ => 1)
      (Function.update (Function.update s.slots (i + 2) (some a)) (i + 1) none) (slotCount keep) =
        s.published
    have haccounted := h.accounted
    have hput := total_update (fun _ => 1) s.slots (show 0 < i + 2 by omega) hi (some a)
    have hclear := total_update (fun _ => 1) (Function.update s.slots (i + 2) (some a))
      (show 0 < i + 1 by omega) hi.le none
    have hnone : weigh (fun _ => 1) (none : Option (Archive Row)) = 0 := rfl
    have hsome : weigh (fun _ => 1) (some a) = 1 := rfl
    rw [Function.update_of_ne (show i + 1 ≠ i + 2 by omega), ha] at hclear
    rw [List.length_append, length_toList]
    omega
  · refine ⟨by omega, .inl ?_⟩
    exact Function.update_self ..

theorem Rolling.publish (h : Rolling keep s) (data : List Row) :
    Rolling keep { s.put 1 ⟨data, s.published⟩ with
      staging := none, published := s.published + 1, phase := .truncating } := by
  have hone : 1 ≤ slotCount keep := le_max_right keep 1
  have hslots : (s.put 1 ⟨data, s.published⟩).slots =
      Function.update s.slots 1 (some ⟨data, s.published⟩) := rfl
  have hcases : ∀ m b, (s.put 1 ⟨data, s.published⟩).slots m = some b →
      m = 1 ∧ b.number = s.published ∨ m ≠ 1 ∧ s.slots m = some b := by
    intro m b hb
    rw [hslots] at hb
    by_cases hm : m = 1
    · rw [hm, Function.update_self] at hb
      exact .inl ⟨hm, by rw [← Option.some.inj hb]⟩
    · rw [Function.update_of_ne hm] at hb
      exact .inr ⟨hm, hb⟩
  refine ⟨fun m hm => ?_, fun i j a b hij ha hb => ?_, fun m b hb => ?_, ?_, trivial⟩
  · have hne : m ≠ 1 := by omega
    change (s.put 1 ⟨data, s.published⟩).slots m = none
    rw [hslots, Function.update_of_ne hne]
    exact h.outside m hm
  · rcases hcases j b hb with ⟨rfl, -⟩ | ⟨-, hb⟩
    · have hi0 : i = 0 := by omega
      rcases hcases i a ha with ⟨h1, -⟩ | ⟨-, ha⟩
      · omega
      · rw [hi0, h.outside 0 (.inl rfl)] at ha
        cases ha
    · have hlt := h.published j b hb
      rcases hcases i a ha with ⟨-, hnumber⟩ | ⟨-, ha⟩
      · rwa [hnumber]
      · exact h.newer i j a b hij ha hb
  · change b.number < s.published + 1
    rcases hcases m b hb with ⟨-, hnumber⟩ | ⟨-, hb⟩
    · omega
    · exact (h.published m b hb).trans (Nat.lt_succ_self _)
  · change (s.evicted ++ (s.slots 1).toList).length +
      total (fun _ => 1) (Function.update s.slots 1 (some ⟨data, s.published⟩)) (slotCount keep) =
        s.published + 1
    have haccounted := h.accounted
    have htotal := total_update (fun _ => 1) s.slots Nat.one_pos hone (some ⟨data, s.published⟩)
    have hsome : weigh (fun _ => 1) (some (⟨data, s.published⟩ : Archive Row)) = 1 := rfl
    rw [List.length_append, length_toList]
    omega

theorem isNone_of_firstEmpty {n : ℕ} (hn : s.firstEmpty keep = n) (hle : n ≤ keep) :
    0 < n ∧ s.slots n = none := by
  unfold State.firstEmpty at hn
  cases hfind : ((List.range keep).map (· + 1)).find? (fun n => (s.slots n).isNone) with
  | none =>
    rw [hfind, Option.getD_none] at hn
    omega
  | some m =>
    rw [hfind, Option.getD_some] at hn
    subst hn
    have hmem := List.mem_of_find?_eq_some hfind
    obtain ⟨k, -, rfl⟩ := List.mem_map.mp hmem
    exact ⟨Nat.succ_pos k, by simpa using List.find?_some hfind⟩

theorem isSome_of_firstEmpty (hn : keep < s.firstEmpty keep) {n : ℕ} (hlt : n < keep) :
    (s.slots (n + 1)).isSome := by
  unfold State.firstEmpty at hn
  cases hfind : ((List.range keep).map (· + 1)).find? (fun n => (s.slots n).isNone) with
  | none =>
    rw [List.find?_eq_none] at hfind
    have hmem : n + 1 ∈ (List.range keep).map (· + 1) :=
      List.mem_map.mpr ⟨n, List.mem_range.mpr hlt, rfl⟩
    have hnot := hfind (n + 1) hmem
    rwa [Bool.not_eq_true, Option.isNone_eq_false_iff] at hnot
  | some m =>
    rw [hfind, Option.getD_some] at hn
    obtain ⟨k, hk, rfl⟩ := List.mem_map.mp (List.mem_of_find?_eq_some hfind)
    have hlt' := List.mem_range.mp hk
    omega

/-- The moves begin at the slot below the first empty one, or below the last where all are full. -/
theorem Rolling.staged (h : Rolling keep s) (data : List Row) : Rolling keep (s.staged keep data) := by
  refine h.of_slots rfl rfl rfl ?_
  change min (s.firstEmpty keep) keep - 1 < slotCount keep ∧
    (s.slots (min (s.firstEmpty keep) keep - 1 + 1) = none ∨
      min (s.firstEmpty keep) keep - 1 + 1 = slotCount keep ∧
        ∀ n < slotCount keep, (s.slots (n + 1)).isSome)
  have hcount : slotCount keep = max keep 1 := rfl
  by_cases hle : s.firstEmpty keep ≤ keep
  · obtain ⟨hpos, hnone⟩ := isNone_of_firstEmpty rfl hle
    have heq : min (s.firstEmpty keep) keep - 1 + 1 = s.firstEmpty keep := by omega
    refine ⟨by omega, .inl ?_⟩
    rw [heq]
    exact hnone
  · have hfull : ∀ n < keep, (s.slots (n + 1)).isSome := fun n hn =>
      isSome_of_firstEmpty (by omega) hn
    refine ⟨by omega, ?_⟩
    by_cases hkeep : keep = 0
    · -- No slot is to be kept, and the one that is published into may hold an archive.
      have hone : slotCount keep = 1 := by omega
      have hmin : min (s.firstEmpty keep) keep - 1 = 0 := by omega
      rw [hmin, hone]
      cases hslot : s.slots (0 + 1) with
      | none => exact .inl rfl
      | some a =>
        refine .inr ⟨rfl, fun n hn => ?_⟩
        have hn0 : n = 0 := by omega
        rw [hn0, hslot]
        rfl
    · refine .inr ⟨by omega, fun n hn => hfull n (by omega)⟩

variable [DecidableEq Row] {year : Row → Option (Option ℤ)}

omit [DecidableEq Row] in
/-- A step that leaves the slots alone, from or to a phase that no slot matters to. -/
theorem Rolling.setPhase (h : Rolling keep s) (hslots : s'.slots = s.slots)
    (hevicted : s'.evicted = s.evicted) (hpublished : s'.published = s.published)
    (hphase : Room keep s' ∨ s'.phase = .idle) : Rolling keep s' := by
  refine h.of_slots hslots hevicted hpublished (hphase.elim id fun hidle => ?_)
  rw [Room, hidle]
  trivial

theorem Rolling.perform (h : Rolling keep s) (hs : s.perform year keep = some s') :
    Rolling keep s' := by
  -- Each phase has the room that the next step needs.
  have hroom := h.room
  rw [Room] at hroom
  cases hphase : s.phase with
  | idle => simp [State.perform, hphase] at hs
  | staging data =>
    simp only [State.perform, hphase, Option.some.injEq] at hs
    subst hs
    exact h.staged data
  | evicting data =>
    simp only [State.perform, hphase, Option.some.injEq] at hs
    subst hs
    exact h.unlink (le_max_left keep 1) trivial
  | restaging data =>
    simp only [State.perform, hphase, Option.some.injEq] at hs
    subst hs
    exact h.staged data
  | shifting i =>
    cases i with
    | zero =>
      simp only [State.perform, hphase, Option.some.injEq] at hs
      subst hs
      simp only [hphase] at hroom
      refine h.of_slots rfl rfl rfl ?_
      exact hroom.2.imp_right fun hfull => ⟨hfull.1.symm, hfull.2⟩
    | succ i =>
      simp only [State.perform, hphase, Option.map_eq_some_iff] at hs
      obtain ⟨a, ha, rfl⟩ := hs
      exact h.shift hphase ha
  | publishing =>
    simp only [State.perform, hphase, Option.map_eq_some_iff] at hs
    obtain ⟨data, -, rfl⟩ := hs
    exact h.publish data
  | truncating =>
    simp only [State.perform, hphase, Option.some.injEq] at hs
    subst hs
    exact h.setPhase rfl rfl rfl (.inr rfl)
  | merging now years =>
    cases years with
    | nil =>
      simp only [State.perform, hphase, Option.some.injEq] at hs
      subst hs
      exact h.setPhase rfl rfl rfl (.inl trivial)
    | cons y years =>
      simp only [State.perform, hphase, Option.some.injEq] at hs
      subst hs
      exact h.setPhase rfl rfl rfl (.inl trivial)
  | rewriting now =>
    simp only [State.perform, hphase, Option.some.injEq] at hs
    subst hs
    exact h.setPhase rfl rfl rfl (.inr rfl)

theorem Rolling.step {a : Act Row} (h : Rolling keep s) (hs : s.step year keep a = some s') :
    Rolling keep s' := by
  cases a with
  | append rows =>
    simp only [State.step] at hs
    split_ifs at hs with hidle
    obtain rfl := Option.some.inj hs
    exact h.setPhase rfl rfl rfl (.inr hidle)
  | rotateRolling =>
    simp only [State.step] at hs
    split_ifs at hs
    obtain ⟨rows, -, rfl⟩ := Option.map_eq_some_iff.mp hs
    exact h.setPhase rfl rfl rfl (.inl trivial)
  | rotateYearly now =>
    simp only [State.step] at hs
    split_ifs at hs with hidle
    obtain ⟨rows, -, rfl⟩ := Option.map_eq_some_iff.mp hs
    split_ifs
    · exact h
    · exact h.setPhase rfl rfl rfl (.inl trivial)
  | op => exact h.perform hs
  | diskFull =>
    cases hphase : s.phase with
    | staging data =>
      simp only [State.step, hphase] at hs
      split_ifs at hs with hfull
      obtain rfl := Option.some.inj hs
      refine h.of_slots rfl rfl rfl fun n hn => ?_
      exact List.all_eq_true.mp hfull n (List.mem_range.mpr hn)
    | _ => simp [State.step, hphase] at hs
  | stop =>
    cases hphase : s.phase with
    | idle => simp [State.step, hphase] at hs
    | _ =>
      simp only [State.step, hphase, Option.some.injEq] at hs
      subst hs
      exact h.setPhase rfl rfl rfl (.inr rfl)

omit [DecidableEq Row] in
theorem rolling_start (h : s.Start) : Rolling keep s := by
  obtain ⟨-, -, hslots, -, hphase, -, hevicted, hpublished, -, -⟩ := h
  refine ⟨by simp [hslots], by simp [hslots], by simp [hslots], ?_, ?_⟩
  · rw [hslots, hevicted, hpublished]
    simp [total, weigh]
  · rw [Room, hphase]
    trivial

/-- A step evicts nothing, or the oldest of the archives where every slot is full. -/
def EvictsOldest (keep : ℕ) (s s' : State Row) : Prop :=
  s'.evicted = s.evicted ∨ ∃ n old, s.slots n = some old ∧ s'.evicted = s.evicted ++ [old] ∧
    (∀ m < keep, (s.slots (m + 1)).isSome) ∧ ∀ m a, s.slots m = some a → old.number ≤ a.number

omit [DecidableEq Row] in
/-- What is in the last slot is the oldest. -/
theorem Rolling.oldest (h : Rolling keep s) {old : Archive Row}
    (hold : s.slots (slotCount keep) = some old) {m : ℕ} {a : Archive Row} (ha : s.slots m = some a) :
    old.number ≤ a.number := by
  rcases Nat.lt_trichotomy m (slotCount keep) with hlt | rfl | hgt
  · exact (h.newer m _ a old hlt ha hold).le
  · rw [Option.some.inj (ha.symm.trans hold)]
  · rw [h.outside m (.inr hgt)] at ha
    cases ha

theorem Rolling.evictsOldest {a : Act Row} (h : Rolling keep s) (hs : s.step year keep a = some s') :
    EvictsOldest keep s s' := by
  have hroom := h.room
  rw [Room] at hroom
  have hcount : slotCount keep = max keep 1 := rfl
  cases a with
  | append rows =>
    simp only [State.step] at hs
    split_ifs at hs
    obtain rfl := Option.some.inj hs
    exact .inl rfl
  | rotateRolling =>
    simp only [State.step] at hs
    split_ifs at hs
    obtain ⟨rows, -, rfl⟩ := Option.map_eq_some_iff.mp hs
    exact .inl rfl
  | rotateYearly now =>
    simp only [State.step] at hs
    split_ifs at hs
    obtain ⟨rows, -, rfl⟩ := Option.map_eq_some_iff.mp hs
    split_ifs
    · exact .inl rfl
    · exact .inl rfl
  | diskFull =>
    cases hphase : s.phase with
    | staging data =>
      simp only [State.step, hphase] at hs
      split_ifs at hs
      obtain rfl := Option.some.inj hs
      exact .inl rfl
    | _ => simp [State.step, hphase] at hs
  | stop =>
    cases hphase : s.phase with
    | idle => simp [State.step, hphase] at hs
    | _ =>
      simp only [State.step, hphase, Option.some.injEq] at hs
      subst hs
      exact .inl rfl
  | op =>
    change s.perform year keep = some s' at hs
    cases hphase : s.phase with
    | idle => simp [State.perform, hphase] at hs
    | staging data | restaging data | truncating | rewriting now =>
      simp only [State.perform, hphase, Option.some.injEq] at hs
      subst hs
      exact .inl rfl
    | merging now years =>
      cases years <;>
        · simp only [State.perform, hphase, Option.some.injEq] at hs
          subst hs
          exact .inl rfl
    | evicting data =>
      simp only [hphase] at hroom
      simp only [State.perform, hphase, Option.some.injEq] at hs
      subst hs
      -- What is unlinked is in the last slot, where the oldest archive is.
      cases hslot : s.slots keep with
      | none => exact .inl (by simp [State.unlink, hslot])
      | some old =>
        have hkeep : keep ≠ 0 := by
          rintro rfl
          rw [h.outside 0 (.inl rfl)] at hslot
          cases hslot
        have hlast : slotCount keep = keep := by omega
        refine .inr ⟨keep, old, hslot, by simp [State.unlink, hslot], hroom, fun m a ha => ?_⟩
        exact h.oldest (hlast.symm ▸ hslot) ha
    | shifting i =>
      simp only [hphase] at hroom
      cases i with
      | zero =>
        simp only [State.perform, hphase, Option.some.injEq] at hs
        subst hs
        exact .inl rfl
      | succ i =>
        simp only [State.perform, hphase, Option.map_eq_some_iff] at hs
        obtain ⟨a, ha, rfl⟩ := hs
        -- The next slot is free, or it is the last one and all before it are full.
        rcases hroom.2 with hnone | ⟨hlast, hfull⟩
        · exact .inl (by simp [State.put, hnone])
        · obtain ⟨old, hold⟩ := Option.isSome_iff_exists.mp (hfull (i + 1) (by omega))
          refine .inr ⟨i + 2, old, hold, by simp [State.put, hold], fun m hm => hfull m (by omega), ?_⟩
          exact fun m b hb => h.oldest (hlast ▸ hold) hb
    | publishing =>
      simp only [hphase] at hroom
      simp only [State.perform, hphase, Option.map_eq_some_iff] at hs
      obtain ⟨data, -, rfl⟩ := hs
      -- There is no slot but the first one where it is not free.
      rcases hroom with hnone | ⟨hone, hfull⟩
      · exact .inl (by simp [State.put, hnone])
      · obtain ⟨old, hold⟩ := Option.isSome_iff_exists.mp (hfull 0 (by omega))
        refine .inr ⟨1, old, hold, by simp [State.put, hold], fun m hm => hfull m (by omega), ?_⟩
        exact fun m b hb => h.oldest (hone.symm ▸ hold) hb

end Rolling

/-! ## The rows -/

section Rows

variable [DecidableEq Row] (year : Row → Option (Option ℤ)) (keep : ℕ)

/-- The copies of a row in the archive of its year. -/
def State.yearCopies (s : State Row) (r : Row) : ℕ :=
  match year r with
  | some (some y) => ((s.years y).getD []).count r
  | _ => 0

/-- The copies of a row in the log, in an archive, and in the archives that were evicted. -/
def State.copies (s : State Row) (r : Row) : ℕ :=
  s.rows.count r + total (fun a => a.rows.count r) s.slots (slotCount keep) + s.yearCopies year r +
    (s.evicted.map fun a => a.rows.count r).sum

/-- The rows that are in two files: those offered, those doubled, and those of the log where it has
been published and is yet to be emptied. -/
def State.repeated (s : State Row) : List Row :=
  s.offered ++ s.doubled ++ match s.phase with
    | .truncating => s.rows
    | _ => []

/-- The rows of the log that the archive of their year holds were put there from the log, by a
rotation that did not finish. -/
def FreshMerge (s : State Row) : Phase Row → Prop
  | .merging now (y :: _) => ∀ r ∈ rowsOf year now y s.rows,
      ((s.years y).getD []).count r = s.offered.count r ∨ s.rows.count r = s.offered.count r
  | _ => True

instance (s : State Row) : (phase : Phase Row) → Decidable (FreshMerge year s phase)
  | .merging _ (_ :: _) => inferInstanceAs (Decidable (∀ _ ∈ _, _))
  | .merging _ [] | .idle | .staging _ | .evicting _ | .restaging _ | .shifting _ | .publishing
  | .truncating | .rewriting _ => inferInstanceAs (Decidable True)

/-- No merge takes a new row for one that the archive holds. -/
def Fresh (s : State Row) (a : Act Row) : Prop := a = .op → FreshMerge year s s.phase

instance (s : State Row) (a : Act Row) : Decidable (Fresh year s a) :=
  inferInstanceAs (Decidable (_ → _))

/-- What the phase says of the log and of the rows offered. -/
def Prepared (s : State Row) : Prop :=
  match s.phase with
  | .staging data | .evicting data | .restaging data => data = s.rows
  | .shifting _ | .publishing => s.staging = some s.rows
  | .truncating => ∃ a, s.slots 1 = some a ∧ a.rows = s.rows
  | .merging now years => (∀ y ∈ years, y < now) ∧
      ∀ r y, yearIn year now r = some y → y < now → y ∉ years → s.offered.count r = s.rows.count r
  | .rewriting now => ∀ r y, yearIn year now r = some y → y < now →
      s.offered.count r = s.rows.count r
  | _ => True

/-- What holds of the rows, where `fresh` is whether all merges so far were. -/
structure Conserved (fresh : Prop) (s : State Row) : Prop where
  conserved : fresh → ∀ r, (year r).isSome →
    s.copies year keep r = s.appended.count r + s.repeated.count r
  held : ∀ r, (year r).isSome → r ∈ s.appended → 0 < s.copies year keep r
  offered : ∀ r, s.offered.count r ≤ s.rows.count r ∧ s.offered.count r ≤ s.yearCopies year r
  prepared : Prepared year s

variable {year keep} {fresh : Prop} {s s' : State Row}

theorem conserved_start (h : s.Start) : Conserved year keep fresh s := by
  obtain ⟨hlog, -, hslots, hyears, hphase, happended, hevicted, -, hoffered, hdoubled⟩ := h
  have hyear : ∀ r, s.yearCopies year r = 0 := by
    intro r
    unfold State.yearCopies
    split <;> simp [hyears]
  refine ⟨fun _ r _ => ?_, fun r _ hmem => ?_, fun r => ?_, ?_⟩
  · simp [State.copies, State.repeated, State.rows, hyear, hlog, hslots, hphase, happended, hevicted,
      hoffered, hdoubled, total, weigh]
  · simp [happended] at hmem
  · simp [hoffered]
  · rw [Prepared, hphase]
    trivial

omit [DecidableEq Row] in
theorem repeated_of_ne (h : s.phase ≠ .truncating) : s.repeated = s.offered ++ s.doubled := by
  unfold State.repeated
  split
  · exact absurd ‹_› h
  · exact List.append_nil _

/-- A step that changes no file but the staging one, between phases in which the log is not yet
published. -/
theorem Conserved.setPhase (h : Conserved year keep fresh s) (data : Option (List Row))
    {phase : Phase Row} (hbefore : s.phase ≠ .truncating) (hafter : phase ≠ .truncating)
    (hprepared : Prepared year { s with staging := data, phase := phase }) :
    Conserved year keep fresh { s with staging := data, phase := phase } := by
  refine ⟨fun hf r hr => ?_, h.held, h.offered, hprepared⟩
  have hconserved := h.conserved hf r hr
  rw [repeated_of_ne hbefore] at hconserved
  rw [repeated_of_ne hafter]
  exact hconserved

omit [DecidableEq Row] in
theorem sum_toList (w : Archive Row → ℕ) (a : Option (Archive Row)) :
    (a.toList.map w).sum = weigh w a := by
  cases a <;> simp [weigh]

/-- The move of an archive into another slot, and the eviction of what was there. -/
theorem copies_move {n : ℕ} (hn : n < slotCount keep) {a : Archive Row} (h0 : 0 < n)
    (ha : s.slots n = some a) (phase : Phase Row) (r : Row) :
    ({ s.put (n + 1) a with
      slots := Function.update (s.put (n + 1) a).slots n none, phase := phase } :
        State Row).copies year keep r = s.copies year keep r := by
  have hput := total_update (fun a => a.rows.count r) s.slots (Nat.succ_pos n) hn (some a)
  have hclear := total_update (fun a => a.rows.count r) (Function.update s.slots (n + 1) (some a))
    h0 hn.le none
  have hnone : weigh (fun a => a.rows.count r) (none : Option (Archive Row)) = 0 := rfl
  have hsome : weigh (fun a => a.rows.count r) (some a) = a.rows.count r := rfl
  rw [Function.update_of_ne (show n ≠ n + 1 by omega), ha] at hclear
  change s.rows.count r + total (fun a => a.rows.count r)
      (Function.update (Function.update s.slots (n + 1) (some a)) n none) (slotCount keep) +
      s.yearCopies year r +
      ((s.evicted ++ (s.slots (n + 1)).toList).map fun a => a.rows.count r).sum = _
  rw [List.map_append, List.sum_append, sum_toList, State.copies]
  rw [Nat.succ_eq_add_one] at hput
  omega

theorem copies_unlink (hroll : Rolling keep s) (phase : Phase Row) (r : Row) :
    ({ s.unlink keep with phase := phase } : State Row).copies year keep r =
      s.copies year keep r := by
  change s.rows.count r + total (fun a => a.rows.count r) (Function.update s.slots keep none)
      (slotCount keep) + s.yearCopies year r +
      ((s.evicted ++ (s.slots keep).toList).map fun a => a.rows.count r).sum = _
  rw [List.map_append, List.sum_append, sum_toList, State.copies]
  by_cases h0 : 0 < keep
  · have htotal := total_update (fun a => a.rows.count r) s.slots h0 (le_max_left keep 1) none
    have hnone : weigh (fun a => a.rows.count r) (none : Option (Archive Row)) = 0 := rfl
    unfold slotCount
    omega
  · have hzero : keep = 0 := by omega
    subst hzero
    have hempty := hroll.outside 0 (.inl rfl)
    rw [hempty, ← hempty, Function.update_eq_self, hempty]
    rfl

theorem copies_publish (data : List Row) (r : Row) :
    ({ s.put 1 ⟨data, s.published⟩ with
      staging := none, published := s.published + 1, phase := .truncating } :
        State Row).copies year keep r = s.copies year keep r + data.count r := by
  have htotal := total_update (fun a => a.rows.count r) s.slots Nat.one_pos (le_max_right keep 1)
    (some ⟨data, s.published⟩)
  have hsome : weigh (fun a => a.rows.count r) (some (⟨data, s.published⟩ : Archive Row)) =
    data.count r := rfl
  change s.rows.count r + total (fun a => a.rows.count r)
      (Function.update s.slots 1 (some ⟨data, s.published⟩)) (slotCount keep) +
      s.yearCopies year r + ((s.evicted ++ (s.slots 1).toList).map fun a => a.rows.count r).sum = _
  rw [List.map_append, List.sum_append, sum_toList, State.copies]
  unfold slotCount
  omega

end Rows

section Steps

variable [DecidableEq Row] {year : Row → Option (Option ℤ)} {keep : ℕ} {fresh : Prop}
  {s s' : State Row}

omit [DecidableEq Row] in
/-- Only a row that has a year of its own can be of a year before this one. -/
theorem year_of_cold {now y : ℤ} {r : Row} (hy : yearIn year now r = some y) (hlt : y < now) :
    year r = some (some y) := by
  obtain ⟨o, ho, hget⟩ := Option.map_eq_some_iff.mp hy
  cases o with
  | none =>
    rw [Option.getD_none] at hget
    omega
  | some y' =>
    rw [Option.getD_some] at hget
    rw [ho, hget]

theorem Conserved.append (h : Conserved year keep fresh s) (hidle : s.phase = .idle)
    (rows : List Row) : Conserved year keep fresh
      { s with log := some (s.rows ++ rows), appended := s.appended ++ rows } := by
  have hne : s.phase ≠ .truncating := by rw [hidle]; nofun
  let s₁ : State Row := { s with log := some (s.rows ++ rows), appended := s.appended ++ rows }
  have hne₁ : s₁.phase ≠ .truncating := hne
  have hcopies : ∀ r, s₁.copies year keep r = s.copies year keep r + rows.count r := by
    intro r
    change (s.rows ++ rows).count r + total (fun a => a.rows.count r) s.slots (slotCount keep) +
      s.yearCopies year r + (s.evicted.map fun a => a.rows.count r).sum = _
    rw [List.count_append, State.copies]
    omega
  refine ⟨fun hf r hr => ?_, fun r hr hmem => ?_, fun r => ?_, ?_⟩
  · have hconserved := h.conserved hf r hr
    rw [repeated_of_ne hne] at hconserved
    rw [repeated_of_ne hne₁, hcopies, hconserved]
    change s.appended.count r + (s.offered ++ s.doubled).count r + rows.count r =
      (s.appended ++ rows).count r + (s.offered ++ s.doubled).count r
    have happended : (s.appended ++ rows).count r = s.appended.count r + rows.count r :=
      List.count_append
    omega
  · rw [hcopies]
    rcases List.mem_append.mp hmem with hold | hnew
    · have hheld := h.held r hr hold
      omega
    · have hpos := List.count_pos_iff.mpr hnew
      omega
  · have hoffered := h.offered r
    change s.offered.count r ≤ (s.rows ++ rows).count r ∧ s.offered.count r ≤ s.yearCopies year r
    rw [List.count_append]
    omega
  · rw [Prepared]
    simp only [hidle]

/-- The oldest archive is evicted before the second write. -/
theorem Conserved.unlink (h : Conserved year keep fresh s) (hroll : Rolling keep s) {data : List Row}
    (hphase : s.phase = .evicting data) :
    Conserved year keep fresh { s.unlink keep with phase := .restaging data } := by
  have hprepared := h.prepared
  rw [Prepared, hphase] at hprepared
  refine ⟨fun hf r hr => ?_, fun r hr hmem => ?_, h.offered, hprepared⟩
  · have hconserved := h.conserved hf r hr
    rw [repeated_of_ne (by rw [hphase]; nofun)] at hconserved
    rw [copies_unlink hroll, hconserved, repeated_of_ne (by nofun)]
    rfl
  · rw [copies_unlink hroll]
    exact h.held r hr hmem

theorem Conserved.shift (h : Conserved year keep fresh s) (hroll : Rolling keep s) {i : ℕ}
    {a : Archive Row} (hphase : s.phase = .shifting (i + 1)) (ha : s.slots (i + 1) = some a) :
    Conserved year keep fresh { s.put (i + 2) a with
      slots := Function.update (s.put (i + 2) a).slots (i + 1) none, phase := .shifting i } := by
  have hprepared := h.prepared
  rw [Prepared, hphase] at hprepared
  have hroom := hroll.room
  rw [Room, hphase] at hroom
  refine ⟨fun hf r hr => ?_, fun r hr hmem => ?_, h.offered, hprepared⟩
  · have hconserved := h.conserved hf r hr
    rw [repeated_of_ne (by rw [hphase]; nofun)] at hconserved
    rw [copies_move hroom.1 (Nat.succ_pos i) ha, hconserved, repeated_of_ne (by nofun)]
    rfl
  · rw [copies_move hroom.1 (Nat.succ_pos i) ha]
    exact h.held r hr hmem

/-- From the publishing on, the rows of the log are in two files. -/
theorem Conserved.publish (h : Conserved year keep fresh s) {data : List Row}
    (hphase : s.phase = .publishing) (hstaging : s.staging = some data) :
    Conserved year keep fresh { s.put 1 ⟨data, s.published⟩ with
      staging := none, published := s.published + 1, phase := .truncating } := by
  have hprepared := h.prepared
  rw [Prepared, hphase] at hprepared
  have hdata : data = s.rows := Option.some.inj (hstaging.symm.trans hprepared)
  have hslot : (s.put 1 ⟨data, s.published⟩).slots 1 = some ⟨data, s.published⟩ := by
    simp [State.put]
  refine ⟨fun hf r hr => ?_, fun r hr hmem => ?_, h.offered, ⟨data, s.published⟩, hslot, hdata⟩
  · have hconserved := h.conserved hf r hr
    rw [repeated_of_ne (by rw [hphase]; nofun)] at hconserved
    rw [copies_publish, hconserved, hdata]
    change s.appended.count r + (s.offered ++ s.doubled).count r + s.rows.count r =
      s.appended.count r + (s.offered ++ s.doubled ++ s.rows).count r
    have hrepeated : (s.offered ++ s.doubled ++ s.rows).count r =
        (s.offered ++ s.doubled).count r + s.rows.count r := List.count_append
    omega
  · have hheld := h.held r hr hmem
    rw [copies_publish]
    omega

theorem Conserved.truncate (h : Conserved year keep fresh s) (hphase : s.phase = .truncating) :
    Conserved year keep fresh { s with
      log := some [], phase := .idle, doubled := s.doubled ++ s.offered, offered := [] } := by
  let s₁ : State Row := { s with
    log := some [], phase := .idle, doubled := s.doubled ++ s.offered, offered := [] }
  have hprepared := h.prepared
  rw [Prepared, hphase] at hprepared
  obtain ⟨a, ha, hrows⟩ := hprepared
  have hcopies : ∀ r, s₁.copies year keep r + s.rows.count r = s.copies year keep r := by
    intro r
    change ([] : List Row).count r + total (fun a => a.rows.count r) s.slots (slotCount keep) +
      s.yearCopies year r + (s.evicted.map fun a => a.rows.count r).sum + s.rows.count r = _
    rw [List.count_nil, State.copies]
    omega
  refine ⟨fun hf r hr => ?_, fun r hr hmem => ?_, fun r => by simp, trivial⟩
  · have hconserved := h.conserved hf r hr
    have hlog := hcopies r
    rw [State.repeated, hphase] at hconserved
    rw [repeated_of_ne (by nofun)]
    change s₁.copies year keep r = s.appended.count r + ([] ++ (s.doubled ++ s.offered)).count r
    simp only [List.count_append, List.count_nil] at hconserved ⊢
    omega
  · -- The archive that was just published holds all rows of the log.
    have hslot := weigh_le_total (fun a => a.rows.count r) s.slots Nat.one_pos (le_max_right keep 1)
    rw [ha] at hslot
    change a.rows.count r ≤ total _ s.slots (slotCount keep) at hslot
    have hin : total (fun a => a.rows.count r) s.slots (slotCount keep) ≤ s₁.copies year keep r := by
      change _ ≤ _ + total (fun a => a.rows.count r) s.slots (slotCount keep) + _ + _
      omega
    have hheld := h.held r hr hmem
    have hlog := hcopies r
    change 0 < s₁.copies year keep r
    rw [hrows] at hslot
    omega

/-- A stop leaves in the log what is published. -/
theorem Conserved.stop_truncating (h : Conserved year keep fresh s) (hphase : s.phase = .truncating) :
    Conserved year keep fresh { s with phase := .idle, doubled := s.doubled ++ s.rows } := by
  refine ⟨fun hf r hr => ?_, h.held, h.offered, trivial⟩
  have hconserved := h.conserved hf r hr
  rw [State.repeated, hphase] at hconserved
  rw [repeated_of_ne (by nofun)]
  change s.copies year keep r = s.appended.count r + (s.offered ++ (s.doubled ++ s.rows)).count r
  rw [hconserved, List.append_assoc]

/-- The merge of a year: what the archive lacks of the log's rows is added. -/
theorem Conserved.merge (h : Conserved year keep fresh s) {now y : ℤ} {years : List ℤ}
    (hphase : s.phase = .merging now (y :: years)) (hfresh : fresh → Fresh year s .op) :
    Conserved year keep fresh { s.merge year now y with phase := .merging now years } := by
  have hprepared := h.prepared
  rw [Prepared, hphase] at hprepared
  obtain ⟨hcold, hdone⟩ := hprepared
  have hlt : y < now := hcold y List.mem_cons_self
  let s₁ : State Row := { s.merge year now y with phase := .merging now years }
  have hne : s.phase ≠ .truncating := by rw [hphase]; nofun
  have hne₁ : s₁.phase ≠ .truncating := nofun
  have hoffered₁ : s₁.offered = s.offered.filter (fun r => yearIn year now r ≠ some y) ++
    rowsOf year now y s.rows := rfl
  -- A row of this year has all its copies offered, and the archive holds as many.
  have hhere : ∀ r, yearIn year now r = some y → s₁.offered.count r = s.rows.count r ∧
      (fresh →
        s₁.yearCopies year r + s.offered.count r = s.yearCopies year r + s.rows.count r) ∧
      s.rows.count r ≤ s₁.yearCopies year r ∧ s.yearCopies year r ≤ s₁.yearCopies year r := by
    intro r hr
    have hyear := year_of_cold hr hlt
    have hold : s.yearCopies year r = ((s.years y).getD []).count r := by
      simp only [State.yearCopies, hyear]
    have hnew : s₁.yearCopies year r = ((s.years y).getD []).count r +
        (s.rows.count r - ((s.years y).getD []).count r) := by
      have hyears : s₁.years y = some ((s.years y).getD [] ++
          toAdd ((s.years y).getD []) (rowsOf year now y s.rows)) := Function.update_self ..
      simp only [State.yearCopies, hyear]
      rw [hyears, Option.getD_some, List.count_append, count_toAdd, count_rowsOf, if_pos hr]
    have hcount : s₁.offered.count r = s.rows.count r := by
      have hnone : (s.offered.filter (fun r => yearIn year now r ≠ some y)).count r = 0 :=
        List.count_eq_zero.mpr fun hmem => by simp [hr] at hmem
      rw [hoffered₁, List.count_append, hnone, count_rowsOf, if_pos hr, Nat.zero_add]
    have hoffered := h.offered r
    refine ⟨hcount, fun hf => ?_, by omega, by omega⟩
    by_cases hmem : r ∈ rowsOf year now y s.rows
    · have hcopies := hfresh hf rfl
      rw [hphase] at hcopies
      have hrow := hcopies r hmem
      omega
    · have hzero := List.count_eq_zero_of_not_mem hmem
      rw [count_rowsOf, if_pos hr] at hzero
      omega
  -- A row of another year stays as it is.
  have hother : ∀ r, yearIn year now r ≠ some y →
      s₁.offered.count r = s.offered.count r ∧ s₁.yearCopies year r = s.yearCopies year r := by
    intro r hr
    constructor
    · rw [hoffered₁, List.count_append, count_rowsOf, if_neg hr, Nat.add_zero]
      exact List.count_filter (by simpa using hr)
    · unfold State.yearCopies
      split
      · rename_i y' hy'
        have hne' : y' ≠ y := by
          rintro rfl
          exact hr (by rw [yearIn, hy']; rfl)
        have hyears : s₁.years y' = s.years y' := Function.update_of_ne hne' ..
        rw [hyears]
      · rfl
  have hcopies : ∀ r, s₁.copies year keep r + s.yearCopies year r =
      s.copies year keep r + s₁.yearCopies year r := by
    intro r
    change s.rows.count r + total (fun a => a.rows.count r) s.slots (slotCount keep) +
      s₁.yearCopies year r + (s.evicted.map fun a => a.rows.count r).sum + _ = _
    rw [State.copies]
    omega
  refine ⟨fun hf r hr => ?_, fun r hr hmem => ?_, fun r => ?_,
    fun y' hy' => hcold y' (List.mem_cons_of_mem _ hy'), ?_⟩
  · have hconserved := h.conserved hf r hr
    have hyears := hcopies r
    rw [repeated_of_ne hne, List.count_append] at hconserved
    rw [repeated_of_ne hne₁]
    change s₁.copies year keep r = s.appended.count r + (s₁.offered ++ s.doubled).count r
    rw [List.count_append]
    by_cases hy : yearIn year now r = some y
    · obtain ⟨hcount, hsum, -⟩ := hhere r hy
      have hsum := hsum hf
      omega
    · have hrow := hother r hy
      omega
  · have hheld := h.held r hr hmem
    have hyears := hcopies r
    change 0 < s₁.copies year keep r
    by_cases hy : yearIn year now r = some y
    · have hrow := (hhere r hy).2.2.2
      omega
    · have hrow := hother r hy
      omega
  · have hoffered := h.offered r
    change s₁.offered.count r ≤ s.rows.count r ∧ s₁.offered.count r ≤ s₁.yearCopies year r
    by_cases hy : yearIn year now r = some y
    · obtain ⟨hcount, -, hle, -⟩ := hhere r hy
      omega
    · have hrow := hother r hy
      omega
  · intro r y' hy' hlt' hmem
    change s₁.offered.count r = s.rows.count r
    by_cases hy : yearIn year now r = some y
    · exact (hhere r hy).1
    · rw [(hother r hy).1]
      refine hdone r y' hy' hlt' fun hmem' => ?_
      rcases List.mem_cons.mp hmem' with rfl | hrest
      · exact hy hy'
      · exact hmem hrest

theorem Conserved.rewrite (h : Conserved year keep fresh s) {now : ℤ}
    (hphase : s.phase = .rewriting now) : Conserved year keep fresh { s with
      log := some (kept year now s.rows)
      phase := .idle
      offered := s.offered.filter fun r => (yearIn year now r).any (now ≤ ·) } := by
  have hprepared := h.prepared
  rw [Prepared, hphase] at hprepared
  have hne : s.phase ≠ .truncating := by rw [hphase]; nofun
  let offered := s.offered.filter fun r => (yearIn year now r).any (now ≤ ·)
  have hkept : ∀ r, (yearIn year now r).any (now ≤ ·) →
      (kept year now s.rows).count r = s.rows.count r ∧ offered.count r = s.offered.count r := by
    intro r hr
    exact ⟨by rw [count_kept, if_pos hr], List.count_filter hr⟩
  have hcold : ∀ r, ¬ (yearIn year now r).any (now ≤ ·) →
      (kept year now s.rows).count r = 0 ∧ offered.count r = 0 := by
    intro r hr
    refine ⟨by rw [count_kept, if_neg hr], List.count_eq_zero.mpr fun hmem => ?_⟩
    exact hr (List.mem_filter.mp hmem).2
  have hall : ∀ r, (year r).isSome → ¬ (yearIn year now r).any (now ≤ ·) →
      s.offered.count r = s.rows.count r := by
    intro r hr hk
    obtain ⟨o, ho⟩ := Option.isSome_iff_exists.mp hr
    have hy : yearIn year now r = some (o.getD now) := by rw [yearIn, ho]; rfl
    exact hprepared r _ hy (by simpa [hy] using hk)
  have hcopies : ∀ r, (kept year now s.rows).count r +
      total (fun a => a.rows.count r) s.slots (slotCount keep) + s.yearCopies year r +
        (s.evicted.map fun a => a.rows.count r).sum + s.rows.count r =
      s.copies year keep r + (kept year now s.rows).count r := by
    intro r
    rw [State.copies]
    omega
  refine ⟨fun hf r hr => ?_, fun r hr hmem => ?_, fun r => ?_, trivial⟩
  · have hconserved := h.conserved hf r hr
    have hlog := hcopies r
    rw [repeated_of_ne hne, List.count_append] at hconserved
    rw [repeated_of_ne (by nofun)]
    change (kept year now s.rows).count r +
      total (fun a => a.rows.count r) s.slots (slotCount keep) + s.yearCopies year r +
        (s.evicted.map fun a => a.rows.count r).sum =
          s.appended.count r + (offered ++ s.doubled).count r
    rw [List.count_append]
    by_cases hk : (yearIn year now r).any (now ≤ ·)
    · have hrow := hkept r hk
      omega
    · have hrow := hcold r hk
      have heq := hall r hr hk
      omega
  · have hheld := h.held r hr hmem
    have hlog := hcopies r
    have hoffered := h.offered r
    change 0 < (kept year now s.rows).count r +
      total (fun a => a.rows.count r) s.slots (slotCount keep) + s.yearCopies year r +
        (s.evicted.map fun a => a.rows.count r).sum
    by_cases hk : (yearIn year now r).any (now ≤ ·)
    · have hrow := hkept r hk
      omega
    · -- A cold row of the log is in the archive of its year.
      have heq := hall r hr hk
      omega
  · have hoffered := h.offered r
    change offered.count r ≤ (kept year now s.rows).count r ∧ offered.count r ≤ s.yearCopies year r
    by_cases hk : (yearIn year now r).any (now ≤ ·)
    · have hrow := hkept r hk
      omega
    · have hrow := hcold r hk
      omega

/-- Where the yearly rotation begins, the rows of the past years that it has not yet offered are
those of its years. -/
theorem prepared_coldYears (h : Conserved year keep fresh s) (now : ℤ) :
    Prepared year { s with phase := .merging now (coldYears year now s.rows) } := by
  refine ⟨fun y hy => of_decide_eq_true (List.mem_filter.mp hy).2, fun r y hy hlt hmem => ?_⟩
  change s.offered.count r = s.rows.count r
  have hnot : r ∉ s.rows := fun hr =>
    hmem (List.mem_filter.mpr ⟨mem_sortedYears.mpr ⟨r, hr, hy⟩, by simpa using hlt⟩)
  have hzero := List.count_eq_zero_of_not_mem hnot
  have hoffered := h.offered r
  omega

theorem Conserved.perform (h : Conserved year keep fresh s) (hroll : Rolling keep s)
    (hfresh : fresh → Fresh year s .op) (hs : s.perform year keep = some s') :
    Conserved year keep fresh s' := by
  -- What the step relies on is what its phase has prepared.
  have hprepared := h.prepared
  rw [Prepared] at hprepared
  cases hphase : s.phase with
  | idle => simp [State.perform, hphase] at hs
  | staging data =>
    simp only [State.perform, hphase, Option.some.injEq] at hs hprepared
    subst hs
    exact h.setPhase (some data) (by rw [hphase]; nofun) nofun (congrArg some hprepared)
  | evicting data =>
    simp only [State.perform, hphase, Option.some.injEq] at hs
    subst hs
    exact h.unlink hroll hphase
  | restaging data =>
    simp only [State.perform, hphase, Option.some.injEq] at hs hprepared
    subst hs
    exact h.setPhase (some data) (by rw [hphase]; nofun) nofun (congrArg some hprepared)
  | shifting i =>
    simp only [hphase] at hprepared
    cases i with
    | zero =>
      simp only [State.perform, hphase, Option.some.injEq] at hs
      subst hs
      exact h.setPhase s.staging (by rw [hphase]; nofun) nofun hprepared
    | succ i =>
      simp only [State.perform, hphase, Option.map_eq_some_iff] at hs
      obtain ⟨a, ha, rfl⟩ := hs
      exact h.shift hroll hphase ha
  | publishing =>
    simp only [State.perform, hphase, Option.map_eq_some_iff] at hs
    obtain ⟨data, hdata, rfl⟩ := hs
    exact h.publish hphase hdata
  | truncating =>
    simp only [State.perform, hphase, Option.some.injEq] at hs
    subst hs
    exact h.truncate hphase
  | merging now years =>
    cases years with
    | nil =>
      simp only [State.perform, hphase, Option.some.injEq] at hs hprepared
      subst hs
      refine h.setPhase s.staging (by rw [hphase]; nofun) nofun fun r y hy hlt => ?_
      exact hprepared.2 r y hy hlt List.not_mem_nil
    | cons y years =>
      simp only [State.perform, hphase, Option.some.injEq] at hs
      subst hs
      exact h.merge hphase hfresh
  | rewriting now =>
    simp only [State.perform, hphase, Option.some.injEq] at hs
    subst hs
    exact h.rewrite hphase

theorem Conserved.step {a : Act Row} (h : Conserved year keep fresh s) (hroll : Rolling keep s)
    (hfresh : fresh → Fresh year s a) (hs : s.step year keep a = some s') :
    Conserved year keep fresh s' := by
  cases a with
  | append rows =>
    simp only [State.step] at hs
    split_ifs at hs with hidle
    obtain rfl := Option.some.inj hs
    exact h.append hidle rows
  | rotateRolling =>
    simp only [State.step] at hs
    split_ifs at hs with hidle
    obtain ⟨rows, hlog, rfl⟩ := Option.map_eq_some_iff.mp hs
    have hrows : rows = s.rows := by rw [State.rows, hlog, Option.getD_some]
    exact h.setPhase s.staging (by rw [hidle]; nofun) nofun hrows
  | rotateYearly now =>
    simp only [State.step] at hs
    split_ifs at hs with hidle
    obtain ⟨rows, hlog, rfl⟩ := Option.map_eq_some_iff.mp hs
    have hrows : rows = s.rows := by rw [State.rows, hlog, Option.getD_some]
    split_ifs
    · exact h
    · subst hrows
      exact h.setPhase s.staging (by rw [hidle]; nofun) nofun (prepared_coldYears h now)
  | op => exact h.perform hroll hfresh hs
  | diskFull =>
    have hprepared := h.prepared
    rw [Prepared] at hprepared
    cases hphase : s.phase with
    | staging data =>
      simp only [State.step, hphase] at hs hprepared
      split_ifs at hs
      obtain rfl := Option.some.inj hs
      exact h.setPhase s.staging (by rw [hphase]; nofun) nofun hprepared
    | _ => simp [State.step, hphase] at hs
  | stop =>
    cases hphase : s.phase with
    | idle => simp [State.step, hphase] at hs
    | truncating =>
      simp only [State.step, hphase, Option.some.injEq] at hs
      subst hs
      exact h.stop_truncating hphase
    | _ =>
      simp only [State.step, hphase, Option.some.injEq] at hs
      subst hs
      exact h.setPhase s.staging (by rw [hphase]; nofun) nofun trivial

end Steps

/-! ## Rotations that are not stopped -/

section Single

variable [DecidableEq Row] {year : Row → Option (Option ℤ)} {keep : ℕ} {fresh : Prop}
  {s s' : State Row}

/-- A rotation is not stopped once its rows are in two files. -/
def Whole (s : State Row) (a : Act Row) : Prop :=
  a = .stop → match s.phase with
    | .truncating | .merging _ _ | .rewriting _ => False
    | _ => True

/-- Only the current rotation has rows in two files. -/
structure Single (year : Row → Option (Option ℤ)) (s : State Row) : Prop where
  doubled : s.doubled = []
  offered : match s.phase with
    | .merging now _ | .rewriting now => ∀ r ∈ s.offered, (yearIn year now r).any (· < now)
    | _ => s.offered = []

omit [DecidableEq Row] in
theorem single_start (h : s.Start) : Single year s := by
  obtain ⟨-, -, -, -, hphase, -, -, -, hoffered, hdoubled⟩ := h
  refine ⟨hdoubled, ?_⟩
  simp only [hphase]
  exact hoffered

theorem Single.perform (h : Single year s) (hconserved : Conserved year keep fresh s)
    (hs : s.perform year keep = some s') : Single year s' := by
  have hdoubled := h.doubled
  have hoffered := h.offered
  cases hphase : s.phase with
  | idle => simp [State.perform, hphase] at hs
  | staging data | evicting data | restaging data =>
    simp only [State.perform, hphase, Option.some.injEq] at hs hoffered
    subst hs
    exact ⟨hdoubled, hoffered⟩
  | shifting i =>
    simp only [hphase] at hoffered
    cases i with
    | zero =>
      simp only [State.perform, hphase, Option.some.injEq] at hs
      subst hs
      exact ⟨hdoubled, hoffered⟩
    | succ i =>
      simp only [State.perform, hphase, Option.map_eq_some_iff] at hs
      obtain ⟨a, -, rfl⟩ := hs
      exact ⟨hdoubled, hoffered⟩
  | publishing =>
    simp only [State.perform, hphase, Option.map_eq_some_iff] at hs hoffered
    obtain ⟨data, -, rfl⟩ := hs
    exact ⟨hdoubled, hoffered⟩
  | truncating =>
    simp only [State.perform, hphase, Option.some.injEq] at hs hoffered
    subst hs
    refine ⟨?_, rfl⟩
    change s.doubled ++ s.offered = []
    rw [hdoubled, hoffered, List.append_nil]
  | merging now years =>
    simp only [hphase] at hoffered
    cases years with
    | nil =>
      simp only [State.perform, hphase, Option.some.injEq] at hs
      subst hs
      exact ⟨hdoubled, hoffered⟩
    | cons y years =>
      simp only [State.perform, hphase, Option.some.injEq] at hs
      subst hs
      have hprepared := hconserved.prepared
      rw [Prepared, hphase] at hprepared
      have hlt : y < now := hprepared.1 y List.mem_cons_self
      refine ⟨hdoubled, fun r hr => ?_⟩
      rcases List.mem_append.mp hr with hold | hnew
      · exact hoffered r (List.mem_filter.mp hold).1
      · have hy : yearIn year now r = some y := of_decide_eq_true (List.mem_filter.mp hnew).2
        rw [hy]
        exact decide_eq_true hlt
  | rewriting now =>
    simp only [State.perform, hphase, Option.some.injEq] at hs hoffered
    subst hs
    refine ⟨hdoubled, List.filter_eq_nil_iff.mpr fun r hr hkept => ?_⟩
    -- What was offered is of a past year.
    obtain ⟨y, hy, hlt⟩ := (Option.any_eq_true _ _).mp (hoffered r hr)
    rw [hy, Option.any_some, decide_eq_true_eq] at hkept
    have hlt' : y < now := of_decide_eq_true hlt
    omega

theorem Single.step {a : Act Row} (h : Single year s) (hconserved : Conserved year keep fresh s)
    (hwhole : Whole s a) (hs : s.step year keep a = some s') : Single year s' := by
  have hdoubled := h.doubled
  have hoffered := h.offered
  cases a with
  | append rows =>
    simp only [State.step] at hs
    split_ifs at hs with hidle
    obtain rfl := Option.some.inj hs
    exact ⟨hdoubled, hoffered⟩
  | rotateRolling =>
    simp only [State.step] at hs
    split_ifs at hs with hidle
    obtain ⟨rows, -, rfl⟩ := Option.map_eq_some_iff.mp hs
    simp only [hidle] at hoffered
    exact ⟨hdoubled, hoffered⟩
  | rotateYearly now =>
    simp only [State.step] at hs
    split_ifs at hs with hidle
    obtain ⟨rows, -, rfl⟩ := Option.map_eq_some_iff.mp hs
    split_ifs
    · exact h
    · simp only [hidle] at hoffered
      refine ⟨hdoubled, fun r hr => ?_⟩
      change r ∈ s.offered at hr
      rw [hoffered] at hr
      cases hr
  | op => exact h.perform hconserved hs
  | diskFull =>
    cases hphase : s.phase with
    | staging data =>
      simp only [State.step, hphase] at hs hoffered
      split_ifs at hs
      obtain rfl := Option.some.inj hs
      exact ⟨hdoubled, hoffered⟩
    | _ => simp [State.step, hphase] at hs
  | stop =>
    have hwhole' := hwhole rfl
    cases hphase : s.phase with
    | idle => simp [State.step, hphase] at hs
    | truncating | merging now years | rewriting now => simp only [hphase] at hwhole'
    | staging data | evicting data | restaging data | shifting i | publishing =>
      simp only [State.step, hphase, Option.some.injEq] at hs hoffered
      subst hs
      exact ⟨hdoubled, hoffered⟩

end Single

/-! ## No row is lost -/

section Runs

variable [DecidableEq Row] {year : Row → Option (Option ℤ)} {keep : ℕ}

theorem invariants_of_reachable {s : State Row} (h : (machine year keep).Reachable s) :
    Rolling keep s ∧ Conserved year keep False s := by
  induction h with
  | init h0 => exact ⟨rolling_start h0, conserved_start h0⟩
  | step _ _ hstep ih => exact ⟨ih.1.step hstep, ih.2.step ih.1 False.elim hstep⟩

theorem invariants_of_fresh {s : State Row} (h : (machine year keep).Reach (Fresh year) s) :
    Rolling keep s ∧ Conserved year keep True s := by
  induction h with
  | init h0 => exact ⟨rolling_start h0, conserved_start h0⟩
  | step _ hfresh hstep ih => exact ⟨ih.1.step hstep, ih.2.step ih.1 (fun _ => hfresh) hstep⟩

theorem single_of_whole {s : State Row} (h : (machine year keep).Reach Whole s) : Single year s := by
  have hboth : Single year s ∧ Rolling keep s ∧ Conserved year keep False s := by
    induction h with
    | init h0 => exact ⟨single_start h0, rolling_start h0, conserved_start h0⟩
    | step _ hwhole hstep ih =>
      obtain ⟨hsingle, hroll, hconserved⟩ := ih
      exact ⟨hsingle.step hconserved hwhole hstep, hroll.step hstep,
        hconserved.step hroll False.elim hstep⟩
  exact hboth.1

variable (year keep)

/-- In every run, a row that was appended is in the log, in an archive or in one that was evicted;
an archive is evicted where every slot is full, is the oldest, and there are as many as were
published beyond those in the slots. Where no row is taken for one that an unfinished rotation has
left, no copy of a row is lost, and the copies that are too many are those of the rows in two files.
Without a stop between the writes of an archive and of the log, these are the rows of the current
rotation only. -/
theorem rows_conserved :
    (∀ s, (machine year keep).Reachable s →
      (∀ r ∈ s.appended, (year r).isSome → 0 < s.copies year keep r) ∧
        s.evicted.length + total (fun _ => 1) s.slots (slotCount keep) = s.published ∧
        ∀ a s', s.step year keep a = some s' → EvictsOldest keep s s') ∧
    (∀ s, (machine year keep).Reach (Fresh year) s → ∀ r, (year r).isSome →
      s.copies year keep r = s.appended.count r + s.repeated.count r) ∧
    ∀ s, (machine year keep).Reach Whole s → s.phase = .idle → s.repeated = [] := by
  refine ⟨fun s h => ?_, fun s h r hr => ?_, fun s h hidle => ?_⟩
  · obtain ⟨hroll, hconserved⟩ := invariants_of_reachable h
    exact ⟨fun r hmem hr => hconserved.held r hr hmem, hroll.accounted,
      fun a s' hs => hroll.evictsOldest hs⟩
  · exact (invariants_of_fresh h).2.conserved trivial r hr
  · have hsingle := single_of_whole h
    have hoffered := hsingle.offered
    simp only [hidle] at hoffered
    rw [repeated_of_ne (by rw [hidle]; nofun), hoffered, hsingle.doubled, List.append_nil]

end Runs

/-- The first digits of a row are its year. -/
def sampleYear (r : ℕ) : Option (Option ℤ) := some (some (r / 10))

/-- No file is there. -/
def sampleStart : State ℕ :=
  ⟨none, none, fun _ => none, fun _ => none, .idle, [], [], 0, [], []⟩

theorem start_sampleStart : sampleStart.Start := ⟨rfl, rfl, rfl, rfl, rfl, rfl, rfl, rfl, rfl, rfl⟩

/-- Two rows that are the same, of last year: the rotation stops after the merge, and the next one
finds both in the archive. Of the two rolling archives that follow, one is evicted. -/
theorem rows_conserved_merged : ∃ s, (machine sampleYear 1).Reach (Fresh sampleYear) s ∧
    (s.phase = .idle ∧ s.yearCopies sampleYear 20241 = 2 ∧ s.evicted.length = 1) ∧
    s.copies sampleYear 1 20241 = s.appended.count 20241 + s.repeated.count 20241 := by
  obtain ⟨s, hs, hp⟩ := Machine.exists_reach_of_runWithin (M := machine sampleYear 1)
    (D := Fresh sampleYear) (fun _ _ h => h) start_sampleStart
    [.append [20241, 20241], .rotateYearly 2025, .op, .stop, .rotateYearly 2025, .op, .op, .op,
      .append [20252], .rotateRolling, .op, .op, .op, .op, .append [20253], .rotateRolling,
      .op, .op, .op, .op]
    (fun s => s.phase = .idle ∧ s.yearCopies sampleYear 20241 = 2 ∧ s.evicted.length = 1)
    (by decide +kernel)
  exact ⟨s, hs, of_decide_eq_true hp, (rows_conserved sampleYear 1).2.1 s hs 20241 rfl⟩

/-- A row is in the log and in the archive of its year, and nothing was published. And an archive is
evicted before any rotation has finished. -/
theorem repeated_unpublished :
    (∃ s, (machine sampleYear 1).Reachable s ∧ s.phase = .idle ∧ s.published = 0 ∧
      s.appended = [20241] ∧ s.rows = [20241] ∧ s.yearCopies sampleYear 20241 = 1) ∧
    ∃ s, (machine sampleYear 1).Reachable s ∧ s.phase = .idle ∧ s.rows = [20241] ∧
      s.appended = s.rows ∧ s.evicted.length = 1 := by
  constructor
  · obtain ⟨s, hs, hp⟩ := Machine.exists_reach_of_runWithin (M := machine sampleYear 1)
      (D := fun _ _ => True) (fun _ _ h => h) start_sampleStart
      [.append [20241], .rotateYearly 2025, .op, .stop]
      (fun s => s.phase = .idle ∧ s.published = 0 ∧ s.appended = [20241] ∧ s.rows = [20241] ∧
        s.yearCopies sampleYear 20241 = 1) (by decide +kernel)
    exact ⟨s, hs, of_decide_eq_true hp⟩
  · obtain ⟨s, hs, hp⟩ := Machine.exists_reach_of_runWithin (M := machine sampleYear 1)
      (D := fun _ _ => True) (fun _ _ h => h) start_sampleStart
      [.append [20241], .rotateRolling, .op, .op, .op, .stop, .rotateRolling, .op, .op, .op, .stop]
      (fun s => s.phase = .idle ∧ s.rows = [20241] ∧ s.appended = s.rows ∧ s.evicted.length = 1)
      (by decide +kernel)
    exact ⟨s, hs, of_decide_eq_true hp⟩

end Companion.Storage.Rotation

import Companion.Memory.Text
import Companion.Sorting
import Mathlib

/-!
# The ignore streak

`_compute_ignore_streak` and `_compute_ignore_streak_bounded` of `brain/initiate/user_pattern.py`:
how many of the outreach's sends were unanswered or dismissed since the newest that was not. The one
sorts the whole audit log by stamp, the other the rows at the end of the file, which it takes for
the newest.

A row counts where no reset precedes it. `streak_window` is the balance for any rows at the end of a
log: what the window misses of the rows outside it, and what it counts though a reset outside it
comes first. `agrees_iff` reads off when the bounded streak keeps its promise, and
`agrees_of_ordered` that it does where the file is in the order of the stamps, few rows share one,
and the rows that resolve are sends.
-/

namespace Companion.Initiate.IgnoreStreak

open Companion.Memory (Text)
open Companion.Sorting

/-! ## The streak of some rows -/

/-- A row of the audit log: what it has under `ts` and `decision`, and what its delivery has as
`current_state`. -/
structure Row where
  ts : Option Text
  decision : Option Text
  currentState : Option Text
  deriving DecidableEq

/-- `_SEND_DECISIONS` -/
def sendDecisions : List Text := ["send_notify".toList, "send_quiet".toList]

/-- `_STREAK_STATES` -/
def streakStates : List Text := ["unanswered".toList, "dismissed".toList]

/-- `_RESET_STATES` -/
def resetStates : List Text := ["replied_explicit".toList, "acknowledged_unclear".toList]

namespace Row

/-- The row has a stamp that is not empty. -/
def stamped (row : Row) : Bool := row.ts.any (· ≠ [])

/-- The stamp that the rows are sorted by. -/
def key (row : Row) : Text := row.ts.getD []

def isSend (row : Row) : Bool := row.decision.any (· ∈ sendDecisions)

def inStreakState (row : Row) : Bool := row.currentState.any (· ∈ streakStates)

def inResetState (row : Row) : Bool := row.currentState.any (· ∈ resetStates)

/-- A send that adds to the streak. -/
def streaks (row : Row) : Bool := row.stamped && row.isSend && row.inStreakState

/-- A send that ends the streak. -/
def resets (row : Row) : Bool := row.stamped && row.isSend && row.inResetState

theorem not_streaks_of_resets {row : Row} (h : row.resets = true) : row.streaks = false := by
  unfold resets inResetState at h
  unfold streaks inStreakState
  cases hstate : row.currentState with
  | none => simp
  | some state =>
    rw [hstate, Bool.and_eq_true, Option.any_some, decide_eq_true_eq] at h
    have hdisjoint : ∀ state ∈ resetStates, state ∉ streakStates := by decide
    rw [Option.any_some, decide_eq_false (hdisjoint state h.2), Bool.and_false]

end Row

/-- The loop of `_ignore_streak_from_rows`, over the rows it has sorted. -/
def walk : List Row → ℕ
  | [] => 0
  | row :: rows =>
    if ¬ row.isSend then walk rows
    else if row.inStreakState then walk rows + 1
    else if row.inResetState then 0
    else walk rows

/-- `_ignore_streak_from_rows`: the newest row first, and those of one stamp in the order of the
file. -/
def ignoreStreakFromRows (rows : List Row) : ℕ :=
  walk ((rows.filter Row.stamped).insertionSort fun a b => b.key ≤ a.key)

/-- `_compute_ignore_streak` -/
def computeIgnoreStreak (log : List Row) : ℕ := ignoreStreakFromRows log

/-! ## The window -/

/-- `_TIE_MARGIN` -/
def tieMargin : ℕ := 50

/-- The loop that moves the start of the window back, while the row before it has the stamp of the
boundary. -/
def extend (rows : List Row) (boundaryTs : Option Text) : ℕ → ℕ
  | 0 => 0
  | start + 1 =>
    if boundaryTs ≠ none ∧ rows[start]?.bind Row.ts = boundaryTs then extend rows boundaryTs start
    else start + 1

/-- `_read_ignore_streak_window`. The row at `-n` is the first one where `n` is 0. -/
def readIgnoreStreakWindow (log : List Row) (n : ℕ) : List Row :=
  let rows := log.rtake (n + tieMargin)
  if rows.length ≤ n then rows
  else
    let boundaryTs := rows[if n = 0 then 0 else rows.length - n]?.bind Row.ts
    rows.drop (extend rows boundaryTs (rows.length - n))

/-- `_has_resolution` -/
def hasResolution (rows : List Row) : Bool := rows.any Row.inResetState

/-- The rows that `_compute_ignore_streak_bounded` counts in. -/
def boundedWindow (log : List Row) (windowN windowNMax : ℕ) : List Row :=
  let rows := readIgnoreStreakWindow log windowN
  if hasResolution rows then rows else readIgnoreStreakWindow log windowNMax

/-- `_compute_ignore_streak_bounded` -/
def computeIgnoreStreakBounded (log : List Row) (windowN windowNMax : ℕ) : ℕ :=
  ignoreStreakFromRows (boundedWindow log windowN windowNMax)

/-- A send that ends the streak is among the last rows. -/
def Resolved (log : List Row) (n : ℕ) : Prop := ∃ row ∈ log.rtake n, row.resets = true

/-- The bounded streak is that of the whole log where it is resolved, and not more elsewhere. -/
def Agrees (log : List Row) (windowN windowNMax : ℕ) : Prop :=
  (Resolved log windowNMax →
      computeIgnoreStreakBounded log windowN windowNMax = computeIgnoreStreak log) ∧
    (¬ Resolved log windowNMax →
      computeIgnoreStreakBounded log windowN windowNMax ≤ computeIgnoreStreak log)

/-! ## What counts -/

/-- A row with its place in the file comes before another one in the walk. -/
def Precedes (y x : Row × ℕ) : Prop := x.1.key < y.1.key ∨ x.1.key = y.1.key ∧ y.2 < x.2

instance (y x : Row × ℕ) : Decidable (Precedes y x) := inferInstanceAs (Decidable (_ ∨ _))

/-- A send that adds to the streak, and is not preceded by one that ends it. -/
def counts (rows : List (Row × ℕ)) (x : Row × ℕ) : Bool :=
  x.1.streaks && rows.all fun y => ! (y.1.resets && Precedes y x)

theorem Precedes.asymm {y x : Row × ℕ} (h : Precedes y x) : ¬ Precedes x y := by
  rintro (hlt | ⟨heq, hlt⟩) <;> obtain hlt' | ⟨heq', hlt'⟩ := h
  · exact lt_asymm hlt hlt'
  · exact hlt.ne heq'.symm
  · exact hlt'.ne heq.symm
  · omega

theorem counts_congr {rows rows' : List (Row × ℕ)} {x : Row × ℕ}
    (h : ∀ y, y.1.resets = true → (y ∈ rows ↔ y ∈ rows')) : counts rows x = counts rows' x := by
  unfold counts
  congr 1
  rw [Bool.eq_iff_iff, List.all_eq_true, List.all_eq_true]
  refine forall_congr' fun y => ?_
  by_cases hy : y.1.resets = true
  · rw [h y hy]
  · simp [hy]

/-- A row is the other one, or comes before it in the walk. -/
def Upto (y x : Row × ℕ) : Prop := x.1.key < y.1.key ∨ x.1.key = y.1.key ∧ y.2 ≤ x.2

instance (y x : Row × ℕ) : Decidable (Upto y x) := inferInstanceAs (Decidable (_ ∨ _))

instance : IsTrans (Row × ℕ) Upto := ⟨by
  rintro a b c (hab | ⟨hab, hle⟩) (hbc | ⟨hbc, hle'⟩)
  · exact .inl (hbc.trans hab)
  · exact .inl (hbc.symm ▸ hab)
  · exact .inl (hab ▸ hbc)
  · exact .inr ⟨hbc.trans hab, hle.trans hle'⟩⟩

instance : Std.Total Upto := ⟨fun a b => by
  obtain hlt | heq | hlt := lt_trichotomy a.1.key b.1.key
  · exact .inr (.inl hlt)
  · obtain hle | hle := Nat.le_total a.2 b.2
    · exact .inl (.inr ⟨heq.symm, hle⟩)
    · exact .inr (.inr ⟨heq, hle⟩)
  · exact .inl (.inl hlt)⟩

/-- The walk over rows in its order. -/
theorem walk_eq {rows : List (Row × ℕ)} (hsorted : rows.Pairwise Precedes)
    (hstamped : ∀ x ∈ rows, x.1.stamped = true) :
    walk (rows.map Prod.fst) = rows.countP (counts rows) := by
  induction rows with
  | nil => rfl
  | cons x rows ih =>
    obtain ⟨hx, hrows⟩ := List.pairwise_cons.mp hsorted
    have hwalk := ih hrows fun y hy => hstamped y (List.mem_cons_of_mem _ hy)
    have hxs := hstamped x List.mem_cons_self
    rw [List.map_cons, walk, hwalk, List.countP_cons]
    by_cases hreset : x.1.resets = true
    · -- The walk ends here, and what comes later is preceded by this row.
      have hhead : counts (x :: rows) x = false := by
        unfold counts
        rw [Row.not_streaks_of_resets hreset, Bool.false_and]
      have hrest : rows.countP (counts (x :: rows)) = 0 := by
        refine List.countP_eq_zero.mpr fun y hy => ?_
        have hpre := hx y hy
        simp [counts, hreset, hpre]
      have hnot := Row.not_streaks_of_resets hreset
      unfold Row.resets at hreset
      unfold Row.streaks at hnot
      rw [hxs, Bool.true_and] at hreset hnot
      rw [Bool.and_eq_true] at hreset
      rw [hreset.1, Bool.true_and] at hnot
      rw [hhead, hrest]
      simp [hreset.1, hreset.2, hnot]
    · -- No reset: the later rows count as without this one, and it counts if it streaks.
      have hsame : counts (x :: rows) = counts rows := funext fun y =>
        counts_congr fun z hz => by
          rw [List.mem_cons]
          refine or_iff_right ?_
          rintro rfl
          exact hreset hz
      have hhead : counts rows x = x.1.streaks := by
        have hall : (rows.all fun y => !(y.1.resets && decide (Precedes y x))) = true := by
          rw [List.all_eq_true]
          intro y hy
          rw [decide_eq_false (hx y hy).asymm, Bool.and_false]
          rfl
        unfold counts
        rw [hall, Bool.and_true]
      rw [hsame, hhead]
      unfold Row.resets at hreset
      unfold Row.streaks
      rw [hxs, Bool.true_and] at hreset ⊢
      cases hsend : x.1.isSend <;> cases hstreak : x.1.inStreakState <;> simp_all

/-- The streak of the rows that start at the place `k` of the file. -/
theorem ignoreStreakFromRows_eq (rows : List Row) (k : ℕ) :
    ignoreStreakFromRows rows = (rows.zipIdx k).countP (counts (rows.zipIdx k)) := by
  have hidx : (rows.zipIdx k).Pairwise fun a b => a.2 < b.2 := by
    rw [← List.pairwise_map (f := Prod.snd), List.zipIdx_map_snd]
    exact List.pairwise_lt_range'
  generalize hplaced : rows.zipIdx k = placed at hidx ⊢
  have hrows : placed.map Prod.fst = rows := by
    rw [← hplaced, List.zipIdx_map_fst]
  -- The sort by stamps is the sort by stamps and places, as it is stable.
  let stamped := placed.filter fun x => x.1.stamped
  let sorted := stamped.insertionSort Upto
  have hsort : stamped.insertionSort (fun a b => b.1.key ≤ a.1.key) = sorted := by
    refine insertionSort_congr ((hidx.filter _).imp fun {a b} hlt => ?_)
    constructor
    · intro hle
      obtain hlt' | heq := hle.lt_or_eq
      · exact .inl hlt'
      · exact .inr ⟨heq, hlt.le⟩
    · rintro (hlt' | ⟨heq, -⟩)
      · exact hlt'.le
      · exact heq.le
  have hmap : sorted.map Prod.fst =
      (rows.filter Row.stamped).insertionSort fun a b => b.key ≤ a.key := by
    rw [← hsort, ← hrows, List.filter_map]
    exact List.map_insertionSort _ _ _ _ fun _ _ _ _ => Iff.rfl
  have hperm : sorted.Perm stamped := List.perm_insertionSort Upto stamped
  have hprecedes : sorted.Pairwise Precedes := by
    have hne : sorted.Pairwise fun a b => a.2 ≠ b.2 :=
      (hperm.pairwise_iff fun h => h.symm).mpr ((hidx.filter _).imp fun hlt => hlt.ne)
    refine ((List.pairwise_insertionSort Upto stamped).and hne).imp ?_
    rintro a b ⟨hlt | ⟨heq, hle⟩, hne⟩
    · exact .inl hlt
    · exact .inr ⟨heq, lt_of_le_of_ne hle hne⟩
  have hstamped : ∀ x ∈ sorted, x.1.stamped = true := fun x hx =>
    (List.mem_filter.mp (hperm.mem_iff.mp hx)).2
  have hcounts : counts sorted = counts placed := funext fun x => counts_congr fun y hy => by
    unfold Row.resets at hy
    rw [Bool.and_eq_true, Bool.and_eq_true] at hy
    rw [hperm.mem_iff, List.mem_filter]
    exact and_iff_left hy.1.1
  calc ignoreStreakFromRows rows = walk (sorted.map Prod.fst) := by rw [hmap]; rfl
    _ = sorted.countP (counts sorted) := walk_eq hprecedes hstamped
    _ = stamped.countP (counts placed) := by rw [hcounts, hperm.countP_eq]
    _ = placed.countP (counts placed) := by
        rw [List.countP_filter]
        refine List.countP_congr fun x _ => ?_
        unfold counts Row.streaks
        cases x.1.stamped <;> simp

/-! ## A window at the end of a log -/

/-- The rows before the window, with their places. -/
def outside (log window : List Row) : List (Row × ℕ) :=
  (log.take (log.length - window.length)).zipIdx

/-- The rows of the window, with their places. -/
def inside (log window : List Row) : List (Row × ℕ) :=
  window.zipIdx (log.length - window.length)

/-- The sends outside the window that no reset precedes. -/
def missed (log window : List Row) : ℕ :=
  (outside log window).countP (counts (outside log window ++ inside log window))

/-- The sends in the window that no reset in it precedes, but one outside it. -/
def overtaken (log window : List Row) : ℕ :=
  (inside log window).countP fun x =>
    counts (inside log window) x &&
      (outside log window).any fun y => y.1.resets && Precedes y x

/-- The streak of a window at the end of a log, beside that of the log. -/
theorem streak_window {log window : List Row} (h : window <:+ log) :
    ignoreStreakFromRows window + missed log window =
      computeIgnoreStreak log + overtaken log window := by
  have hlog : log.zipIdx = outside log window ++ inside log window := by
    obtain ⟨before, rfl⟩ := h
    unfold outside inside
    have hlen : (before ++ window).length - window.length = before.length := by
      rw [List.length_append]
      omega
    rw [hlen, List.take_left, List.zipIdx_append, Nat.zero_add]
  have hwindow := ignoreStreakFromRows_eq window (log.length - window.length)
  have hfull := ignoreStreakFromRows_eq log 0
  rw [hlog, List.countP_append] at hfull
  -- A row of the window counts there, and is then overtaken or counts in the log.
  have hsplit : (inside log window).countP (counts (inside log window)) =
      (inside log window).countP (counts (outside log window ++ inside log window)) +
        overtaken log window := by
    rw [List.countP_eq_countP_filter_add _ _ fun x =>
        (outside log window).any fun y => y.1.resets && Precedes y x,
      List.countP_filter, List.countP_filter, Nat.add_comm]
    refine congrArg (· + _) (List.countP_congr fun x _ => ?_)
    rw [← Bool.eq_iff_iff]
    have hnone : ((outside log window).all fun y => ! (y.1.resets && Precedes y x)) =
        ! (outside log window).any fun y => y.1.resets && Precedes y x :=
      List.not_any_eq_all_not.symm
    unfold counts
    rw [List.all_append, hnone, Bool.and_assoc, Bool.and_comm (List.all _ _)]
  have hinside : ignoreStreakFromRows window =
      (inside log window).countP (counts (inside log window)) := hwindow
  unfold missed computeIgnoreStreak
  omega

theorem extend_le (rows : List Row) (boundaryTs : Option Text) (start : ℕ) :
    extend rows boundaryTs start ≤ start := by
  induction start with
  | zero => exact le_rfl
  | succ start ih =>
    rw [extend]
    split_ifs
    · exact ih.trans (Nat.le_succ start)
    · exact le_rfl

/-- The window is at the end of the log, and has its last rows. -/
theorem readIgnoreStreakWindow_suffix (log : List Row) (n : ℕ) :
    readIgnoreStreakWindow log n <:+ log := by
  have hrtake : log.rtake (n + tieMargin) <:+ log := List.drop_suffix _ _
  unfold readIgnoreStreakWindow
  dsimp only
  split_ifs
  · exact hrtake
  · exact (List.drop_suffix _ _).trans hrtake
  · exact (List.drop_suffix _ _).trans hrtake

theorem boundedWindow_suffix (log : List Row) (windowN windowNMax : ℕ) :
    boundedWindow log windowN windowNMax <:+ log := by
  unfold boundedWindow
  dsimp only
  split_ifs
  · exact readIgnoreStreakWindow_suffix log windowN
  · exact readIgnoreStreakWindow_suffix log windowNMax

/-- The bounded streak keeps its promise when what its window misses is what it counts though a
reset outside it comes first, or, in a log that is not resolved, no less. -/
theorem agrees_iff (log : List Row) (windowN windowNMax : ℕ) :
    Agrees log windowN windowNMax ↔
      let window := boundedWindow log windowN windowNMax
      (Resolved log windowNMax → overtaken log window = missed log window) ∧
        (¬ Resolved log windowNMax → overtaken log window ≤ missed log window) := by
  have hbalance := streak_window (boundedWindow_suffix log windowN windowNMax)
  unfold Agrees computeIgnoreStreakBounded
  refine and_congr (imp_congr_right fun _ => ?_) (imp_congr_right fun _ => ?_)
  · constructor <;> intro h <;> omega
  · constructor <;> intro h <;> omega

/-- A reply, an unanswered send, and then rows without a stamp, the last of which is held and
acknowledged. -/
def resolvedByHold : List Row :=
  [⟨some "1".toList, some "send_notify".toList, some "replied_explicit".toList⟩,
    ⟨some "2".toList, some "send_notify".toList, some "unanswered".toList⟩] ++
    List.replicate 299 ⟨none, some "hold".toList, none⟩ ++
    [⟨none, some "hold".toList, some "acknowledged_unclear".toList⟩]

/-- The acknowledged row, which is no send, makes the first window look resolved, so that the
unanswered send before it is not counted. -/
theorem not_agrees_resolvedByHold : ¬ ∀ log, Agrees log 300 3000 := by
  intro hall
  have hresolved : Resolved resolvedByHold 3000 :=
    ⟨⟨some "1".toList, some "send_notify".toList, some "replied_explicit".toList⟩,
      by decide +kernel, by decide +kernel⟩
  have hbounded : computeIgnoreStreakBounded resolvedByHold 300 3000 = 0 := by decide +kernel
  have hfull : computeIgnoreStreak resolvedByHold = 1 := by decide +kernel
  have h := (hall resolvedByHold).1 hresolved
  rw [hbounded, hfull] at h
  omega

/-! ## A file in the order of its stamps -/

/-- The last rows of the log are in the window. -/
theorem mem_readIgnoreStreakWindow {log : List Row} {n : ℕ} {row : Row} (h : row ∈ log.rtake n) :
    row ∈ readIgnoreStreakWindow log n := by
  have hlater : ∀ k, k ≤ log.length - n → row ∈ log.drop k := fun k hk =>
    (List.drop_sublist_drop_left log hk).subset h
  unfold readIgnoreStreakWindow
  dsimp only
  have hlen : (log.rtake (n + tieMargin)).length = log.length - (log.length - (n + tieMargin)) :=
    List.length_drop
  split_ifs with hle hzero
  · exact hlater _ (by omega)
  all_goals
    generalize hstart : extend _ _ _ = start
    have hbound : start ≤ (log.rtake (n + tieMargin)).length - n := by
      rw [← hstart]
      exact extend_le _ _ _
    rw [List.rtake, List.drop_drop]
    exact hlater _ (by omega)

/-- In a log whose rows before the window are older than those in it, and where only sends with a
stamp are in a state that resolves, the bounded streak keeps its promise. -/
theorem agrees_of_older {log : List Row} {windowN windowNMax : ℕ}
    (holder : ∀ x ∈ boundedWindow log windowN windowNMax,
      ∀ y ∈ log.take (log.length - (boundedWindow log windowN windowNMax).length),
        x.stamped = true → y.stamped = true → y.key < x.key)
    (hsends : ∀ row ∈ log, row.inResetState = true → row.resets = true) :
    Agrees log windowN windowNMax := by
  have hsuffix := boundedWindow_suffix log windowN windowNMax
  have hresolved : Resolved log windowNMax →
      ∃ row ∈ boundedWindow log windowN windowNMax, row.resets = true := by
    rintro ⟨row, hrow, hreset⟩
    unfold boundedWindow at hsuffix ⊢
    dsimp only at hsuffix ⊢
    by_cases hres : hasResolution (readIgnoreStreakWindow log windowN) = true
    · rw [if_pos hres] at hsuffix ⊢
      obtain ⟨found, hfound, hstate⟩ := List.any_eq_true.mp hres
      exact ⟨found, hfound, hsends found (hsuffix.subset hfound) hstate⟩
    · rw [if_neg hres]
      exact ⟨row, mem_readIgnoreStreakWindow hrow, hreset⟩
  have hbalance := streak_window hsuffix
  unfold Agrees computeIgnoreStreakBounded
  generalize boundedWindow log windowN windowNMax = window at holder hsuffix hresolved hbalance ⊢
  have hplace : ∀ x ∈ inside log window, ∀ y ∈ outside log window,
      x.1.stamped = true → y.1.stamped = true → y.1.key < x.1.key := fun x hx y hy =>
    holder x.1 (List.fst_mem_of_mem_zipIdx hx) y.1 (List.fst_mem_of_mem_zipIdx hy)
  have hstamped : ∀ row : Row, row.resets = true → row.stamped = true := fun row h => by
    unfold Row.resets at h
    rw [Bool.and_eq_true, Bool.and_eq_true] at h
    exact h.1.1
  -- Nothing outside the window comes before a row in it.
  have hovertaken : overtaken log window = 0 := by
    refine List.countP_eq_zero.mpr fun x hx hcounts => ?_
    rw [Bool.and_eq_true] at hcounts
    obtain ⟨hc, hany⟩ := hcounts
    obtain ⟨y, hy, hpre⟩ := List.any_eq_true.mp hany
    rw [Bool.and_eq_true, decide_eq_true_eq] at hpre
    unfold counts Row.streaks at hc
    simp only [Bool.and_eq_true] at hc
    have hlt := hplace x hx y hy hc.1.1.1 (hstamped _ hpre.1)
    obtain hlt' | ⟨heq, -⟩ := hpre.2
    · exact lt_asymm hlt hlt'
    · exact hlt.ne heq.symm
  rw [hovertaken, Nat.add_zero] at hbalance
  refine ⟨fun h => ?_, fun _ => hbalance ▸ Nat.le_add_right _ _⟩
  -- A reset in the window comes before every row outside it.
  obtain ⟨reset, hreset, hr⟩ := hresolved h
  obtain ⟨place, hplaced⟩ : ∃ place, (reset, place) ∈ inside log window := by
    obtain ⟨i, hi⟩ := List.mem_iff_getElem?.mp hreset
    exact ⟨_, List.mk_add_mem_zipIdx_iff_getElem?.mpr hi⟩
  have hmissed : missed log window = 0 := by
    refine List.countP_eq_zero.mpr fun x hx hc => ?_
    unfold counts Row.streaks at hc
    simp only [Bool.and_eq_true, List.all_eq_true] at hc
    have hlt := hplace _ hplaced x hx (hstamped _ hr) hc.1.1.1
    have hpre : Precedes (reset, place) x := .inl hlt
    have := hc.2 _ (List.mem_append_right _ hplaced)
    simp [hr, hpre] at this
  rw [← hbalance, hmissed, Nat.add_zero]

/-- Where the window starts, the rows up to the first one have the stamp of the boundary, and the
row before has another. -/
theorem extend_spec (rows : List Row) {ts : Option Text} (hts : ts ≠ none) (k : ℕ) :
    (∀ i, extend rows ts k ≤ i → i < k → rows[i]?.bind Row.ts = ts) ∧
      (extend rows ts k = 0 ∨ rows[extend rows ts k - 1]?.bind Row.ts ≠ ts) := by
  induction k with
  | zero => exact ⟨fun i _ hi => absurd hi (Nat.not_lt_zero i), .inl rfl⟩
  | succ k ih =>
    rw [extend]
    split_ifs with htie
    · refine ⟨fun i hle hi => ?_, ih.2⟩
      rcases Nat.lt_succ_iff_lt_or_eq.mp hi with hlt | rfl
      · exact ih.1 i hle hlt
      · exact htie.2
    · exact ⟨fun i hle hi => absurd hle (not_le_of_gt hi), .inr fun heq => htie ⟨hts, heq⟩⟩

/-- Every row has a stamp, none is older than those before it, and no more rows have one stamp than
the window is extended by. -/
structure Ordered (log : List Row) : Prop where
  stamped : ∀ row ∈ log, row.stamped = true
  sorted : log.Pairwise fun y x => y.key ≤ x.key
  ties : ∀ ts, log.countP (fun row => row.ts = some ts) ≤ tieMargin

theorem ts_eq_of_stamped {row : Row} (h : row.stamped = true) : row.ts = some row.key := by
  obtain ⟨ts, hts, -⟩ := (Option.any_eq_true _ _).mp h
  rw [Row.key, hts]
  rfl

/-- A window of an ordered log has only newer rows than those before it. -/
theorem Ordered.older {log before : List Row} (h : Ordered log) (n : ℕ)
    (hlog : before ++ readIgnoreStreakWindow log n = log) :
    ∀ x ∈ readIgnoreStreakWindow log n, ∀ y ∈ before, y.key < x.key := by
  have hsplit : log.take (log.length - (n + tieMargin)) ++ log.rtake (n + tieMargin) = log :=
    List.take_append_drop ..
  have hlength : (log.rtake (n + tieMargin)).length = log.length - (log.length - (n + tieMargin)) :=
    List.length_drop
  unfold readIgnoreStreakWindow at hlog ⊢
  dsimp only at hlog ⊢
  generalize log.rtake (n + tieMargin) = rows at hsplit hlength hlog ⊢
  by_cases hshort : rows.length ≤ n
  · -- The whole log is in the window.
    rw [if_pos hshort] at hlog
    have hnil : before = [] := by
      rw [List.append_cancel_right (hlog.trans hsplit.symm), List.take_eq_nil_iff]
      left
      unfold tieMargin at hlength ⊢
      omega
    rw [hnil]
    exact fun x _ y hy => absurd hy List.not_mem_nil
  rw [if_neg hshort] at hlog ⊢
  have hstamped : ∀ row ∈ rows, row.ts = some row.key := fun row hrow =>
    ts_eq_of_stamped (h.stamped row (hsplit ▸ List.mem_append_right _ hrow))
  have hsorted := h.sorted
  rw [← hsplit, List.pairwise_append] at hsorted
  obtain ⟨-, hrows, hlater⟩ := hsorted
  have hle : ∀ i j (hi : i < rows.length) (hj : j < rows.length), i ≤ j →
      rows[i].key ≤ rows[j].key := by
    intro i j hi hj hij
    rcases hij.lt_or_eq with hlt | rfl
    · exact List.pairwise_iff_getElem.mp hrows i j hi hj hlt
    · exact le_rfl
  have hedge : (if n = 0 then 0 else rows.length - n) < rows.length := by
    split_ifs <;> omega
  generalize hplace : (if n = 0 then 0 else rows.length - n) = edge at hlog hedge ⊢
  have hts : rows[edge]?.bind Row.ts = some rows[edge].key := by
    rw [List.getElem?_eq_getElem hedge]
    exact hstamped _ (List.getElem_mem hedge)
  have hk := extend_le rows (some rows[edge].key) (rows.length - n)
  obtain ⟨htied, hbefore⟩ := extend_spec rows (Option.some_ne_none rows[edge].key) (rows.length - n)
  rw [hts] at hlog ⊢
  generalize extend rows (some rows[edge].key) (rows.length - n) = start at htied hbefore hk hlog ⊢
  have hkey : ∀ i (hi : i < rows.length), start ≤ i → i < rows.length - n →
      rows[i].key = rows[edge].key := by
    intro i hi hstart hend
    have htie := htied i hstart hend
    rw [List.getElem?_eq_getElem hi, Option.bind_some, hstamped _ (List.getElem_mem hi)] at htie
    exact Option.some.inj htie
  have hparts : before = log.take (log.length - (n + tieMargin)) ++ rows.take start := by
    have hboth : before ++ rows.drop start =
        log.take (log.length - (n + tieMargin)) ++ rows.take start ++ rows.drop start := by
      rw [hlog, List.append_assoc, List.take_append_drop, hsplit]
    exact List.append_cancel_right hboth
  intro x hx y hy
  obtain ⟨j, hj, rfl⟩ := List.mem_iff_getElem.mp hx
  rw [List.length_drop] at hj
  rw [List.getElem_drop]
  -- The boundary is not newer than what is in the window.
  have hbound : rows[edge].key ≤ rows[start + j].key := by
    by_cases hend : start + j < rows.length - n
    · exact (hkey _ _ (Nat.le_add_right start j) hend).ge
    · refine hle edge (start + j) hedge _ ?_
      rw [← hplace]
      split_ifs <;> omega
  by_contra hnot
  rw [hparts, List.mem_append] at hy
  by_cases hzero : start = 0
  · -- All that could be moved over have the stamp, and these are too many with the row outside.
    have hout : y ∈ log.take (log.length - (n + tieMargin)) := by
      rw [hzero, List.take_zero] at hy
      exact hy.resolve_right List.not_mem_nil
    have hsame : y.key = rows[edge].key :=
      le_antisymm (hlater y hout _ (List.getElem_mem hedge)) (hbound.trans (le_of_not_gt hnot))
    have hlong := List.length_pos_of_mem hout
    rw [List.length_take] at hlong
    have hone : 0 < (log.take (log.length - (n + tieMargin))).countP
        fun row => row.ts = some rows[edge].key := by
      refine List.countP_pos_iff.mpr ⟨y, hout, decide_eq_true ?_⟩
      rw [ts_eq_of_stamped (h.stamped y (List.mem_of_mem_take hout)), hsame]
    have hmany : tieMargin ≤ rows.countP fun row => row.ts = some rows[edge].key := by
      have hall : (rows.take (rows.length - n)).countP (fun row => row.ts = some rows[edge].key) =
          (rows.take (rows.length - n)).length := by
        refine List.countP_eq_length.mpr fun row hrow => decide_eq_true ?_
        obtain ⟨i, hi, rfl⟩ := List.mem_take_iff_getElem.mp hrow
        rw [hstamped _ (List.getElem_mem _), hkey i _ (hzero ▸ Nat.zero_le i) (by omega)]
      refine le_trans ?_ ((List.take_sublist (rows.length - n) rows).countP_le)
      rw [hall, List.length_take]
      omega
    have hties := h.ties rows[edge].key
    rw [← hsplit, List.countP_append] at hties
    omega
  · -- The row before the window has another stamp than the boundary, and one not below that of `y`.
    have hprev : start - 1 < rows.length := by omega
    have hother : rows[start - 1].key ≠ rows[edge].key := by
      intro heq
      refine hbefore.resolve_left hzero ?_
      rw [List.getElem?_eq_getElem hprev, Option.bind_some, hstamped _ (List.getElem_mem hprev), heq]
    have hyp : y.key ≤ rows[start - 1].key := by
      rcases hy with hout | hin
      · exact hlater y hout _ (List.getElem_mem hprev)
      · obtain ⟨i, hi, rfl⟩ := List.mem_take_iff_getElem.mp hin
        exact hle i (start - 1) _ hprev (by omega)
    have hpx : rows[start - 1].key = rows[start + j].key :=
      le_antisymm (hle _ _ hprev _ (by omega)) ((le_of_not_gt hnot).trans hyp)
    by_cases hn : n = 0
    · exact hother (hpx.trans (hkey _ _ (Nat.le_add_right start j) (by omega)))
    · rw [if_neg hn] at hplace
      exact hother (le_antisymm (hle _ _ hprev hedge (by omega)) (hbound.trans hpx.ge))

/-- In an ordered log, in which only sends resolve, the bounded streak keeps its promise. -/
theorem agrees_of_ordered {log : List Row} (h : Ordered log)
    (hsends : ∀ row ∈ log, row.inResetState = true → row.resets = true) (windowN windowNMax : ℕ) :
    Agrees log windowN windowNMax := by
  refine agrees_of_older (fun x hx y hy _ _ => ?_) hsends
  obtain ⟨n, hn⟩ : ∃ n, boundedWindow log windowN windowNMax = readIgnoreStreakWindow log n := by
    unfold boundedWindow
    dsimp only
    split_ifs
    · exact ⟨windowN, rfl⟩
    · exact ⟨windowNMax, rfl⟩
  have hsuffix := boundedWindow_suffix log windowN windowNMax
  rw [hn] at hx hy hsuffix
  exact h.older n (List.suffix_iff_eq_append.mp hsuffix) x hx y hy

theorem agrees_of_ordered_replied : Agrees (resolvedByHold.take 2) 1 3 :=
  agrees_of_ordered ⟨by decide +kernel, by decide +kernel, fun _ =>
    List.countP_le_length.trans (by decide +kernel)⟩ (by decide +kernel) 1 3

end Companion.Initiate.IgnoreStreak

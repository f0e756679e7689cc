import Companion.Emotion.Days
import Mathlib.Data.List.Infix

/-!
# The runs of the long average

A snapshot day keeps of the long average's run where it started, which way it goes, and the last day
that it moved that way. `close_days` goes on from the record of the last snapshot day, and
`_shift_of` reads the runs of the window from the record of its oldest day. Neither record says of
what kind a first reverse day was: `_seed_for` reads it off the day before.

Both come to what one pass of the tracker over all closed days does (`runs_incremental`), since a
first reverse day that ends the record's day comes directly after a closed day: a zero move of a day
on which the app was off is a reverse day itself (`pending_of_move`).
-/

namespace Companion.Emotion

open Companion.Memory

section Definitions

variable {K : Type*} [Field K] [LinearOrder K]

/-- The moves from one snapshot day to the next. -/
def stepMoves (valueOf : SnapshotDay K → K) (previous current : SnapshotDay K) :
    List (Move K × Bool) :=
  (daysAfter previous.day (current.day - previous.day - 1).toNat).map (fun day => (⟨day, 0⟩, false)) ++
    [(⟨current.day, valueOf current - valueOf previous⟩, current.felt)]

/-- `_moves_between` -/
def movesBetween (valueOf : SnapshotDay K → K) : List (SnapshotDay K) → List (Move K × Bool)
  | previous :: current :: rest =>
    stepMoves valueOf previous current ++ movesBetween valueOf (current :: rest)
  | _ => []

/-- The moves of the long average, of which it does not count whether they were felt. -/
def longMoves (days : List (SnapshotDay K)) : List (Move K × Bool) :=
  (movesBetween SnapshotDay.long days).map fun m => (m.1, false)

/-- The runs of the long average in the snapshot, from the record of its oldest day. -/
def longRuns (days : List (SnapshotDay K)) : TrackerResult :=
  runTracker (longMoves days) (seedFor (days.take 1))

/-- `_shift_of` -/
def shiftOf (S : Setting K) (days : List (SnapshotDay K)) (personaStartAt : Option Instant) :
    SignType :=
  match days.getLast?, personaStartAt with
  | some last, some start =>
    if S.dayStart (last.day + 1) - start < longHalfLife then 0
    else
      match (longRuns days).finished.map FinishedRun.length |>.max?,
        (runTracker (movesBetween SnapshotDay.short days) none).current with
      | some longest, some run =>
        if run.length ≤ longest then 0
        else if run.direction = -1 ∧ ¬ run.length < 2 * run.feltCount then 0
        else run.direction
      | _, _ => 0
  | _, _ => 0

/-- `RunRecord` of a run. -/
def CurrentRun.record (run : CurrentRun) : RunRecord :=
  ⟨run.startDay, run.direction, run.lastWithDay⟩

/-- The day that a close adds to the snapshot. -/
def EmotionState.dayAt (e : EmotionState K) (closing : ℤ) : SnapshotDay K where
  day := closing
  short := e.short.avg
  long := e.long.avg
  felt := e.lastEntryDay = some closing
  run := e.runAt closing

/-- A close of a day, with what the entries up to it have made of an emotion. -/
structure Close (K : Type*) where
  day : ℤ
  short : Average K
  long : Average K
  lastEntryDay : Option ℤ

/-- An emotion after closes, with the days that were ever closed for it. -/
structure History (K : Type*) where
  emotion : EmotionState K
  days : List (SnapshotDay K)

/-- The emotion when the day closes. -/
def EmotionState.reach (e : EmotionState K) (c : Close K) : EmotionState K :=
  { e with short := c.short, long := c.long, lastEntryDay := c.lastEntryDay }

def History.close (h : History K) (c : Close K) : History K :=
  let e := h.emotion.reach c
  ⟨e.close c.day, if e.long.weight ≤ 0 then h.days else h.days ++ [e.dayAt c.day]⟩

/-- The closes of an emotion, from its first one on. -/
def history (closes : List (Close K)) : History K := closes.foldl History.close ⟨.empty, []⟩

end Definitions

section Runs

variable {K : Type*} [Field K] [LinearOrder K]

/-! ## The tracker -/

/-- The moves, from a result. -/
def TrackerResult.moves (t : TrackerResult) (ms : List (Move K × Bool)) : TrackerResult :=
  ms.foldl (fun t m => t.move m.1 m.2) t

theorem runTracker_eq (ms : List (Move K × Bool)) (seed : Option Seed) :
    runTracker ms seed = TrackerResult.moves ⟨[], seed.map Seed.run⟩ ms := rfl

theorem moves_append (t : TrackerResult) (ms ms' : List (Move K × Bool)) :
    t.moves (ms ++ ms') = (t.moves ms).moves ms' := List.foldl_append

/-- A move finishes a run whatever was finished before. -/
theorem move_finished (t : TrackerResult) (m : Move K) (felt : Bool) :
    t.move m felt =
      ⟨t.finished ++ (TrackerResult.move ⟨[], t.current⟩ m felt).finished,
        (TrackerResult.move ⟨[], t.current⟩ m felt).current⟩ := by
  obtain ⟨finished, current⟩ := t
  unfold TrackerResult.move
  cases current with
  | none => dsimp only; split_ifs <;> simp
  | some run =>
    obtain ⟨direction, startDay, length, lastWithDay, feltCount, pending⟩ := run
    cases pending with
    | none => dsimp only; split_ifs <;> simp
    | some p => dsimp only; split_ifs <;> simp

theorem moves_finished (t : TrackerResult) (ms : List (Move K × Bool)) :
    t.moves ms =
      ⟨t.finished ++ (TrackerResult.moves ⟨[], t.current⟩ ms).finished,
        (TrackerResult.moves ⟨[], t.current⟩ ms).current⟩ := by
  induction ms generalizing t with
  | nil => exact (congrArg (TrackerResult.mk · t.current) (List.append_nil _)).symm
  | cons m ms ih =>
    show (t.move m.1 m.2).moves ms =
      ⟨t.finished ++ (TrackerResult.moves (TrackerResult.move ⟨[], t.current⟩ m.1 m.2) ms).finished,
        (TrackerResult.moves (TrackerResult.move ⟨[], t.current⟩ m.1 m.2) ms).current⟩
    rw [ih, move_finished t, ih (TrackerResult.move ⟨[], t.current⟩ m.1 m.2)]
    simp only [List.append_assoc]

/-- What holds of a run after the move of a day, where no move was felt. -/
structure CurrentRun.At (run : CurrentRun) (day : ℤ) : Prop where
  direction : run.direction ≠ 0
  length : run.length = day - run.startDay + 1
  feltCount : run.feltCount = 0
  settled : run.pending = none → run.lastWithDay = day
  pending : ∀ p, run.pending = some p →
    p.day = day ∧ run.lastWithDay = day - 1 ∧ p.felt = false

/-- The second reverse day, on which a run turns out to have ended. -/
def FinishedRun.endDay (r : FinishedRun) : ℤ := r.lastWithDay + 2

/-- What the tracker has after the move of a day, from a start day on. -/
structure TrackerResult.Within (t : TrackerResult) (start day : ℤ) : Prop where
  started : start ≤ day
  finished : ∀ r ∈ t.finished, r.length = r.lastWithDay - r.startDay + 1 ∧
    start < r.endDay ∧ r.endDay ≤ day
  current : ∀ run, t.current = some run → run.At day

/-- The move of the next day. A run that it finishes ends on it. -/
theorem TrackerResult.Within.move {t : TrackerResult} {start day : ℤ} (h : t.Within start day)
    (delta : K) : (t.move ⟨day + 1, delta⟩ false).Within start (day + 1) := by
  have hstart := h.started
  have hstarted : start ≤ day + 1 := by omega
  have hbefore : ∀ r ∈ t.finished, r.length = r.lastWithDay - r.startDay + 1 ∧
      start < r.endDay ∧ r.endDay ≤ day + 1 := by
    intro r hr
    obtain ⟨hlength, hafter, hend⟩ := h.finished r hr
    exact ⟨hlength, hafter, by omega⟩
  obtain ⟨finished, current⟩ := t
  unfold TrackerResult.move
  cases current with
  | none =>
    dsimp only
    split_ifs with hsign
    · exact ⟨hstarted, hbefore, nofun⟩
    · refine ⟨hstarted, hbefore, ?_⟩
      rintro run ⟨⟩
      exact ⟨hsign, by dsimp only; omega, rfl, fun _ => rfl, nofun⟩
  | some run =>
    obtain ⟨hdirection, hlength, hfelt, hsettled, hpending⟩ := h.current run rfl
    obtain ⟨direction, startDay, length, lastWithDay, feltCount, pending⟩ := run
    dsimp only at hdirection hlength hfelt hsettled hpending
    have hnext : length + 1 = day + 1 - startDay + 1 := by omega
    cases pending with
    | none =>
      dsimp only
      split_ifs with hsign
      · refine ⟨hstarted, hbefore, ?_⟩
        rintro run ⟨⟩
        exact ⟨hdirection, hnext, hfelt, fun _ => rfl, nofun⟩
      · refine ⟨hstarted, hbefore, ?_⟩
        rintro run ⟨⟩
        refine ⟨hdirection, hnext, hfelt, nofun, ?_⟩
        rintro p ⟨⟩
        have hlast := hsettled rfl
        exact ⟨rfl, by dsimp only; omega, rfl⟩
    | some p =>
      obtain ⟨hday, hlast, hpfelt⟩ := hpending p rfl
      -- A run that ends does so before its first reverse day.
      have hended : ∀ r ∈ finished ++ [(⟨startDay, direction, length - 1, lastWithDay⟩ :
          FinishedRun)], r.length = r.lastWithDay - r.startDay + 1 ∧
          start < r.endDay ∧ r.endDay ≤ day + 1 := by
        intro r hr
        rcases List.mem_append.mp hr with hr | hr
        · exact hbefore r hr
        · obtain rfl := List.mem_singleton.mp hr
          dsimp only [FinishedRun.endDay]
          omega
      dsimp only
      split_ifs with hsign hzero hkind
      · refine ⟨hstarted, hbefore, ?_⟩
        rintro run ⟨⟩
        exact ⟨hdirection, hnext, hfelt, fun _ => rfl, nofun⟩
      · exact ⟨hstarted, hended, nofun⟩
      · refine ⟨hstarted, hended, ?_⟩
        rintro run ⟨⟩
        exact ⟨hzero, by dsimp only; omega, rfl, fun _ => rfl, nofun⟩
      · refine ⟨hstarted, hended, ?_⟩
        rintro run ⟨⟩
        exact ⟨hzero, by dsimp only; omega, by rw [hpfelt]; rfl, fun _ => rfl, nofun⟩

/-- A first reverse day is the day of the last move, and comes after none. -/
theorem pending_move {t : TrackerResult} {m : Move K} {felt : Bool} {run : CurrentRun}
    {p : Pending} (hrun : (t.move m felt).current = some run) (hp : run.pending = some p) :
    p = ⟨m.day, SignType.sign m.delta = 0, felt⟩ ∧
      ∃ old, t.current = some old ∧ old.pending = none := by
  obtain ⟨finished, current⟩ := t
  unfold TrackerResult.move at hrun
  cases current with
  | none =>
    dsimp only at hrun
    split_ifs at hrun
    · cases hrun
      exact nomatch hp
  | some old =>
    obtain ⟨direction, startDay, length, lastWithDay, feltCount, pending⟩ := old
    cases pending with
    | none =>
      dsimp only at hrun
      split_ifs at hrun
      · cases hrun
        cases hp
      · cases hrun
        exact ⟨(Option.some.inj hp).symm, _, rfl, rfl⟩
    | some q =>
      dsimp only at hrun
      split_ifs at hrun
      · cases hrun
        exact nomatch hp
      · cases hrun
        exact nomatch hp
      · cases hrun
        exact nomatch hp

/-- A run that goes on over a day on which the app was off has its first reverse day. -/
theorem pending_zero {t : TrackerResult} {start day : ℤ} (h : t.Within start day) {next : ℤ}
    {run : CurrentRun}
    (hrun : (t.move ⟨next, (0 : K)⟩ false).current = some run) : run.pending ≠ none := by
  obtain ⟨finished, current⟩ := t
  unfold TrackerResult.move at hrun
  cases current with
  | none =>
    dsimp only at hrun
    rw [sign_zero, if_pos rfl] at hrun
    cases hrun
  | some old =>
    have hdirection := (h.current old rfl).direction
    obtain ⟨direction, startDay, length, lastWithDay, feltCount, pending⟩ := old
    dsimp only at hdirection hrun
    rw [sign_zero, if_neg hdirection.symm] at hrun
    cases pending with
    | none =>
      cases hrun
      exact nofun
    | some p =>
      dsimp only at hrun
      rw [if_pos rfl] at hrun
      cases hrun

/-! ## The days -/

/-- The tracker over all moves of the long average. -/
def tracked (days : List (SnapshotDay K)) : TrackerResult := runTracker (longMoves days) none

omit [LinearOrder K] in
theorem stepMoves_unfelt (previous current : SnapshotDay K) :
    (stepMoves SnapshotDay.long previous current).map (fun m => (m.1, false)) =
      closingMoves previous current.day current.long := by
  simp [stepMoves, closingMoves]

omit [LinearOrder K] in
theorem longMoves_cons (previous current : SnapshotDay K) (days : List (SnapshotDay K)) :
    longMoves (previous :: current :: days) =
      closingMoves previous current.day current.long ++ longMoves (current :: days) := by
  rw [longMoves, movesBetween, List.map_append, stepMoves_unfelt]
  rfl

omit [LinearOrder K] in
theorem longMoves_append (pre : List (SnapshotDay K)) (d : SnapshotDay K)
    (post : List (SnapshotDay K)) :
    longMoves (pre ++ d :: post) = longMoves (pre ++ [d]) ++ longMoves (d :: post) := by
  induction pre with
  | nil => rfl
  | cons first pre ih =>
    cases pre with
    | nil =>
      show longMoves (first :: d :: post) = longMoves (first :: d :: []) ++ longMoves (d :: post)
      rw [longMoves_cons, longMoves_cons, List.append_assoc]
      rfl
    | cons second pre =>
      simp only [List.cons_append] at ih ⊢
      rw [longMoves_cons, longMoves_cons, ih, List.append_assoc]

/-- The moves of one day more. -/
theorem tracked_concat (pre : List (SnapshotDay K)) (p d : SnapshotDay K) :
    tracked (pre ++ [p, d]) = (tracked (pre ++ [p])).moves (closingMoves p d.day d.long) := by
  unfold tracked
  rw [longMoves_append pre p [d], longMoves_cons, runTracker_eq, runTracker_eq, moves_append]
  exact congrArg _ (List.append_nil _)

/-- The moves of days on which the app was off. -/
theorem TrackerResult.Within.offDays {t : TrackerResult} {start day : ℤ} (h : t.Within start day)
    (n : ℕ) :
    (t.moves ((daysAfter day n).map fun day => ((⟨day, 0⟩ : Move K), false))).Within start
        (day + n) ∧
      (n ≠ 0 → ∀ run, (t.moves ((daysAfter day n).map fun day =>
        ((⟨day, 0⟩ : Move K), false))).current = some run → run.pending ≠ none) := by
  induction n with
  | zero => exact ⟨by simpa [TrackerResult.moves, daysAfter] using h, fun hn => absurd rfl hn⟩
  | succ n ih =>
    have hdays : daysAfter day (n + 1) = daysAfter day n ++ [day + n + 1] := by
      unfold daysAfter
      rw [List.range_succ, List.map_append]
      simp only [List.map_cons, List.map_nil]
      congr 2
      omega
    rw [hdays, List.map_append, moves_append]
    have hlast : day + ((n + 1 : ℕ) : ℤ) = day + n + 1 := by omega
    rw [hlast]
    exact ⟨ih.1.move 0, fun _ run hrun => pending_zero ih.1 hrun⟩

/-- The moves up to a day that closes. A first reverse day at the end of them comes directly after
the day before. -/
theorem TrackerResult.Within.closing {t : TrackerResult} {start : ℤ} {p : SnapshotDay K}
    (h : t.Within start p.day) {closing : ℤ} (hlt : p.day < closing) (long : K) :
    (t.moves (closingMoves p closing long)).Within start closing ∧
      ∀ run q, (t.moves (closingMoves p closing long)).current = some run →
        run.pending = some q →
          closing = p.day + 1 ∧ q = ⟨closing, long - p.long = 0, false⟩ := by
  -- The days that the app was off are moves of zero, and the day that closes moves after them.
  obtain ⟨hoff, hpending⟩ := h.offDays (K := K) (closing - p.day - 1).toNat
  have hday : closing = p.day + ((closing - p.day - 1).toNat : ℤ) + 1 := by omega
  unfold closingMoves
  rw [moves_append]
  refine ⟨?_, ?_⟩
  · have hmove := hoff.move (long - p.long)
    rwa [← hday] at hmove
  · intro run q hrun hq
    obtain ⟨rfl, old, hold, hnone⟩ := pending_move hrun hq
    refine ⟨?_, by simp only [sign_eq_zero_iff]⟩
    by_contra hne
    exact hpending (by omega) old hold hnone

/-- The moves of days one after another. -/
theorem TrackerResult.Within.days {t : TrackerResult} {start : ℤ} {d : SnapshotDay K}
    (h : t.Within start d.day) {rest : List (SnapshotDay K)}
    (hsorted : (d :: rest).Pairwise fun a b => a.day < b.day) :
    (t.moves (longMoves (d :: rest))).Within start ((d :: rest).getLast (by simp)).day := by
  induction rest generalizing t d with
  | nil => exact h
  | cons next rest ih =>
    obtain ⟨hfirst, hrest⟩ := List.pairwise_cons.mp hsorted
    rw [longMoves_cons, moves_append, List.getLast_cons (by simp)]
    exact ih (h.closing (hfirst next (by simp)) next.long).1 hrest

theorem tracked_within {days : List (SnapshotDay K)} {d : SnapshotDay K}
    (hsorted : (days ++ [d]).Pairwise fun a b => a.day < b.day) :
    ∃ start, (tracked (days ++ [d])).Within start d.day := by
  cases days with
  | nil => exact ⟨d.day, le_rfl, nofun, nofun⟩
  | cons first days =>
    have hstart : (⟨[], none⟩ : TrackerResult).Within first.day first.day := ⟨le_rfl, nofun, nofun⟩
    have hdays := hstart.days hsorted
    have hlast : (first :: (days ++ [d])).getLast (by simp) = d := by simp
    rw [show (first :: days.append [d]).getLast _ = d from hlast] at hdays
    exact ⟨first.day, hdays⟩

/-- A first reverse day that ends the days comes directly after the day before it. -/
theorem tracked_pending {days : List (SnapshotDay K)} {d : SnapshotDay K}
    (hsorted : (days ++ [d]).Pairwise fun a b => a.day < b.day) {run : CurrentRun} {q : Pending}
    (hrun : (tracked (days ++ [d])).current = some run) (hq : run.pending = some q) :
    ∃ pre p, days = pre ++ [p] ∧ d.day = p.day + 1 ∧ q = ⟨d.day, d.long - p.long = 0, false⟩ := by
  induction days using List.reverseRecOn with
  | nil => cases hrun
  | append_singleton pre p _ =>
    have hpre : (pre ++ [p]).Pairwise fun a b => a.day < b.day :=
      (List.pairwise_append.mp hsorted).1
    have hlt : p.day < d.day :=
      (List.pairwise_append.mp hsorted).2.2 p (by simp) d (by simp)
    -- After a day off the run has its first reverse day already.
    obtain ⟨start, hwithin⟩ := tracked_within hpre
    rw [List.append_assoc, List.cons_append, List.nil_append, tracked_concat] at hrun
    exact ⟨pre, p, rfl, (hwithin.closing hlt d.long).2 run q hrun hq⟩

/-! ## The records -/

/-- A record and the kind of a first reverse day come to the run again. -/
theorem seed_run {t : TrackerResult} {start : ℤ} {d : SnapshotDay K}
    {days earlier : List (SnapshotDay K)} (h : t.Within start d.day)
    (hdays : days.reverse = d :: earlier) (hrun : d.run = t.current.map CurrentRun.record)
    (hkind : ∀ run q, t.current = some run → run.pending = some q →
      q.isZero = earlier.head?.any fun previous => d.long - previous.long = 0) :
    (seedFor days).map Seed.run = t.current := by
  unfold seedFor
  rw [hdays]
  simp only [hrun]
  cases hcurrent : t.current with
  | none => rfl
  | some run =>
    obtain ⟨-, hlength, hfelt, hsettled, hpending⟩ := h.current run hcurrent
    -- The record lacks the first reverse day, which is the day after the last one with the run.
    have hkind' := hkind run
    obtain ⟨direction, startDay, length, lastWithDay, feltCount, pending⟩ := run
    dsimp only at hlength hfelt hsettled hpending hkind'
    simp only [Option.map_some, CurrentRun.record, Seed.run, Option.some.injEq]
    cases pending with
    | none =>
      have hlast := hsettled rfl
      rw [if_pos hlast.symm, hfelt]
      simp only [Option.isSome_none, Option.map_none, CurrentRun.mk.injEq, true_and, and_true]
      simp
      omega
    | some q =>
      obtain ⟨hday, hlast, hqfelt⟩ := hpending q rfl
      have hne : ¬ d.day = lastWithDay := by omega
      have hnext : lastWithDay + 1 = d.day := by omega
      rw [if_neg hne, hfelt, ← hkind' q hcurrent rfl]
      obtain ⟨qday, isZero, qfelt⟩ := q
      dsimp only at hday hqfelt
      subst hqfelt
      simp [hnext, hday, hlength]

/-- Where later ones pass with every one that does, the last ones pass. -/
theorem filter_suffix {α : Type*} {pass : α → Bool} {xs : List α}
    (h : xs.Pairwise fun a b => pass a = true → pass b = true) : xs.filter pass <:+ xs := by
  induction xs with
  | nil => exact List.suffix_rfl
  | cons x xs ih =>
    obtain ⟨hfirst, hrest⟩ := List.pairwise_cons.mp h
    by_cases hx : pass x = true
    · have hall : (x :: xs).filter pass = x :: xs :=
        List.filter_eq_self.mpr (List.forall_mem_cons.mpr ⟨hx, fun y hy => hfirst y hy hx⟩)
      rw [hall]
    · rw [List.filter_cons_of_neg hx]
      exact (ih hrest).trans (List.suffix_cons x xs)

/-- The days of the last 30. -/
def recent (days : List (SnapshotDay K)) : List (SnapshotDay K) :=
  days.getLast?.elim [] fun last => days.filter fun d => last.day - d.day < longHalfLifeDays

omit [Field K] [LinearOrder K] in
theorem recent_concat (days : List (SnapshotDay K)) (d : SnapshotDay K) :
    recent (days ++ [d]) =
      (days.filter fun x => d.day - x.day < longHalfLifeDays) ++ [d] := by
  simp [recent, List.filter_append, longHalfLifeDays]

/-- The seed that the last of the recent days gives is the run in progress. -/
theorem seed_recent {days : List (SnapshotDay K)} {d : SnapshotDay K}
    (hsorted : (days ++ [d]).Pairwise fun a b => a.day < b.day)
    (hrun : d.run = (tracked (days ++ [d])).current.map CurrentRun.record) :
    (seedFor (recent (days ++ [d]))).map Seed.run = (tracked (days ++ [d])).current := by
  obtain ⟨start, hwithin⟩ := tracked_within hsorted
  have hreverse : (recent (days ++ [d])).reverse =
      d :: (days.filter fun x => d.day - x.day < longHalfLifeDays).reverse := by
    rw [recent_concat, List.reverse_append]
    rfl
  refine seed_run hwithin hreverse hrun ?_
  intro run q hcurrent hq
  -- The kind of the first reverse day is read off the day before, which is recent still.
  obtain ⟨pre, p, rfl, hday, rfl⟩ := tracked_pending hsorted hcurrent hq
  have hrecent : d.day - p.day < longHalfLifeDays := by
    rw [hday]
    simp [longHalfLifeDays]
  rw [List.filter_append, List.filter_cons, if_pos (by simpa using hrecent)]
  simp

/-- What holds of an emotion after closes. -/
structure History.Kept (h : History K) (closes : List (Close K)) : Prop where
  days : (h.days.map fun d => (d.day, d.long)) =
    (closes.filter fun c => 0 < c.long.weight).map fun c => (c.day, c.long.avg)
  snapshot : h.emotion.snapshot = recent h.days
  records : ∀ pre d post, h.days = pre ++ d :: post →
    d.run = (tracked (pre ++ [d])).current.map CurrentRun.record

/-- The days that were closed are in order. -/
theorem History.Kept.sorted {h : History K} {closes : List (Close K)} (hkept : h.Kept closes)
    (hcloses : closes.Pairwise fun a b => a.day < b.day) :
    h.days.Pairwise fun a b => a.day < b.day := by
  have hall : ((h.days.map fun d => (d.day, d.long)).map Prod.fst).Pairwise (· < ·) := by
    rw [hkept.days, List.map_map]
    exact (hcloses.filter _).map _ fun a b hab => hab
  rw [List.map_map] at hall
  exact List.pairwise_map.mp hall

/-- The record of the day that closes is the run of all days with it. -/
theorem runAt_eq {h : History K} {closes : List (Close K)} (hkept : h.Kept closes)
    (hcloses : closes.Pairwise fun a b => a.day < b.day) (c : Close K) :
    (h.emotion.reach c).runAt c.day =
      (tracked (h.days ++ [(h.emotion.reach c).dayAt c.day])).current.map CurrentRun.record := by
  have hsorted := hkept.sorted hcloses
  have hsnapshot : (h.emotion.reach c).snapshot = recent h.days := hkept.snapshot
  unfold EmotionState.runAt
  rw [hsnapshot]
  -- One move more from the seed is one move more of all days.
  rcases List.eq_nil_or_concat h.days with hnil | ⟨pre, p, hdays⟩
  · rw [hnil]
    rfl
  · rw [List.concat_eq_append] at hdays
    rw [hdays] at hsorted ⊢
    have hseed := seed_recent hsorted (hkept.records pre p [] hdays)
    have hlast : (recent (pre ++ [p])).getLast? = some p := by rw [recent_concat]; simp
    rw [hlast, Option.bind_some, runTracker_eq, hseed, List.append_assoc, List.cons_append,
      List.nil_append, tracked_concat, moves_finished (tracked (pre ++ [p]))]
    rfl

/-- Nothing is kept of a day on which the emotion is not present. -/
theorem close_of_absent (h : History K) {c : Close K} (hc : c.long.weight ≤ 0) :
    h.close c = ⟨h.emotion.reach c, h.days⟩ := by
  have hlong : (h.emotion.reach c).long.weight ≤ 0 := hc
  simp only [History.close, EmotionState.close, if_pos hlong]

theorem close_of_present (h : History K) {c : Close K} (hc : ¬ c.long.weight ≤ 0) :
    h.close c =
      let day := (h.emotion.reach c).dayAt c.day
      ⟨{ h.emotion.reach c with
          snapshot := (h.emotion.snapshot ++ [day]).filter fun d =>
            c.day - d.day < longHalfLifeDays },
        h.days ++ [day]⟩ := by
  have hlong : ¬ (h.emotion.reach c).long.weight ≤ 0 := hc
  simp only [History.close, EmotionState.close, if_neg hlong]
  rfl

/-- Every day that was closed is before the day that closes. -/
theorem History.Kept.before {h : History K} {closes : List (Close K)} (hkept : h.Kept closes)
    {closing : ℤ} (hcloses : ∀ c ∈ closes, c.day < closing) : ∀ d ∈ h.days, d.day < closing := by
  intro d hd
  have hmem := List.mem_map_of_mem (f := fun d : SnapshotDay K => (d.day, d.long)) hd
  rw [hkept.days] at hmem
  obtain ⟨c, hc, heq⟩ := List.mem_map.mp hmem
  have hday : c.day = d.day := congrArg Prod.fst heq
  rw [← hday]
  exact hcloses c (List.mem_of_mem_filter hc)

omit [Field K] [LinearOrder K] in
/-- What a later close drops is all that was dropped before. -/
theorem filter_recent {days : List (SnapshotDay K)} {closing : ℤ}
    (hbefore : ∀ d ∈ days, d.day < closing) :
    ((recent days).filter fun d => closing - d.day < longHalfLifeDays) =
      days.filter fun d => closing - d.day < longHalfLifeDays := by
  unfold recent
  cases hlast : days.getLast? with
  | none =>
    rw [List.getLast?_eq_none_iff.mp hlast]
    rfl
  | some last =>
    have hlt := hbefore last (List.mem_of_getLast? hlast)
    rw [Option.elim_some, List.filter_filter]
    refine List.filter_congr fun d _ => ?_
    rw [← Bool.decide_and]
    exact decide_eq_decide.mpr (by omega)

theorem History.Kept.close {h : History K} {closes : List (Close K)} {c : Close K}
    (hkept : h.Kept closes) (hcloses : (closes ++ [c]).Pairwise fun a b => a.day < b.day) :
    (h.close c).Kept (closes ++ [c]) := by
  obtain ⟨hbefore, -, hlater⟩ := List.pairwise_append.mp hcloses
  by_cases hc : c.long.weight ≤ 0
  · rw [close_of_absent h hc]
    refine ⟨?_, hkept.snapshot, hkept.records⟩
    rw [List.filter_append, List.filter_cons_of_neg (a := c) (by simpa using hc),
      List.filter_nil, List.append_nil]
    exact hkept.days
  · rw [close_of_present h hc]
    refine ⟨?_, ?_, ?_⟩
    · rw [List.filter_append, List.filter_cons_of_pos (a := c) (by simpa using hc),
        List.filter_nil, List.map_append, List.map_append, ← hkept.days]
      rfl
    · have hdays := hkept.before fun c' hc' => hlater c' hc' c (List.mem_singleton_self c)
      dsimp only
      rw [recent_concat, List.filter_append, hkept.snapshot, filter_recent hdays,
        List.filter_cons_of_pos (by simp [EmotionState.dayAt, longHalfLifeDays]), List.filter_nil]
      rfl
    · intro pre d post hdays
      dsimp only at hdays
      rcases List.eq_nil_or_concat post with rfl | ⟨post, x, rfl⟩
      · -- The day that closes.
        obtain ⟨rfl, hd⟩ := List.append_inj' hdays rfl
        obtain rfl := (List.cons.inj hd).1
        exact runAt_eq hkept hbefore c
      · rw [List.concat_eq_append, ← List.cons_append, ← List.append_assoc] at hdays
        exact hkept.records pre d post (List.append_inj' hdays rfl).1

theorem kept_history {closes : List (Close K)}
    (hcloses : closes.Pairwise fun a b => a.day < b.day) : (history closes).Kept closes := by
  induction closes using List.reverseRecOn with
  | nil => exact ⟨rfl, rfl, fun pre d post h => by simp [history] at h⟩
  | append_singleton closes c ih =>
    have hbefore := (List.pairwise_append.mp hcloses).1
    have hclose : history (closes ++ [c]) = (history closes).close c := List.foldl_append
    rw [hclose]
    exact (ih hbefore).close hcloses

/-- What one day's record and the moves after it come to, from the runs up to that day. -/
theorem longRuns_eq {old rest : List (SnapshotDay K)} {oldest : SnapshotDay K}
    (hsorted : (old ++ [oldest]).Pairwise fun a b => a.day < b.day)
    (hrun : oldest.run = (tracked (old ++ [oldest])).current.map CurrentRun.record)
    (hkind : ∀ run q, (tracked (old ++ [oldest])).current = some run → run.pending = some q →
      q.isZero = false) :
    longRuns (oldest :: rest) =
      TrackerResult.moves ⟨[], (tracked (old ++ [oldest])).current⟩ (longMoves (oldest :: rest)) := by
  obtain ⟨start, hwithin⟩ := tracked_within hsorted
  have hseed : (seedFor ((oldest :: rest).take 1)).map Seed.run =
      (tracked (old ++ [oldest])).current := seed_run hwithin rfl hrun hkind
  rw [longRuns, runTracker_eq, hseed]

omit [Field K] [LinearOrder K] in
/-- The days of the snapshot are the last ones that were closed. -/
theorem recent_suffix {days : List (SnapshotDay K)}
    (hsorted : days.Pairwise fun a b => a.day < b.day) : recent days <:+ days := by
  unfold recent
  cases days.getLast? with
  | none => exact List.nil_suffix
  | some last =>
    refine filter_suffix (hsorted.imp fun {a b} hab ha => ?_)
    have hrecent := of_decide_eq_true ha
    exact decide_eq_true (by omega)

/-- The record of each day is the run of one pass over all days up to it, and the runs that
`_shift_of` finds are those of one pass over all days that end on a later day than the oldest of
the snapshot, where that is not a first reverse day without a move. -/
theorem runs_incremental (closes : List (Close K))
    (hcloses : closes.Pairwise fun a b => a.day < b.day) :
    ((history closes).days.map fun d => (d.day, d.long)) =
        ((closes.filter fun c => 0 < c.long.weight).map fun c => (c.day, c.long.avg)) ∧
      (∀ pre d post, (history closes).days = pre ++ d :: post →
        d.run = (runTracker (longMoves (pre ++ [d])) none).current.map CurrentRun.record) ∧
      (history closes).emotion.snapshot = recent (history closes).days ∧
      ∀ oldest rest, (history closes).emotion.snapshot = oldest :: rest →
        ∃ old, (history closes).days = old ++ oldest :: rest ∧
          ((∀ run p, (runTracker (longMoves (old ++ [oldest])) none).current = some run →
              run.pending = some p → p.isZero = false) →
            (longRuns (oldest :: rest)).finished =
                ((runTracker (longMoves (history closes).days) none).finished.filter
                  fun r => oldest.day < r.endDay) ∧
              ∀ r ∈ (longRuns (oldest :: rest)).finished,
                r.length = r.lastWithDay - r.startDay + 1) := by
  have hkept := kept_history hcloses
  have hsorted := hkept.sorted hcloses
  refine ⟨hkept.days, hkept.records, hkept.snapshot, ?_⟩
  intro oldest rest hsnapshot
  obtain ⟨old, hold⟩ := recent_suffix hsorted
  rw [← hkept.snapshot, hsnapshot] at hold
  refine ⟨old, hold.symm, fun hkind => ?_⟩
  rw [← hold] at hsorted ⊢
  have hfirst : (old ++ [oldest]).Pairwise fun a b => a.day < b.day := by
    rw [List.append_cons] at hsorted
    exact (List.pairwise_append.mp hsorted).1
  have hrest : (oldest :: rest).Pairwise fun a b => a.day < b.day :=
    (List.pairwise_append.mp hsorted).2.1
  obtain ⟨start, hwithin⟩ := tracked_within hfirst
  -- The runs of the window end in it, and the runs before it by its oldest day.
  have hwindow : (longRuns (oldest :: rest)).Within oldest.day
      ((oldest :: rest).getLast (by simp)).day := by
    rw [longRuns_eq hfirst (hkept.records old oldest rest hold.symm) hkind]
    have hstart : (⟨[], (tracked (old ++ [oldest])).current⟩ : TrackerResult).Within oldest.day
        oldest.day := ⟨le_rfl, nofun, hwithin.current⟩
    exact hstart.days hrest
  have hall : (runTracker (longMoves (old ++ oldest :: rest)) none).finished =
      (tracked (old ++ [oldest])).finished ++ (longRuns (oldest :: rest)).finished := by
    rw [longMoves_append, runTracker_eq, moves_append, moves_finished,
      longRuns_eq hfirst (hkept.records old oldest rest hold.symm) hkind]
    rfl
  have hbefore : ((tracked (old ++ [oldest])).finished.filter
      fun r => oldest.day < r.endDay) = [] := by
    refine List.filter_eq_nil_iff.mpr fun r hr => ?_
    have hend := (hwithin.finished r hr).2.2
    exact fun hlt => absurd (of_decide_eq_true hlt) (not_lt.mpr hend)
  have hafter : ((longRuns (oldest :: rest)).finished.filter fun r => oldest.day < r.endDay) =
      (longRuns (oldest :: rest)).finished :=
    List.filter_eq_self.mpr fun r hr => decide_eq_true (hwindow.finished r hr).2.1
  refine ⟨?_, fun r hr => (hwindow.finished r hr).1⟩
  rw [hall, List.filter_append, hbefore, hafter, List.nil_append]

end Runs

/-- A close of a present emotion that had no entry. -/
def Close.ofLong (day : ℤ) (long : ℚ) : Close ℚ := ⟨day, ⟨0, 0⟩, ⟨long, 1⟩, none⟩

/-- Up, one day off, and down for two days. -/
theorem runs_incremental_down :
    let closes := [Close.ofLong 0 1, Close.ofLong 1 2, Close.ofLong 3 1, Close.ofLong 4 0]
    ((history closes).days.map fun d => (d.day, d.long)) =
        ((closes.filter fun c => 0 < c.long.weight).map fun c => (c.day, c.long.avg)) ∧
      (∀ pre d post, (history closes).days = pre ++ d :: post →
        d.run = (runTracker (longMoves (pre ++ [d])) none).current.map CurrentRun.record) ∧
      (history closes).emotion.snapshot = recent (history closes).days ∧
      ∀ oldest rest, (history closes).emotion.snapshot = oldest :: rest →
        ∃ old, (history closes).days = old ++ oldest :: rest ∧
          ((∀ run p, (runTracker (longMoves (old ++ [oldest])) none).current = some run →
              run.pending = some p → p.isZero = false) →
            (longRuns (oldest :: rest)).finished =
                ((runTracker (longMoves (history closes).days) none).finished.filter
                  fun r => oldest.day < r.endDay) ∧
              ∀ r ∈ (longRuns (oldest :: rest)).finished,
                r.length = r.lastWithDay - r.startDay + 1) :=
  runs_incremental _ (by decide)

/-- The run that went up is finished after one day. -/
example :
    (longRuns (history [Close.ofLong 0 1, Close.ofLong 1 2, Close.ofLong 3 1,
      Close.ofLong 4 0]).emotion.snapshot).finished = [⟨1, 1, 1, 1⟩] := by
  decide +kernel

end Companion.Emotion

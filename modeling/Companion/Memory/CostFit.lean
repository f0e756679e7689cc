import Companion.LeastSquares
import Mathlib.Algebra.BigOperators.Ring.Finset
import Mathlib.Data.Rat.Cast.Order

/-!
# The fit of a cost series

`LinearSums`, `fit_linear` and `SeriesState` of `brain/memory/cost_series.py`: the seconds of a call
as `overhead + rate * x`, fitted by least squares, where a window of one size rescales the estimate
that was carried over from earlier. The sums are made in two ways, by the database over its rows
(`windowSums`) and by `plus` over the samples of the buffer.

For sizes from one on and seconds from zero on, the two make the same sums of all samples
(`foldl_plus_windowSums`), the estimate is not negative (`estimate_nonneg`), and it is the line of
least squares where that has a positive rate and no negative overhead (`estimate_eq_leastSquares`).
Arithmetic is exact.
-/

namespace Companion.Memory.CostFit

/-- Running sums of samples, each a size with seconds. -/
@[ext]
structure LinearSums where
  n : ℕ
  sumX : ℤ
  sumY : ℚ
  sumXY : ℚ
  sumXX : ℤ
  maxX : ℤ
  deriving DecidableEq

namespace LinearSums

/-- The sums before any sample. -/
def zero : LinearSums := ⟨0, 0, 0, 0, 0, 0⟩

def plus (s : LinearSums) (x : ℤ) (y : ℚ) : LinearSums where
  n := s.n + 1
  sumX := s.sumX + x
  sumY := s.sumY + y
  sumXY := s.sumXY + x * y
  sumXX := s.sumXX + x * x
  maxX := max s.maxX x

/-- The denominator of the fit. -/
def denominator (s : LinearSums) : ℤ := s.n * s.sumXX - s.sumX * s.sumX

def hasTwoSizes (s : LinearSums) : Bool := 0 < s.denominator

/-- The sums of samples, one after the other. -/
def add (s : LinearSums) (ps : List (ℤ × ℚ)) : LinearSums := ps.foldl (fun s p => s.plus p.1 p.2) s

end LinearSums

/-- `_cost_window_sums`, over the rows of the window. -/
def windowSums (rows : List (ℤ × ℚ)) : LinearSums where
  n := rows.length
  sumX := (rows.map fun p => p.1).sum
  sumY := (rows.map fun p => p.2).sum
  sumXY := (rows.map fun p => (p.1 : ℚ) * p.2).sum
  sumXX := (rows.map fun p => p.1 * p.1).sum
  maxX := (rows.map fun p => p.1).max?.getD 0

structure LinearFit where
  overhead : ℚ
  rate : ℚ
  samples : ℕ
  deriving DecidableEq

def LinearFit.predict (f : LinearFit) (x : ℤ) : ℚ := f.overhead + f.rate * x

/-- `fit_linear` -/
def fitLinear (s : LinearSums) : Option LinearFit :=
  if s.n = 0 ∨ s.sumX ≤ 0 then none
  else
    let rate := (s.n * s.sumXY - s.sumX * s.sumY) / s.denominator
    let overhead := (s.sumY - rate * s.sumX) / s.n
    if 0 < s.denominator ∧ 0 ≤ overhead ∧ 0 < rate then some ⟨overhead, rate, s.n⟩
    else some ⟨0, s.sumY / s.sumX, s.n⟩

structure RangedFit where
  fit : LinearFit
  maxX : ℤ
  deriving DecidableEq

structure SeriesState where
  sums : LinearSums
  carried : Option RangedFit

/-- `_own` -/
def own (s : LinearSums) : Option RangedFit := (fitLinear s).map fun fit => ⟨fit, s.maxX⟩

/-- `SeriesState.estimate` -/
def SeriesState.estimate (s : SeriesState) : Option RangedFit :=
  if s.sums.n = 0 then s.carried
  else
    match s.carried with
    | none => own s.sums
    | some carried =>
      if s.sums.hasTwoSizes then own s.sums
      else
        let predicted := carried.fit.predict (s.sums.sumX / s.sums.n)
        if predicted ≤ 0 then own s.sums
        else
          let factor := (s.sums.sumY / s.sums.n) / predicted
          some ⟨⟨carried.fit.overhead * factor, carried.fit.rate * factor, s.sums.n⟩,
            max s.sums.maxX carried.maxX⟩

/-! ## The sums -/

/-- A size from one on, and no negative seconds. -/
def IsSample (p : ℤ × ℚ) : Prop := 1 ≤ p.1 ∧ 0 ≤ p.2

instance : DecidablePred IsSample := fun _ => instDecidableAnd

namespace LinearSums

theorem add_cons (s : LinearSums) (p : ℤ × ℚ) (ps : List (ℤ × ℚ)) :
    s.add (p :: ps) = (s.plus p.1 p.2).add ps := rfl

/-- The order of two samples makes no difference. -/
theorem plus_plus_comm (s : LinearSums) (p q : ℤ × ℚ) :
    (s.plus p.1 p.2).plus q.1 q.2 = (s.plus q.1 q.2).plus p.1 p.2 :=
  LinearSums.ext rfl (add_right_comm _ _ _) (add_right_comm _ _ _) (add_right_comm _ _ _)
    (add_right_comm _ _ _) (max_right_comm _ _ _)

/-- Nor does the order of many. -/
theorem add_perm {ps qs : List (ℤ × ℚ)} (h : ps.Perm qs) (s : LinearSums) : s.add ps = s.add qs :=
  h.foldl_eq' (fun p _ q _ s => plus_plus_comm s p q) s

end LinearSums

theorem max?_append_singleton {l : List ℤ} {x : ℤ} (hx : 0 ≤ x) :
    (l ++ [x]).max?.getD 0 = max (l.max?.getD 0) x := by
  cases l with
  | nil => exact (max_eq_right hx).symm
  | cons y l =>
    rw [List.cons_append, List.max?_cons', List.max?_cons', Option.getD_some, Option.getD_some,
      List.foldl_append]
    rfl

theorem sum_map_append_singleton {α M : Type} [AddMonoid M] (f : α → M) (as : List α) (a : α) :
    ((as ++ [a]).map f).sum = (as.map f).sum + f a := by
  rw [List.map_append, List.sum_append, List.map_singleton, List.sum_singleton]

/-- The database and `plus` make the same sums. -/
theorem windowSums_append_singleton (rows : List (ℤ × ℚ)) {p : ℤ × ℚ} (hp : IsSample p) :
    windowSums (rows ++ [p]) = (windowSums rows).plus p.1 p.2 := by
  refine LinearSums.ext List.length_append (sum_map_append_singleton _ rows p)
    (sum_map_append_singleton _ rows p) (sum_map_append_singleton _ rows p)
    (sum_map_append_singleton _ rows p) ?_
  -- Without a row the database has no maximum, and `plus` starts at zero.
  show ((rows ++ [p]).map _).max?.getD 0 = max ((rows.map _).max?.getD 0) p.1
  rw [List.map_append, List.map_singleton, max?_append_singleton (zero_le_one.trans hp.1)]

/-- However the samples are split, the sums are those of all. -/
theorem add_windowSums (rows : List (ℤ × ℚ)) {buffered : List (ℤ × ℚ)}
    (h : ∀ p ∈ buffered, IsSample p) :
    (windowSums rows).add buffered = windowSums (rows ++ buffered) := by
  induction buffered generalizing rows with
  | nil => rw [List.append_nil]; rfl
  | cons p ps ih =>
    rw [LinearSums.add_cons, ← windowSums_append_singleton rows (h p List.mem_cons_self),
      ih _ fun q hq => h q (List.mem_cons_of_mem p hq), ← List.append_cons]

theorem windowSums_perm {ps qs : List (ℤ × ℚ)} (hperm : ps.Perm qs) (hps : ∀ p ∈ ps, IsSample p) :
    windowSums ps = windowSums qs := by
  have hqs : ∀ q ∈ qs, IsSample q := fun q hq => hps q (hperm.mem_iff.mpr hq)
  calc windowSums ps = (windowSums []).add ps := (add_windowSums [] hps).symm
    _ = (windowSums []).add qs := LinearSums.add_perm hperm _
    _ = windowSums qs := add_windowSums [] hqs

/-- The estimate of the samples in the database and in the buffer. -/
def estimateOf (carried : Option RangedFit) (rows buffered : List (ℤ × ℚ)) : Option RangedFit :=
  SeriesState.estimate ⟨(windowSums rows).add buffered, carried⟩

/-- It does not depend on where the samples are. -/
theorem estimateOf_perm (carried : Option RangedFit) {rows buffered rows' buffered' : List (ℤ × ℚ)}
    (hperm : (rows ++ buffered).Perm (rows' ++ buffered')) (h : ∀ p ∈ rows ++ buffered, IsSample p) :
    estimateOf carried rows buffered = estimateOf carried rows' buffered' := by
  have h' : ∀ p ∈ rows' ++ buffered', IsSample p := fun p hp => h p (hperm.mem_iff.mpr hp)
  unfold estimateOf
  rw [add_windowSums rows fun p hp => h p (List.mem_append_right _ hp),
    add_windowSums rows' fun p hp => h' p (List.mem_append_right _ hp), windowSums_perm hperm h]

/-! ## The fit -/

/-- The samples as points. -/
def points (ps : List (ℤ × ℚ)) : List (ℚ × ℚ) := ps.map fun p => ((p.1 : ℚ), p.2)

section Moments

variable (ps : List (ℤ × ℚ))

theorem sumX_points : LeastSquares.sumX (points ps) = (windowSums ps).sumX := by
  show ((ps.map _).map _).sum = (((ps.map _).sum : ℤ) : ℚ)
  rw [List.map_map, Int.cast_list_sum, List.map_map]
  rfl

theorem sumXX_points : LeastSquares.sumXX (points ps) = (windowSums ps).sumXX := by
  show ((ps.map _).map _).sum = (((ps.map _).sum : ℤ) : ℚ)
  rw [List.map_map, Int.cast_list_sum, List.map_map]
  congr 1
  exact List.map_congr_left fun p _ => (Int.cast_mul _ _).symm

theorem sumY_points : LeastSquares.sumY (points ps) = (windowSums ps).sumY := by
  show ((ps.map _).map _).sum = (ps.map _).sum
  rw [List.map_map]
  rfl

theorem sumXY_points : LeastSquares.sumXY (points ps) = (windowSums ps).sumXY := by
  show ((ps.map _).map _).sum = (ps.map _).sum
  rw [List.map_map]
  rfl

theorem count_points : LeastSquares.count (points ps) = (windowSums ps).n := by
  rw [LeastSquares.count_eq_length, points, List.length_map]
  rfl

theorem spread_points : LeastSquares.spread (points ps) = (windowSums ps).denominator := by
  rw [LeastSquares.spread, count_points, sumX_points, sumXX_points, LinearSums.denominator]
  push_cast
  rfl

end Moments

/-- Two sizes are seen just where there are two. -/
theorem hasTwoSizes_iff (ps : List (ℤ × ℚ)) :
    (windowSums ps).hasTwoSizes = true ↔ ∃ p ∈ ps, ∃ q ∈ ps, p.1 ≠ q.1 := by
  rw [LinearSums.hasTwoSizes, decide_eq_true_eq, ← Int.cast_pos (R := ℚ), ← spread_points,
    LeastSquares.spread_pos]
  constructor
  · rintro ⟨_, hp', _, hq', hne⟩
    obtain ⟨p, hp, rfl⟩ := List.mem_map.mp hp'
    obtain ⟨q, hq, rfl⟩ := List.mem_map.mp hq'
    exact ⟨p, hp, q, hq, fun heq => hne (congrArg Int.cast heq)⟩
  · rintro ⟨p, hp, q, hq, hne⟩
    refine ⟨_, List.mem_map_of_mem hp, _, List.mem_map_of_mem hq, fun heq => hne ?_⟩
    exact Int.cast_injective heq

/-- No negative overhead and no negative rate. -/
def LinearFit.Nonneg (f : LinearFit) : Prop := 0 ≤ f.overhead ∧ 0 ≤ f.rate

theorem LinearFit.Nonneg.predict {f : LinearFit} (h : f.Nonneg) {x : ℤ} (hx : 0 ≤ x) :
    0 ≤ f.predict x :=
  add_nonneg h.1 (mul_nonneg h.2 (Int.cast_nonneg hx))

section Samples

variable {ps : List (ℤ × ℚ)} (h : ∀ p ∈ ps, IsSample p)

include h in
theorem sumY_nonneg : 0 ≤ (windowSums ps).sumY := by
  refine List.sum_nonneg fun y hy => ?_
  obtain ⟨p, hp, rfl⟩ := List.mem_map.mp hy
  exact (h p hp).2

include h in
theorem length_le_sumX : ((windowSums ps).n : ℤ) ≤ (windowSums ps).sumX := by
  show (ps.length : ℤ) ≤ (ps.map _).sum
  induction ps with
  | nil => exact le_rfl
  | cons p ps ih =>
    have hp := (h p List.mem_cons_self).1
    have hps := ih fun q hq => h q (List.mem_cons_of_mem p hq)
    rw [List.map_cons, List.sum_cons, List.length_cons]
    push_cast
    linarith

include h in
theorem fitLinear_nonneg {fit : LinearFit} (hfit : fitLinear (windowSums ps) = some fit) :
    fit.Nonneg := by
  unfold fitLinear at hfit
  split_ifs at hfit with hnone
  dsimp only at hfit
  split_ifs at hfit with hline
  · -- The line is taken only where neither of its numbers is negative.
    obtain rfl := Option.some.inj hfit
    exact ⟨hline.2.1, hline.2.2.le⟩
  · obtain rfl := Option.some.inj hfit
    -- Else there is no overhead, and the rate is that of the whole time to all sizes.
    rw [not_or, not_le] at hnone
    exact ⟨le_rfl, div_nonneg (sumY_nonneg h) (Int.cast_nonneg hnone.2.le)⟩

include h in
/-- The estimate has no negative overhead and no negative rate, where the carried one has none. -/
theorem estimate_nonneg {carried : Option RangedFit} (hcarried : ∀ c ∈ carried, c.fit.Nonneg)
    {e : RangedFit} (he : e ∈ SeriesState.estimate ⟨windowSums ps, carried⟩) : e.fit.Nonneg := by
  have hown : ∀ e ∈ own (windowSums ps), e.fit.Nonneg := by
    intro e he
    obtain ⟨fit, hfit, rfl⟩ := Option.map_eq_some_iff.mp he
    exact fitLinear_nonneg h hfit
  cases carried with
  | none =>
    by_cases hn : (windowSums ps).n = 0
    · rw [SeriesState.estimate, if_pos hn] at he
      exact hcarried e he
    · rw [SeriesState.estimate, if_neg hn] at he
      exact hown e he
  | some c =>
    simp only [SeriesState.estimate] at he
    split_ifs at he with hn htwo hpredicted
    · exact hcarried e he
    · exact hown e he
    · exact hown e he
    · -- The carried estimate is rescaled by a factor that is not negative.
      obtain rfl := Option.some.inj he
      have hc := hcarried c rfl
      have hfactor := div_nonneg (div_nonneg (sumY_nonneg h) (Nat.cast_nonneg (windowSums ps).n))
        (not_le.mp hpredicted).le
      exact ⟨mul_nonneg hc.1 hfactor, mul_nonneg hc.2 hfactor⟩

include h in
/-- The estimate is the line of least squares, where that has a positive rate and no negative
overhead and two sizes were measured. -/
theorem estimate_eq_leastSquares (htwo : (windowSums ps).hasTwoSizes = true) {a b : ℚ}
    (hleast : LeastSquares.IsLeast (points ps) a b) (ha : 0 ≤ a) (hb : 0 < b)
    (carried : Option RangedFit) :
    SeriesState.estimate ⟨windowSums ps, carried⟩ =
      some ⟨⟨a, b, ps.length⟩, (windowSums ps).maxX⟩ := by
  -- With two sizes there is one such line, and its numbers are those that the sums give.
  have hspread : 0 < (windowSums ps).denominator := of_decide_eq_true htwo
  have hline : a = LeastSquares.intercept (points ps) ∧ b = LeastSquares.slope (points ps) := by
    refine (LeastSquares.isLeast_iff ?_).mp hleast
    rw [spread_points]
    exact Int.cast_pos.mpr hspread
  obtain ⟨p, hp, -⟩ := (hasTwoSizes_iff ps).mp htwo
  have hn : 0 < (windowSums ps).n := List.length_pos_of_mem hp
  have hsumX : 0 < (windowSums ps).sumX := by
    have hlength := length_le_sumX h
    omega
  have hrate : b = ((windowSums ps).n * (windowSums ps).sumXY -
      (windowSums ps).sumX * (windowSums ps).sumY) / (windowSums ps).denominator := by
    rw [hline.2, LeastSquares.slope, count_points, sumX_points, sumY_points, sumXY_points,
      spread_points]
  have hoverhead : a = ((windowSums ps).sumY - b * (windowSums ps).sumX) / (windowSums ps).n := by
    rw [hline.1, LeastSquares.intercept, ← hline.2, count_points, sumX_points, sumY_points]
  have hfit : fitLinear (windowSums ps) = some ⟨a, b, ps.length⟩ := by
    unfold fitLinear
    rw [if_neg (by omega)]
    dsimp only
    rw [← hrate, ← hoverhead]
    exact if_pos ⟨hspread, ha, hb⟩
  have hown : own (windowSums ps) = some ⟨⟨a, b, ps.length⟩, (windowSums ps).maxX⟩ := by
    rw [own, hfit]
    rfl
  rw [SeriesState.estimate, if_neg hn.ne']
  cases carried with
  | none => exact hown
  | some c =>
    dsimp only
    rw [if_pos htwo]
    exact hown

include h in
/-- A window of one size. -/
theorem sumX_of_one (hn : (windowSums ps).n ≠ 0) (hone : (windowSums ps).hasTwoSizes = false) :
    (windowSums ps).sumX = (windowSums ps).n * ((windowSums ps).sumX / (windowSums ps).n) ∧
      own (windowSums ps) = some ⟨⟨0, (windowSums ps).sumY / (windowSums ps).sumX, (windowSums ps).n⟩,
        (windowSums ps).maxX⟩ := by
  have hpos : (0 : ℤ) < (windowSums ps).n := by omega
  have hsumX : 0 < (windowSums ps).sumX := hpos.trans_le (length_le_sumX h)
  constructor
  · -- All sizes are the size of the first sample.
    obtain ⟨x, hx⟩ : ∃ x, ∀ p ∈ ps, p.1 = x := by
      cases ps with
      | nil => exact absurd rfl hn
      | cons q qs =>
        refine ⟨q.1, fun p hp => ?_⟩
        by_contra hne
        have htwo := (hasTwoSizes_iff _).mpr ⟨p, hp, q, List.mem_cons_self, hne⟩
        rw [hone] at htwo
        cases htwo
    have hsum : (windowSums ps).sumX = (windowSums ps).n * x := by
      show (ps.map _).sum = (ps.length : ℤ) * x
      rw [List.map_congr_left hx, List.map_const', List.sum_replicate, nsmul_eq_mul]
    rw [hsum, Int.mul_ediv_cancel_left x hpos.ne']
  · have hdenominator : ¬0 < (windowSums ps).denominator := of_decide_eq_false hone
    unfold own fitLinear
    rw [if_neg (by omega)]
    dsimp only
    rw [if_neg fun hline => hdenominator hline.1]
    rfl

/-- A fit of a window of one size: it predicts the mean there, and is zero where that is. -/
structure FitsMean (s : LinearSums) (f : LinearFit) : Prop where
  samples : f.samples = s.n
  predict : f.predict (s.sumX / s.n) = s.sumY / s.n
  zero : s.sumY / s.n ≤ 0 → f.overhead = 0 ∧ f.rate = 0

/-- The estimate for a window of one size that has an estimate carried over. -/
theorem estimate_some {s : LinearSums} (hn : s.n ≠ 0) (hone : s.hasTwoSizes = false) (c : RangedFit) :
    SeriesState.estimate ⟨s, some c⟩ =
      if c.fit.predict (s.sumX / s.n) ≤ 0 then own s
      else
        some ⟨⟨c.fit.overhead * ((s.sumY / s.n) / c.fit.predict (s.sumX / s.n)),
          c.fit.rate * ((s.sumY / s.n) / c.fit.predict (s.sumX / s.n)), s.n⟩, max s.maxX c.maxX⟩ := by
  rw [SeriesState.estimate, if_neg hn]
  dsimp only
  rw [hone, if_neg Bool.false_ne_true]

include h in
/-- The estimate for a window of one size predicts its mean. -/
theorem exists_fitsMean (hn : (windowSums ps).n ≠ 0) (hone : (windowSums ps).hasTwoSizes = false)
    (carried : Option RangedFit) :
    ∃ e, SeriesState.estimate ⟨windowSums ps, carried⟩ = some e ∧ FitsMean (windowSums ps) e.fit := by
  obtain ⟨hsumX, hown⟩ := sumX_of_one h hn hone
  have hn' : ((windowSums ps).n : ℚ) ≠ 0 := Nat.cast_ne_zero.mpr hn
  have hsum : ((windowSums ps).sumX : ℚ) =
      (windowSums ps).n * ((windowSums ps).sumX / (windowSums ps).n : ℤ) := by
    exact_mod_cast hsumX
  have hpos : (0 : ℚ) < (windowSums ps).sumX := by
    have hlength := length_le_sumX h
    exact Int.cast_pos.mpr (by omega)
  have hmean : FitsMean (windowSums ps)
      ⟨0, (windowSums ps).sumY / (windowSums ps).sumX, (windowSums ps).n⟩ := by
    refine ⟨rfl, ?_, fun hzero => ⟨rfl, ?_⟩⟩
    · show 0 + (windowSums ps).sumY / (windowSums ps).sumX * _ = _
      rw [zero_add, div_mul_eq_mul_div, div_eq_div_iff hpos.ne' hn']
      conv_rhs => rw [hsum]
      ring
    · have hsumY := sumY_nonneg h
      have hle : (windowSums ps).sumY ≤ 0 := by
        have hmul := mul_nonpos_of_nonneg_of_nonpos (Nat.cast_nonneg (windowSums ps).n) hzero
        rwa [mul_div_cancel₀ _ hn'] at hmul
      show (windowSums ps).sumY / _ = 0
      rw [le_antisymm hle hsumY, zero_div]
  cases carried with
  | none =>
    refine ⟨⟨_, (windowSums ps).maxX⟩, ?_, hmean⟩
    rw [SeriesState.estimate, if_neg hn]
    exact hown
  | some c =>
    rw [estimate_some hn hone]
    split_ifs with hpredicted
    · exact ⟨⟨_, (windowSums ps).maxX⟩, hown, hmean⟩
    · -- The factor takes what the carried estimate predicts to the mean.
      rw [not_le] at hpredicted
      refine ⟨_, rfl, rfl, ?_, fun hzero => ?_⟩
      · show c.fit.overhead * _ + c.fit.rate * _ * _ = _
        rw [mul_right_comm, ← add_mul]
        exact mul_div_cancel₀ _ hpredicted.ne'
      · have hmean0 : (windowSums ps).sumY / (windowSums ps).n = 0 :=
          le_antisymm hzero (div_nonneg (sumY_nonneg h) (Nat.cast_nonneg _))
        show c.fit.overhead * (_ / _) = 0 ∧ c.fit.rate * (_ / _) = 0
        rw [hmean0, zero_div, mul_zero, mul_zero]
        exact ⟨rfl, rfl⟩

include h in
/-- A flush, which carries the estimate over, leaves the fit as it was. -/
theorem fit_carried (carried : Option RangedFit) :
    (SeriesState.estimate ⟨windowSums ps, SeriesState.estimate ⟨windowSums ps, carried⟩⟩).map
      RangedFit.fit = (SeriesState.estimate ⟨windowSums ps, carried⟩).map RangedFit.fit := by
  by_cases hn : (windowSums ps).n = 0
  · rw [SeriesState.estimate, if_pos hn]
  · cases hone : (windowSums ps).hasTwoSizes with
    | true =>
      -- With two sizes what is carried is not looked at.
      have hown : ∀ c, SeriesState.estimate ⟨windowSums ps, c⟩ = own (windowSums ps) := by
        intro c
        cases c with
        | none => exact if_neg hn
        | some c => rw [SeriesState.estimate, if_neg hn]; exact if_pos hone
      rw [hown, hown]
    | false =>
      obtain ⟨e, he, hmean⟩ := exists_fitsMean h hn hone carried
      rw [he, estimate_some hn hone, hmean.predict]
      obtain ⟨⟨overhead, rate, samples⟩, maxX⟩ := e
      obtain ⟨rfl, hpredict, hzero⟩ := hmean
      split_ifs with hmean
      · -- The estimate is zero, and that of the window is zero too.
        obtain ⟨rfl, rfl⟩ := hzero hmean
        have hsumY : (windowSums ps).sumY = 0 := by
          simp only [LinearFit.predict, zero_mul, add_zero] at hpredict
          exact (div_eq_zero_iff.mp hpredict.symm).resolve_right (Nat.cast_ne_zero.mpr hn)
        rw [(sumX_of_one h hn hone).2, hsumY, zero_div]
        rfl
      · rw [div_self (not_le.mp hmean).ne', mul_one, mul_one]
        rfl

end Samples

/-- What an estimate has to be, of samples that are in the database and in the buffer. -/
structure Estimates (carried : Option RangedFit) (rows buffered : List (ℤ × ℚ)) : Prop where
  nonneg : (∀ c ∈ carried, c.fit.Nonneg) → ∀ e ∈ estimateOf carried rows buffered, e.fit.Nonneg
  /-- It does not depend on where the samples are. -/
  split : ∀ rows' buffered', (rows ++ buffered).Perm (rows' ++ buffered') →
    estimateOf carried rows buffered = estimateOf carried rows' buffered'
  /-- A flush of the buffer leaves the fit as it was. -/
  flush : (estimateOf (estimateOf carried rows buffered) (rows ++ buffered) []).map RangedFit.fit =
    (estimateOf carried rows buffered).map RangedFit.fit
  leastSquares : (∃ p ∈ rows ++ buffered, ∃ q ∈ rows ++ buffered, p.1 ≠ q.1) →
    ∀ a b, LeastSquares.IsLeast (points (rows ++ buffered)) a b → 0 ≤ a → 0 < b →
      (estimateOf carried rows buffered).map RangedFit.fit =
        some ⟨a, b, (rows ++ buffered).length⟩

theorem estimates_of_samples (carried : Option RangedFit) {rows buffered : List (ℤ × ℚ)}
    (h : ∀ p ∈ rows ++ buffered, IsSample p) : Estimates carried rows buffered := by
  have hall : ∀ c, estimateOf c rows buffered =
      SeriesState.estimate ⟨windowSums (rows ++ buffered), c⟩ := by
    intro c
    rw [estimateOf, add_windowSums rows fun p hp => h p (List.mem_append_right _ hp)]
  refine ⟨fun hcarried e he => ?_, fun _ _ hperm => estimateOf_perm carried hperm h, ?_, ?_⟩
  · rw [hall] at he
    exact estimate_nonneg h hcarried he
  · rw [hall]
    exact fit_carried h carried
  · intro htwo a b hleast ha hb
    rw [hall, estimate_eq_leastSquares h ((hasTwoSizes_iff _).mpr htwo) hleast ha hb carried]
    rfl

end Companion.Memory.CostFit

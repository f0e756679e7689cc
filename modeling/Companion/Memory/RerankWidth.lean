import Companion.Memory.CostFit
import Mathlib.Data.List.GetD

/-!
# The width of a rerank

`fit_rerank_width`, `normalize_against_anchors` and `rerank_for_recall` of
`brain/memory/reranker.py`. Of a query's candidates the longest prefix is reranked that, with its
anchors and padded to its longest pair, fits the time and the memory. The scan stops at the first
prefix that does not fit. That it stops at the longest one (`le_fitRerankWidth_iff`) is because the
fitted rates are not negative, so that a longer prefix needs no less.

What a rerank is asked and told is in `Surroundings`. The times it takes, and the records that it
makes of them, are left out.
-/

namespace Companion.Memory.RerankWidth

/-- `CANDIDATE_POOL` -/
def candidatePool : ℕ := 50

/-- `RERANK_MIN_REAL_CANDIDATES` -/
def rerankMinRealCandidates : ℕ := 5

/-- `P`, the number of texts in `ANCHOR_POOL`. -/
def anchorPool : ℕ := 8

/-- `ANCHOR_SPLIT_DIVISOR` -/
def anchorSplitDivisor : ℕ := 2

/-- `K_MIN` -/
def kMin : ℕ := 2

/-- `anchor_count` -/
def anchorCount (realWidth : ℕ) : ℕ := min anchorPool (realWidth / anchorSplitDivisor)

/-- `RamFit`, of which no rate is negative: `fit_ram` keeps no other. -/
structure RamFit where
  a : ℚ
  b : ℚ
  c : ℚ
  maxPairs : ℕ
  maxLength : ℕ
  rate : 0 ≤ b ∧ 0 ≤ c

/-- `RamFit.predict` -/
def RamFit.predict (fit : RamFit) (pairs length : ℕ) : ℚ :=
  max 0 (fit.a + fit.b * (pairs * length) + fit.c * (pairs * length * length))

/-- `dev_constants.RAM_FIT_SAFETY_FACTOR` -/
def ramFitSafetyFactor : ℚ := 1 / (1 - 14227 / 100000)

/-- `RamFit.sized` -/
def RamFit.sized (fit : RamFit) (pairs length : ℕ) : ℚ :=
  fit.predict pairs length * ramFitSafetyFactor

/-- `RamFit.within_measured` -/
def RamFit.withinMeasured (fit : RamFit) (pairs length : ℕ) : Bool :=
  1 < fit.maxPairs || (pairs ≤ fit.maxPairs && length ≤ fit.maxLength)

/-- `RerankCostEstimate`, of which no rate is negative. -/
structure RerankCostEstimate where
  overheadSeconds : ℚ
  secondsPerToken : ℚ
  ramFit : Option RamFit
  rate : 0 ≤ secondsPerToken

/-- The estimate of a series and a fit of the memory. -/
def RerankCostEstimate.ofSeries (e : CostFit.RangedFit) (h : e.fit.Nonneg) (ramFit : Option RamFit) :
    RerankCostEstimate :=
  ⟨e.fit.overhead, e.fit.rate, ramFit, h.2⟩

/-- `prefix_cost` -/
def prefixCost (e : RerankCostEstimate) (pairs longest : ℕ) : ℚ :=
  e.overheadSeconds + e.secondsPerToken * pairs * longest

/-- Whether the memory of a batch is not bounded here, or the batch fits it. -/
def fitsMemory (memory : Option RamFit) (headroom : Option ℚ) (pairs longest : ℕ) : Bool :=
  match memory, headroom with
  | some m, some bytes => m.withinMeasured pairs longest && m.sized pairs longest ≤ bytes
  | _, _ => true

/-- Whether a batch fits the time and the memory. -/
def fitsBatch (e : RerankCostEstimate) (budget : ℚ) (headroom : Option ℚ) (pairs longest : ℕ) : Bool :=
  prefixCost e pairs longest ≤ budget && fitsMemory e.ramFit headroom pairs longest

/-- The largest of the numbers, or zero. -/
def largest (ns : List ℕ) : ℕ := ns.foldr max 0

/-- The longest pair of the first `n` candidates and their anchors. -/
def longestPair (candidates anchors : List ℕ) (n : ℕ) : ℕ :=
  largest (candidates.take n ++ anchors.take (anchorCount n))

/-- Whether the first `n` candidates and their anchors are a batch that fits. -/
def fitsPrefix (e : RerankCostEstimate) (budget : ℚ) (headroom : Option ℚ)
    (candidates anchors : List ℕ) (n : ℕ) : Bool :=
  fitsBatch e budget headroom (n + anchorCount n) (longestPair candidates anchors n)

/-- The loop of `fit_rerank_width`, over the candidates that are left. -/
def widthLoop (fits : ℕ → ℕ → Bool) (anchors : List ℕ) (width longestReal : ℕ) : List ℕ → ℕ
  | [] => width
  | tokens :: rest =>
    let longestReal := max longestReal tokens
    let k := anchorCount (width + 1)
    if fits (width + 1 + k) (largest (longestReal :: anchors.take k)) then
      widthLoop fits anchors (width + 1) longestReal rest
    else width

/-- `fit_rerank_width` -/
def fitRerankWidth (candidates anchors : List ℕ) (estimate : Option RerankCostEstimate) (budget : ℚ)
    (headroom : Option ℚ) (maxReal : ℕ) (seedRamFit : Option RamFit) : ℕ :=
  let limit := min candidates.length maxReal
  match estimate with
  | none =>
    let seed := min rerankMinRealCandidates limit
    if fitsMemory seedRamFit headroom (seed + anchorCount seed) (longestPair candidates anchors seed) ∨
        seed = 0 then seed
    else 0
  | some e => widthLoop (fitsBatch e budget headroom) anchors 0 0 (candidates.take limit)

/-! ## Normalization -/

/-- `statistics.median` -/
def median (scores : List ℚ) : ℚ :=
  let sorted := scores.mergeSort (· ≤ ·)
  if scores.length % 2 = 1 then sorted.getD (scores.length / 2) 0
  else (sorted.getD (scores.length / 2 - 1) 0 + sorted.getD (scores.length / 2) 0) / 2

/-- `_median_normalize` -/
def medianNormalize (real anchors : List ℚ) : List ℚ := real.map (· - median anchors)

/-- `normalize_against_anchors`, where `raw` is what the provider says of a batch, the anchors last.
None where no anchors are there. -/
def normalizeAgainstAnchors (realWidth : ℕ) (raw : ℕ → ℚ) : Option (List ℚ) :=
  let k := anchorCount realWidth
  if k < kMin then none
  else some (medianNormalize ((List.range realWidth).map raw)
    ((List.range k).map fun i => raw (realWidth + i)))

/-! ## A rerank -/

/-- Why the cosine path takes over. -/
inductive HandOff
  | pool
  | allocation
  | ramFigure
  | budget
  | sizes
  | normalization
  deriving DecidableEq

/-- `RecallRerank` -/
structure RecallRerank where
  width : ℕ
  handOff : Option HandOff
  normalization : Option (List ℚ)

/-- What one query's rerank is told. -/
structure Surroundings where
  /-- `ram_figure_ready` -/
  ready : Bool
  /-- Whether the free memory can be read at first. -/
  readable : Bool
  /-- Whether the provider raises before it is asked for scores. -/
  raises : Bool
  /-- `_warm_up_once` -/
  warm : Bool
  /-- The pairs' token counts, first those of the candidates. -/
  lengths : Option (List ℕ)
  /-- `rerank_cost_estimate` -/
  estimate : Option RerankCostEstimate
  /-- The free memory once the pairs are counted. -/
  headroom : Option ℚ
  /-- `_ram_fit_for`, asked for where there is no estimate. -/
  seedFit : Option RamFit
  /-- Whether the provider raises on the batch. -/
  fails : Bool
  /-- What the provider says of the documents of a batch, by its width. -/
  raw : ℕ → ℕ → ℚ

/-- `seed_fit`, the fit of the memory where no time is estimated. -/
def Surroundings.seed (s : Surroundings) : Option RamFit :=
  match s.estimate with
  | none => s.seedFit
  | some _ => none

/-- `rerank_for_recall` once the pairs are counted. -/
def rerankCounted (pool cap : ℕ) (s : Surroundings) (budget : ℚ) (lengths : List ℕ) :
    Option RecallRerank :=
  let width := fitRerankWidth (lengths.take pool) (lengths.drop pool) s.estimate budget s.headroom cap
    s.seed
  if width < rerankMinRealCandidates then some ⟨width, some .budget, none⟩
  else if s.fails then none
  else
    match normalizeAgainstAnchors width (s.raw width) with
    | none => some ⟨width, some .normalization, none⟩
    | some scores => some ⟨width, none, some scores⟩

/-- `rerank_for_recall` of a query with `documents` candidates, none where it raises. -/
def rerankForRecall (documents : ℕ) (s : Surroundings) (budget : ℚ) (maxReal : ℕ) :
    Option RecallRerank :=
  let pool := min documents candidatePool
  let cap := min maxReal candidatePool
  if pool < rerankMinRealCandidates then some ⟨min pool cap, some .pool, none⟩
  else if cap < rerankMinRealCandidates then some ⟨min pool cap, some .allocation, none⟩
  else if !s.ready then some ⟨0, some .ramFigure, none⟩
  else if !s.readable then some ⟨0, some .budget, none⟩
  else if s.raises then none
  else if !s.warm then some ⟨0, some .sizes, none⟩
  else
    match s.lengths with
    | none => some ⟨0, some .sizes, none⟩
    | some lengths =>
      if lengths.length ≠ pool + anchorPool then none else rerankCounted pool cap s budget lengths

/-! ## What a longer prefix needs -/

theorem le_largest {ns : List ℕ} {n : ℕ} (h : n ∈ ns) : n ≤ largest ns := by
  induction ns with
  | nil => cases h
  | cons m ns ih =>
    rw [largest, List.foldr_cons, ← largest]
    rcases List.mem_cons.mp h with rfl | h
    · exact le_max_left _ _
    · exact (ih h).trans (le_max_right _ _)

theorem largest_le {ns ms : List ℕ} (h : ∀ n ∈ ns, n ∈ ms) : largest ns ≤ largest ms := by
  induction ns with
  | nil => exact Nat.zero_le _
  | cons n ns ih =>
    rw [largest, List.foldr_cons, ← largest]
    exact max_le (le_largest (h n List.mem_cons_self))
      (ih fun m hm => h m (List.mem_cons_of_mem _ hm))

theorem largest_append (ms ns : List ℕ) : largest (ms ++ ns) = max (largest ms) (largest ns) := by
  induction ms with
  | nil => exact (Nat.zero_max _).symm
  | cons m ms ih =>
    show max m (largest (ms ++ ns)) = max (max m (largest ms)) (largest ns)
    rw [ih, max_assoc]

theorem largest_cons (m : ℕ) (ms : List ℕ) : largest (m :: ms) = max m (largest ms) := rfl

theorem largest_take_le {ms : List ℕ} {m n : ℕ} (h : m ≤ n) :
    largest (ms.take m) ≤ largest (ms.take n) :=
  largest_le fun _ hk => (List.take_subset_take_left ms h) hk

theorem anchorCount_mono {m n : ℕ} (h : m ≤ n) : anchorCount m ≤ anchorCount n :=
  min_le_min_left _ (Nat.div_le_div_right h)

theorem longestPair_mono {candidates anchors : List ℕ} {m n : ℕ} (h : m ≤ n) :
    longestPair candidates anchors m ≤ longestPair candidates anchors n := by
  rw [longestPair, longestPair, largest_append, largest_append]
  exact max_le_max (largest_take_le h) (largest_take_le (anchorCount_mono h))

/-- A batch with fewer and shorter pairs is predicted to need no more memory. -/
theorem sized_mono (m : RamFit) {pairs pairs' longest longest' : ℕ} (hpairs : pairs ≤ pairs')
    (hlongest : longest ≤ longest') : m.sized pairs longest ≤ m.sized pairs' longest' := by
  obtain ⟨hb, hc⟩ := m.rate
  have hpadded : (pairs * longest : ℚ) ≤ pairs' * longest' := by
    exact_mod_cast Nat.mul_le_mul hpairs hlongest
  have hsquared : (pairs * longest * longest : ℚ) ≤ pairs' * longest' * longest' := by
    exact_mod_cast Nat.mul_le_mul (Nat.mul_le_mul hpairs hlongest) hlongest
  have hfactor : 0 ≤ ramFitSafetyFactor := by
    norm_num [ramFitSafetyFactor]
  refine mul_le_mul_of_nonneg_right (max_le_max le_rfl ?_) hfactor
  exact add_le_add (add_le_add le_rfl (mul_le_mul_of_nonneg_left hpadded hb))
    (mul_le_mul_of_nonneg_left hsquared hc)

theorem fitsMemory_mono {memory : Option RamFit} {headroom : Option ℚ}
    {pairs pairs' longest longest' : ℕ} (hpairs : pairs ≤ pairs') (hlongest : longest ≤ longest')
    (h : fitsMemory memory headroom pairs' longest' = true) :
    fitsMemory memory headroom pairs longest = true := by
  cases memory with
  | none => rfl
  | some m =>
    cases headroom with
    | none => rfl
    | some bytes =>
      simp only [fitsMemory, RamFit.withinMeasured, Bool.and_eq_true, Bool.or_eq_true,
        decide_eq_true_eq] at h ⊢
      refine ⟨h.1.imp id fun hle => ⟨hpairs.trans hle.1, hlongest.trans hle.2⟩, ?_⟩
      exact (sized_mono m hpairs hlongest).trans h.2

theorem fitsBatch_mono {e : RerankCostEstimate} {budget : ℚ} {headroom : Option ℚ}
    {pairs pairs' longest longest' : ℕ} (hpairs : pairs ≤ pairs') (hlongest : longest ≤ longest')
    (h : fitsBatch e budget headroom pairs' longest' = true) :
    fitsBatch e budget headroom pairs longest = true := by
  rw [fitsBatch, Bool.and_eq_true, decide_eq_true_eq] at h ⊢
  refine ⟨le_trans ?_ h.1, fitsMemory_mono hpairs hlongest h.2⟩
  have hpadded : (pairs * longest : ℚ) ≤ pairs' * longest' := by
    exact_mod_cast Nat.mul_le_mul hpairs hlongest
  rw [prefixCost, prefixCost, mul_assoc, mul_assoc]
  exact add_le_add le_rfl (mul_le_mul_of_nonneg_left hpadded e.rate)

/-- A prefix of a prefix that fits does too. -/
theorem fitsPrefix_mono {e : RerankCostEstimate} {budget : ℚ} {headroom : Option ℚ}
    {candidates anchors : List ℕ} {m n : ℕ} (hle : m ≤ n)
    (h : fitsPrefix e budget headroom candidates anchors n = true) :
    fitsPrefix e budget headroom candidates anchors m = true :=
  fitsBatch_mono (add_le_add hle (anchorCount_mono hle)) (longestPair_mono hle) h

/-! ## The scan -/

/-- The scan from `start` came to `w`, and `w` is where it has to stop. -/
structure StopsAt (p : ℕ → Prop) (start limit w : ℕ) : Prop where
  start_le : start ≤ w
  le_limit : w ≤ limit
  holds : ∀ n, start < n → n ≤ w → p n
  stop : w < limit → ¬p (w + 1)

/-- Where a prefix of what meets `p` meets it too, the scan stops at the longest. -/
theorem StopsAt.le_iff {p : ℕ → Prop} {limit w : ℕ} (h : StopsAt p 0 limit w)
    (hp : ∀ m n, m ≤ n → p n → p m) {n : ℕ} (hpos : 0 < n) (hn : n ≤ limit) : n ≤ w ↔ p n := by
  refine ⟨h.holds n hpos, fun hpn => ?_⟩
  by_contra hlt
  have hw : w + 1 ≤ n := Nat.succ_le_of_lt (not_le.mp hlt)
  exact h.stop (hw.trans hn) (hp (w + 1) n hw hpn)

theorem widthLoop_spec {fits : ℕ → ℕ → Bool} {anchors candidates : List ℕ} {width : ℕ} {rest : List ℕ}
    (hrest : candidates.drop width = rest) :
    StopsAt (fun n => fits (n + anchorCount n) (longestPair candidates anchors n) = true) width
      (width + rest.length)
      (widthLoop fits anchors width (largest (candidates.take width)) rest) := by
  induction rest generalizing width with
  | nil => exact ⟨le_rfl, le_rfl, fun n hlt hle => absurd hle (not_le.mpr hlt),
      fun h => absurd h (lt_irrefl _)⟩
  | cons tokens rest ih =>
    have htake : max (largest (candidates.take width)) tokens =
        largest (candidates.take (width + 1)) := by
      have hget : candidates.take (width + 1) = candidates.take width ++ [tokens] := by
        rw [List.take_add_one, ← List.head?_drop, hrest]
        rfl
      rw [hget, largest_append, largest_cons]
      exact congrArg _ (Nat.max_zero tokens).symm
    have hdrop : candidates.drop (width + 1) = rest := by
      rw [← List.drop_drop, hrest]
      rfl
    have hlongest : largest (largest (candidates.take (width + 1)) ::
        anchors.take (anchorCount (width + 1))) = longestPair candidates anchors (width + 1) := by
      rw [longestPair, largest_append, largest_cons]
    unfold widthLoop
    dsimp only
    rw [htake, hlongest]
    split_ifs with hfits
    · have hnext := ih hdrop
      refine ⟨(Nat.le_succ _).trans hnext.start_le, ?_, fun n hlt hn => ?_, fun h => ?_⟩
      · exact hnext.le_limit.trans_eq (Nat.succ_add_eq_add_succ width rest.length)
      · rcases Nat.lt_or_eq_of_le (Nat.succ_le_of_lt hlt) with hlt' | rfl
        · exact hnext.holds n hlt' hn
        · exact hfits
      · exact hnext.stop (h.trans_eq (Nat.succ_add_eq_add_succ width rest.length).symm)
    · exact ⟨le_rfl, Nat.le_add_right _ _, fun n hlt hle => absurd hle (not_le.mpr hlt),
        fun _ => hfits⟩

variable {candidates anchors : List ℕ} {e : RerankCostEstimate} {budget : ℚ} {headroom : Option ℚ}
  {maxReal : ℕ} {seedFit : Option RamFit}

theorem longestPair_take {limit n : ℕ} (h : n ≤ limit) :
    longestPair (candidates.take limit) anchors n = longestPair candidates anchors n := by
  rw [longestPair, longestPair, List.take_take, min_eq_left h]

/-- With an estimate the scan stops before what does not fit. -/
theorem fitRerankWidth_stops :
    StopsAt (fun n => fitsBatch e budget headroom (n + anchorCount n)
        (longestPair (candidates.take (min candidates.length maxReal)) anchors n) = true) 0
      (min candidates.length maxReal)
      (fitRerankWidth candidates anchors (some e) budget headroom maxReal seedFit) := by
  have hscan : StopsAt (fun n => fitsBatch e budget headroom (n + anchorCount n)
      (longestPair (candidates.take (min candidates.length maxReal)) anchors n) = true) 0
      (0 + (candidates.take (min candidates.length maxReal)).length)
      (fitRerankWidth candidates anchors (some e) budget headroom maxReal seedFit) :=
    widthLoop_spec List.drop_zero
  have hlength : (candidates.take (min candidates.length maxReal)).length =
      min candidates.length maxReal := by
    rw [List.length_take]
    exact min_eq_left (min_le_left _ _)
  rwa [Nat.zero_add, hlength] at hscan

/-- The prefixes that fit are those up to the width. -/
theorem fitRerankWidth_some {n : ℕ} (hpos : 0 < n) (hn : n ≤ min candidates.length maxReal) :
    n ≤ fitRerankWidth candidates anchors (some e) budget headroom maxReal seedFit ↔
      fitsPrefix e budget headroom candidates anchors n = true := by
  have hstops : StopsAt (fun n => fitsPrefix e budget headroom
      (candidates.take (min candidates.length maxReal)) anchors n = true) 0
      (min candidates.length maxReal)
      (fitRerankWidth candidates anchors (some e) budget headroom maxReal seedFit) :=
    fitRerankWidth_stops
  have hiff := hstops.le_iff (fun m n hmn => fitsPrefix_mono hmn) hpos hn
  rwa [fitsPrefix, longestPair_take hn] at hiff

theorem fitRerankWidth_le {estimate : Option RerankCostEstimate} :
    fitRerankWidth candidates anchors estimate budget headroom maxReal seedFit ≤
      min candidates.length maxReal := by
  cases estimate with
  | none =>
    unfold fitRerankWidth
    dsimp only
    split_ifs
    · exact min_le_right _ _
    · exact Nat.zero_le _
  | some e => exact fitRerankWidth_stops.le_limit

theorem le_fitRerankWidth_iff {n : ℕ} (hpos : 0 < n) :
    n ≤ fitRerankWidth candidates anchors (some e) budget headroom maxReal seedFit ↔
      n ≤ min candidates.length maxReal ∧ fitsPrefix e budget headroom candidates anchors n = true := by
  constructor
  · intro h
    have hn := h.trans fitRerankWidth_le
    exact ⟨hn, (fitRerankWidth_some hpos hn).mp h⟩
  · rintro ⟨hn, hfits⟩
    exact (fitRerankWidth_some hpos hn).mpr hfits

/-- The width where fewer candidates are allowed. -/
theorem fitRerankWidth_min {fewer : ℕ} (h : fewer ≤ maxReal) :
    fitRerankWidth candidates anchors (some e) budget headroom fewer seedFit =
      min (fitRerankWidth candidates anchors (some e) budget headroom maxReal seedFit) fewer := by
  refine eq_of_forall_le_iff fun n => ?_
  rcases Nat.eq_zero_or_pos n with rfl | hpos
  · exact iff_of_true (Nat.zero_le _) (Nat.zero_le _)
  · rw [le_min_iff, le_fitRerankWidth_iff hpos, le_fitRerankWidth_iff hpos]
    constructor
    · rintro ⟨hn, hfits⟩
      exact ⟨⟨hn.trans (min_le_min_left _ h), hfits⟩, hn.trans (min_le_right _ _)⟩
    · rintro ⟨⟨hn, hfits⟩, hfewer⟩
      exact ⟨le_min (hn.trans (min_le_left _ _)) hfewer, hfits⟩

/-- Without one the width is the smallest that is reranked, or none where that does not fit. -/
theorem fitRerankWidth_none {width : ℕ}
    (h : fitRerankWidth candidates anchors none budget headroom maxReal seedFit = width)
    (hpos : 0 < width) : width = min rerankMinRealCandidates (min candidates.length maxReal) ∧
      fitsMemory seedFit headroom (width + anchorCount width)
        (longestPair candidates anchors width) = true := by
  unfold fitRerankWidth at h
  dsimp only at h
  split_ifs at h with hfits
  · subst h
    exact ⟨rfl, hfits.resolve_right hpos.ne'⟩
  · exact absurd h hpos.ne

/-! ## What is reranked -/

theorem median_add {scores : List ℚ} (h : scores ≠ []) (d : ℚ) :
    median (scores.map (· + d)) = median scores + d := by
  have hsort : (scores.map (· + d)).mergeSort (· ≤ ·) = (scores.mergeSort (· ≤ ·)).map (· + d) := by
    refine (List.map_mergeSort fun a _ b _ => ?_).symm
    rw [decide_eq_decide]
    exact (add_le_add_iff_right d).symm
  have hget : ∀ i < scores.length, ((scores.mergeSort (· ≤ ·)).map (· + d)).getD i 0 =
      (scores.mergeSort (· ≤ ·)).getD i 0 + d := by
    intro i hi
    have hi' : i < (scores.mergeSort (· ≤ ·)).length := by
      rwa [List.length_mergeSort]
    rw [List.getD_eq_getElem _ _ (by rwa [List.length_map]), List.getD_eq_getElem _ _ hi',
      List.getElem_map]
  have hlength := List.length_pos_of_ne_nil h
  unfold median
  dsimp only
  rw [List.length_map, hsort]
  split_ifs with hodd
  · exact hget _ (by omega)
  · rw [hget _ (by omega), hget _ (by omega)]
    ring

/-- The scores do not depend on a number that is added to all that the provider says of a batch. -/
theorem normalizeAgainstAnchors_add (realWidth : ℕ) (raw : ℕ → ℚ) (d : ℚ) :
    normalizeAgainstAnchors realWidth (fun i => raw i + d) = normalizeAgainstAnchors realWidth raw := by
  unfold normalizeAgainstAnchors
  dsimp only
  split_ifs with hk
  · rfl
  · have hmap : ∀ (n : ℕ) (f : ℕ → ℚ), (List.range n).map (fun i => f i + d) =
        ((List.range n).map f).map (· + d) := by
      intro n f
      rw [List.map_map]
      rfl
    have hne : (List.range (anchorCount realWidth)).map (fun i => raw (realWidth + i)) ≠ [] := by
      rw [ne_eq, List.map_eq_nil_iff, List.range_eq_nil]
      unfold kMin at hk
      omega
    rw [hmap, hmap _ fun i => raw (realWidth + i), medianNormalize, medianNormalize,
      median_add hne, List.map_map]
    refine congrArg some (List.map_congr_left fun a _ => ?_)
    exact add_sub_add_right_eq_sub _ _ _

theorem length_normalizeAgainstAnchors {realWidth : ℕ} {raw : ℕ → ℚ} {scores : List ℚ}
    (h : normalizeAgainstAnchors realWidth raw = some scores) : scores.length = realWidth := by
  unfold normalizeAgainstAnchors at h
  dsimp only at h
  split_ifs at h
  obtain rfl := Option.some.inj h
  rw [medianNormalize, List.length_map, List.length_map, List.length_range]

theorem anchorCount_ge {n : ℕ} (h : rerankMinRealCandidates ≤ n) : kMin ≤ anchorCount n := by
  unfold rerankMinRealCandidates at h
  unfold kMin anchorCount anchorPool anchorSplitDivisor
  omega

/-- What is reranked, of which query's candidates and in which surroundings. -/
structure Reranked (documents : ℕ) (s : Surroundings) (budget : ℚ) (maxReal width : ℕ)
    (scores : List ℚ) : Prop where
  ready : s.ready = true
  width_ge : rerankMinRealCandidates ≤ width
  width_le : width ≤ documents ∧ width ≤ maxReal ∧ width ≤ candidatePool
  /-- The pairs are counted, and their batch fits. -/
  lengths : ∃ candidates anchors, s.lengths = some (candidates ++ anchors) ∧
    candidates.length = min documents candidatePool ∧ anchors.length = anchorPool ∧
    (∀ e, s.estimate = some e →
      ∀ n, 0 < n → n ≤ min documents (min maxReal candidatePool) →
        (n ≤ width ↔ fitsPrefix e budget s.headroom candidates anchors n = true)) ∧
    (s.estimate = none → width = rerankMinRealCandidates ∧
      fitsMemory s.seedFit s.headroom (width + anchorCount width)
        (longestPair candidates anchors width) = true)
  /-- The scores are those of the batch, from the median of its anchors. -/
  scores : scores.length = width ∧
    ∀ d, normalizeAgainstAnchors width (fun i => s.raw width i + d) = some scores

/-- The counted pairs, none where it does not come to a batch. -/
def Surroundings.counted (s : Surroundings) (pool : ℕ) : Option (List ℕ) :=
  if s.ready && s.readable && !s.raises && s.warm then
    s.lengths.filter fun lengths => lengths.length = pool + anchorPool
  else none

/-- The width of the counted pairs. -/
def Surroundings.width (s : Surroundings) (pool : ℕ) (budget : ℚ) (cap : ℕ) (lengths : List ℕ) : ℕ :=
  fitRerankWidth (lengths.take pool) (lengths.drop pool) s.estimate budget s.headroom cap s.seed

/-- Enough candidates have enough anchors, so that their scores are normalized. -/
theorem isSome_normalizeAgainstAnchors {width : ℕ} (h : rerankMinRealCandidates ≤ width)
    (raw : ℕ → ℚ) : (normalizeAgainstAnchors width raw).isSome = true := by
  unfold normalizeAgainstAnchors
  dsimp only
  rw [if_neg (not_lt.mpr (anchorCount_ge h))]
  rfl

theorem rerankCounted_form (pool cap : ℕ) (s : Surroundings) (lengths : List ℕ) :
    rerankCounted pool cap s budget lengths =
      if s.width pool budget cap lengths < rerankMinRealCandidates then
        some ⟨s.width pool budget cap lengths, some .budget, none⟩
      else if s.fails then none
      else some ⟨s.width pool budget cap lengths, none,
        normalizeAgainstAnchors (s.width pool budget cap lengths)
          (s.raw (s.width pool budget cap lengths))⟩ := by
  unfold rerankCounted
  dsimp only
  rw [← Surroundings.width]
  split_ifs with hfew hfails
  · rfl
  · rfl
  · obtain ⟨scores, hscores⟩ := Option.isSome_iff_exists.mp
      (isSome_normalizeAgainstAnchors (not_lt.mp hfew) (s.raw (s.width pool budget cap lengths)))
    rw [hscores]

/-- It comes to a batch of counted pairs, or to no scores. -/
theorem rerankForRecall_form (documents maxReal : ℕ) (s : Surroundings) (budget : ℚ) :
    (∃ lengths, s.counted (min documents candidatePool) = some lengths ∧
      rerankMinRealCandidates ≤ min documents candidatePool ∧
      rerankMinRealCandidates ≤ min maxReal candidatePool ∧
      rerankForRecall documents s budget maxReal =
        rerankCounted (min documents candidatePool) (min maxReal candidatePool) s budget lengths) ∨
    (s.counted (min documents candidatePool) = none ∨
        min documents candidatePool < rerankMinRealCandidates ∨
        min maxReal candidatePool < rerankMinRealCandidates) ∧
      ∀ r ∈ rerankForRecall documents s budget maxReal, r.normalization = none ∧
        r.handOff ≠ some .normalization := by
  unfold rerankForRecall Surroundings.counted
  dsimp only
  by_cases hpool : min documents candidatePool < rerankMinRealCandidates
  · rw [if_pos hpool]
    exact .inr ⟨.inr (.inl hpool), by simp⟩
  by_cases hcap : min maxReal candidatePool < rerankMinRealCandidates
  · rw [if_neg hpool, if_pos hcap]
    exact .inr ⟨.inr (.inr hcap), by simp⟩
  rw [if_neg hpool, if_neg hcap]
  cases s.ready with
  | false => simp
  | true =>
    cases s.readable with
    | false => simp
    | true =>
      cases s.raises with
      | true => simp
      | false =>
        cases s.warm with
        | false => simp
        | true =>
          cases s.lengths with
          | none => simp
          | some lengths =>
            by_cases hlength : lengths.length = min documents candidatePool + anchorPool
            · simp [hlength, not_lt.mp hcap, not_lt.mp hpool]
            · simp [hlength]

/-- What is scored are counted pairs, and enough of them. -/
theorem rerankForRecall_eq {documents maxReal : ℕ} {s : Surroundings} {r : RecallRerank}
    {scores : List ℚ} (h : rerankForRecall documents s budget maxReal = some r)
    (hscores : r.normalization = some scores) :
    ∃ lengths, s.counted (min documents candidatePool) = some lengths ∧
      r.width = s.width (min documents candidatePool) budget (min maxReal candidatePool) lengths ∧
      rerankMinRealCandidates ≤ r.width ∧
      normalizeAgainstAnchors r.width (s.raw r.width) = some scores := by
  rcases rerankForRecall_form documents maxReal s budget with
    ⟨lengths, hlengths, -, -, heq⟩ | ⟨-, hnone⟩
  · rw [heq, rerankCounted_form] at h
    split_ifs at h with hfew hfails
    · cases h
      cases hscores
    · cases h
      exact ⟨lengths, hlengths, rfl, not_lt.mp hfew, hscores⟩
  · rw [(hnone r h).1] at hscores
    cases hscores

/-- What is counted. -/
theorem Surroundings.counted_eq {s : Surroundings} {pool : ℕ} {lengths : List ℕ}
    (h : s.counted pool = some lengths) :
    s.ready = true ∧ s.lengths = some lengths ∧ lengths.length = pool + anchorPool := by
  unfold Surroundings.counted at h
  split_ifs at h with hready
  obtain ⟨hlengths, hlength⟩ := Option.filter_eq_some_iff.mp h
  simp only [Bool.and_eq_true] at hready
  exact ⟨hready.1.1.1, hlengths, of_decide_eq_true hlength⟩

/-- What is reranked is the longest prefix of the candidates that fits, with scores that do not
depend on what the provider adds to all of a batch. -/
theorem rerankForRecall_reranks (documents : ℕ) (s : Surroundings) (budget : ℚ) (maxReal : ℕ) :
    ∀ r ∈ rerankForRecall documents s budget maxReal, ∀ scores ∈ r.normalization,
      Reranked documents s budget maxReal r.width scores := by
  intro r hr scores hscores
  obtain ⟨lengths, hcounted, hwidth, hge, hnormal⟩ := rerankForRecall_eq hr hscores
  obtain ⟨hready, hlengths, hlength⟩ := Surroundings.counted_eq hcounted
  unfold Surroundings.width at hwidth
  have hcandidates : (lengths.take (min documents candidatePool)).length =
      min documents candidatePool := by
    rw [List.length_take, hlength]
    exact min_eq_left (Nat.le_add_right _ _)
  have hanchors : (lengths.drop (min documents candidatePool)).length = anchorPool := by
    rw [List.length_drop, hlength, Nat.add_sub_cancel_left]
  have hsplit : lengths =
      lengths.take (min documents candidatePool) ++ lengths.drop (min documents candidatePool) :=
    (List.take_append_drop _ _).symm
  have hlimit : min (lengths.take (min documents candidatePool)).length (min maxReal candidatePool) =
      min documents (min maxReal candidatePool) := by
    rw [hcandidates]
    omega
  have hbound : r.width ≤ min documents (min maxReal candidatePool) := by
    rw [hwidth, ← hlimit]
    exact fitRerankWidth_le
  refine ⟨hready, hge, by omega, ⟨_, _, hlengths.trans (congrArg some hsplit), hcandidates, hanchors,
    fun e he n hpos hn => ?_, fun hnone => ?_⟩, length_normalizeAgainstAnchors hnormal,
    fun d => (normalizeAgainstAnchors_add _ _ d).trans hnormal⟩
  · rw [hwidth, he]
    exact fitRerankWidth_some hpos (hn.trans_eq hlimit.symm)
  · have hseed : s.seed = s.seedFit := by
      rw [Surroundings.seed, hnone]
    rw [hnone, hseed] at hwidth
    have hpos : 0 < r.width := lt_of_lt_of_le (by decide) hge
    obtain ⟨heq, hfits⟩ := fitRerankWidth_none hwidth.symm hpos
    exact ⟨le_antisymm (heq.trans_le (min_le_left _ _)) hge, hfits⟩

/-! ## What a rerank uses up -/

/-- The candidates that a rerank scores. -/
def rerankedWidth (documents : ℕ) (s : Surroundings) (budget : ℚ) (maxReal : ℕ) : ℕ :=
  match rerankForRecall documents s budget maxReal with
  | none => 0
  | some outcome => if outcome.normalization.isSome then outcome.width else 0

/-- A rerank is never handed off for its normalization. -/
theorem handOff_ne_normalization {documents maxReal : ℕ} {s : Surroundings} {r : RecallRerank}
    (h : rerankForRecall documents s budget maxReal = some r) : r.handOff ≠ some .normalization := by
  rcases rerankForRecall_form documents maxReal s budget with
    ⟨lengths, -, -, -, heq⟩ | ⟨-, hnone⟩
  · rw [heq, rerankCounted_form] at h
    split_ifs at h
    · cases h
      simp
    · cases h
      simp
  · exact (hnone r h).2

/-- A width if it is one that is reranked, else zero. -/
def enough (width : ℕ) : ℕ := if rerankMinRealCandidates ≤ width then width else 0

theorem enough_min_enough (width m : ℕ) : enough (min (enough width) m) = enough (min width m) := by
  unfold enough
  split_ifs <;> omega

theorem enough_of_lt {width : ℕ} (h : width < rerankMinRealCandidates) : enough width = 0 :=
  if_neg (not_le.mpr h)

/-- The width of what is scored. -/
theorem rerankedWidth_form (documents maxReal : ℕ) (s : Surroundings) (budget : ℚ) :
    rerankedWidth documents s budget maxReal =
      if min documents candidatePool < rerankMinRealCandidates ∨
          min maxReal candidatePool < rerankMinRealCandidates ∨ s.fails then 0
      else (s.counted (min documents candidatePool)).elim 0 fun lengths =>
        enough (s.width (min documents candidatePool) budget (min maxReal candidatePool) lengths) := by
  unfold rerankedWidth
  rcases rerankForRecall_form documents maxReal s budget with
    ⟨lengths, hlengths, hpool, hcap, heq⟩ | ⟨hfew, hnone⟩
  · rw [heq, hlengths, rerankCounted_form, Option.elim_some]
    by_cases hfew : s.width (min documents candidatePool) budget (min maxReal candidatePool) lengths <
        rerankMinRealCandidates
    · rw [if_pos hfew, enough_of_lt hfew, ite_self]
      rfl
    · rw [if_neg hfew, enough, if_pos (not_lt.mp hfew)]
      cases hfails : s.fails with
      | true => simp
      | false =>
        rw [if_neg (by simp), if_neg (by simp [not_lt.mpr hpool, not_lt.mpr hcap])]
        exact if_pos (isSome_normalizeAgainstAnchors (not_lt.mp hfew) _)
  · have hzero : ∀ o : Option RecallRerank, (∀ r ∈ o, r.normalization = none) →
        (match o with
          | none => 0
          | some outcome => if outcome.normalization.isSome then outcome.width else 0) = 0 := by
      intro o ho
      cases o with
      | none => rfl
      | some r =>
        dsimp only
        rw [ho r rfl]
        rfl
    rw [hzero _ fun r hr => (hnone r hr).1]
    rcases hfew with hcounted | hpool | hcap
    · rw [hcounted, Option.elim_none, ite_self]
    · exact (if_pos (.inl hpool)).symm
    · exact (if_pos (.inr (.inl hcap))).symm

theorem width_min {s : Surroundings} {pool fewer cap : ℕ} {lengths : List ℕ} (h : fewer ≤ cap)
    (hfewer : rerankMinRealCandidates ≤ fewer) (hpool : rerankMinRealCandidates ≤ pool)
    (hlengths : pool ≤ lengths.length) :
    s.width pool budget fewer lengths = min (s.width pool budget cap lengths) fewer := by
  unfold Surroundings.width
  cases hestimate : s.estimate with
  | some e => exact fitRerankWidth_min h
  | none =>
    have htake : (lengths.take pool).length = pool := List.length_take_of_le hlengths
    have hseed : ∀ m, rerankMinRealCandidates ≤ m →
        min rerankMinRealCandidates (min (lengths.take pool).length m) = rerankMinRealCandidates := by
      intro m hm
      rw [htake]
      exact min_eq_left (le_min hpool hm)
    unfold fitRerankWidth
    dsimp only
    rw [hseed fewer hfewer, hseed cap (hfewer.trans h)]
    split_ifs
    · exact (min_eq_left hfewer).symm
    · exact (Nat.zero_min _).symm

/-- Where fewer candidates are allowed, a rerank scores that many, if they are enough. -/
theorem rerankedWidth_eq {documents maxReal : ℕ} {s : Surroundings} (h : maxReal ≤ candidatePool) :
    rerankedWidth documents s budget maxReal =
      enough (min (rerankedWidth documents s budget candidatePool) maxReal) := by
  rw [rerankedWidth_form documents maxReal, rerankedWidth_form documents candidatePool, min_self,
    min_eq_left h]
  have hzero : enough (min 0 maxReal) = 0 := by
    rw [Nat.zero_min]
    rfl
  by_cases hnone : min documents candidatePool < rerankMinRealCandidates ∨ s.fails = true
  · rw [if_pos (by tauto), if_pos (by tauto), hzero]
  obtain ⟨hpool, hfails⟩ := not_or.mp hnone
  have hall : ¬(candidatePool < rerankMinRealCandidates) := by decide
  have htop : ∀ m : ℕ, (if min documents candidatePool < rerankMinRealCandidates ∨
      candidatePool < rerankMinRealCandidates ∨ s.fails = true then 0 else m) = m :=
    fun m => if_neg (by tauto)
  rw [htop]
  cases hcounted : s.counted (min documents candidatePool) with
  | none => rw [Option.elim_none, Option.elim_none, ite_self, hzero]
  | some lengths =>
    rw [Option.elim_some, Option.elim_some]
    by_cases hfew : maxReal < rerankMinRealCandidates
    · rw [if_pos (by tauto), enough_of_lt ((min_le_right _ _).trans_lt hfew)]
    · have hlengths := (Surroundings.counted_eq hcounted).2.2
      rw [if_neg (by tauto), enough_min_enough,
        width_min h (not_lt.mp hfew) (not_lt.mp hpool) (by omega)]

/-- Five candidates of twenty tokens each, where nothing is measured yet. -/
def firstRerank : Surroundings where
  ready := true
  readable := true
  raises := false
  warm := true
  lengths := some (List.replicate 13 20)
  estimate := none
  headroom := none
  seedFit := none
  fails := false
  raw _ i := i

theorem rerankForRecall_reranks_first :
    ∃ r scores, rerankForRecall 5 firstRerank 10 50 = some r ∧ r.normalization = some scores ∧
      Reranked 5 firstRerank 10 50 r.width scores := by
  refine ⟨_, _, rfl, rfl, ?_⟩
  exact rerankForRecall_reranks 5 firstRerank 10 50 _ rfl _ rfl

end Companion.Memory.RerankWidth

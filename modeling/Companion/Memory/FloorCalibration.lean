import Companion.Cuts
import Companion.Memory.Text
import Mathlib.Algebra.Field.Rat
import Mathlib.Algebra.Order.Ring.Rat

/-!
# The fit of the retrieval floor

`fit_threshold_fbeta` of `brain/memory/floor_calibration.py`, in exact arithmetic: the threshold on
judged scores with the best F-beta. The scan of the midpoints finds it although tied scores give a
midpoint that is a score itself, as such a threshold cuts the scores like a lower one that the scan
has met before (`fit_optimal`).
-/

namespace Companion.Memory.FloorCalibration

open Companion.Cuts
open Companion.Memory (Text)

variable {𝕜 : Type*} [Field 𝕜] [LinearOrder 𝕜]

/-- A judged pair: the score and the label. -/
abbrev Pair (𝕜 : Type*) := 𝕜 × Text

def isRelevant (p : Pair 𝕜) : Bool := p.2 = "relevant".toList

/-- How many of the pairs pass a threshold, of those with a verdict. -/
def passing (pairs : List (Pair 𝕜)) (verdict : Bool) (threshold : 𝕜) : ℕ :=
  pairs.countP fun p => decide (threshold ≤ p.1) && (isRelevant p == verdict)

/-- How many of the relevant pairs fail it. -/
def missing (pairs : List (Pair 𝕜)) (threshold : 𝕜) : ℕ :=
  pairs.countP fun p => !decide (threshold ≤ p.1) && isRelevant p

/-- The precision, and with the misses the recall. -/
def share (tp others : ℕ) : 𝕜 := if 0 < tp + others then tp / (tp + others : ℕ) else 0

/-- The F-beta of a threshold. -/
def fBeta (beta : 𝕜) (pairs : List (Pair 𝕜)) (threshold : 𝕜) : 𝕜 :=
  let tp := passing pairs true threshold
  let precision : 𝕜 := share tp (passing pairs false threshold)
  let recalled : 𝕜 := share tp (missing pairs threshold)
  let denom := beta * beta * precision + recalled
  if 0 < denom then (1 + beta * beta) * precision * recalled / denom else 0

/-- The scores in order. -/
def sortedScores (pairs : List (Pair 𝕜)) : List 𝕜 := (pairs.map Prod.fst).insertionSort (· ≤ ·)

/-- `fit_threshold_fbeta`, or none where it raises. -/
def fitThresholdFbeta (pairs : List (Pair 𝕜)) (beta : 𝕜) : Option 𝕜 :=
  if pairs.any isRelevant = false then (pairs.map Prod.fst).max?.map (· + 1)
  else if pairs.all isRelevant then (pairs.map Prod.fst).min?.map (· - 1)
  else
    (candidates (sortedScores pairs)).head?.map fun first =>
      ((candidates (sortedScores pairs)).foldl (keepBest (fBeta beta pairs)) (-1, first)).2

variable {beta : 𝕜} {pairs : List (Pair 𝕜)}

omit [Field 𝕜] in
theorem sortedScores_perm (pairs : List (Pair 𝕜)) :
    (sortedScores pairs).Perm (pairs.map Prod.fst) := List.perm_insertionSort _ _

omit [Field 𝕜] in
theorem pairwise_sortedScores (pairs : List (Pair 𝕜)) : (sortedScores pairs).Pairwise (· ≤ ·) :=
  List.pairwise_insertionSort _ _

omit [Field 𝕜] in
theorem mem_sortedScores {p : Pair 𝕜} (hp : p ∈ pairs) : p.1 ∈ sortedScores pairs :=
  (sortedScores_perm pairs).mem_iff.mpr (List.mem_map_of_mem hp)

/-- With both labels, the fit is the scan. -/
theorem fit_eq_scan (hrel : ∃ p ∈ pairs, isRelevant p = true)
    (hirr : ∃ p ∈ pairs, isRelevant p = false) (beta : 𝕜) :
    ∃ first, fitThresholdFbeta pairs beta =
      some ((candidates (sortedScores pairs)).foldl (keepBest (fBeta beta pairs)) (-1, first)).2 ∧
      (candidates (sortedScores pairs)).head? = some first := by
  obtain ⟨p, hp, hprel⟩ := hrel
  obtain ⟨q, hq, hqirr⟩ := hirr
  have hany : pairs.any isRelevant ≠ false := by
    rw [ne_eq, Bool.not_eq_false, List.any_eq_true]
    exact ⟨p, hp, hprel⟩
  have hall : ¬ pairs.all isRelevant = true := by
    rw [List.all_eq_true]
    intro h
    rw [h q hq] at hqirr
    cases hqirr
  have hne : sortedScores pairs ≠ [] := List.ne_nil_of_mem (mem_sortedScores hp)
  obtain ⟨a, l, hal⟩ := List.exists_cons_of_ne_nil hne
  refine ⟨a - 1, ?_, by rw [hal, candidates, List.head?_cons]⟩
  rw [fitThresholdFbeta, if_neg hany, if_neg hall, hal]
  rfl

/-! ## What the F-beta of a threshold rests on -/

/-- Only which of the scores pass matters. -/
theorem fBeta_congr {t t' : 𝕜} (h : ∀ p ∈ pairs, t ≤ p.1 ↔ t' ≤ p.1) :
    fBeta beta pairs t = fBeta beta pairs t' := by
  have hpassing : ∀ verdict, passing pairs verdict t = passing pairs verdict t' := fun verdict =>
    List.countP_congr fun p hp => by simp [h p hp]
  have hmissing : missing pairs t = missing pairs t' :=
    List.countP_congr fun p hp => by simp [h p hp]
  simp only [fBeta, hpassing, hmissing]

theorem fBeta_perm {pairs' : List (Pair 𝕜)} (h : pairs'.Perm pairs) :
    fBeta beta pairs' = fBeta beta pairs := by
  funext t
  have hpassing : ∀ verdict, passing pairs' verdict t = passing pairs verdict t := fun _ =>
    h.countP_eq _
  have hmissing : missing pairs' t = missing pairs t := h.countP_eq _
  simp only [fBeta, hpassing, hmissing]

/-- The scores and the threshold are shifted together. -/
theorem fBeta_shift [IsStrictOrderedRing 𝕜] (c t : 𝕜) :
    fBeta beta (pairs.map fun p => (p.1 + c, p.2)) (t + c) = fBeta beta pairs t := by
  have hpass : ∀ x : 𝕜, decide (t + c ≤ x + c) = decide (t ≤ x) := fun x =>
    decide_eq_decide.mpr (add_le_add_iff_right c)
  have hpassing : ∀ verdict, passing (pairs.map fun p => (p.1 + c, p.2)) verdict (t + c) =
      passing pairs verdict t := by
    intro verdict
    rw [passing, List.countP_map]
    exact List.countP_congr fun p _ => by rw [Function.comp_apply, hpass]; rfl
  have hmissing : missing (pairs.map fun p => (p.1 + c, p.2)) (t + c) = missing pairs t := by
    rw [missing, List.countP_map]
    exact List.countP_congr fun p _ => by rw [Function.comp_apply, hpass]; rfl
  simp only [fBeta, hpassing, hmissing]

theorem fBeta_nonneg [IsStrictOrderedRing 𝕜] (beta : 𝕜) (pairs : List (Pair 𝕜)) (t : 𝕜) :
    0 ≤ fBeta beta pairs t := by
  have hshare : ∀ tp others, (0 : 𝕜) ≤ share tp others := by
    intro tp others
    unfold share
    split_ifs <;> positivity
  have hbeta : 0 ≤ 1 + beta * beta := add_nonneg zero_le_one (mul_self_nonneg beta)
  unfold fBeta
  dsimp only
  split_ifs with hdenom
  · exact div_nonneg (mul_nonneg (mul_nonneg hbeta (hshare _ _)) (hshare _ _)) hdenom.le
  · exact le_rfl

/-! ## The fit -/

theorem fit_perm {pairs' : List (Pair 𝕜)} (h : pairs'.Perm pairs) (beta : 𝕜) :
    fitThresholdFbeta pairs' beta = fitThresholdFbeta pairs beta := by
  have hmap : (pairs'.map Prod.fst).Perm (pairs.map Prod.fst) := h.map _
  have hscores : sortedScores pairs' = sortedScores pairs :=
    List.Perm.eq_of_pairwise (fun a b _ _ hab hba => le_antisymm hab hba)
      (pairwise_sortedScores _) (pairwise_sortedScores _)
      ((sortedScores_perm _).trans (hmap.trans (sortedScores_perm _).symm))
  have hany : pairs'.any isRelevant = pairs.any isRelevant := h.any_eq
  have hall : pairs'.all isRelevant = pairs.all isRelevant := h.all_eq
  have hmax : (pairs'.map Prod.fst).max? = (pairs.map Prod.fst).max? :=
    Option.ext fun a => by simp only [List.max?_eq_some_iff, hmap.mem_iff]
  have hmin : (pairs'.map Prod.fst).min? = (pairs.map Prod.fst).min? :=
    Option.ext fun a => by simp only [List.min?_eq_some_iff, hmap.mem_iff]
  simp only [fitThresholdFbeta, hany, hall, hmax, hmin, hscores, fBeta_perm h]

variable [IsStrictOrderedRing 𝕜]

/-- The scores of pairs that are shifted. -/
theorem sortedScores_shift (c : 𝕜) (pairs : List (Pair 𝕜)) :
    sortedScores (pairs.map fun p => (p.1 + c, p.2)) = (sortedScores pairs).map (· + c) := by
  have hmap : (pairs.map fun p => (p.1 + c, p.2)).map Prod.fst =
      (pairs.map Prod.fst).map (· + c) := by
    rw [List.map_map, List.map_map]
    rfl
  rw [sortedScores, hmap, sortedScores]
  exact (List.map_insertionSort (· ≤ ·) (· ≤ ·) (· + c) _ fun a _ b _ =>
    (add_le_add_iff_right c).symm).symm

theorem fit_shift (hrel : ∃ p ∈ pairs, isRelevant p = true)
    (hirr : ∃ p ∈ pairs, isRelevant p = false) (c beta : 𝕜) :
    fitThresholdFbeta (pairs.map fun p => (p.1 + c, p.2)) beta =
      (fitThresholdFbeta pairs beta).map (· + c) := by
  obtain ⟨first, hfit, hfirst⟩ := fit_eq_scan hrel hirr beta
  have hrel' : ∃ p ∈ pairs.map fun p => (p.1 + c, p.2), isRelevant p = true := by
    obtain ⟨p, hp, hlabel⟩ := hrel
    exact ⟨(p.1 + c, p.2), List.mem_map_of_mem hp, hlabel⟩
  have hirr' : ∃ p ∈ pairs.map fun p => (p.1 + c, p.2), isRelevant p = false := by
    obtain ⟨p, hp, hlabel⟩ := hirr
    exact ⟨(p.1 + c, p.2), List.mem_map_of_mem hp, hlabel⟩
  obtain ⟨first', hfit', hfirst'⟩ := fit_eq_scan hrel' hirr' beta
  rw [sortedScores_shift, candidates_map_add] at hfirst' hfit'
  obtain rfl : first + c = first' := by
    rw [List.head?_map, hfirst] at hfirst'
    exact Option.some.inj hfirst'
  rw [hfit', hfit, Option.map_some, foldl_keepBest_map (· + c) (fBeta_shift c)]

/-- The fit is the best threshold of all, and the pairs that it serves include those of every other
that is as good. Neither the order of the pairs nor the zero of the scores matters. -/
theorem fit_optimal (hrel : ∃ p ∈ pairs, isRelevant p = true)
    (hirr : ∃ p ∈ pairs, isRelevant p = false) (beta : 𝕜) :
    ∃ fitted, fitThresholdFbeta pairs beta = some fitted ∧
      (∀ t, fBeta beta pairs t ≤ fBeta beta pairs fitted ∧
        (fBeta beta pairs t = fBeta beta pairs fitted → ∀ p ∈ pairs, t ≤ p.1 → fitted ≤ p.1)) ∧
      (∀ pairs', pairs'.Perm pairs → fitThresholdFbeta pairs' beta = some fitted) ∧
      ∀ c, fitThresholdFbeta (pairs.map fun p => (p.1 + c, p.2)) beta = some (fitted + c) := by
  obtain ⟨first, hfit, -⟩ := fit_eq_scan hrel hirr beta
  refine ⟨_, hfit, fun t => ?_, fun pairs' hperm => (fit_perm hperm beta).trans hfit, fun c => ?_⟩
  · obtain ⟨p, hp, -⟩ := hrel
    have hbest := scan_best (i := first) (pairwise_sortedScores pairs)
      (List.ne_nil_of_mem (mem_sortedScores hp))
      (fun t => (neg_one_lt_zero).trans_le (fBeta_nonneg beta pairs t))
      (fun t t' h => fBeta_congr fun p hp => h p.1 (mem_sortedScores hp)) t
    exact ⟨hbest.1, fun heq p hp => hbest.2 heq p.1 (mem_sortedScores hp)⟩
  · rw [fit_shift hrel hirr, hfit, Option.map_some]

/-- Two pairs whose scores tie under both labels, above an irrelevant one. -/
def tiedPairs : List (Pair ℚ) :=
  [(1, "relevant".toList), (0, "irrelevant".toList), (1, "irrelevant".toList)]

example : fitThresholdFbeta tiedPairs 2 = some (1 / 2) := by decide +kernel

theorem fit_optimal_tied : ∃ fitted, fitThresholdFbeta tiedPairs 2 = some fitted ∧
    (∀ t, fBeta 2 tiedPairs t ≤ fBeta 2 tiedPairs fitted ∧
      (fBeta 2 tiedPairs t = fBeta 2 tiedPairs fitted → ∀ p ∈ tiedPairs, t ≤ p.1 → fitted ≤ p.1)) ∧
    (∀ pairs', pairs'.Perm tiedPairs → fitThresholdFbeta pairs' 2 = some fitted) ∧
    ∀ c, fitThresholdFbeta (tiedPairs.map fun p => (p.1 + c, p.2)) 2 = some (fitted + c) :=
  fit_optimal ⟨(1, "relevant".toList), by decide, by decide⟩
    ⟨(0, "irrelevant".toList), by decide, by decide⟩ 2

end Companion.Memory.FloorCalibration

import Companion.Emotion.Averages
import Mathlib

/-!
# The order of the entries

What `fold_entry` makes of a list of entries, in whatever order they come: each average is the mean
of the values of its emotion, and its weight the sum of their weights, where the weight of an entry
has aged up to the latest time of all (`fold_entries_closed`).

The induction is over the list from its end. The last entry either is the latest, and ages the
weights of every emotion up to its own time, or comes late, and is aged by its own age.
-/

namespace Companion.Emotion

open Companion.Memory

/-- A call of `fold_entry` that is not a zero of a quiet day. `time` is `at`. -/
structure Entry (K : Type*) where
  emotion : Text
  value : K
  weight : K
  time : Instant

section Closed

variable {K : Type*} [Field K] [LinearOrder K] (S : Setting K)

/-- The entries, folded one after another. -/
def EngineState.foldEntries (s : EngineState K) (es : List (Entry K)) : EngineState K :=
  es.foldl (fun s e => s.foldEntry S e.emotion e.value e.weight e.time false) s

/-- The value is on the scale, and the entry counts. -/
def Entry.Usual (e : Entry K) : Prop := (0 ≤ e.value ∧ e.value ≤ valueCap) ∧ 0 < e.weight

/-- The latest of the times. -/
def latest (es : List (Entry K)) : Option Instant := (es.map Entry.time).max?

/-- `w * d(T - at)` -/
def Entry.weightAt (e : Entry K) (halfLife time : Instant) : K :=
  e.weight * S.decay (time - e.time) halfLife

/-- The weighted mean of the entries at a time, with its weight. -/
def meanAt (es : List (Entry K)) (halfLife time : Instant) : Average K :=
  let weight := (es.map fun e => e.weightAt S halfLife time).sum
  ⟨(es.map fun e => e.value * e.weightAt S halfLife time).sum / weight, weight⟩

/-- What the entries of one emotion come to at a time. -/
def summary (es : List (Entry K)) (time : Instant) : EmotionState K where
  short := meanAt S es shortHalfLife time
  long := meanAt S es longHalfLife time
  lastEntryDay := (es.map fun e => S.dayOf e.time).max?
  snapshot := []

/-- The entries of an emotion. -/
def entriesFor (emotion : Text) (es : List (Entry K)) : List (Entry K) :=
  es.filter (·.emotion = emotion)

end Closed

/-! ## The greatest of a list -/

theorem max?_concat (xs : List ℤ) (x : ℤ) :
    (xs ++ [x]).max? = some (xs.max?.elim x (max x)) := by
  cases xs with
  | nil => rfl
  | cons y ys =>
    rw [List.cons_append, List.max?_cons', List.max?_cons', List.foldl_append]
    exact congrArg some (max_comm _ _)

theorem max?_perm {xs ys : List ℤ} (h : xs.Perm ys) : xs.max? = ys.max? := by
  cases hmax : ys.max? with
  | none =>
    obtain rfl := List.max?_eq_none_iff.mp hmax
    rw [List.perm_nil.mp h]
    rfl
  | some m =>
    obtain ⟨hmem, hle⟩ := List.max?_eq_some_iff.mp hmax
    exact List.max?_eq_some_iff.mpr ⟨h.mem_iff.mpr hmem, fun x hx => hle x (h.mem_iff.mp hx)⟩

section Lists

variable {K : Type*}

theorem latest_concat (es : List (Entry K)) (e : Entry K) :
    latest (es ++ [e]) = some ((latest es).elim e.time (max e.time)) := by
  unfold latest
  rw [List.map_append]
  exact max?_concat _ _

theorem entriesFor_concat (name : Text) (es : List (Entry K)) (e : Entry K) :
    entriesFor name (es ++ [e]) = if name = e.emotion then entriesFor name es ++ [e]
      else entriesFor name es := by
  unfold entriesFor
  rw [List.filter_append]
  by_cases h : name = e.emotion
  · rw [if_pos h, List.filter_cons, if_pos (by simp [h]), List.filter_nil]
  · rw [if_neg h, List.filter_cons, if_neg (by simpa using Ne.symm h), List.filter_nil,
      List.append_nil]

end Lists

section Order

variable {K : Type*} [Field K] [LinearOrder K] {S : Setting K} {es : List (Entry K)} {e : Entry K}
  {halfLife time : Instant}

/-! ## Ageing -/

/-- `d(a + b) = d(a) d(b)` -/
def Setting.Decays (S : Setting K) : Prop :=
  (∀ x y, S.half (x + y) = S.half x * S.half y) ∧ ∀ x, 0 < S.half x

theorem Setting.Decays.decay_add (h : S.Decays) (a b halfLife : Instant) :
    S.decay (a + b) halfLife = S.decay a halfLife * S.decay b halfLife := by
  unfold Setting.decay
  rw [← h.1, Int.cast_add, add_div]

theorem Setting.Decays.decay_pos (h : S.Decays) (a halfLife : Instant) :
    0 < S.decay a halfLife := h.2 _

theorem Setting.Decays.decay_zero (h : S.Decays) (halfLife : Instant) :
    S.decay 0 halfLife = 1 := by
  have hne := (h.decay_pos 0 halfLife).ne'
  have hmul := h.decay_add 0 0 halfLife
  rw [add_zero] at hmul
  exact (mul_eq_left₀ hne).mp hmul.symm

/-- The weight of an entry ages like every weight. -/
theorem weightAt_later (h : S.Decays) (e : Entry K) (halfLife time time' : Instant) :
    e.weightAt S halfLife time' = e.weightAt S halfLife time * S.decay (time' - time) halfLife := by
  unfold Entry.weightAt
  rw [mul_assoc, ← h.decay_add]
  congr 2
  ring

theorem meanAt_later (h : S.Decays) (es : List (Entry K)) (halfLife time time' : Instant) :
    (meanAt S es halfLife time).aged S (time' - time) halfLife = meanAt S es halfLife time' := by
  have hne := (h.decay_pos (time' - time) halfLife).ne'
  have hweights : (es.map fun e => e.weightAt S halfLife time').sum =
      (es.map fun e => e.weightAt S halfLife time).sum * S.decay (time' - time) halfLife := by
    rw [← List.sum_map_mul_right]
    simp only [weightAt_later h _ halfLife time time']
  have hvalues : (es.map fun e => e.value * e.weightAt S halfLife time').sum =
      (es.map fun e => e.value * e.weightAt S halfLife time).sum *
        S.decay (time' - time) halfLife := by
    rw [← List.sum_map_mul_right]
    simp only [weightAt_later h _ halfLife time time', mul_assoc]
  unfold meanAt Average.aged
  simp only
  rw [hweights, hvalues, mul_div_mul_right _ _ hne]

theorem summary_later (h : S.Decays) (es : List (Entry K)) (time time' : Instant) :
    (summary S es time).aged S (time' - time) = summary S es time' := by
  unfold summary EmotionState.aged
  rw [meanAt_later h, meanAt_later h]

theorem lastUpdate_enter (s : EngineState K) (emotion : Text)
    (shortValue longValue wShort wLong : K) (time : Instant) (zero : Bool) :
    (s.enter S emotion shortValue longValue wShort wLong time zero).lastUpdate = s.lastUpdate := by
  simp only [EngineState.enter]
  split_ifs <;> rfl

/-! ## The mean -/

variable [IsStrictOrderedRing K]

theorem weightAt_pos (h : S.Decays) (he : e.Usual) (halfLife time : Instant) :
    0 < e.weightAt S halfLife time :=
  mul_pos he.2 (h.decay_pos _ _)

/-- The weights of entries that count are positive, and their mean is on the scale. -/
theorem sums_of_usual (h : S.Decays) (hes : ∀ e ∈ es, e.Usual) (halfLife time : Instant) :
    0 ≤ (es.map fun e => e.weightAt S halfLife time).sum ∧
      0 ≤ (es.map fun e => e.value * e.weightAt S halfLife time).sum ∧
      (es.map fun e => e.value * e.weightAt S halfLife time).sum ≤
        valueCap * (es.map fun e => e.weightAt S halfLife time).sum := by
  induction es with
  | nil => simp
  | cons e es ih =>
    obtain ⟨he, hes⟩ := List.forall_mem_cons.mp hes
    obtain ⟨hweights, hvalues, hcap⟩ := ih hes
    have hpos := weightAt_pos h he halfLife time
    simp only [List.map_cons, List.sum_cons]
    refine ⟨add_nonneg hpos.le hweights, add_nonneg (mul_nonneg he.1.1 hpos.le) hvalues, ?_⟩
    rw [mul_add]
    exact add_le_add (mul_le_mul_of_nonneg_right he.1.2 hpos.le) hcap

/-- `_fold_average` of a mean is the mean with the new value. -/
theorem fold_mean {values weights value w : K} (hweights : 0 ≤ weights) (hvalues : 0 ≤ values)
    (hcap : values ≤ valueCap * weights) (hvalue : 0 ≤ value ∧ value ≤ valueCap) (hw : 0 < w) :
    (⟨values / weights, weights⟩ : Average K).fold value w =
      ⟨(values + value * w) / (weights + w), weights + w⟩ := by
  have hsum : 0 < weights + w := add_pos_of_nonneg_of_pos hweights hw
  have hmean : values / weights + (value - values / weights) * w / (weights + w) =
      (values + value * w) / (weights + w) := by
    rcases hweights.eq_or_lt with hzero | hpos
    · -- The first entry: there is nothing to weigh it against.
      have hnone : values = 0 := by
        rw [← hzero, mul_zero] at hcap
        exact le_antisymm hcap hvalues
      rw [← hzero, hnone]
      field_simp
      ring
    · field_simp
      ring
  -- The mean is on the scale, so that holding it there changes nothing.
  have hnonneg : 0 ≤ (values + value * w) / (weights + w) :=
    div_nonneg (add_nonneg hvalues (mul_nonneg hvalue.1 hw.le)) hsum.le
  have hle : (values + value * w) / (weights + w) ≤ valueCap := by
    rw [div_le_iff₀ hsum, mul_add]
    exact add_le_add hcap (mul_le_mul_of_nonneg_right hvalue.2 hw.le)
  unfold Average.fold
  rw [if_neg hw.not_ge, hmean, hold, max_eq_left hnonneg, min_eq_left hle]

theorem meanAt_concat (h : S.Decays) (hes : ∀ e ∈ es, e.Usual) (he : e.Usual) :
    (meanAt S es halfLife time).fold e.value (e.weightAt S halfLife time) =
      meanAt S (es ++ [e]) halfLife time := by
  obtain ⟨hweights, hvalues, hcap⟩ := sums_of_usual h hes halfLife time
  unfold meanAt
  simp only [List.map_append, List.map_cons, List.map_nil, List.sum_append, List.sum_cons,
    List.sum_nil, add_zero]
  exact fold_mean hweights hvalues hcap he.1 (weightAt_pos h he halfLife time)

/-! ## One entry -/

/-- The state of a list of entries. -/
structure Summed (S : Setting K) (es : List (Entry K)) (s : EngineState K) : Prop where
  lastUpdate : s.lastUpdate = latest es
  emotions : ∀ time, latest es = some time → ∀ name,
    s.emotions.get? name =
      if entriesFor name es = [] then none else some (summary S (entriesFor name es) time)
  empty : latest es = none → s.emotions = ∅

/-- An entry with its weights at the reference time goes into its emotion alone. -/
theorem get?_enter (h : S.Decays) {s : EngineState K} {own : List (Entry K)}
    (hown : s.emotions.get? e.emotion = if own = [] then none else some (summary S own time))
    (hes : ∀ e ∈ own, e.Usual) (he : e.Usual) (name : Text) :
    (s.enter S e.emotion e.value e.value (e.weightAt S shortHalfLife time)
        (e.weightAt S longHalfLife time) e.time false).emotions.get? name =
      if name = e.emotion then some (summary S (own ++ [e]) time) else s.emotions.get? name := by
  -- An emotion without entries is as one with an empty list of them.
  have hexisting : (s.emotions.get? e.emotion).getD .empty = summary S own time := by
    rw [hown]
    split_ifs with hnil
    · rw [hnil, Option.getD_none]
      simp [summary, meanAt, EmotionState.empty]
    · rfl
  -- Its weight is positive, so that it is not dropped.
  have hlong : ¬ (meanAt S (own ++ [e]) longHalfLife time).weight ≤ 0 := by
    have hrest := (sums_of_usual h hes longHalfLife time).1
    have hpos := weightAt_pos h he longHalfLife time
    refine not_le.mpr ?_
    simp only [meanAt, List.map_append, List.map_cons, List.map_nil, List.sum_append,
      List.sum_cons, List.sum_nil, add_zero]
    exact add_pos_of_nonneg_of_pos hrest hpos
  have hentered : ({ summary S own time with
      short := (meanAt S own shortHalfLife time).fold e.value (e.weightAt S shortHalfLife time)
      long := (meanAt S own longHalfLife time).fold e.value (e.weightAt S longHalfLife time) } :
        EmotionState K).entered (S.dayOf e.time) = summary S (own ++ [e]) time := by
    rw [meanAt_concat h hes he, meanAt_concat h hes he]
    unfold EmotionState.entered summary
    simp only [List.map_append, List.map_cons, List.map_nil]
    rw [max?_concat]
  simp only [EngineState.enter, hexisting]
  rw [if_neg fun hnone => hlong (by simpa [summary, meanAt_concat h hes he] using hnone.2)]
  simp only [Bool.false_eq_true, if_false]
  rw [Dict.get?_set]
  by_cases hname : name = e.emotion
  · rw [if_pos hname, if_pos hname]
    exact congrArg some hentered
  · rw [if_neg hname, if_neg hname]

/-- An entry goes into a state whose weights have aged up to the latest time. -/
theorem Summed.enter (h : S.Decays) {s : EngineState K}
    (htime : latest (es ++ [e]) = some time) (hlast : s.lastUpdate = some time)
    (hemotions : ∀ name, s.emotions.get? name =
      if entriesFor name es = [] then none else some (summary S (entriesFor name es) time))
    (hes : ∀ e ∈ es, e.Usual) (he : e.Usual) :
    Summed S (es ++ [e]) (s.enter S e.emotion e.value e.value (e.weightAt S shortHalfLife time)
      (e.weightAt S longHalfLife time) e.time false) where
  lastUpdate := by rw [lastUpdate_enter, hlast, htime]
  emotions time' htime' name := by
    obtain rfl := Option.some.inj (htime.symm.trans htime')
    have hown : ∀ e' ∈ entriesFor e.emotion es, e'.Usual :=
      fun e' he' => hes e' (List.mem_of_mem_filter he')
    rw [get?_enter h (hemotions e.emotion) hown he, entriesFor_concat]
    by_cases hname : name = e.emotion
    · rw [if_pos hname, if_pos hname, hname, if_neg (by simp)]
    · rw [if_neg hname, if_neg hname, hemotions name]
  empty hnone := nomatch htime.symm.trans hnone

/-- What a fold does, by where the entry is from the reference time. -/
theorem Summed.foldEntry (h : S.Decays) {s : EngineState K} (hs : Summed S es s)
    (hes : ∀ e ∈ es, e.Usual) (he : e.Usual) :
    Summed S (es ++ [e]) (s.foldEntry S e.emotion e.value e.weight e.time false) := by
  have hheld : hold e.value = e.value := by
    rw [hold, max_eq_left he.1.1, min_eq_left he.1.2]
  have hnow : ∀ halfLife, e.weightAt S halfLife e.time = e.weight := by
    intro halfLife
    rw [Entry.weightAt, sub_self, h.decay_zero, mul_one]
  have hlatest := latest_concat es e
  have hlast := hs.lastUpdate
  unfold EngineState.foldEntry EngineState.fold
  rw [hheld, if_neg (by simp)]
  cases hu : latest es with
  | none =>
    -- The first entry of all.
    rw [hu] at hlatest hlast
    have hnil : es = [] := List.map_eq_nil_iff.mp (List.max?_eq_none_iff.mp hu)
    rw [hlast]
    simp only [Option.filter_none]
    have henter := Summed.enter (s := s.ageTo S e.time) h hlatest rfl (fun name => by
      simp [EngineState.ageTo, hlast, hs.empty hu, hnil, entriesFor]) hes he
    rwa [Option.elim_none, hnow, hnow] at henter
  | some u =>
    rw [hu] at hlatest hlast
    rw [hlast]
    -- A late entry has aged, and the reference time stays.
    by_cases hlate : e.time < u
    · rw [Option.filter_some, if_pos (by simpa using hlate)]
      have htime : latest (es ++ [e]) = some u := by
        rw [hlatest, Option.elim_some, max_eq_right hlate.le]
      exact Summed.enter h htime hlast (hs.emotions u hu) hes he
    · -- The state ages up to the entry.
      rw [Option.filter_some, if_neg (by simpa using hlate)]
      have htime : latest (es ++ [e]) = some e.time := by
        rw [hlatest, Option.elim_some, max_eq_left (not_lt.mp hlate)]
      have henter := Summed.enter (s := s.ageTo S e.time) h htime rfl (fun name => by
        simp only [EngineState.ageTo, hlast]
        rw [Dict.get?_map, hs.emotions u hu]
        split_ifs
        · rfl
        · rw [Option.map_some, summary_later h]) hes he
      rwa [hnow, hnow] at henter

theorem summed_foldEntries (h : S.Decays) (hes : ∀ e ∈ es, e.Usual) :
    Summed S es (EngineState.empty.foldEntries S es) := by
  induction es using List.reverseRecOn with
  | nil => exact ⟨rfl, nofun, fun _ => rfl⟩
  | append_singleton es e ih =>
    have hes' := fun e' he' => hes e' (List.mem_append_left [e] he')
    have he := hes e (List.mem_append_right es (List.mem_singleton_self e))
    have hstep := (ih hes').foldEntry h hes' he
    unfold EngineState.foldEntries at hstep ⊢
    rwa [List.foldl_append]

/-! ## The order -/

omit [IsStrictOrderedRing K] in
/-- What entries come to does not depend on their order. -/
theorem summary_perm {es' : List (Entry K)} (h : es'.Perm es) (time : Instant) :
    summary S es' time = summary S es time := by
  have hmean : ∀ halfLife, meanAt S es' halfLife time = meanAt S es halfLife time := by
    intro halfLife
    unfold meanAt
    rw [(h.map fun e => e.weightAt S halfLife time).sum_eq,
      (h.map fun e => e.value * e.weightAt S halfLife time).sum_eq]
  unfold summary
  rw [hmean, hmean, max?_perm (h.map fun e => S.dayOf e.time)]

/-- Entries in any order leave the latest time as the reference time, and each average as the mean
of the values of its emotion, weighted by the weights as they have aged by then. -/
theorem fold_entries_closed (h : S.Decays) {es' : List (Entry K)} (hperm : es'.Perm es)
    (hes : ∀ e ∈ es, e.Usual) :
    (EngineState.empty.foldEntries S es').lastUpdate = latest es ∧
      ∀ time, latest es = some time → ∀ name,
        (EngineState.empty.foldEntries S es').emotions.get? name =
          if entriesFor name es = [] then none
          else some (summary S (entriesFor name es) time) := by
  have hes' : ∀ e ∈ es', e.Usual := fun e he => hes e (hperm.mem_iff.mp he)
  have hsummed := summed_foldEntries h hes'
  have hlatest : latest es' = latest es := max?_perm (hperm.map Entry.time)
  refine ⟨hsummed.lastUpdate.trans hlatest, fun time htime name => ?_⟩
  have hown : (entriesFor name es').Perm (entriesFor name es) := hperm.filter _
  have hnil : entriesFor name es' = [] ↔ entriesFor name es = [] := by
    rw [← List.length_eq_zero_iff, hown.length_eq, List.length_eq_zero_iff]
  rw [hsummed.emotions time (hlatest.trans htime), summary_perm hown]
  simp only [hnil]

end Order

local instance atLeastTwo_two : Nat.AtLeastTwo 2 := ⟨by decide⟩

/-- The zone UTC, where a weight halves with every half-life. -/
noncomputable def Setting.halving : Setting ℝ where
  dayOf t := t / 86400000000
  dayStart day := day * 86400000000
  half x := (1 / 2 : ℝ) ^ (x : ℝ)
  half_nonneg x := by positivity
  parse _ := none

theorem decays_halving : Setting.halving.Decays := by
  refine ⟨fun x y => ?_, fun x => ?_⟩
  · show (1 / 2 : ℝ) ^ ((x + y : ℚ) : ℝ) = _
    rw [Rat.cast_add, Real.rpow_add (by norm_num)]
    rfl
  · exact Real.rpow_pos_of_pos (by norm_num) _

/-- The later of two entries comes first. -/
theorem fold_entries_closed_late :
    let joy : Entry ℝ := ⟨"joy".toList, 4, 1, 0⟩
    let calm : Entry ℝ := ⟨"calm".toList, 6, 2, 86400000000⟩
    let s := EngineState.empty.foldEntries Setting.halving [calm, joy]
    s.lastUpdate = latest [joy, calm] ∧
      ∀ time, latest [joy, calm] = some time → ∀ name,
        s.emotions.get? name =
          if entriesFor name [joy, calm] = [] then none
          else some (summary Setting.halving (entriesFor name [joy, calm]) time) := by
  refine fold_entries_closed decays_halving (List.Perm.swap _ _ _) ?_
  intro e he
  rcases List.mem_cons.mp he with rfl | he
  · norm_num [Entry.Usual, valueCap]
  · obtain rfl := List.mem_singleton.mp he
    norm_num [Entry.Usual, valueCap]

end Companion.Emotion

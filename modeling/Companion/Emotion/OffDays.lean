import Companion.Emotion.Days
import Companion.Emotion.FoldOrder

/-!
# Days on which the app is off

A day closes when the next time is on a later day, however much later. `close_days` moves the
reference time over the whole days in between, so that what follows comes out as if it had come
directly after the day (`off_days_invisible`): two states that differ by the gap in their reference
times stay so when the entries differ by it too (`Apart.foldEntry`).

What a zone does at midnight is open: a day starts no earlier than it is that day, and a day that a
zone leaves out starts when the next one does.
-/

namespace Companion.Emotion

open Companion.Memory

variable {K : Type*} [Field K] [LinearOrder K] {S : Setting K} {s s' : EngineState K} {gap : Instant}

/-- The two averages. -/
def EmotionState.averages (e : EmotionState K) : Average K × Average K := (e.short, e.long)

/-- The averages of an emotion, where it is there. -/
def EngineState.averagesOf (s : EngineState K) (name : Text) : Option (Average K × Average K) :=
  (s.emotions.get? name).map EmotionState.averages

/-- The entry, dated earlier. -/
def Entry.earlier (gap : Instant) (e : Entry K) : Entry K := { e with time := e.time - gap }

/-- The same averages, at reference times that are the gap apart. -/
structure Apart (gap : Instant) (s s' : EngineState K) : Prop where
  lastUpdate : s.lastUpdate = s'.lastUpdate.map (· + gap)
  averages : ∀ name, s.averagesOf name = s'.averagesOf name

/-! ## Entries -/

/-- The averages that an entry leaves are made of those that were there. -/
theorem averagesOf_enter (s : EngineState K) (emotion : Text)
    (shortValue longValue wShort wLong : K) (time : Instant) (zero : Bool) (name : Text) :
    (s.enter S emotion shortValue longValue wShort wLong time zero).averagesOf name =
      let old := (s.averagesOf emotion).getD (EmotionState.empty : EmotionState K).averages
      let new := (old.1.fold shortValue wShort, old.2.fold longValue wLong)
      if s.averagesOf emotion = none ∧ new.2.weight ≤ 0 then s.averagesOf name
      else if name = emotion then some new else s.averagesOf name := by
  have hold : (s.averagesOf emotion).getD (EmotionState.empty : EmotionState K).averages =
      ((s.emotions.get? emotion).getD .empty).averages := by
    unfold EngineState.averagesOf
    cases s.emotions.get? emotion <;> rfl
  have hnone : s.averagesOf emotion = none ↔ s.emotions.get? emotion = none := Option.map_eq_none_iff
  simp only [hold, hnone, EngineState.enter]
  generalize (s.emotions.get? emotion).getD .empty = e
  by_cases hghost : s.emotions.get? emotion = none ∧ (e.long.fold longValue wLong).weight ≤ 0
  · rw [if_pos hghost]
    exact (if_pos hghost).symm
  · have hkept : ¬ (s.emotions.get? emotion = none ∧
        ((e.averages).2.fold longValue wLong).weight ≤ 0) := hghost
    rw [if_neg hghost, if_neg hkept]
    unfold EngineState.averagesOf
    rw [Dict.get?_set]
    by_cases hname : name = emotion
    · rw [if_pos hname, if_pos hname]
      cases zero <;> rfl
    · rw [if_neg hname, if_neg hname]

theorem Apart.enter (h : Apart gap s s') (emotion : Text) (shortValue longValue wShort wLong : K)
    (time time' : Instant) (zero : Bool) :
    Apart gap (s.enter S emotion shortValue longValue wShort wLong time zero)
      (s'.enter S emotion shortValue longValue wShort wLong time' zero) where
  lastUpdate := by rw [lastUpdate_enter, lastUpdate_enter, h.lastUpdate]
  averages name := by
    rw [averagesOf_enter, averagesOf_enter, h.averages emotion, h.averages name]

theorem averagesOf_ageTo (s : EngineState K) (time : Instant) (name : Text) :
    (s.ageTo S time).averagesOf name = (s.averagesOf name).map fun a =>
      s.lastUpdate.elim a fun u =>
        (a.1.aged S (time - u) shortHalfLife, a.2.aged S (time - u) longHalfLife) := by
  unfold EngineState.averagesOf EngineState.ageTo
  cases s.lastUpdate with
  | none => exact (congrFun Option.map_id _).symm
  | some u =>
    simp only [Dict.get?_map, Option.map_map]
    rfl

theorem Apart.ageTo (h : Apart gap s s') (time : Instant) :
    Apart gap (s.ageTo S time) (s'.ageTo S (time - gap)) where
  lastUpdate := congrArg some (sub_add_cancel time gap).symm
  averages name := by
    rw [averagesOf_ageTo, averagesOf_ageTo, h.averages name, h.lastUpdate]
    cases s'.lastUpdate with
    | none => rfl
    | some u =>
      have helapsed : time - (u + gap) = time - gap - u := by ring
      simp only [Option.map_some, Option.elim_some, helapsed]

/-- An entry that comes later by the gap finds the weights as old as the other one does. -/
theorem Apart.foldEntry (h : Apart gap s s') (emotion : Text) (value w : K) (time : Instant) :
    Apart gap (s.foldEntry S emotion value w time false)
      (s'.foldEntry S emotion value w (time - gap) false) := by
  unfold EngineState.foldEntry EngineState.fold
  rw [if_neg (by simp), if_neg (by simp), h.lastUpdate]
  cases hu : s'.lastUpdate with
  | none => exact (h.ageTo time).enter emotion _ _ w w time _ false
  | some u =>
    -- An entry before the reference time is aged, and one after it ages the weights. Both go by the
    -- distance, which is the same.
    by_cases hlate : time < u + gap
    · have hlate' : time - gap < u := sub_lt_iff_lt_add.mpr hlate
      rw [Option.map_some, Option.filter_some, if_pos (by simpa using hlate), Option.filter_some,
        if_pos (by simpa using hlate')]
      have helapsed : u + gap - time = u - (time - gap) := by ring
      simp only [helapsed]
      exact h.enter emotion _ _ _ _ time _ false
    · have hlate' : ¬ time - gap < u := fun hlt => hlate (sub_lt_iff_lt_add.mp hlt)
      rw [Option.map_some, Option.filter_some, if_neg (by simpa using hlate), Option.filter_some,
        if_neg (by simpa using hlate')]
      exact (h.ageTo time).enter emotion _ _ w w time _ false

theorem Apart.foldEntries (h : Apart gap s s') (es : List (Entry K)) :
    Apart gap (s.foldEntries S es) (s'.foldEntries S (es.map (Entry.earlier gap))) := by
  induction es generalizing s s' with
  | nil => exact h
  | cons e es ih => exact ih (h.foldEntry e.emotion e.value e.weight e.time)

/-! ## The close of a day -/

/-- The zone begins a day no earlier than it is that day, and days that it leaves out with the next
one. -/
def Setting.Begins (S : Setting K) : Prop :=
  ∀ day, day ≤ S.dayOf (S.dayStart day) ∧ S.dayStart (S.dayOf (S.dayStart day)) = S.dayStart day

/-- A close is the same at any later time, but for the reference time and the open day. -/
theorem closeDays_eq {closing : ℤ} (hactive : s.activeDay = some closing) {t : Instant}
    (ht : closing < S.dayOf t) :
    s.closeDays S t =
      { s.foldZeros S closing with
        emotions := (s.foldZeros S closing).emotions.map fun _ e => e.close closing
        lastUpdate := (s.foldZeros S closing).lastUpdate.map
          (· + (S.dayStart (S.dayOf t) - S.dayStart (closing + 1)))
        activeDay := some (S.dayOf t) } := by
  simp only [EngineState.closeDays, hactive]
  rw [if_neg (not_le.mpr ht)]

/-- A close at a later time leaves the reference time later by the days in between. -/
theorem apart_closeDays (hzone : S.Begins) {closing : ℤ} (hactive : s.activeDay = some closing)
    {t : Instant} (ht : closing < S.dayOf t) :
    Apart (S.dayStart (S.dayOf t) - S.dayStart (closing + 1)) (s.closeDays S t)
      (s.closeDays S (S.dayStart (closing + 1))) := by
  -- Both closes fold the same zeros, and open days whose starts are apart by the gap.
  obtain ⟨hafter, hstart⟩ := hzone (closing + 1)
  rw [closeDays_eq hactive ht, closeDays_eq hactive (Int.lt_iff_add_one_le.mpr hafter), hstart,
    sub_self]
  exact ⟨by simp, fun _ => rfl⟩

/-! ## Once -/

/-- What a close adds of the open day, once: a zero for each present emotion that had no entry on
it, and the day in the snapshot of each present emotion. -/
structure ClosedOnce (S : Setting K) (closing : ℤ) (s after : EngineState K) : Prop where
  zeros : ∃ (names : List Text) (zeroed : EngineState K), names.Nodup ∧
    (∀ name, name ∈ names ↔ ∃ e, s.emotions.get? name = some e ∧ 0 < e.long.weight ∧
      e.lastEntryDay ≠ some closing) ∧
    zeroed = names.foldl
      (fun s name => s.fold S name 0 0 1 (S.dayStart (closing + 1)) true) s ∧
    ∀ name, after.averagesOf name = zeroed.averagesOf name
  snapshot : ∀ name e e', s.emotions.get? name = some e → after.emotions.get? name = some e' →
    0 < e'.long.weight → ∃ day : SnapshotDay K, day.day = closing ∧ day.short = e'.short.avg ∧
      day.long = e'.long.avg ∧ (day.felt = true ↔ e.lastEntryDay = some closing) ∧
      e'.snapshot =
        (e.snapshot ++ [day]).filter fun d => closing - d.day < longHalfLifeDays

/-- Each emotion is there still, with its days. -/
def DaysKept (s s' : EngineState K) : Prop :=
  ∀ name e, s.emotions.get? name = some e →
    ∃ e', s'.emotions.get? name = some e' ∧ e'.snapshot = e.snapshot ∧
      e'.lastEntryDay = e.lastEntryDay

omit [Field K] [LinearOrder K] in
theorem DaysKept.trans {s₁ s₂ s₃ : EngineState K} (h : DaysKept s₁ s₂) (h' : DaysKept s₂ s₃) :
    DaysKept s₁ s₃ := by
  intro name e he
  obtain ⟨e₁, he₁, hsnapshot, hday⟩ := h name e he
  obtain ⟨e₂, he₂, hsnapshot', hday'⟩ := h' name e₁ he₁
  exact ⟨e₂, he₂, hsnapshot'.trans hsnapshot, hday'.trans hday⟩

theorem daysKept_ageTo (s : EngineState K) (time : Instant) : DaysKept s (s.ageTo S time) := by
  intro name e he
  unfold EngineState.ageTo
  cases s.lastUpdate with
  | none => exact ⟨e, he, rfl, rfl⟩
  | some u => exact ⟨e.aged S (time - u), by simp only [Dict.get?_map, he, Option.map_some], rfl, rfl⟩

/-- A zero leaves the days of every emotion. -/
theorem daysKept_enter (s : EngineState K) (emotion : Text) (wShort wLong : K) (time : Instant) :
    DaysKept s (s.enter S emotion 0 0 wShort wLong time true) := by
  intro name e he
  simp only [EngineState.enter]
  -- A zero for an emotion that is not there is dropped.
  split_ifs with hghost
  · exact ⟨e, he, rfl, rfl⟩
  · simp only [Dict.get?_set]
    by_cases hname : name = emotion
    · subst hname
      rw [if_pos rfl, he]
      exact ⟨_, rfl, rfl, rfl⟩
    · rw [if_neg hname]
      exact ⟨e, he, rfl, rfl⟩

theorem daysKept_fold (s : EngineState K) (emotion : Text) (w : K) (time : Instant) :
    DaysKept s (s.fold S emotion 0 0 w time true) := by
  unfold EngineState.fold
  split_ifs
  · exact fun name e he => ⟨e, he, rfl, rfl⟩
  · cases s.lastUpdate.filter (time < ·) with
    | none => exact (daysKept_ageTo s time).trans (daysKept_enter _ emotion w w time)
    | some u => exact daysKept_enter s emotion _ _ time

theorem daysKept_foldZeros (s : EngineState K) (closing : ℤ) :
    DaysKept s (s.foldZeros S closing) :=
  foldl_keeps (P := fun s' => DaysKept s s')
    (fun s' name hs => hs.trans (daysKept_fold s' name 1 _)) _
    (fun _ e he => ⟨e, he, rfl, rfl⟩)

theorem mem_needsZero {closing : ℤ} {name : Text} :
    name ∈ s.needsZero closing ↔ ∃ e, s.emotions.get? name = some e ∧ 0 < e.long.weight ∧
      e.lastEntryDay ≠ some closing := by
  unfold EngineState.needsZero
  constructor
  · intro h
    obtain ⟨⟨name', e⟩, hmem, rfl⟩ := List.mem_map.mp h
    obtain ⟨hentry, hquiet⟩ := List.mem_filter.mp hmem
    exact ⟨e, Dict.get?_of_mem_entries hentry, of_decide_eq_true hquiet⟩
  · rintro ⟨e, he, hquiet⟩
    exact List.mem_map.mpr ⟨(name, e),
      List.mem_filter.mpr ⟨Dict.mem_entries_of_get? he, decide_eq_true hquiet⟩, rfl⟩

theorem averages_close (e : EmotionState K) (closing : ℤ) :
    (e.close closing).averages = e.averages := by
  unfold EmotionState.close
  split_ifs <;> rfl

theorem closedOnce_closeDays {closing : ℤ} (hactive : s.activeDay = some closing) {t : Instant}
    (ht : closing < S.dayOf t) : ClosedOnce S closing s (s.closeDays S t) := by
  rw [closeDays_eq hactive ht]
  refine ⟨⟨s.needsZero closing, s.foldZeros S closing, ?_, fun _ => mem_needsZero, rfl, ?_⟩, ?_⟩
  · exact (List.filter_sublist.map _).nodup s.emotions.nodup
  · intro name
    unfold EngineState.averagesOf
    rw [Dict.get?_map, Option.map_map]
    exact Option.map_congr fun e _ => averages_close e closing
  · intro name e e' he he' hpresent
    -- The zeros change the averages only, and the close the snapshot only.
    obtain ⟨e₁, he₁, hsnapshot, hday⟩ := daysKept_foldZeros (S := S) s closing name e he
    simp only [Dict.get?_map, he₁, Option.map_some, Option.some.injEq] at he'
    have hweight : e'.long = e₁.long := congrArg Prod.snd (he' ▸ averages_close e₁ closing)
    have hshort : e'.short = e₁.short := congrArg Prod.fst (he' ▸ averages_close e₁ closing)
    rw [hweight] at hpresent
    rw [hweight, hshort, ← he', ← hday, ← hsnapshot]
    unfold EmotionState.close
    rw [if_neg (not_le.mpr hpresent)]
    exact ⟨_, rfl, rfl, rfl, decide_eq_true_iff, rfl⟩

/-! ## The gap -/

/-- However many days the app is off after the open day, the day closes once, and what comes after
is folded as if it came sooner by those days. -/
theorem off_days_invisible (hzone : S.Begins) {closing : ℤ} (hactive : s.activeDay = some closing)
    {t : Instant} (ht : closing + 1 < S.dayOf t) :
    (∀ (es : List (Entry K)) (name : Text),
        ((s.closeDays S t).foldEntries S es).averagesOf name =
          ((s.closeDays S (S.dayStart (closing + 1))).foldEntries S
            (es.map (Entry.earlier
              (S.dayStart (S.dayOf t) - S.dayStart (closing + 1))))).averagesOf name) ∧
      ClosedOnce S closing s (s.closeDays S t) ∧
      ∀ t', S.dayOf t' ≤ closing → s.closeDays S t' = s := by
  have hlater : closing < S.dayOf t := by omega
  refine ⟨fun es name => ?_, closedOnce_closeDays hactive hlater,
    fun t' ht' => closeDays_of_le hactive ht'⟩
  exact ((apart_closeDays hzone hactive hlater).foldEntries es).averages name

theorem begins_utc (parse : Text → Option (Event ℚ)) : (Setting.utc parse).Begins := by
  intro day
  have hday : (Setting.utc parse).dayOf ((Setting.utc parse).dayStart day) = day :=
    Int.mul_ediv_cancel day (by decide)
  rw [hday]
  exact ⟨le_rfl, rfl⟩

/-- Joy from the first day, and a close at noon of the fourth. -/
theorem off_days_invisible_fourth :
    let S := Setting.utc fun _ => none
    let joy : EmotionState ℚ := ⟨⟨4, 1⟩, ⟨4, 1⟩, some 0, []⟩
    let s : EngineState ℚ :=
      { (EngineState.empty : EngineState ℚ) with
        lastUpdate := some 0, activeDay := some 0, emotions := Dict.set ∅ "joy".toList joy }
    let t : Instant := 3 * 86400000000 + 43200000000
    (∀ (es : List (Entry ℚ)) (name : Text),
        ((s.closeDays S t).foldEntries S es).averagesOf name =
          ((s.closeDays S (S.dayStart (0 + 1))).foldEntries S
            (es.map (Entry.earlier (S.dayStart (S.dayOf t) - S.dayStart (0 + 1))))).averagesOf
              name) ∧
      ClosedOnce S 0 s (s.closeDays S t) ∧
      ∀ t', S.dayOf t' ≤ 0 → s.closeDays S t' = s :=
  off_days_invisible (begins_utc _) rfl
    (show (0 : ℤ) + 1 < (3 * 86400000000 + 43200000000) / 86400000000 by decide)

end Companion.Emotion

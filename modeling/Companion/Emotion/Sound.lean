import Companion.Emotion.Days

/-!
# Sound states

What holds of every state that the folds and the closes of the days make, of the averages, of the
days of the entries and of the snapshots: `EngineState.Sound`. `EngineState.Sound.foldEvent` and
`EngineState.Sound.closeDays` say that an event and a close of the days keep it.

The zone may be any: it is not needed that a later time is on a later day.
-/

namespace Companion.Emotion

open Companion.Memory

section

variable {K : Type*} [Field K] [LinearOrder K]

/-- An average on the scale, and a weight that is not negative. -/
structure Average.Sound (a : Average K) : Prop where
  nonneg : 0 ≤ a.avg
  le_cap : a.avg ≤ valueCap
  weight : 0 ≤ a.weight

/-- A run that the snapshot of `day` can keep. -/
structure RunRecord.Sound (r : RunRecord) (day : ℤ) : Prop where
  direction : r.direction ≠ 0
  start_le : r.startDay ≤ r.lastWithDay
  le_day : r.lastWithDay ≤ day
  day_sub : day - r.lastWithDay ≤ 1

structure SnapshotDay.Sound (d : SnapshotDay K) : Prop where
  short : 0 ≤ d.short ∧ d.short ≤ valueCap
  long : 0 ≤ d.long ∧ d.long ≤ valueCap
  run : ∀ r ∈ d.run, r.Sound d.day

/-- An emotion of a state whose open day is `activeDay`. -/
structure EmotionState.Sound (e : EmotionState K) (activeDay : Option ℤ) : Prop where
  short : e.short.Sound
  long : e.long.Sound
  lastEntryDay : ∀ d ∈ e.lastEntryDay, ∃ a ∈ activeDay, d ≤ a
  days : ∀ d ∈ e.snapshot, d.Sound
  increasing : e.snapshot.Pairwise (·.day < ·.day)
  window : ∀ last ∈ e.snapshot.getLast?, ∀ d ∈ e.snapshot, last.day - d.day < longHalfLifeDays
  closed : ∀ d ∈ e.snapshot, ∃ a ∈ activeDay, d.day < a

structure EngineState.Sound (s : EngineState K) : Prop where
  emotions : ∀ name e, s.emotions.get? name = some e → e.Sound s.activeDay
  opened : s.lastUpdate.isSome → s.activeDay.isSome

variable [IsStrictOrderedRing K] {S : Setting K}

/-! ## Averages -/

theorem valueCap_pos : (0 : K) < valueCap := by
  unfold valueCap
  positivity

theorem hold_nonneg (value : K) : 0 ≤ hold value :=
  le_min (le_max_right _ _) valueCap_pos.le

omit [IsStrictOrderedRing K] in
theorem hold_le_cap (value : K) : hold value ≤ valueCap := min_le_right _ _

omit [IsStrictOrderedRing K] in
/-- A value on the scale is not held. -/
theorem hold_of_mem {value : K} (h0 : 0 ≤ value) (hcap : value ≤ valueCap) : hold value = value := by
  rw [hold, max_eq_left h0, min_eq_left hcap]

theorem Average.Sound.fold {a : Average K} (h : a.Sound) (value w : K) : (a.fold value w).Sound := by
  unfold Average.fold
  split_ifs with hw
  · exact h
  · have hweight : 0 ≤ a.weight + w := add_nonneg h.weight (le_of_not_ge hw)
    exact ⟨hold_nonneg _, hold_le_cap _, hweight⟩

theorem Average.Sound.aged {a : Average K} (h : a.Sound) (elapsed halfLife : Instant) :
    (a.aged S elapsed halfLife).Sound :=
  ⟨h.nonneg, h.le_cap, mul_nonneg h.weight (S.half_nonneg _)⟩

theorem Average.Sound.climaxReset {a : Average K} (h : a.Sound) (name : Text) :
    Average.Sound { a with avg := climaxReset name a.avg } := by
  obtain ⟨h0, hcap, hweight⟩ := h
  have hten : (valueCap : K) = 10 := rfl
  have hrange : 0 ≤ Emotion.climaxReset name a.avg ∧ Emotion.climaxReset name a.avg ≤ valueCap := by
    rw [hten] at hcap ⊢
    unfold Emotion.climaxReset
    rw [hten]
    split_ifs
    · exact ⟨le_max_of_le_left (by norm_num), max_le (by norm_num) (by linarith)⟩
    · constructor <;> linarith
    · exact ⟨le_min (by norm_num) (by linarith), min_le_left _ _⟩
    · exact ⟨le_refl 0, by norm_num⟩
    · exact ⟨h0, hcap⟩
  exact ⟨hrange.1, hrange.2, hweight⟩

/-! ## Folds -/

variable {e : EmotionState K} {activeDay : Option ℤ}

theorem EmotionState.Sound.empty : (EmotionState.empty : EmotionState K).Sound activeDay where
  short := ⟨le_refl 0, valueCap_pos.le, le_refl 0⟩
  long := ⟨le_refl 0, valueCap_pos.le, le_refl 0⟩
  lastEntryDay := nofun
  days := nofun
  increasing := List.Pairwise.nil
  window := nofun
  closed := nofun

theorem EmotionState.Sound.aged (h : e.Sound activeDay) (elapsed : Instant) :
    (e.aged S elapsed).Sound activeDay :=
  { h with
    short := h.short.aged elapsed shortHalfLife
    long := h.long.aged elapsed longHalfLife }

omit [IsStrictOrderedRing K] in
theorem EmotionState.Sound.entered {a : ℤ} (h : e.Sound (some a)) {day : ℤ} (hday : day ≤ a) :
    (e.entered day).Sound (some a) := by
  refine { h with lastEntryDay := ?_ }
  intro d hd
  obtain rfl := Option.some.inj hd
  refine ⟨a, rfl, ?_⟩
  cases hlast : e.lastEntryDay with
  | none => exact hday
  | some last =>
    obtain ⟨a', ha', hle⟩ := h.lastEntryDay last hlast
    obtain rfl := Option.some.inj ha'
    exact max_le hday hle

variable {s : EngineState K} {time : Instant}

theorem EngineState.Sound.ageTo (h : s.Sound) (hopen : s.activeDay.isSome) (time : Instant) :
    (s.ageTo S time).Sound := by
  refine ⟨?_, fun _ => hopen⟩
  intro name e he
  unfold EngineState.ageTo at he
  cases hlast : s.lastUpdate with
  | none =>
    simp only [hlast] at he
    exact h.emotions name e he
  | some u =>
    simp only [hlast, Dict.get?_map] at he
    obtain ⟨e₀, he₀, rfl⟩ := Option.map_eq_some_iff.mp he
    exact (h.emotions name e₀ he₀).aged _

theorem EngineState.Sound.enter {a : ℤ} (h : s.Sound) (ha : s.activeDay = some a)
    (emotion : Text) (shortValue longValue wShort wLong : K) {zero : Bool}
    (hday : zero = true ∨ S.dayOf time ≤ a) :
    (s.enter S emotion shortValue longValue wShort wLong time zero).Sound := by
  have hexisting : ((s.emotions.get? emotion).getD .empty).Sound (some a) := by
    cases hget : s.emotions.get? emotion with
    | none => exact .empty
    | some e =>
      rw [← ha]
      exact h.emotions emotion e hget
  simp only [EngineState.enter]
  generalize (s.emotions.get? emotion).getD .empty = e at hexisting ⊢
  have hfolded : EmotionState.Sound { e with
      short := e.short.fold shortValue wShort
      long := e.long.fold longValue wLong } (some a) :=
    { hexisting with
      short := hexisting.short.fold shortValue wShort
      long := hexisting.long.fold longValue wLong }
  have hnew : EmotionState.Sound (if zero = true then { e with
      short := e.short.fold shortValue wShort
      long := e.long.fold longValue wLong }
      else EmotionState.entered { e with
        short := e.short.fold shortValue wShort
        long := e.long.fold longValue wLong } (S.dayOf time)) (some a) := by
    split_ifs with hzero
    · exact hfolded
    · exact hfolded.entered (hday.resolve_left hzero)
  by_cases hghost : s.emotions.get? emotion = none ∧ (e.long.fold longValue wLong).weight ≤ 0
  · rw [if_pos hghost]
    exact h
  · rw [if_neg hghost]
    refine ⟨?_, h.opened⟩
    intro name e' he'
    simp only [Dict.get?_set] at he'
    by_cases hname : name = emotion
    · rw [if_pos hname] at he'
      exact Option.some.inj he' ▸ ha ▸ hnew
    · rw [if_neg hname] at he'
      exact h.emotions name e' he'

omit [IsStrictOrderedRing K] in
theorem activeDay_enter (emotion : Text) (shortValue longValue wShort wLong : K) (zero : Bool) :
    (s.enter S emotion shortValue longValue wShort wLong time zero).activeDay = s.activeDay := by
  simp only [EngineState.enter]
  split_ifs <;> rfl

omit [IsStrictOrderedRing K] in
theorem activeDay_fold (emotion : Text) (shortValue longValue w : K) (zero : Bool) :
    (s.fold S emotion shortValue longValue w time zero).activeDay = s.activeDay := by
  unfold EngineState.fold
  split_ifs
  · rfl
  · cases s.lastUpdate.filter (time < ·) with
    | none => exact activeDay_enter emotion shortValue longValue w w zero
    | some u => exact activeDay_enter emotion shortValue longValue _ _ zero

theorem EngineState.Sound.fold {a : ℤ} (h : s.Sound) (ha : s.activeDay = some a) (emotion : Text)
    (shortValue longValue w : K) {zero : Bool} (hday : zero = true ∨ S.dayOf time ≤ a) :
    (s.fold S emotion shortValue longValue w time zero).Sound := by
  unfold EngineState.fold
  by_cases hnone : zero = true ∧ s.emotions.get? emotion = none
  · rw [if_pos hnone]
    exact h
  · rw [if_neg hnone]
    cases s.lastUpdate.filter (time < ·) with
    | none =>
      have haged := h.ageTo (S := S) (Option.isSome_of_eq_some ha) time
      exact haged.enter ha emotion shortValue longValue w w hday
    | some u => exact h.enter ha emotion shortValue longValue _ _ hday

/-- The parts of an event dated on the open day or before keep a state sound. -/
theorem keeps_sound {a : ℤ} {now : Instant} (hday : S.dayOf time ≤ a) :
    Keeps S time now fun s => s.Sound ∧ s.activeDay = some a where
  held s hs := ⟨⟨hs.1.emotions, fun _ => Option.isSome_of_eq_some hs.2⟩, hs.2⟩
  start s hs := ⟨⟨hs.1.emotions, hs.1.opened⟩, hs.2⟩
  repeats s repeats hs := ⟨⟨hs.1.emotions, hs.1.opened⟩, hs.2⟩
  fold s emotion shortValue longValue w _ hs :=
    ⟨hs.1.fold hs.2 emotion shortValue longValue w (Or.inr hday),
      (activeDay_fold emotion shortValue longValue w false).trans hs.2⟩
  climax s hs := by
    refine ⟨⟨?_, hs.1.opened⟩, hs.2⟩
    intro name e he
    rw [EngineState.applyClimaxReset, Dict.get?_map] at he
    obtain ⟨e₀, he₀, rfl⟩ := Option.map_eq_some_iff.mp he
    have h₀ := hs.1.emotions name e₀ he₀
    exact { h₀ with short := h₀.short.climaxReset name }

/-! ## Runs -/

omit [IsStrictOrderedRing K]

/-- A run after the move of `day`, which is the first day against it where one is pending. -/
structure CurrentRun.Sound (run : CurrentRun) (day : ℤ) : Prop where
  direction : run.direction ≠ 0
  start_le : run.startDay ≤ run.lastWithDay
  last : run.pending = none → run.lastWithDay = day
  pending : ∀ p ∈ run.pending, p.day = day ∧ run.lastWithDay + 1 = day

theorem CurrentRun.Sound.record {run : CurrentRun} {day : ℤ} (h : run.Sound day) :
    RunRecord.Sound ⟨run.startDay, run.direction, run.lastWithDay⟩ day := by
  obtain ⟨hdirection, hstart, hlast, hpending⟩ := h
  have hnear : run.lastWithDay = day ∨ run.lastWithDay + 1 = day := by
    cases hp : run.pending with
    | none => exact Or.inl (hlast hp)
    | some p => exact Or.inr (hpending p hp).2
  refine ⟨hdirection, hstart, ?_, ?_⟩
  · show run.lastWithDay ≤ day
    omega
  · show day - run.lastWithDay ≤ 1
    omega

/-- The moves come one for each calendar day. -/
theorem TrackerResult.sound_move {t : TrackerResult} {day : ℤ}
    (h : ∀ run ∈ t.current, run.Sound day) {m : Move K} (hm : m.day = day + 1) (felt : Bool) :
    ∀ run ∈ (t.move m felt).current, run.Sound (day + 1) := by
  unfold TrackerResult.move
  cases hcurrent : t.current with
  | none =>
    simp only
    split_ifs with h0
    · rw [hcurrent]
      exact nofun
    · rintro run ⟨⟩
      exact ⟨h0, le_refl _, fun _ => hm, nofun⟩
  | some run =>
    obtain ⟨hdirection, hstart, hlast, hpending⟩ := h run hcurrent
    simp only
    by_cases hwith : SignType.sign m.delta = run.direction
    · -- The run goes on.
      rw [if_pos hwith]
      have hle : run.lastWithDay ≤ day := by
        cases hp : run.pending with
        | none => exact (hlast hp).le
        | some p =>
          have hday := (hpending p hp).2
          omega
      rintro _ ⟨⟩
      refine ⟨hdirection, ?_, fun _ => hm, nofun⟩
      show run.startDay ≤ m.day
      omega
    · rw [if_neg hwith]
      cases hp : run.pending with
      | none =>
        -- The first day against the run.
        have hday := hlast hp
        rintro _ ⟨⟩
        refine ⟨hdirection, hstart, nofun, ?_⟩
        rintro p ⟨⟩
        exact ⟨hm, by show run.lastWithDay + 1 = day + 1; omega⟩
      | some p =>
        -- The second one, with which the next run starts, if the day moves.
        have hday := (hpending p hp).1
        simp only
        split_ifs with h0 hzero
        · exact nofun
        · rintro _ ⟨⟩
          exact ⟨h0, le_refl _, fun _ => hm, nofun⟩
        · rintro _ ⟨⟩
          refine ⟨h0, ?_, fun _ => hm, nofun⟩
          show p.day ≤ m.day
          omega

/-- The moves of the days on which the app was off. -/
theorem sound_offDays (n : ℕ) {t : TrackerResult} {day : ℤ} (h : ∀ run ∈ t.current, run.Sound day) :
    ∀ run ∈ (((daysAfter day n).map fun d => ((⟨d, 0⟩ : Move K), false)).foldl
      (fun t m => t.move m.1 m.2) t).current, run.Sound (day + n) := by
  induction n with
  | zero => exact fun run hrun => by simpa [daysAfter] using h run hrun
  | succ n ih =>
    rw [daysAfter, List.range_succ, List.map_append, List.map_append, List.foldl_append]
    have hmove := TrackerResult.sound_move (m := (⟨day + 1 + n, 0⟩ : Move K)) ih
      (show day + 1 + (n : ℤ) = day + n + 1 by omega) false
    rw [show day + ((n + 1 : ℕ) : ℤ) = day + n + 1 by omega]
    exact hmove

variable {activeDay : Option ℤ} {e : EmotionState K}

/-- The run of the last snapshot day. -/
theorem sound_seedFor {days : List (SnapshotDay K)} {last : SnapshotDay K}
    (hlast : days.getLast? = some last) (hsound : last.Sound) :
    ∀ run ∈ (seedFor days).map Seed.run, run.Sound last.day := by
  obtain ⟨init, rfl⟩ := List.getLast?_eq_some_iff.mp hlast
  intro run hrun
  rw [seedFor, List.reverse_append] at hrun
  obtain ⟨seed, hseed, rfl⟩ := Option.map_eq_some_iff.mp hrun
  obtain ⟨record, hrecord, rfl⟩ := Option.map_eq_some_iff.mp hseed
  obtain ⟨hdirection, hstart, hle, hnear⟩ := hsound.run record hrecord
  refine ⟨hdirection, hstart, ?_, ?_⟩
  · intro hpending
    show record.lastWithDay = last.day
    by_contra hne
    simp [Seed.run, Ne.symm hne] at hpending
  · intro p hp
    obtain ⟨isZero, hzero, rfl⟩ := Option.map_eq_some_iff.mp hp
    have hne : last.day ≠ record.lastWithDay := by
      intro heq
      simp [heq] at hzero
    show record.lastWithDay + 1 = last.day ∧ record.lastWithDay + 1 = last.day
    omega

theorem EmotionState.Sound.runAt {closing : ℤ} (h : e.Sound (some closing)) :
    ∀ r ∈ e.runAt closing, r.Sound closing := by
  intro r hr
  obtain ⟨previous, hprevious, hrun⟩ := Option.bind_eq_some_iff.mp hr
  obtain ⟨run, htracked, rfl⟩ := Option.map_eq_some_iff.mp hrun
  have hmem := List.mem_of_getLast? hprevious
  have hbefore : previous.day < closing := by
    obtain ⟨a, ha, hlt⟩ := h.closed previous hmem
    obtain rfl := Option.some.inj ha
    exact hlt
  have hseed := sound_seedFor hprevious (h.days previous hmem)
  have hoff := sound_offDays (K := K) (closing - previous.day - 1).toNat
    (t := ⟨[], (seedFor e.snapshot).map Seed.run⟩) hseed
  have hday : closing = previous.day + ((closing - previous.day - 1).toNat : ℤ) + 1 := by omega
  have hlast := TrackerResult.sound_move
    (m := (⟨closing, e.long.avg - previous.long⟩ : Move K)) hoff hday false
  rw [← hday] at hlast
  rw [runTracker, closingMoves, List.foldl_append] at htracked
  exact (hlast run htracked).record

/-! ## The close of a day -/

theorem EmotionState.Sound.close {closing today : ℤ} (h : e.Sound (some closing))
    (hlt : closing < today) : (e.close closing).Sound (some today) := by
  have hentry : ∀ d ∈ e.lastEntryDay, ∃ a ∈ some today, d ≤ a := by
    intro d hd
    obtain ⟨a, ha, hle⟩ := h.lastEntryDay d hd
    obtain rfl := Option.some.inj ha
    exact ⟨today, rfl, by omega⟩
  have hbefore : ∀ d ∈ e.snapshot, d.day < closing := by
    intro d hd
    obtain ⟨a, ha, hlt⟩ := h.closed d hd
    obtain rfl := Option.some.inj ha
    exact hlt
  unfold EmotionState.close
  split_ifs with hweight
  · refine { h with lastEntryDay := hentry, closed := ?_ }
    intro d hd
    have hday := hbefore d hd
    exact ⟨today, rfl, by omega⟩
  · have hrun := h.runAt
    generalize hnew : (⟨closing, e.short.avg, e.long.avg, e.lastEntryDay = some closing,
      e.runAt closing⟩ : SnapshotDay K) = new
    have hclosing : new.day = closing := by rw [← hnew]
    have hkept : closing - new.day < longHalfLifeDays := by
      rw [hclosing, longHalfLifeDays]
      omega
    have hmem : ∀ d ∈ (e.snapshot ++ [new]).filter fun d => closing - d.day < longHalfLifeDays,
        (d ∈ e.snapshot ∨ d = new) ∧ closing - d.day < longHalfLifeDays := by
      intro d hd
      obtain ⟨hd, hwindow⟩ := List.mem_filter.mp hd
      rw [List.mem_append, List.mem_singleton] at hd
      exact ⟨hd, of_decide_eq_true hwindow⟩
    refine ⟨h.short, h.long, hentry, ?_, ?_, ?_, ?_⟩
    · intro d hd
      rcases (hmem d hd).1 with hd | rfl
      · exact h.days d hd
      · rw [← hnew]
        exact ⟨⟨h.short.nonneg, h.short.le_cap⟩, ⟨h.long.nonneg, h.long.le_cap⟩, hrun⟩
    · refine List.Pairwise.filter _ (List.pairwise_append.mpr ⟨h.increasing, ?_, ?_⟩)
      · exact List.pairwise_singleton _ _
      · intro d hd d' hd'
        obtain rfl := List.mem_singleton.mp hd'
        rw [hclosing]
        exact hbefore d hd
    · -- The last day is the one that closes, which the window keeps.
      intro last hlast d hd
      replace hlast : last ∈ ((e.snapshot ++ [new]).filter fun d =>
        closing - d.day < longHalfLifeDays).getLast? := hlast
      rw [List.filter_append, List.filter_singleton, decide_eq_true hkept, cond_true,
        List.getLast?_concat] at hlast
      obtain rfl := Option.some.inj hlast
      rw [hclosing]
      exact (hmem d hd).2
    · intro d hd
      refine ⟨today, rfl, ?_⟩
      rcases (hmem d hd).1 with hd | rfl
      · have hday := hbefore d hd
        omega
      · omega

variable [IsStrictOrderedRing K] {S : Setting K} {s : EngineState K}

theorem EngineState.Sound.foldZeros {closing : ℤ} (h : s.Sound) (ha : s.activeDay = some closing) :
    (s.foldZeros S closing).Sound ∧ (s.foldZeros S closing).activeDay = some closing :=
  foldl_keeps (P := fun s : EngineState K => s.Sound ∧ s.activeDay = some closing)
    (fun _ name hs => ⟨hs.1.fold hs.2 name 0 0 1 (Or.inl rfl),
      (activeDay_fold name 0 0 1 true).trans hs.2⟩) _ ⟨h, ha⟩

/-- The close of the days before `t` keeps a state sound. -/
theorem EngineState.Sound.closeDays (h : s.Sound) (t : Instant) : (s.closeDays S t).Sound := by
  unfold EngineState.closeDays
  cases ha : s.activeDay with
  | none =>
    refine ⟨?_, fun _ => rfl⟩
    intro name e he
    have hsound := h.emotions name e he
    rw [ha] at hsound
    refine { hsound with lastEntryDay := ?_, closed := ?_ }
    · intro d hd
      obtain ⟨a, ha, -⟩ := hsound.lastEntryDay d hd
      exact nomatch ha
    · intro d hd
      obtain ⟨a, ha, -⟩ := hsound.closed d hd
      exact nomatch ha
  | some closing =>
    simp only
    split_ifs with hle
    · exact h
    · obtain ⟨hzeros, hopen⟩ := h.foldZeros (S := S) ha
      refine ⟨?_, fun _ => rfl⟩
      intro name e he
      rw [Dict.get?_map] at he
      obtain ⟨e₀, he₀, rfl⟩ := Option.map_eq_some_iff.mp he
      have h₀ := hzeros.emotions name e₀ he₀
      rw [hopen] at h₀
      exact h₀.close (not_le.mp hle)

end

end Companion.Emotion

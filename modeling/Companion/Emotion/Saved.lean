import Companion.Emotion.Apply
import Companion.Emotion.StateFile
import Companion.Runs

/-!
# The states that are saved

Runs of `_run_apply` of `brain/emotion/engine.py` over the state file: drains and direct applies at
any times, with any queue and any events, of which any first writes land. No step loads a backup.

`saved_states_load` says that each state that is passed to `save_state` is sound, is accepted and
read back as it was, and is not before any state that was saved.
-/

namespace Companion.Emotion

open Companion.Memory Companion.Runs

/-- The state file, and the states that were saved to it, oldest first. -/
structure Disk where
  file : Option Value
  saved : List (EngineState ℚ)

/-- A drain or a direct apply: when it is, the queue that it finds, and how many writes land. -/
structure Applying where
  job : Job ℚ
  now : Instant
  queue : Text
  landed : ℕ

/-- The state that a step starts from, or none where the main file is refused. -/
def Disk.load? (m : Disk) : Option (EngineState ℚ) :=
  match m.file with
  | none => some .empty
  | some v =>
    match validateState v with
    | .ok () => stateFromJson v
    | .error _ => none

/-- The writes of a step. -/
def Disk.writes? (S : Setting ℚ) (m : Disk) (a : Applying) : Option (List (Write ℚ)) :=
  m.load?.map fun s => (Ready.main s a.now).apply S a.job a.queue

/-- A write lands. -/
def Disk.perform (m : Disk) : Write ℚ → Disk
  | .saveState s _ =>
    match stateToJson s with
    | some v => ⟨some v, m.saved ++ [s]⟩
    | none => m
  | .emptyQueue => m

/-- Steps of `_run_apply`, from no file. -/
def saving (S : Setting ℚ) : Machine Disk Applying where
  init m := m = ⟨none, []⟩
  step m a := (m.writes? S a).map fun writes => (writes.take a.landed).foldl Disk.perform m

/-- Neither the time of a state's save nor its open day is after those of another. -/
def EngineState.NotAfter {K : Type*} (s s' : EngineState K) : Prop :=
  (∃ t ∈ s.savedAt, ∃ t' ∈ s'.savedAt, t ≤ t') ∧ ∃ a ∈ s.activeDay, ∃ a' ∈ s'.activeDay, a ≤ a'

/-- A state with a time of its save, and an open day. -/
def EngineState.Stamped {K : Type*} (s : EngineState K) : Prop :=
  s.savedAt.isSome ∧ s.activeDay.isSome

section Step

variable {K : Type*} [Field K] [LinearOrder K]

omit [Field K] [LinearOrder K] in
theorem EngineState.Stamped.notAfter_self {s : EngineState K} (h : s.Stamped) : s.NotAfter s := by
  obtain ⟨t, ht⟩ := Option.isSome_iff_exists.mp h.1
  obtain ⟨a, ha⟩ := Option.isSome_iff_exists.mp h.2
  exact ⟨⟨t, ht, t, ht, le_refl t⟩, a, ha, a, ha, le_refl a⟩

omit [Field K] [LinearOrder K] in
theorem EngineState.NotAfter.trans {s₁ s₂ s₃ : EngineState K} (h₁₂ : s₁.NotAfter s₂)
    (h₂₃ : s₂.NotAfter s₃) : s₁.NotAfter s₃ := by
  obtain ⟨⟨t₁, ht₁, t₂, ht₂, htle⟩, a₁, ha₁, a₂, ha₂, hale⟩ := h₁₂
  obtain ⟨⟨t₂', ht₂', t₃, ht₃, htle'⟩, a₂', ha₂', a₃, ha₃, hale'⟩ := h₂₃
  obtain rfl := Option.some.inj (ht₂.symm.trans ht₂')
  obtain rfl := Option.some.inj (ha₂.symm.trans ha₂')
  exact ⟨⟨t₁, ht₁, t₃, ht₃, htle.trans htle'⟩, a₁, ha₁, a₃, ha₃, hale.trans hale'⟩

variable [IsStrictOrderedRing K] {S : Setting K}

/-- The folds of a step keep a state sound, and open no earlier day. -/
theorem EngineState.Sound.folded {s s' : EngineState K} (h : s.Sound) {now : Instant} {job : Job K}
    {queue : Text} {kept : List (Item K)}
    (hfolded : (Ready.main s now).folded S ((Ready.main s now).intake S job queue).items =
      (s', kept)) :
    s'.Sound ∧ ∃ a ∈ s'.activeDay, ∀ a₀ ∈ s.activeDay, a₀ ≤ a := by
  have hitems : ∀ i ∈ ((Ready.main s now).intake S job queue).items, 0 ≤ i.event.modifier := by
    intro i hi
    obtain ⟨e, he⟩ := check_of_mem_intake (r := Ready.main s now) nofun hi
    exact modifier_check he
  have hevents := foldEvents_keeps (S := S) (Ready.main s now).now
    (P := fun s' => s'.Sound ∧ ∀ a₀ ∈ s.activeDay, ∃ a ∈ s'.activeDay, a₀ ≤ a)
    (fun s₁ t h₁ => by
      obtain ⟨a, ha, -, hle⟩ := activeDay_closeDays (S := S) s₁ t
      refine ⟨h₁.1.closeDays t, fun a₀ ha₀ => ⟨a, ha, ?_⟩⟩
      obtain ⟨a₁, ha₁, hle₁⟩ := h₁.2 a₀ ha₀
      exact hle₁.trans (hle a₁ ha₁))
    (fun s₁ e h₁ hmodifier => by
      obtain ⟨a, ha, hday, -⟩ := activeDay_closeDays (S := S) s₁
        (min e.time (Ready.main s now).now)
      obtain ⟨hsound, hopen⟩ := (keeps_sound hday).foldEvent hmodifier ⟨h₁.1, ha⟩
      refine ⟨hsound, fun a₀ ha₀ => ⟨a, hopen, ?_⟩⟩
      obtain ⟨a₁, ha₁, hle₁⟩ := h₁.2 a₀ ha₀
      obtain rfl := Option.some.inj (ha.symm.trans ha₁)
      exact hle₁)
    hitems [] ⟨h, fun a₀ ha₀ => ⟨a₀, ha₀, le_refl a₀⟩⟩
  obtain ⟨a, ha, -, hle⟩ := activeDay_closeDays (S := S)
    (s.foldEvents S ((Ready.main s now).intake S job queue).items (Ready.main s now).now []).1
    (Ready.main s now).now
  have hclosed := hevents.1.closeDays (S := S) (Ready.main s now).now
  obtain rfl := congrArg Prod.fst hfolded
  refine ⟨⟨hclosed.emotions, hclosed.opened⟩, a, ha, fun a₀ ha₀ => ?_⟩
  obtain ⟨a₁, ha₁, hle₁⟩ := hevents.2 a₀ ha₀
  exact hle₁.trans (hle a₁ ha₁)

/-- The states that a step passes to `save_state`. -/
def passed (writes : List (Write K)) : List (EngineState K) :=
  writes.filterMap fun
    | .saveState s _ => some s
    | .emptyQueue => none

omit [Field K] [LinearOrder K] [IsStrictOrderedRing K] in
theorem passed_emptyAndRemember (s : EngineState K) (endLine : Option ℕ) :
    passed (emptyAndRemember s endLine) =
      if endLine.any (0 < ·) then [{ s with queueLine := 0 }] else [] := by
  unfold emptyAndRemember
  split_ifs <;> rfl

/-- What a step passes to `save_state` is one sound state, with one position or another. It is not
before what the step has loaded. -/
theorem passed_cases {s : EngineState K} (h : s.Sound) (hs : s = .empty ∨ s.Stamped)
    (job : Job K) (now : Instant) (queue : Text) :
    passed ((Ready.main s now).apply S job queue) = [] ∨
      ∃ base : EngineState K, base.Sound ∧ base.Stamped ∧ (s.Stamped → s.NotAfter base) ∧
        ∀ s' ∈ passed ((Ready.main s now).apply S job queue),
          ∃ line, s' = { base with queueLine := line } := by
  obtain ⟨s₁, kept, hfolded, ⟨-, hwrites⟩ | ⟨hunsaved, hwrites⟩⟩ :=
    apply_cases (S := S) (Ready.main s now) job queue
  · -- The state is stamped with the time of the step.
    obtain ⟨hsound, a, ha, hle⟩ := h.folded hfolded
    have hnot : s.Stamped → s.NotAfter
        ((Ready.main s now).stamped ((Ready.main s now).intake S job queue).endLine s₁) := by
      intro hs
      obtain ⟨t, ht⟩ := Option.isSome_iff_exists.mp hs.1
      obtain ⟨a₀, ha₀⟩ := Option.isSome_iff_exists.mp hs.2
      have hnow : t ≤ (Ready.main s now).now := by
        show t ≤ s.savedAt.elim now (max now)
        rw [ht]
        exact le_max_right now t
      exact ⟨⟨t, ht, _, rfl, hnow⟩, a₀, ha₀, a, ha, hle a₀ ha₀⟩
    refine Or.inr ⟨(Ready.main s now).stamped ((Ready.main s now).intake S job queue).endLine s₁,
      ⟨hsound.emotions, hsound.opened⟩, ⟨rfl, Option.isSome_of_eq_some ha⟩, hnot, ?_⟩
    intro s' hs'
    have hpassed : passed ((Ready.main s now).apply S job queue) =
        (Ready.main s now).stamped ((Ready.main s now).intake S job queue).endLine s₁ ::
          passed (emptyAndRemember
            ((Ready.main s now).stamped ((Ready.main s now).intake S job queue).endLine s₁)
            ((Ready.main s now).intake S job queue).endLine) := by
      rw [hwrites]
      rfl
    rw [hpassed, passed_emptyAndRemember] at hs'
    rcases List.mem_cons.mp hs' with rfl | hs'
    · exact ⟨_, rfl⟩
    · split_ifs at hs'
      · exact ⟨0, List.mem_singleton.mp hs'⟩
      · exact nomatch hs'
  · -- The state has the time of the save that was loaded, if it is saved at all.
    rw [hwrites, passed_emptyAndRemember]
    cases job with
    | direct events => exact Or.inl rfl
    | drain =>
      by_cases hlines : 0 < (completeLines queue).length
      · right
        obtain ⟨hheader, -⟩ := folded_main hfolded
        have hline := queueLine_of_unsaved (congrArg (fun h => h.2.2) hheader) hunsaved
        have hloaded : s.Stamped := by
          rcases hs with rfl | hs
          · exact absurd hline (Nat.ne_of_lt hlines)
          · exact hs
        obtain ⟨hsound, a, ha, hle⟩ := h.folded hfolded
        obtain ⟨t, ht⟩ := Option.isSome_iff_exists.mp hloaded.1
        obtain ⟨a₀, ha₀⟩ := Option.isSome_iff_exists.mp hloaded.2
        have hsaved : s₁.savedAt = some t := (congrArg Prod.fst hheader).trans ht
        refine ⟨s₁, hsound, ⟨Option.isSome_of_eq_some hsaved, Option.isSome_of_eq_some ha⟩,
          fun _ => ⟨⟨t, ht, t, hsaved, le_refl t⟩, a₀, ha₀, a, ha, hle a₀ ha₀⟩, ?_⟩
        intro s' hs'
        split_ifs at hs'
        · exact ⟨0, List.mem_singleton.mp hs'⟩
        · exact nomatch hs'
      · exact Or.inl (if_neg (by simpa [Ready.intake, Setting.readQueue, Ready.main] using hlines))

end Step

/-! ## Runs -/

/-- What is known of the disk: the states that were saved are in order, and the file has the last.
-/
structure Disk.Inv (m : Disk) : Prop where
  sorted : m.saved.Pairwise EngineState.NotAfter
  file : m.file = none ∧ m.saved = [] ∨
    ∃ s : EngineState ℚ, m.file = stateToJson s ∧ s.Sound ∧ s.Stamped ∧
      ∀ s₀ ∈ m.saved, s₀.NotAfter s

variable {S : Setting ℚ} {m : Disk}

theorem EngineState.Sound.empty {K : Type*} [Field K] [LinearOrder K] :
    (EngineState.empty : EngineState K).Sound :=
  ⟨nofun, nofun⟩

theorem EngineState.Stamped.exists_stateToJson {s : EngineState ℚ} (h : s.Stamped) :
    ∃ v, stateToJson s = some v := by
  obtain ⟨t, ht⟩ := Option.isSome_iff_exists.mp h.1
  rw [stateToJson, ht]
  exact ⟨_, rfl⟩

/-- The state that was saved last is the one that is loaded. -/
theorem Disk.Inv.load (h : m.Inv) :
    ∃ s, m.load? = some s ∧ s.Sound ∧
      (s = .empty ∧ m.saved = [] ∨ s.Stamped ∧ ∀ s₀ ∈ m.saved, s₀.NotAfter s) := by
  rcases h.file with ⟨hfile, hsaved⟩ | ⟨s, hfile, hsound, hstamped, hlast⟩
  · refine ⟨.empty, ?_, .empty, Or.inl ⟨rfl, hsaved⟩⟩
    rw [Disk.load?, hfile]
  · refine ⟨s, ?_, hsound, Or.inr ⟨hstamped, hlast⟩⟩
    obtain ⟨v, hv⟩ := hstamped.exists_stateToJson
    rw [Disk.load?, hfile, hv]
    simp only [validateState_stateToJson hsound hv]
    exact stateFromJson_stateToJson hsound hv

/-- A state that may follow those that were saved. -/
theorem Disk.Inv.save (h : m.Inv) {s : EngineState ℚ} (hsound : s.Sound) (hstamped : s.Stamped)
    (hlast : ∀ s₀ ∈ m.saved, s₀.NotAfter s) (folded : List (Item ℚ)) :
    (m.perform (.saveState s folded)).Inv ∧
      ∀ s₀ ∈ (m.perform (.saveState s folded)).saved, s₀ ∈ m.saved ∨ s₀ = s := by
  obtain ⟨v, hv⟩ := hstamped.exists_stateToJson
  have hperform : m.perform (.saveState s folded) = ⟨some v, m.saved ++ [s]⟩ := by
    simp only [Disk.perform, hv]
  have hmem : ∀ s₀ ∈ m.saved ++ [s], s₀ ∈ m.saved ∨ s₀ = s := by
    intro s₀ hs₀
    rwa [List.mem_append, List.mem_singleton] at hs₀
  rw [hperform]
  refine ⟨⟨List.pairwise_append.mpr ⟨h.sorted, List.pairwise_singleton _ _, ?_⟩,
    Or.inr ⟨s, hv.symm, hsound, hstamped, ?_⟩⟩, hmem⟩
  · intro s₀ hs₀ s' hs'
    obtain rfl := List.mem_singleton.mp hs'
    exact hlast s₀ hs₀
  · intro s₀ hs₀
    rcases hmem s₀ hs₀ with hs₀ | rfl
    · exact hlast s₀ hs₀
    · exact hstamped.notAfter_self

/-- What a step passes to `save_state`, from a disk of which the invariant holds. -/
theorem Disk.Inv.writes (h : m.Inv) (a : Applying) :
    ∃ writes, m.writes? S a = some writes ∧
      (∀ s ∈ passed writes, s.Sound ∧ s.Stamped ∧ ∀ s₀ ∈ m.saved, s₀.NotAfter s) ∧
      ∀ s ∈ passed writes, ∀ s' ∈ passed writes, s.NotAfter s' := by
  obtain ⟨s, hload, hsound, hcase⟩ := h.load
  refine ⟨_, congrArg (Option.map _) hload, ?_⟩
  have hs : s = .empty ∨ s.Stamped := hcase.imp And.left And.left
  rcases passed_cases (S := S) hsound hs a.job a.now a.queue with
    hnone | ⟨base, hbase, hstamped, hnot, hpassed⟩
  · rw [hnone]
    exact ⟨nofun, nofun⟩
  · constructor
    · intro s' hs'
      obtain ⟨line, rfl⟩ := hpassed s' hs'
      refine ⟨⟨hbase.emotions, hbase.opened⟩, hstamped, fun s₀ hs₀ => ?_⟩
      rcases hcase with ⟨-, hsaved⟩ | ⟨hloaded, hlast⟩
      · rw [hsaved] at hs₀
        exact nomatch hs₀
      · exact (hlast s₀ hs₀).trans (hnot hloaded)
    · intro s₁ hs₁ s₂ hs₂
      obtain ⟨line₁, rfl⟩ := hpassed s₁ hs₁
      obtain ⟨line₂, rfl⟩ := hpassed s₂ hs₂
      exact hstamped.notAfter_self

theorem Disk.Inv.step (h : m.Inv) {a : Applying} {m' : Disk}
    (hstep : (saving S).step m a = some m') : m'.Inv := by
  obtain ⟨writes, hwrites, hpassed, hpairs⟩ := h.writes (S := S) a
  have hperform : (writes.take a.landed).foldl Disk.perform m = m' := by
    have hmap : (m.writes? S a).map _ = some m' := hstep
    rw [hwrites] at hmap
    exact Option.some.inj hmap
  have hland : ∀ (ws : List (Write ℚ)) (m₁ : Disk), (∀ w ∈ ws, w ∈ writes) → m₁.Inv →
      (∀ s₀ ∈ m₁.saved, ∀ s ∈ passed writes, s₀.NotAfter s) → (ws.foldl Disk.perform m₁).Inv := by
    intro ws
    induction ws with
    | nil => exact fun _ _ h₁ _ => h₁
    | cons w ws ih =>
      intro m₁ hws h₁ hlast
      obtain ⟨hw, hrest⟩ := List.forall_mem_cons.mp hws
      cases w with
      | emptyQueue => exact ih m₁ hrest h₁ hlast
      | saveState s folded =>
        have hs : s ∈ passed writes := List.mem_filterMap.mpr ⟨_, hw, rfl⟩
        obtain ⟨hsound, hstamped, -⟩ := hpassed s hs
        obtain ⟨hinv, hmem⟩ := h₁.save hsound hstamped (fun s₀ hs₀ => hlast s₀ hs₀ s hs) folded
        refine ih _ hrest hinv fun s₀ hs₀ s' hs' => ?_
        rcases hmem s₀ hs₀ with hs₀ | rfl
        · exact hlast s₀ hs₀ s' hs'
        · exact hpairs s₀ hs s' hs'
  rw [← hperform]
  exact hland _ m (fun w hw => List.mem_of_mem_take hw) h
    fun s₀ hs₀ s hs => (hpassed s hs).2.2 s₀ hs₀

/-- **What is saved loads back.** In any run from no file the times of the saves and the open days
do not go back, and whatever step comes next, the state file is loaded. Each state that the step
passes to `save_state` is sound and not before any that was saved; what is written of it is
accepted, and read back as it was. -/
theorem saved_states_load (S : Setting ℚ) {m : Disk} (h : (saving S).Reachable m) :
    m.saved.Pairwise EngineState.NotAfter ∧
      ∀ a, ∃ writes, m.writes? S a = some writes ∧
        ∀ s ∈ passed writes, s.Sound ∧ (∀ s₀ ∈ m.saved, s₀.NotAfter s) ∧
          ∃ v, stateToJson s = some v ∧ validateState v = .ok () ∧ stateFromJson v = some s := by
  have hinv : m.Inv := by
    refine h.invariant ?_ fun m a m' hm _ hstep => hm.step hstep
    rintro m rfl
    exact ⟨List.Pairwise.nil, Or.inl ⟨rfl, rfl⟩⟩
  refine ⟨hinv.sorted, fun a => ?_⟩
  obtain ⟨writes, hwrites, hpassed, -⟩ := hinv.writes (S := S) a
  refine ⟨writes, hwrites, fun s hs => ?_⟩
  obtain ⟨hsound, hstamped, hlast⟩ := hpassed s hs
  obtain ⟨v, hv⟩ := hstamped.exists_stateToJson
  exact ⟨hsound, hlast, v, hv, validateState_stateToJson hsound hv,
    stateFromJson_stateToJson hsound hv⟩

/-! ## A run -/

/-- A memory of the start of 2026 with one emotion, at its climax. -/
def sampleCommit : Event ℚ :=
  ⟨.commit, 1767225600000000, some "m".toList, Dict.empty.set "joy".toList 5, 1, 8⟩

/-- The memory is applied, and the days close after one day, and after five with the clock set back
in between. -/
def sampleApplying : List Applying :=
  [⟨.direct [sampleCommit], 1767225600000000, [], 1⟩, ⟨.drain, 1767312000000000, [], 1⟩,
    ⟨.drain, 1767225600000000, [], 1⟩, ⟨.direct [], 1767657600000000, [], 1⟩]

theorem saved_states_load_days :
    ∃ m : Disk, m.saved.length = 3 ∧
      (m.saved.Pairwise EngineState.NotAfter ∧
        ∀ a, ∃ writes, m.writes? (.utc fun _ => none) a = some writes ∧
          ∀ s ∈ passed writes, s.Sound ∧ (∀ s₀ ∈ m.saved, s₀.NotAfter s) ∧
            ∃ v, stateToJson s = some v ∧ validateState v = .ok () ∧ stateFromJson v = some s) := by
  obtain ⟨m, hreach, hm⟩ := Machine.exists_reach_of_runWithin
    (M := saving (.utc fun _ => none)) (D := fun _ _ => True) (fun _ _ _ => trivial) rfl
    sampleApplying (fun m => m.saved.length = 3) (by decide +kernel)
  exact ⟨m, of_decide_eq_true hm, saved_states_load (.utc fun _ => none) hreach⟩

end Companion.Emotion

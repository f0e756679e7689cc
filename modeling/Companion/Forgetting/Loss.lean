import Companion.Forgetting.Pass

/-!
# What a pass deletes

When a pass is to delete a memory, the row as the pass read it is fading, is in neither exemption
set as the pass loaded them, was scored below the threshold, and has its graveyard entry; and the
last `LOST_PASS_COUNT` evaluations of the memory were below the threshold, unless a pass stopped
between an evaluation at or above it and the write of its counter (`deletes_only_lost`).

The counters carry the last part. A counter that is on disk, or held by the pass, never exceeds the
run of low evaluations that it counts, except for the memory that the pass is at.

The exemption sets are loaded once, so a memory that is crystallised during the pass is deleted
(`deletes_crystallised`).
-/

namespace Companion.Forgetting

open Companion.Memory
open Companion.Runs

/-- The last `n` evaluations, at least, were below the threshold. -/
def LowFor (n : ℕ) (evaluations : List ℚ) : Prop :=
  n ≤ evaluations.length ∧ ∀ x ∈ evaluations.take n, x < lostThreshold

theorem LowFor.zero (l : List ℚ) : LowFor 0 l := ⟨Nat.zero_le _, by simp⟩

/-- A further low evaluation lengthens the run. -/
theorem LowFor.succ {n : ℕ} {l : List ℚ} {x : ℚ} (h : LowFor n l) (hx : x < lostThreshold) :
    LowFor (n + 1) (x :: l) := by
  refine ⟨by simpa using h.1, ?_⟩
  rw [List.take_succ_cons]
  intro y hy
  rcases List.mem_cons.mp hy with rfl | hy
  · exact hx
  · exact h.2 y hy

theorem LowFor.mono {m n : ℕ} {l : List ℚ} (h : LowFor n l) (hmn : m ≤ n) : LowFor m l := by
  refine ⟨hmn.trans h.1, fun x hx => h.2 x ?_⟩
  exact (List.take_sublist_take_left hmn).subset hx

/-- A run of low evaluations is one still after a further low evaluation. -/
theorem LowFor.cons {n : ℕ} {l : List ℚ} {x : ℚ} (h : LowFor n l) (hx : x < lostThreshold) :
    LowFor n (x :: l) :=
  (h.succ hx).mono (Nat.le_succ n)

namespace Point

/-- The memory that a pass is at, before its counter is set in the pass. -/
def unset? : Point → Option Item
  | .fade it | .fadeWrite it | .unfade it | .unfadeWrite it | .bury it | .delete it
  | .deleteWrite it => some it
  | _ => none

/-- The memory that a pass is losing. -/
def loses? : Point → Option Item
  | .bury it | .delete it | .deleteWrite it => some it
  | _ => none

/-- The memory that a pass is losing, once its graveyard entry is written. -/
def deletes? : Point → Option Item
  | .delete it | .deleteWrite it => some it
  | _ => none

end Point

section Invariant

variable {Ctx : Type*} (score : Ctx → Bool → Row → ℚ)

/-- The pass had grounds to lose the memory. -/
structure Lost (p : Pass) (it : Item) : Prop where
  state : it.memory.state = .fading
  salience : it.salience < lostThreshold
  low : lostPassCount ≤ it.nextLow
  crystallised : it.id ∉ p.crystallised
  underReview : it.id ∉ p.underReview
  scored : ∃ ctx, it.salience = score ctx false it.memory

/-- The counters count low evaluations, except for the memory that the pass is at and one that a
stopped pass left unrecorded. -/
structure Inv (s : State) : Prop where
  /-- The counters on disk. -/
  filed : ∀ id n, s.unrecorded id = false →
    (∀ p it, s.pass = some p → p.point.item? = some it → it.id = id →
      it.salience < lostThreshold) →
    s.counters.get? id = some n → LowFor n (s.evaluations id)
  /-- The counters of the pass. -/
  held : ∀ p, s.pass = some p → ∀ id n, s.unrecorded id = false →
    (∀ it, p.point.unset? = some it → it.id = id → it.salience < lostThreshold) →
    p.counters.get? id = some n → LowFor n (s.evaluations id)
  item : ∀ p it, s.pass = some p → p.point.item? = some it → s.unrecorded it.id = false →
    LowFor it.nextLow (s.evaluations it.id)
  lost : ∀ p it, s.pass = some p → p.point.loses? = some it → Lost score p it
  buried : ∀ p it, s.pass = some p → p.point.deletes? = some it →
    ∃ e ∈ s.graveyard, e.memoryId = it.id ∧ e.summary = it.memory.content

variable {score} {s : State} {p : Pass}

/-- The pass stops: a memory that it had evaluated at or above the threshold is unrecorded. -/
theorem Inv.stop (h : Inv score s) (hp : s.pass = some p) : Inv score (s.stop p) := by
  refine ⟨?_, ?_, ?_, ?_, ?_⟩
  · intro id n hrec _ hn
    have key : s.unrecorded id = false ∧
        ∀ it, p.point.item? = some it → it.id = id → it.salience < lostThreshold := by
      unfold State.stop at hrec
      dsimp only at hrec
      cases hit : p.point.item? with
      | none =>
        rw [hit] at hrec
        exact ⟨hrec, fun it h => by cases h⟩
      | some it =>
        rw [hit] at hrec
        dsimp only at hrec
        split_ifs at hrec with hle
        · have hne : id ≠ it.id := by
            rintro rfl
            simp at hrec
          rw [Function.update_of_ne hne] at hrec
          refine ⟨hrec, ?_⟩
          rintro _ ⟨⟩ rfl
          exact absurd rfl hne
        · refine ⟨hrec, ?_⟩
          rintro _ ⟨⟩ -
          exact not_le.mp hle
    refine h.filed id n key.1 ?_ hn
    intro p' it hp' hit hid
    obtain rfl : p = p' := Option.some.inj (hp.symm.trans hp')
    exact key.2 it hit hid
  all_goals simp [State.stop]

/-- What holds of the counters while the pass is at `it`, before its counter is set. -/
structure Evaluated (s : State) (p : Pass) (it : Item) : Prop where
  filed : ∀ id n, s.unrecorded id = false → (it.id = id → it.salience < lostThreshold) →
    s.counters.get? id = some n → LowFor n (s.evaluations id)
  held : ∀ id n, s.unrecorded id = false → (it.id = id → it.salience < lostThreshold) →
    p.counters.get? id = some n → LowFor n (s.evaluations id)
  item : s.unrecorded it.id = false → LowFor it.nextLow (s.evaluations it.id)

/-- A memory whose counter is not set has been evaluated. -/
theorem Point.item?_of_unset? {point : Point} {it : Item} (h : point.unset? = some it) :
    point.item? = some it := by
  cases point <;> first | exact h | cases h

theorem Inv.evaluated (h : Inv score s) (hp : s.pass = some p) {it : Item}
    (hit : p.point.unset? = some it) : Evaluated s p it := by
  have hitem := Point.item?_of_unset? hit
  refine ⟨?_, ?_, h.item p it hp hitem⟩
  · intro id n hrec hlow
    refine h.filed id n hrec ?_
    intro p' it' hp' hit' hid
    obtain rfl : p = p' := Option.some.inj (hp.symm.trans hp')
    obtain rfl : it = it' := Option.some.inj (hitem.symm.trans hit')
    exact hlow hid
  · intro id n hrec hlow
    refine h.held p hp id n hrec ?_
    intro it' hit' hid
    obtain rfl : it = it' := Option.some.inj (hit.symm.trans hit')
    exact hlow hid

/-- The counter of a memory may be set to zero. -/
theorem Evaluated.reset {it : Item} (h : Evaluated s p it) :
    Evaluated s p { it with nextLow := 0 } :=
  ⟨h.filed, h.held, fun _ => .zero _⟩

/-- The pass sets the counter of the memory that it is at. -/
theorem Evaluated.toSave {it : Item} (h : Evaluated s p it) : Inv score (s.toSave p it) := by
  have hset : ∀ id n, s.unrecorded id = false →
      (if 0 < it.nextLow then p.counters.set it.id it.nextLow
        else p.counters.pop it.id).get? id = some n → LowFor n (s.evaluations id) := by
    intro id n hrec hn
    by_cases hid : id = it.id
    · subst hid
      split_ifs at hn
      · rw [Dict.get?_set, if_pos rfl] at hn
        rw [← Option.some.inj hn]
        exact h.item hrec
      · rw [Dict.get?_pop, if_pos rfl] at hn
        cases hn
    · refine h.held id n hrec (fun heq => absurd heq.symm hid) ?_
      split_ifs at hn
      · rwa [Dict.get?_set, if_neg hid] at hn
      · rwa [Dict.get?_pop, if_neg hid] at hn
  refine ⟨?_, ?_, ?_, ?_, ?_⟩
  · intro id n hrec hlow hn
    exact h.filed id n hrec (hlow _ it rfl rfl) hn
  · rintro _ ⟨⟩ id n hrec - hn
    exact hset id n hrec hn
  · rintro _ _ ⟨⟩ ⟨⟩ hrec
    exact h.item hrec
  · rintro _ _ ⟨⟩ ⟨⟩
  · rintro _ _ ⟨⟩ ⟨⟩

/-- The pass goes on with the memory that it is at. -/
theorem Evaluated.setPoint {it : Item} (h : Evaluated s p it) {point : Point}
    (hpoint : point.unset? = some it) (hlost : ∀ it, point.loses? = some it → Lost score p it)
    (hburied : ∀ it, point.deletes? = some it →
      ∃ e ∈ s.graveyard, e.memoryId = it.id ∧ e.summary = it.memory.content) :
    Inv score (s.setPoint p point) := by
  have hitem := Point.item?_of_unset? hpoint
  refine ⟨?_, ?_, ?_, ?_, ?_⟩
  · intro id n hrec hlow hn
    exact h.filed id n hrec (hlow _ it rfl hitem) hn
  · rintro _ ⟨⟩ id n hrec hlow hn
    exact h.held id n hrec (hlow it hpoint) hn
  · rintro _ it' ⟨⟩ hit' hrec
    obtain rfl : it = it' := Option.some.inj (hitem.symm.trans hit')
    exact h.item hrec
  · rintro _ it' ⟨⟩ hit'
    obtain ⟨h1, h2, h3, h4, h5, h6⟩ := hlost it' hit'
    exact ⟨h1, h2, h3, h4, h5, h6⟩
  · rintro _ it' ⟨⟩ hit'
    exact hburied it' hit'

/-- The pass moves between points at which it is at no memory. -/
theorem Inv.setPoint (h : Inv score s) (hp : s.pass = some p) {p' : Pass} {point : Point}
    (hcounters : p'.counters = p.counters) (hfrom : p.point.item? = none)
    (hunset : p.point.unset? = none) (hto : point = .underReview ∨ point = .mergeTargets ∨
      point = .rows ∨ point = .next ∨ point = .clear ∨ point = .finish) :
    Inv score (s.setPoint p' point) := by
  have hnone : point.item? = none ∧ point.loses? = none ∧ point.deletes? = none := by
    rcases hto with rfl | rfl | rfl | rfl | rfl | rfl <;> exact ⟨rfl, rfl, rfl⟩
  obtain ⟨hitem, hloses, hdeletes⟩ := hnone
  refine ⟨?_, ?_, ?_, ?_, ?_⟩
  · intro id n hrec _ hn
    refine h.filed id n hrec ?_ hn
    intro p'' it hp'' hit
    obtain rfl : p = p'' := Option.some.inj (hp.symm.trans hp'')
    rw [hfrom] at hit
    cases hit
  · rintro _ ⟨⟩ id n hrec _ hn
    refine h.held p hp id n hrec (by simp [hunset]) ?_
    rwa [← hcounters]
  · rintro _ it ⟨⟩ hit
    exact absurd (hitem.symm.trans hit) (by simp)
  · rintro _ it ⟨⟩ hit
    exact absurd (hloses.symm.trans hit) (by simp)
  · rintro _ it ⟨⟩ hit
    exact absurd (hdeletes.symm.trans hit) (by simp)

/-- Only the counters, the evaluations and the pass enter. -/
theorem Evaluated.congr {s' : State} {it : Item} (h : Evaluated s p it)
    (hcounters : s'.counters = s.counters) (hevaluations : s'.evaluations = s.evaluations)
    (hunrecorded : s'.unrecorded = s.unrecorded) : Evaluated s' p it := by
  obtain ⟨h1, h2, h3⟩ := h
  constructor
  · rwa [hcounters, hevaluations, hunrecorded]
  · rwa [hevaluations, hunrecorded]
  · rwa [hevaluations, hunrecorded]

/-- The cursor is saved, or the save fails: the write of the counters is next. -/
theorem Inv.persist (h : Inv score s) (hp : s.pass = some p) {it : Item}
    (hpoint : p.point = .save it) (cursor : Option MemoryId) :
    Inv score ({ s with cursor := cursor }.setPoint p (.persist it)) := by
  have hitem : p.point.item? = some it := by rw [hpoint]; rfl
  refine ⟨?_, ?_, ?_, ?_, ?_⟩
  · intro id n hrec hlow hn
    refine h.filed id n hrec ?_ hn
    intro p' it' hp' hit' hid
    obtain rfl : p = p' := Option.some.inj (hp.symm.trans hp')
    obtain rfl : it = it' := Option.some.inj (hitem.symm.trans hit')
    exact hlow _ it rfl rfl hid
  · rintro _ ⟨⟩ id n hrec - hn
    exact h.held p hp id n hrec (by simp [hpoint, Point.unset?]) hn
  · rintro _ _ ⟨⟩ ⟨⟩ hrec
    exact h.item p it hp hitem hrec
  all_goals rintro _ _ ⟨⟩ ⟨⟩

/-- A memory that is not exempt is evaluated. -/
theorem Inv.evaluate (h : Inv score s) (hp : s.pass = some p) (hpoint : p.point = .next)
    (p' : Pass) (hcounters : p'.counters = p.counters) (id : MemoryId) (memory : Row) (ctx : Ctx)
    (hcrystallised : id ∉ p'.crystallised) (hreview : id ∉ p'.underReview) :
    Inv score (s.evaluate score p' id memory ctx) := by
  unfold State.evaluate
  have hlinked : (p'.crystallised.contains id || p'.underReview.contains id) = false := by
    simp [hcrystallised, hreview]
  rw [hlinked]
  set salience := score ctx false memory with hsal
  set nextLow := if salience < lostThreshold then (p'.counters.get? id).getD 0 + 1 else 0 with hnext
  -- Between two memories no counter is ahead of the evaluations.
  have hfiled : ∀ i n, s.unrecorded i = false → s.counters.get? i = some n →
      LowFor n (s.evaluations i) := by
    intro i n hrec
    refine h.filed i n hrec ?_
    intro p'' it hp'' hit
    obtain rfl : p = p'' := Option.some.inj (hp.symm.trans hp'')
    rw [hpoint] at hit
    cases hit
  have hheld : ∀ i n, s.unrecorded i = false → p'.counters.get? i = some n →
      LowFor n (s.evaluations i) := by
    rw [hcounters]
    intro i n hrec
    exact h.held p hp i n hrec (by simp [hpoint, Point.unset?])
  -- One evaluation more keeps a count, if it is low or of another memory.
  have hcons : ∀ {i n}, LowFor n (s.evaluations i) → (id = i → salience < lostThreshold) →
      LowFor n (Function.update s.evaluations id (salience :: s.evaluations id) i) := by
    intro i n hlow hi
    by_cases hid : i = id
    · subst hid
      rw [Function.update_self]
      exact hlow.cons (hi rfl)
    · rwa [Function.update_of_ne hid]
  have hev : Evaluated { s with
      evaluations := Function.update s.evaluations id (salience :: s.evaluations id) } p'
      ⟨id, memory, salience, nextLow⟩ := by
    refine ⟨fun i n hrec hi hn => hcons (hfiled i n hrec hn) hi,
      fun i n hrec hi hn => hcons (hheld i n hrec hn) hi, fun hrec => ?_⟩
    show LowFor nextLow (Function.update s.evaluations id (salience :: s.evaluations id) id)
    rw [Function.update_self, hnext]
    split_ifs with hlow
    · refine LowFor.succ ?_ hlow
      cases hn : p'.counters.get? id with
      | none => exact .zero _
      | some n => exact hheld id n hrec hn
    · exact .zero _
  dsimp only
  cases ht : nextState memory salience nextLow p'.env.narrativeWeight with
  | none => exact hev.toSave
  | fade => exact hev.setPoint rfl (by rintro _ ⟨⟩) (by rintro _ ⟨⟩)
  | unfade => exact hev.setPoint rfl (by rintro _ ⟨⟩) (by rintro _ ⟨⟩)
  | lose =>
    -- Only this branch is to lose the memory, and the guards were checked before it.
    obtain ⟨hstate, hlow, hcount⟩ := nextState_eq_lose ht
    refine hev.setPoint rfl ?_ (by rintro _ ⟨⟩)
    rintro _ ⟨⟩
    exact ⟨hstate, hlow, hcount, hcrystallised, hreview, ctx, rfl⟩

/-- The next statement of a pass keeps the invariant. -/
theorem Inv.advance (h : Inv score s) (hp : s.pass = some p) (now : Instant) (ctx : Ctx)
    (pause : Bool) : Inv score (s.advance score p now ctx pause) := by
  have hcurrent : ∀ {it}, p.point.unset? = some it → Evaluated s p it := h.evaluated hp
  unfold State.advance
  cases hpoint : p.point with
  | crystallised | underReview | mergeTargets | rows =>
    refine h.setPoint hp rfl ?_ ?_ ?_
    · rw [hpoint]
      rfl
    · rw [hpoint]
      rfl
    · simp
  | next =>
    dsimp only
    unfold State.judge
    split
    · exact h.setPoint hp rfl (by rw [hpoint]; rfl) (by rw [hpoint]; rfl) (by simp)
    · rename_i id memory todo _
      split_ifs with hexempt
      · exact h.setPoint hp rfl (by rw [hpoint]; rfl) (by rw [hpoint]; rfl) (by simp)
      · obtain ⟨hne, -⟩ := Bool.or_eq_false_iff.mp (eq_false_of_ne_true hexempt)
        obtain ⟨hc, hr⟩ := not_mem_of_isExempt_eq_false hne
        exact h.evaluate hp hpoint { p with todo := todo } rfl id memory ctx hc hr
  | fade it =>
    have hit : p.point.unset? = some it := by rw [hpoint]; rfl
    dsimp only
    split
    · exact h.stop hp
    · split_ifs
      · exact (hcurrent hit).toSave
      · exact (hcurrent hit).setPoint rfl (by rintro _ ⟨⟩) (by rintro _ ⟨⟩)
  | fadeWrite it =>
    have hit : p.point.unset? = some it := by rw [hpoint]; rfl
    refine Evaluated.toSave ?_
    exact (hcurrent hit).congr rfl rfl rfl
  | unfade it =>
    have hit : p.point.unset? = some it := by rw [hpoint]; rfl
    dsimp only
    split
    · exact h.stop hp
    · split_ifs
      · exact (hcurrent hit).setPoint rfl (by rintro _ ⟨⟩) (by rintro _ ⟨⟩)
      · exact (hcurrent hit).reset.toSave
  | unfadeWrite it =>
    have hit : p.point.unset? = some it := by rw [hpoint]; rfl
    dsimp only
    split
    · exact (hcurrent hit).reset.toSave
    · split
      · exact h.stop hp
      · refine Evaluated.toSave ?_
        exact (hcurrent hit).reset.congr rfl rfl rfl
  | bury it =>
    have hit : p.point.unset? = some it := by rw [hpoint]; rfl
    refine Evaluated.setPoint ((hcurrent hit).congr ?_ ?_ ?_) rfl ?_ ?_
    · rfl
    · rfl
    · rfl
    · rintro _ ⟨⟩
      exact h.lost p it hp (by rw [hpoint]; rfl)
    · rintro _ ⟨⟩
      exact ⟨_, List.mem_append_right _ (List.mem_singleton_self _), rfl, rfl⟩
  | delete it =>
    have hit : p.point.unset? = some it := by rw [hpoint]; rfl
    dsimp only
    split
    · exact h.stop hp
    · refine (hcurrent hit).setPoint rfl ?_ ?_
      · rintro _ ⟨⟩
        exact h.lost p it hp (by rw [hpoint]; rfl)
      · rintro _ ⟨⟩
        exact h.buried p it hp (by rw [hpoint]; rfl)
  | deleteWrite it =>
    have hit : p.point.unset? = some it := by rw [hpoint]; rfl
    refine Evaluated.toSave ?_
    exact (hcurrent hit).reset.congr rfl rfl rfl
  | save it => exact h.persist hp hpoint _
  | persist it =>
    -- The counters on disk are those of the pass from here on.
    have hheld : ∀ id n, s.unrecorded id = false → p.counters.get? id = some n →
        LowFor n (s.evaluations id) := fun id n hrec =>
      h.held p hp id n hrec (by simp [hpoint, Point.unset?])
    dsimp only
    split_ifs
    · exact ⟨fun id n hrec _ => hheld id n hrec, by simp, by simp, by simp, by simp⟩
    · refine ⟨fun id n hrec _ => hheld id n hrec, ?_, ?_, ?_, ?_⟩
      · rintro _ ⟨⟩ id n hrec -
        exact hheld id n hrec
      all_goals rintro _ _ ⟨⟩ ⟨⟩
  | clear =>
    refine Inv.setPoint (s := { s with cursor := none }) ?_ hp rfl ?_ ?_ (by simp)
    · exact ⟨h.filed, h.held, h.item, h.lost, h.buried⟩
    · rw [hpoint]
      rfl
    · rw [hpoint]
      rfl
  | finish =>
    have hheld : ∀ id n, s.unrecorded id = false → p.counters.get? id = some n →
        LowFor n (s.evaluations id) := fun id n hrec =>
      h.held p hp id n hrec (by simp [hpoint, Point.unset?])
    exact ⟨fun id n hrec _ => hheld id n hrec, by simp, by simp, by simp, by simp⟩

/-- The next statement of a pass that fails keeps the invariant. -/
theorem Inv.fail (h : Inv score s) (hp : s.pass = some p) : Inv score (s.fail p) := by
  unfold State.fail
  split
  · rename_i it hpoint
    exact h.persist hp hpoint s.cursor
  · rename_i hpoint
    exact h.setPoint hp rfl (by rw [hpoint]; rfl) (by rw [hpoint]; rfl) (by simp)
  · exact h.stop hp

theorem Inv.of_init {cal : Text.Calendar} (h : (machine score cal).init s) : Inv score s := by
  obtain ⟨hpass, -, -, hcounters⟩ := h
  refine ⟨?_, by simp [hpass], by simp [hpass], by simp [hpass], by simp [hpass]⟩
  intro id n _ _ hn
  rw [hcounters] at hn
  cases hn

/-- Every step keeps the invariant. -/
theorem Inv.step {cal : Text.Calendar} (h : Inv score s) {a : Act Ctx} {s' : State}
    (hstep : (machine score cal).step s a = some s') : Inv score s' := by
  cases a with
  | startPass env =>
    simp only [machine] at hstep
    split_ifs at hstep with hp
    obtain rfl := Option.some.inj hstep
    have hnone : s.pass = none := by simpa using hp
    -- Without a pass the counters in the file are all there is.
    have hfiled : ∀ id n, s.unrecorded id = false → s.counters.get? id = some n →
        LowFor n (s.evaluations id) := fun id n hrec =>
      h.filed id n hrec (by simp [hnone])
    refine ⟨fun id n hrec _ => hfiled id n hrec, ?_, ?_, ?_, ?_⟩
    · rintro _ ⟨⟩ id n hrec -
      exact hfiled id n hrec
    all_goals rintro _ _ ⟨⟩ ⟨⟩
  | pass succeeds now ctx pause =>
    obtain ⟨p, hp, rfl⟩ := Option.map_eq_some_iff.mp hstep
    split_ifs
    · exact h.advance hp now ctx pause
    · exact h.fail hp
  | startMerge source target proposal =>
    simp only [machine] at hstep
    split_ifs at hstep
    -- What is said here is not about merges.
    have hsame : ∀ m, Inv score { s with merge := m } :=
      fun _ => ⟨h.filed, h.held, h.item, h.lost, h.buried⟩
    split at hstep
    · obtain rfl := Option.some.inj hstep
      exact h
    · split_ifs at hstep
      · obtain rfl := Option.some.inj hstep
        exact h
      · obtain rfl := Option.some.inj hstep
        exact hsame _
  | merge succeeds =>
    obtain ⟨m, hm, rfl⟩ := Option.map_eq_some_iff.mp hstep
    split_ifs
    · cases m <;> exact ⟨h.filed, h.held, h.item, h.lost, h.buried⟩
    · exact ⟨h.filed, h.held, h.item, h.lost, h.buried⟩
  | writeBack id now | bump id amount now | soul crystallised underReview | write rows =>
    obtain rfl := Option.some.inj hstep
    exact ⟨h.filed, h.held, h.item, h.lost, h.buried⟩
  | crash =>
    obtain rfl := Option.some.inj hstep
    have hsame : ∀ {s : State}, Inv score s → Inv score { s with merge := none } :=
      fun h => ⟨h.filed, h.held, h.item, h.lost, h.buried⟩
    cases hp : s.pass with
    | none => exact hsame h
    | some p => exact hsame (h.stop hp)

end Invariant

/-! ## What a pass deletes -/

/-- A salience that what the pass sees decides alone. -/
def given : ℚ → Bool → Row → ℚ := fun ctx _ _ => ctx

/-- A fading memory. -/
def walk : Row :=
  { Row.created "a walk".toList true 0 0 with
    state := .fading
    contentSnapshot := some "a walk by the sea".toList }

/-- The one memory, and no files. -/
def oneFading : State where
  rows := Dict.set ∅ 1 walk
  graveyard := []
  crystallised := []
  underReview := []
  archive := []
  counters := ∅
  cursor := none
  pass := none
  merge := none
  evaluations _ := []
  unrecorded _ := false
  merged _ := none
  buried _ := none

end Companion.Forgetting

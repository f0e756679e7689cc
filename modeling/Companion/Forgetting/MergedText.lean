import Companion.Forgetting.Loss

/-!
# A merged text under forgetting

The text that a merge writes into an active row stays readable: it is at the end of the row's
content while the row is active and of its snapshot while it fades, whatever passes and write-backs
do, so that an unfade restores it and none from before the merge. Once a pass deletes the row, the
graveyard has the content that the pass read, which is that of a faded row (`merged_text_survives`).

A pass changes the state of a row only between a statement that reads the state and the write that
follows, and no other writer of the run changes it, so the row is at the write in the state that the
pass read.

The graveyard keeps the summary of a faded row alone, so a merged text that is not its own summary
is gone once the row is lost (`merged_text_lost`).
-/

namespace Companion.Forgetting.MergedText

open Companion.Memory
open Companion.Runs

/-- The row holds the text, at the end of its content or, while it fades, of its snapshot. -/
def Keeps (text : Text) (r : Row) : Prop :=
  match r.state with
  | .active => text <:+ r.content
  | .fading => ∃ snapshot, r.contentSnapshot = some snapshot ∧ text <:+ snapshot

/-- No writer but the passes, the gate, the write-back and recalls. -/
def OnlyForgetting {Ctx : Type*} : Act Ctx → Prop
  | .write _ => False
  | _ => True

/-- The memory that a pass is to write as faded. -/
def fadeWrites? : Point → Option Item
  | .fadeWrite it => some it
  | _ => none

/-- The memory that a pass is unfading. -/
def unfades? : Point → Option Item
  | .unfade it | .unfadeWrite it => some it
  | _ => none

theorem item?_of_fadeWrites? {point : Point} {it : Item} (h : fadeWrites? point = some it) :
    point.item? = some it := by
  cases point with
  | fadeWrite _ => exact h
  | _ => cases h

theorem item?_of_unfades? {point : Point} {it : Item} (h : unfades? point = some it) :
    point.item? = some it := by
  cases point with
  | unfade _ | unfadeWrite _ => exact h
  | _ => cases h

section Invariant

variable {Ctx : Type*} {score : Ctx → Bool → Row → ℚ}

/-- What becomes of the text that was merged into an active row. -/
def Kept (s : State) : Prop :=
  ∀ id text, s.merged id = some ⟨text, some .active⟩ →
    (∃ r, s.rows.get? id = some r ∧ Keeps text r) ∨
      (s.rows.get? id = none ∧ ∃ t, s.buried id = some t ∧
        ∃ e ∈ s.graveyard, e.memoryId = id ∧ e.summary = t)

/-- The rows that a pass has still to change are in the states that it read. -/
structure Tracks (rows : Dict MemoryId Row) (p : Pass) : Prop where
  nodup : (p.todo.map Prod.fst).Nodup
  states : ∀ m ∈ p.todo, ∀ r, rows.get? m.1 = some r → r.state = m.2.state
  fresh : ∀ it, p.point.item? = some it → it.id ∉ p.todo.map Prod.fst
  fadeWrite : ∀ it, fadeWrites? p.point = some it →
    ∀ r, rows.get? it.id = some r → r.state = .active
  unfade : ∀ it, unfades? p.point = some it → ∀ r, rows.get? it.id = some r → r.state = .fading

/-- The merged texts are kept, and the pass in progress tracks the rows. -/
structure Inv (s : State) : Prop where
  kept : Kept s
  tracks : ∀ p, s.pass = some p → Tracks s.rows p

/-! ### Rows -/

/-- A write-back keeps the state and the text of a row. -/
theorem Keeps.refresh {text : Text} {r : Row} (h : Keeps text r) (cal : Text.Calendar)
    (t : Instant) : Keeps text (r.refreshFadedEmotions cal t) := by
  have hstate : (r.refreshFadedEmotions cal t).state = r.state := by
    unfold Row.refreshFadedEmotions
    dsimp only
    split_ifs <;> rfl
  have hcontent : (r.refreshFadedEmotions cal t).content =
      r.content.withDatePrefix cal r.createdAt := by
    unfold Row.refreshFadedEmotions
    dsimp only
    split_ifs with h
    · exact h.symm
    · rfl
  unfold Keeps at h ⊢
  rw [hstate]
  cases hs : r.state with
  | active =>
    rw [hs] at h
    rw [hcontent]
    exact h.trans (Text.suffix_withDatePrefix _ _ _)
  | fading =>
    rw [hs] at h
    obtain ⟨snapshot, hsnap, htext⟩ := h
    refine ⟨snapshot.withDatePrefix cal r.createdAt, ?_, htext.trans (Text.suffix_withDatePrefix _ _ _)⟩
    show Option.map _ r.contentSnapshot = _
    rw [hsnap, Option.map_some]

/-- A fade moves the text of an active row to its snapshot. -/
theorem Keeps.fade {text : Text} {r : Row} (h : Keeps text r) (hr : r.state = .active)
    (summary : Text) : Keeps text (r.fade summary) := by
  unfold Keeps at h
  rw [hr] at h
  exact ⟨r.content, rfl, h⟩

/-- An unfade restores the text of a fading row. -/
theorem Keeps.unfade {text : Text} {r r' : Row} (h : Keeps text r) (hr : r.state = .fading)
    (hr' : r.unfade = some r') : Keeps text r' := by
  unfold Keeps at h
  rw [hr] at h
  obtain ⟨snapshot, hsnap, htext⟩ := h
  unfold Row.unfade at hr'
  rw [hsnap, Option.map_some] at hr'
  obtain rfl := Option.some.inj hr'
  exact htext

/-! ### Steps -/

variable {s : State} {p : Pass}

/-- The texts are kept where the rows that are there keep theirs. -/
theorem Kept.mono (h : Kept s) {s' : State} (hmerged : s'.merged = s.merged)
    (hburied : s'.buried = s.buried) (hgrave : ∀ e ∈ s.graveyard, e ∈ s'.graveyard)
    (hrows : ∀ id r, s.rows.get? id = some r → ∃ r', s'.rows.get? id = some r' ∧
      ∀ text, Keeps text r → Keeps text r')
    (hnone : ∀ id, s.rows.get? id = none → s'.rows.get? id = none) : Kept s' := by
  intro id text hm
  rw [hmerged] at hm
  rcases h id text hm with ⟨r, hr, hk⟩ | ⟨hr, t, ht, e, he, hid, hsum⟩
  · obtain ⟨r', hr', hk'⟩ := hrows id r hr
    exact .inl ⟨r', hr', hk' text hk⟩
  · rw [hburied]
    exact .inr ⟨hnone id hr, t, ht, e, hgrave e he, hid, hsum⟩

/-- The texts are kept by a write to one row that keeps its text. -/
theorem Kept.updateRow (h : Kept s) {s' : State} {id : MemoryId} {f : Row → Row}
    (hrows : s'.rows = updateRow s.rows id f) (hmerged : s'.merged = s.merged)
    (hburied : s'.buried = s.buried) (hgrave : s'.graveyard = s.graveyard)
    (hf : ∀ r, s.rows.get? id = some r → ∀ text, Keeps text r → Keeps text (f r)) : Kept s' := by
  refine h.mono hmerged hburied (fun e he => hgrave ▸ he) ?_ ?_
  · intro id' r hr
    rw [hrows, get?_updateRow]
    split_ifs with hid
    · subst hid
      rw [hr]
      exact ⟨f r, rfl, hf r hr⟩
    · exact ⟨r, hr, fun _ hk => hk⟩
  · intro id' hr
    rw [hrows, get?_updateRow]
    split_ifs with hid
    · subst hid
      rw [hr]
      rfl
    · exact hr

/-- A write to one row that keeps its state is tracked. -/
theorem Tracks.updateRow {rows : Dict MemoryId Row} (h : Tracks rows p) {id : MemoryId}
    {f : Row → Row} (hf : ∀ r, (f r).state = r.state) : Tracks (Memory.updateRow rows id f) p := by
  have hstate : ∀ {id' st}, (∀ r, rows.get? id' = some r → r.state = st) →
      ∀ r, (Memory.updateRow rows id f).get? id' = some r → r.state = st := by
    intro id' st hst r hr
    rw [get?_updateRow] at hr
    split_ifs at hr with hid
    · obtain ⟨r', hr', rfl⟩ := Option.map_eq_some_iff.mp hr
      rw [hf]
      exact hst r' (hid ▸ hr')
    · exact hst r hr
  exact ⟨h.nodup, fun m hm => hstate (h.states m hm), h.fresh,
    fun it hit => hstate (h.fadeWrite it hit), fun it hit => hstate (h.unfade it hit)⟩

/-- The memories of a pass are the rows, each once. -/
theorem memories_tracks (s : State) : (s.memories.map Prod.fst).Nodup ∧
    ∀ m ∈ s.memories, ∀ r, s.rows.get? m.1 = some r → r.state = m.2.state := by
  have hsub : ∃ l : List (MemoryId × Row), l.Perm s.rows.entries ∧ s.memories.Sublist l := by
    refine ⟨_, List.perm_insertionSort (fun a b => a.1 ≤ b.1) s.rows.entries, ?_⟩
    unfold State.memories
    cases s.cursor with
    | none => exact List.Sublist.refl _
    | some lastId => exact List.dropWhile_sublist _
  obtain ⟨l, hperm, hsubl⟩ := hsub
  refine ⟨((hperm.map Prod.fst).nodup_iff.mpr s.rows.nodup).sublist (hsubl.map _), ?_⟩
  intro m hm r hr
  have hrow : s.rows.get? m.1 = some m.2 :=
    Dict.get?_of_mem_entries (hperm.mem_iff.mp (hsubl.subset hm))
  obtain rfl := Option.some.inj (hrow.symm.trans hr)
  rfl

/-- The pass is done with a memory that is not among those to come. -/
theorem Kept.toSave (h : Kept s) (p : Pass) {it : Item}
    (hnodup : (p.todo.map Prod.fst).Nodup)
    (hstates : ∀ m ∈ p.todo, ∀ r, s.rows.get? m.1 = some r → r.state = m.2.state)
    (hfresh : it.id ∉ p.todo.map Prod.fst) : Inv (s.toSave p it) := by
  refine ⟨h, ?_⟩
  rintro _ ⟨⟩
  refine ⟨hnodup, hstates, ?_, ?_, ?_⟩
  · rintro _ ⟨⟩
    exact hfresh
  · rintro _ ⟨⟩
  · rintro _ ⟨⟩

/-- The pass moves to another point. -/
theorem Kept.setPoint (h : Kept s) (p : Pass) (hnodup : (p.todo.map Prod.fst).Nodup)
    (hstates : ∀ m ∈ p.todo, ∀ r, s.rows.get? m.1 = some r → r.state = m.2.state) {point : Point}
    (hfresh : ∀ it, point.item? = some it → it.id ∉ p.todo.map Prod.fst)
    (hfade : ∀ it, fadeWrites? point = some it →
      ∀ r, s.rows.get? it.id = some r → r.state = .active)
    (hunfade : ∀ it, unfades? point = some it →
      ∀ r, s.rows.get? it.id = some r → r.state = .fading) : Inv (s.setPoint p point) := by
  refine ⟨h, ?_⟩
  rintro _ ⟨⟩
  exact ⟨hnodup, hstates, hfresh, hfade, hunfade⟩

/-- The pass moves to a point at which it is at no memory. -/
theorem Kept.rest (h : Kept s) (p : Pass) (hnodup : (p.todo.map Prod.fst).Nodup)
    (hstates : ∀ m ∈ p.todo, ∀ r, s.rows.get? m.1 = some r → r.state = m.2.state) {point : Point}
    (hpoint : point.item? = none) : Inv (s.setPoint p point) := by
  refine h.setPoint p hnodup hstates ?_ ?_ ?_
  · intro it hit
    rw [hpoint] at hit
    cases hit
  · intro it hit
    rw [item?_of_fadeWrites? hit] at hpoint
    cases hpoint
  · intro it hit
    rw [item?_of_unfades? hit] at hpoint
    cases hpoint

/-- The pass stops. -/
theorem Kept.stop (h : Kept s) : Inv (s.stop p) :=
  ⟨h, fun _ hp => by cases hp⟩

/-- The states that a pass read are those of the rows after a write to another row. -/
theorem states_of_get?_eq {rows rows' : Dict MemoryId Row} {todo : List (MemoryId × Row)}
    {id : MemoryId} (h : ∀ m ∈ todo, ∀ r, rows.get? m.1 = some r → r.state = m.2.state)
    (hfresh : id ∉ todo.map Prod.fst) (hrows : ∀ id', id' ≠ id → rows'.get? id' = rows.get? id') :
    ∀ m ∈ todo, ∀ r, rows'.get? m.1 = some r → r.state = m.2.state := by
  intro m hm r hr
  have hne : m.1 ≠ id := by
    rintro rfl
    exact hfresh (List.mem_map_of_mem hm)
  rw [hrows m.1 hne] at hr
  exact h m hm r hr

/-- The evaluation of a memory reads its row, and the state that it decides on is the row's. -/
theorem Inv.evaluate (h : Inv s) {id : MemoryId} {memory : Row} {todo : List (MemoryId × Row)}
    (hp : s.pass = some p) (htodo : p.todo = (id, memory) :: todo) (ctx : Ctx) :
    Inv (s.evaluate score { p with todo := todo } id memory ctx) := by
  have ht := h.tracks p hp
  have hnodup := ht.nodup
  rw [htodo, List.map_cons, List.nodup_cons] at hnodup
  obtain ⟨hfresh, hnodup⟩ := hnodup
  have hstates : ∀ m ∈ todo, ∀ r, s.rows.get? m.1 = some r → r.state = m.2.state := fun m hm =>
    ht.states m (htodo ▸ List.mem_cons_of_mem _ hm)
  have hrow : ∀ r, s.rows.get? id = some r → r.state = memory.state :=
    ht.states (id, memory) (htodo ▸ List.mem_cons_self)
  unfold State.evaluate
  dsimp only
  split
  · refine Kept.toSave ?_ { p with todo := todo } hnodup ?_ hfresh
    · exact h.kept
    · exact hstates
  · refine Kept.setPoint ?_ { p with todo := todo } hnodup ?_ ?_ ?_ ?_
    · exact h.kept
    · exact hstates
    · rintro _ ⟨⟩
      exact hfresh
    · rintro _ ⟨⟩
    · rintro _ ⟨⟩
  · rename_i hunfade
    refine Kept.setPoint ?_ { p with todo := todo } hnodup ?_ ?_ ?_ ?_
    · exact h.kept
    · exact hstates
    · rintro _ ⟨⟩
      exact hfresh
    · rintro _ ⟨⟩
    · rintro _ ⟨⟩ r hr
      exact (hrow r hr).trans (nextState_eq_unfade hunfade)
  · refine Kept.setPoint ?_ { p with todo := todo } hnodup ?_ ?_ ?_ ?_
    · exact h.kept
    · exact hstates
    · rintro _ ⟨⟩
      exact hfresh
    · rintro _ ⟨⟩
    · rintro _ ⟨⟩

/-- A pass deletes a row, with its graveyard entry written. -/
theorem Kept.delete (h : Kept s) {it : Item}
    (hgrave : ∃ e ∈ s.graveyard, e.memoryId = it.id ∧ e.summary = it.memory.content) :
    Kept { s with
      rows := s.rows.pop it.id
      buried := Function.update s.buried it.id (some it.memory.content) } := by
  intro id text hm
  dsimp only
  by_cases hid : id = it.id
  · subst hid
    exact .inr ⟨by rw [Dict.get?_pop, if_pos rfl], _, Function.update_self _ _ _, hgrave⟩
  · rw [Dict.get?_pop, if_neg hid, Function.update_of_ne hid]
    exact h id text hm

/-- The next statement of a pass keeps the invariant. -/
theorem Inv.advance (h : Inv s) (hloss : Forgetting.Inv score s) (hp : s.pass = some p)
    (now : Instant) (ctx : Ctx) (pause : Bool) : Inv (s.advance score p now ctx pause) := by
  have ht := h.tracks p hp
  unfold State.advance
  cases hpoint : p.point with
  | crystallised =>
    exact Kept.rest h.kept { p with crystallised := s.crystallised } ht.nodup ht.states rfl
  | underReview =>
    exact Kept.rest h.kept { p with underReview := s.underReview } ht.nodup ht.states rfl
  | mergeTargets =>
    exact Kept.rest h.kept { p with
      crystallised := s.withMergeTargets p.crystallised
      underReview := s.withMergeTargets p.underReview } ht.nodup ht.states rfl
  | rows =>
    obtain ⟨hnodup, hstates⟩ := memories_tracks s
    exact Kept.rest h.kept { p with todo := s.memories } hnodup hstates rfl
  | next =>
    dsimp only
    unfold State.judge
    split
    · exact Kept.rest h.kept p ht.nodup ht.states rfl
    · rename_i id memory todo htodo
      split_ifs
      · have hnodup := ht.nodup
        rw [htodo, List.map_cons, List.nodup_cons] at hnodup
        -- A memory that is kept out of the pass is taken off the list, and the rest is as before.
        refine Kept.rest h.kept { p with todo := todo } hnodup.2 (fun m hm => ht.states m ?_) rfl
        exact htodo ▸ List.mem_cons_of_mem _ hm
      · exact h.evaluate hp htodo ctx
  | fade it =>
    have hit := ht.fresh it (by rw [hpoint]; rfl)
    dsimp only
    split
    · exact Kept.stop h.kept
    · rename_i r hr
      split_ifs with hstate
      · exact Kept.toSave h.kept p ht.nodup ht.states hit
      · refine Kept.setPoint h.kept p ht.nodup ht.states ?_ ?_ ?_
        · rintro _ ⟨⟩
          exact hit
        · rintro _ ⟨⟩ r' hr'
          obtain rfl := Option.some.inj (hr.symm.trans hr')
          cases hs : r.state with
          | active => rfl
          | fading => exact absurd hs hstate
        · rintro _ ⟨⟩
  | fadeWrite it =>
    have hit := ht.fresh it (by rw [hpoint]; rfl)
    dsimp only
    refine Kept.toSave ?_ p ht.nodup ?_ hit
    · -- The row is active, so that the text that is saved is all that it has.
      refine h.kept.updateRow rfl rfl rfl rfl fun r hr text hk => ?_
      exact hk.fade (ht.fadeWrite it (by rw [hpoint]; rfl) r hr) _
    · refine states_of_get?_eq ht.states hit fun id' hne => ?_
      rw [get?_updateRow, if_neg hne]
  | unfade it =>
    have hit := ht.fresh it (by rw [hpoint]; rfl)
    dsimp only
    split
    · exact Kept.stop h.kept
    · split_ifs
      · refine Kept.setPoint h.kept p ht.nodup ht.states ?_ ?_ ?_
        · rintro _ ⟨⟩
          exact hit
        · rintro _ ⟨⟩
        · rintro _ ⟨⟩
          exact ht.unfade it (by rw [hpoint]; rfl)
      · exact Kept.toSave h.kept p ht.nodup ht.states hit
  | unfadeWrite it =>
    have hit := ht.fresh it (by rw [hpoint]; rfl)
    dsimp only
    split
    · exact Kept.toSave h.kept p ht.nodup ht.states hit
    · rename_i r hr
      split
      · exact Kept.stop h.kept
      · rename_i r' hr'
        refine Kept.toSave ?_ p ht.nodup ?_ hit
        · have hset : s.rows.set it.id r' = updateRow s.rows it.id fun _ => r' := by
            unfold updateRow
            rw [hr]
          refine h.kept.updateRow hset rfl rfl rfl fun r'' hr'' text hk => ?_
          obtain rfl := Option.some.inj (hr.symm.trans hr'')
          exact hk.unfade (ht.unfade it (by rw [hpoint]; rfl) r hr) hr'
        · refine states_of_get?_eq ht.states hit fun id' hne => ?_
          rw [Dict.get?_set, if_neg hne]
  | bury it =>
    have hit := ht.fresh it (by rw [hpoint]; rfl)
    dsimp only
    refine Kept.setPoint ?_ p ht.nodup ?_ ?_ ?_ ?_
    · refine h.kept.mono rfl rfl (fun e he => List.mem_append_left _ he) ?_ fun _ hr => hr
      exact fun id r hr => ⟨r, hr, fun _ hk => hk⟩
    · exact ht.states
    · rintro _ ⟨⟩
      exact hit
    · rintro _ ⟨⟩
    · rintro _ ⟨⟩
  | delete it =>
    have hit := ht.fresh it (by rw [hpoint]; rfl)
    dsimp only
    split
    · exact Kept.stop h.kept
    · refine Kept.setPoint h.kept p ht.nodup ht.states ?_ ?_ ?_
      · rintro _ ⟨⟩
        exact hit
      · rintro _ ⟨⟩
      · rintro _ ⟨⟩
  | deleteWrite it =>
    have hit := ht.fresh it (by rw [hpoint]; rfl)
    dsimp only
    refine Kept.toSave (h.kept.delete ?_) p ht.nodup ?_ hit
    · -- It was buried by an earlier statement of the pass.
      exact hloss.buried p it hp (by rw [hpoint]; rfl)
    · refine states_of_get?_eq ht.states hit fun id' hne => ?_
      rw [Dict.get?_pop, if_neg hne]
  | save it =>
    refine Kept.setPoint (s := { s with cursor := some it.id }) h.kept p ht.nodup ht.states ?_ ?_ ?_
    · rintro _ ⟨⟩
      exact ht.fresh it (by rw [hpoint]; rfl)
    · rintro _ ⟨⟩
    · rintro _ ⟨⟩
  | persist it =>
    dsimp only
    split_ifs
    · exact ⟨h.kept, fun _ hp => by cases hp⟩
    · exact Kept.rest (s := { s with counters := p.counters }) h.kept p ht.nodup ht.states rfl
  | clear => exact Kept.rest (s := { s with cursor := none }) h.kept p ht.nodup ht.states rfl
  | finish => exact ⟨h.kept, fun _ hp => by cases hp⟩

/-- The next statement of a pass that fails keeps the invariant. -/
theorem Inv.fail (h : Inv s) (hp : s.pass = some p) : Inv (s.fail p) := by
  have ht := h.tracks p hp
  unfold State.fail
  split
  · rename_i it hpoint
    refine Kept.setPoint h.kept p ht.nodup ht.states ?_ ?_ ?_
    · rintro _ ⟨⟩
      exact ht.fresh it (by rw [hpoint]; rfl)
    · rintro _ ⟨⟩
    · rintro _ ⟨⟩
  · exact Kept.rest h.kept p ht.nodup ht.states rfl
  · exact Kept.stop h.kept

/-- A write to one row that keeps its state and its text keeps the invariant. -/
theorem Inv.updateRow (h : Inv s) {id : MemoryId} {f : Row → Row}
    (hstate : ∀ r, (f r).state = r.state) (hf : ∀ r text, Keeps text r → Keeps text (f r)) :
    Inv { s with rows := updateRow s.rows id f } :=
  ⟨h.kept.updateRow rfl rfl rfl rfl fun r _ => hf r, fun p hp => (h.tracks p hp).updateRow hstate⟩

/-- The next statement of a merge keeps the invariant. Its write is what a row then keeps. -/
theorem Inv.advanceMerge (h : Inv s) (m : Merge) : Inv (s.advanceMerge m) := by
  cases m with
  | archive source target text | lookup target text =>
    exact ⟨h.kept, h.tracks⟩
  | write target text =>
    refine ⟨?_, fun p hp => (h.tracks p hp).updateRow fun _ => rfl⟩
    intro id text' hm
    dsimp only [State.advanceMerge] at hm ⊢
    rw [get?_updateRow]
    by_cases hid : id = target
    · subst hid
      rw [Function.update_self] at hm
      obtain ⟨rfl, hlanded⟩ := Merged.mk.inj (Option.some.inj hm)
      obtain ⟨r, hr, hactive⟩ := Option.map_eq_some_iff.mp hlanded
      refine .inl ⟨r.updateContent text, by rw [if_pos rfl, hr]; rfl, ?_⟩
      have hstate : (r.updateContent text).state = .active := hactive
      unfold Keeps
      rw [hstate]
      exact List.suffix_rfl
    · rw [Function.update_of_ne hid] at hm
      rw [if_neg hid]
      exact h.kept id text' hm

/-- Every step but another writer's keeps the invariant. -/
theorem Inv.step {cal : Text.Calendar} (h : Inv s) (hloss : Forgetting.Inv score s) {a : Act Ctx}
    {s' : State} (ha : OnlyForgetting a) (hstep : (machine score cal).step s a = some s') :
    Inv s' := by
  cases a with
  | startPass env =>
    simp only [machine] at hstep
    split_ifs at hstep
    obtain rfl := Option.some.inj hstep
    refine ⟨h.kept, ?_⟩
    rintro _ ⟨⟩
    exact ⟨List.nodup_nil, by simp, by rintro _ ⟨⟩, by rintro _ ⟨⟩, by rintro _ ⟨⟩⟩
  | pass succeeds now ctx pause =>
    obtain ⟨p, hp, rfl⟩ := Option.map_eq_some_iff.mp hstep
    split_ifs
    · exact h.advance hloss hp now ctx pause
    · exact h.fail hp
  | startMerge source target proposal =>
    simp only [machine] at hstep
    split_ifs at hstep
    split at hstep
    · obtain rfl := Option.some.inj hstep
      exact h
    · split_ifs at hstep
      · obtain rfl := Option.some.inj hstep
        exact h
      · obtain rfl := Option.some.inj hstep
        exact ⟨h.kept, h.tracks⟩
  | merge succeeds =>
    obtain ⟨m, hm, rfl⟩ := Option.map_eq_some_iff.mp hstep
    split_ifs
    · exact h.advanceMerge m
    · exact ⟨h.kept, h.tracks⟩
  | writeBack id now =>
    obtain rfl := Option.some.inj hstep
    -- A write-back keeps the state of a row and dates its text, of which the merged one stays the
    -- end.
    refine h.updateRow (fun r => ?_) fun r text hk => hk.refresh cal now
    unfold Row.refreshFadedEmotions
    dsimp only
    split_ifs <;> rfl
  | bump id amount now =>
    obtain rfl := Option.some.inj hstep
    exact h.updateRow (fun _ => rfl) fun _ _ hk => hk
  | soul crystallised underReview =>
    obtain rfl := Option.some.inj hstep
    exact ⟨h.kept, h.tracks⟩
  | write rows => exact ha.elim
  | crash =>
    obtain rfl := Option.some.inj hstep
    cases hp : s.pass with
    | none => exact ⟨h.kept, fun p hp' => h.tracks p hp'⟩
    | some p => exact ⟨h.kept, fun _ hp => by cases hp⟩

end Invariant

/-! ## The text of a merge -/

/-- Once a merge into an active row is counted, the row holds its text, and holds it where an unfade
restores it, until a pass has deleted the row; the graveyard then has the content that the pass
read. -/
theorem merged_text_survives {Ctx : Type*} {score : Ctx → Bool → Row → ℚ} {cal : Text.Calendar}
    {s : State} (h : (machine score cal).Reach (fun _ a => OnlyForgetting a) s) {id : MemoryId}
    {text : Text} (hm : s.merged id = some ⟨text, some .active⟩) :
    (∃ r, s.rows.get? id = some r ∧ Keeps text r) ∨
      (s.rows.get? id = none ∧ ∃ t, s.buried id = some t ∧
        ∃ e ∈ s.graveyard, e.memoryId = id ∧ e.summary = t) := by
  have hinv : Inv s ∧ Forgetting.Inv score s := by
    refine h.invariant (I := fun s => Inv s ∧ Forgetting.Inv score s) ?_ ?_
    · intro s hinit
      have ⟨hpass, _, hnone, _⟩ := hinit
      refine ⟨⟨fun id text hm => ?_, fun p hp => ?_⟩, Forgetting.Inv.of_init hinit⟩
      · rw [(hnone id).2] at hm
        cases hm
      · rw [hpass] at hp
        cases hp
    · rintro s a s' ⟨hI, hloss⟩ ha hstep
      exact ⟨hI.step hloss ha hstep, hloss.step hstep⟩
  exact hinv.1.kept id text hm

/-- What the gate merges into the memory. -/
def news : Text := "Sam moved to Lyon. ".toList ++ List.replicate 240 'x'

/-- The memory before the merge, and no files. -/
def oneActive : State :=
  { oneFading with rows := Dict.set ∅ 1 (Row.created "Sam moves".toList true 0 0) }

theorem oneActive_init : (machine given .oneDay).init oneActive :=
  ⟨rfl, rfl, fun _ => ⟨rfl, rfl⟩, rfl⟩

/-- The merge, and the passes that score the memory at 0, for some statements each. -/
def mergeThenPasses (statements : List ℕ) : List (Act ℚ) :=
  .startMerge 2 1 news :: List.replicate 3 (.merge true) ++
    statements.flatMap fun n =>
      .startPass ⟨1, 0, none, 0⟩ :: List.replicate n (.pass true 10000000000000 0 false)

instance {Ctx : Type*} (a : Act Ctx) : Decidable (OnlyForgetting a) :=
  match a with
  | .write _ => .isFalse id
  | .startPass _ | .pass _ _ _ _ | .startMerge _ _ _ | .merge _ | .writeBack _ _ | .bump _ _ _
  | .soul _ _ | .crash => .isTrue trivial

/-- The first pass fades the memory, whose snapshot has the merged text. -/
theorem merged_text_survives_fade : ∃ (s : State) (r : Row), s.rows.get? 1 = some r ∧
    r.state = .fading ∧ Keeps news r := by
  obtain ⟨s, hs, hp⟩ := Machine.exists_reach_of_runWithin (M := machine given .oneDay)
    (D := fun _ a => OnlyForgetting a) (fun _ _ h => h) oneActive_init (mergeThenPasses [7])
    (fun s => s.merged 1 = some ⟨news, some .active⟩ ∧
      (s.rows.get? 1).map Row.state = some .fading) (by decide +kernel)
  obtain ⟨hm, hstate⟩ : s.merged 1 = some ⟨news, some .active⟩ ∧
    (s.rows.get? 1).map Row.state = some .fading := by simpa using hp
  obtain ⟨r, hr, hstate⟩ := Option.map_eq_some_iff.mp hstate
  refine ⟨s, r, hr, hstate, ?_⟩
  rcases merged_text_survives hs hm with ⟨r', hr', hk⟩ | ⟨hnone, -⟩
  · obtain rfl := Option.some.inj (hr.symm.trans hr')
    exact hk
  · rw [hnone] at hr
    cases hr

/-- The second pass deletes the memory, and the merged text is in no entry of it in the graveyard.
-/
theorem merged_text_lost : ∃ s : State,
    (machine given .oneDay).Reach (fun _ a => OnlyForgetting a) s ∧
      s.merged 1 = some ⟨news, some .active⟩ ∧ s.rows.get? 1 = none ∧
        ∀ e ∈ s.graveyard, ¬ news <:+: e.summary := by
  obtain ⟨s, hs, hp⟩ := Machine.exists_reach_of_runWithin (M := machine given .oneDay)
    (D := fun _ a => OnlyForgetting a) (fun _ _ h => h) oneActive_init (mergeThenPasses [12, 8])
    (fun s => s.merged 1 = some ⟨news, some .active⟩ ∧ s.rows.get? 1 = none ∧
      ∀ e ∈ s.graveyard, e.summary.length < news.length) (by decide +kernel)
  obtain ⟨hm, hnone, hshort⟩ : s.merged 1 = some ⟨news, some .active⟩ ∧ s.rows.get? 1 = none ∧
    ∀ e ∈ s.graveyard, e.summary.length < news.length := by simpa using hp
  refine ⟨s, hs, hm, hnone, fun e he hinfix => ?_⟩
  exact absurd hinfix.length_le (Nat.not_le.mpr (hshort e he))

end Companion.Forgetting.MergedText

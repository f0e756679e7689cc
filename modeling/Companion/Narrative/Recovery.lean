import Companion.Narrative.Account
import Companion.Runs
import Mathlib

/-!
# Arcs across stops

A persona's runs of the narrative pass, over anchors that grow in number. A pass may stop between
any two of the events that it appends, and before it saves, and the next one starts from what
`loadOrRecover` finds. If the process stops after an event, the log is newer than the saved state,
and a load replays it. A replay has no time of a last pass, so the sweep after it meets the anchors
of all arcs again. One whose arc was closed, or has none of its seeds as a member, opens a second
one (`anchor_opens_again`); where all are covered, none does (`arcs_survive`).
-/

namespace Companion.Narrative

open Companion.Journal
open Companion.Memory (Text Instant)
open Companion.Runs

/-! ## The events of a pass -/

/-- The events of the anchor sweep at an anchor. -/
def OfAnchor (a : Anchor) : Event → Prop
  | .arcOpened _ _ ref _ _ ts _ => ref = a.ref ∧ ts = a.ts
  | .memberAdded _ _ ts _ _ _ => ts = a.ts
  | _ => False

/-- The events of the sweeps over the open arcs. -/
def OfArcs (p : Pass) : Event → Prop
  | .arcOpened _ _ _ _ _ _ _ => False
  | .memberAdded x m ts _ _ _ => ts = p.joinedAt x m
  | .memberEvicted x m ts => ts = p.evictedAt x m
  | .arcClosed x _ ts _ _ _ => ts = p.closedAt x

theorem emits_sweepAnchor (p : Pass) (a : Anchor) : (sweepAnchor p a).Emits (OfAnchor a) := by
  intro s e he
  have hseeds (x : Text) (ms : List Text) (h : e ∈ ms.map (seedAdded x a)) : OfAnchor a e := by
    obtain ⟨m, -, rfl⟩ := List.mem_map.mp h
    rfl
  dsimp only [sweepAnchor, openArc, extendArc] at he
  split_ifs at he
  · simp at he
  · rcases List.mem_cons.mp he with rfl | he
    · exact ⟨rfl, rfl⟩
    · exact hseeds _ _ he
  · split at he
    · simp at he
    · split_ifs at he
      · simp at he
      · exact hseeds _ _ he

theorem emits_atArc {P : Event → Prop} {x : Text} {f : Arc → Work Progress Event}
    (hf : ∀ arc, (f arc).Emits P) : (atArc x f).Emits P := by
  intro s e he
  dsimp only [atArc] at he
  split at he
  · simp at he
  · exact hf _ s e he

theorem emits_overOpen {P : Event → Prop} {f : Text → Work Progress Event}
    (hf : ∀ x, (f x).Emits P) : (overOpen f).Emits P :=
  fun s e he => Work.Emits.forEach (fun x _ => hf x) s e he

theorem emits_sweepPool (p : Pass) (x : Text) (centroid : Option (List Text)) (pool : List Text) :
    (sweepPool p x centroid pool).Emits (OfArcs p) := by
  induction pool generalizing centroid with
  | nil => exact .skip
  | cons m pool ih =>
    rw [sweepPool]
    refine emits_atArc fun arc => ?_
    split_ifs
    · exact ih centroid
    · split
      · exact ih _
      · refine .andThen (fun s e he => ?_) (ih _)
        obtain rfl : e = _ := List.mem_singleton.mp he
        rfl

theorem emits_capMembers (p : Pass) (x : Text) : (capMembers p x).Emits (OfArcs p) := by
  refine emits_atArc fun arc s e he => ?_
  dsimp only at he
  split_ifs at he
  · simp at he
  · obtain ⟨k, -, rfl⟩ := List.mem_map.mp he
    rfl

theorem emits_sweepClose (p : Pass) (x : Text) : (sweepClose p x).Emits (OfArcs p) := by
  refine emits_atArc fun arc s e he => ?_
  dsimp only at he
  split at he
  · simp at he
  · obtain rfl : e = _ := List.mem_singleton.mp he
    rfl

theorem emits_sweepArcs (p : Pass) : (sweepArcs p).Emits (OfArcs p) :=
  ((emits_overOpen fun x => emits_atArc fun _ => emits_sweepPool p x none _).andThen
    (emits_overOpen (emits_capMembers p))).andThen (emits_overOpen (emits_sweepClose p))

/-- The sweeps over the open arcs open none. -/
theorem openedRefs_sweepArcs (p : Pass) (s : Progress) : openedRefs (sweepArcs p s).2 = [] := by
  refine List.filterMap_eq_nil_iff.mpr fun e he => ?_
  have hof := emits_sweepArcs p s e he
  cases e with
  | arcOpened => exact hof.elim
  | memberAdded => rfl
  | memberEvicted => rfl
  | arcClosed => rfl

/-- An event of a pass is of one of its anchors, or of the sweeps over the open arcs. -/
theorem emits_sweep (p : Pass) :
    (sweep p).Emits fun e => (∃ a ∈ p.anchors, OfAnchor a e) ∨ OfArcs p e := by
  refine .andThen (.forEach fun a ha => ?_) ((emits_sweepArcs p).mono fun e he => .inr he)
  exact (emits_sweepAnchor p a).mono fun e he => .inl ⟨a, ha, he⟩

/-! ## Seeds that are members -/

/-- The memory is a member of an open arc. -/
def Held (s : ArcsState) (m : Text) : Prop :=
  ∃ x arc, s.openArcs.get? x = some arc ∧ m ∈ arc.memberIds

/-- An arc opens just in case none of the seeds is held. -/
theorem shouldOpen_iff (seeds : List Text) (s : ArcsState) :
    shouldOpen seeds s.openArcs = true ↔ ∀ m ∈ seeds, ¬ Held s m := by
  simp only [shouldOpen, Bool.not_eq_true', List.any_eq_false, List.any_eq_true, decide_eq_true_eq,
    Held, Dict.get?_eq_some, Prod.exists, not_exists, not_and]

theorem openedRefs_seeds (x : Text) (a : Anchor) (ms : List Text) :
    openedRefs (ms.map (seedAdded x a)) = [] := by
  rw [openedRefs, List.filterMap_map]
  exact List.filterMap_eq_nil_iff.mpr fun _ _ => rfl

/-- The anchor sweep opens an arc from an anchor with seeds of which none is held. -/
theorem openedRefs_sweepAnchor (p : Pass) (a : Anchor) (s : Progress) :
    openedRefs (sweepAnchor p a s).2 =
      if !a.seedMemoryIds.isEmpty && shouldOpen a.seedMemoryIds s.arcs.openArcs then [a.ref]
      else [] := by
  dsimp only [sweepAnchor]
  by_cases hseeds : a.seedMemoryIds.isEmpty
  · simp [hseeds, openedRefs]
  · by_cases hopen : shouldOpen a.seedMemoryIds s.arcs.openArcs
    · rw [if_neg hseeds, if_pos hopen, if_pos (by simp [hseeds, hopen])]
      show a.ref :: openedRefs _ = [a.ref]
      rw [openedRefs_seeds]
    · rw [if_neg hseeds, if_neg hopen, if_neg (by simp [hopen])]
      split
      · rfl
      · dsimp only [extendArc]
        split_ifs
        · rfl
        · exact openedRefs_seeds _ _ _

theorem Held.put {s : ArcsState} {x m : Text} {arc : Arc} (h : Held s m)
    (harc : ∀ old, s.openArcs.get? x = some old → m ∈ old.memberIds → m ∈ arc.memberIds) :
    Held (s.put x arc) m := by
  obtain ⟨y, old, hget, hm⟩ := h
  by_cases hy : y = x
  · subst hy
    exact ⟨y, arc, by rw [ArcsState.put, Dict.get?_set, if_pos rfl], harc old hget hm⟩
  · exact ⟨y, old, by rw [ArcsState.put, Dict.get?_set, if_neg hy, hget], hm⟩

theorem held_put_self (s : ArcsState) {x m : Text} {arc : Arc} (hm : m ∈ arc.memberIds) :
    Held (s.put x arc) m :=
  ⟨x, arc, by rw [ArcsState.put, Dict.get?_set, if_pos rfl], hm⟩

/-- Some arc is there to extend, where a seed is held. -/
theorem targetArc_isSome {s : ArcsState} {seeds : List Text} {m : Text} (hm : m ∈ seeds)
    (h : Held s m) : (targetArc s.openArcs seeds).isSome := by
  obtain ⟨x, arc, hget, harc⟩ := h
  rw [targetArc, List.find?_isSome]
  exact ⟨(x, arc), Dict.mem_entries_of_get? hget,
    List.any_eq_true.mpr ⟨m, harc, decide_eq_true hm⟩⟩

theorem memberIds_append {arc arc' : Arc} {ks : List ArcMember}
    (h : arc'.members = arc.members ++ ks) :
    arc'.memberIds = arc.memberIds ++ ks.map ArcMember.memoryId := by
  rw [Arc.memberIds, h, List.map_append]
  rfl

theorem memberIds_openArc (a : Anchor) :
    (a.seedMemoryIds.map (seedMember a)).map ArcMember.memoryId = a.seedMemoryIds := by
  simp [seedMember, Function.comp_def]

/-- After its turn an anchor's seeds are all held, and so is what was held before, where the id for
a new arc is that of no open one. -/
theorem held_sweepAnchor {p : Pass} {a : Anchor} {s : Progress}
    (hfresh : s.arcs.openArcs.get? (p.newId a.ref) = none) {m : Text}
    (h : Held s.arcs m ∨ m ∈ a.seedMemoryIds) : Held (sweepAnchor p a s).1.arcs m := by
  dsimp only [sweepAnchor]
  split_ifs with hseeds hopen
  · refine h.resolve_right fun hm => ?_
    rw [List.isEmpty_iff.mp hseeds] at hm
    simp at hm
  · -- the anchor opens an arc
    rcases h with h | hm
    · exact h.put fun old hget => by rw [hfresh] at hget; simp at hget
    · refine held_put_self _ ?_
      rw [Arc.memberIds, memberIds_openArc]
      exact hm
  · -- some seed is held, so there is an arc to extend
    obtain ⟨k, hk, hheld⟩ : ∃ k ∈ a.seedMemoryIds, Held s.arcs k := by
      by_contra hnone
      push Not at hnone
      exact hopen ((shouldOpen_iff _ _).mpr hnone)
    have htarget := targetArc_isSome hk hheld
    split
    · rename_i hnone
      rw [hnone] at htarget
      simp at htarget
    · rename_i x arc hsome
      have hget := get?_of_targetArc hsome
      dsimp only [extendArc]
      split_ifs with hadded
      · -- all seeds are members of it
        rcases h with h | hm
        · exact h
        · refine ⟨x, arc, hget, ?_⟩
          by_contra hnot
          have hnew := (mem_newSeeds arc.memberIds a.seedMemoryIds m).mpr ⟨hm, hnot⟩
          rw [List.isEmpty_iff.mp hadded] at hnew
          simp at hnew
      · rcases h with h | hm
        · refine h.put fun old hold hmem => ?_
          obtain rfl : arc = old := Option.some.inj (hget.symm.trans hold)
          rw [memberIds_append rfl]
          exact List.mem_append_left _ hmem
        · refine held_put_self _ ?_
          rw [memberIds_append rfl, List.mem_append]
          by_cases hmem : m ∈ arc.memberIds
          · exact .inl hmem
          · refine .inr ?_
            rw [List.map_map]
            exact List.mem_map.mpr ⟨m, (mem_newSeeds _ _ _).mpr ⟨hm, hmem⟩, rfl⟩

/-- An id that no open arc has is still free after an anchor's turn, unless it is the new one. -/
theorem free_sweepAnchor {p : Pass} {a : Anchor} {s : Progress} {y : Text}
    (hy : s.arcs.openArcs.get? y = none) (hne : y ≠ p.newId a.ref) :
    (sweepAnchor p a s).1.arcs.openArcs.get? y = none := by
  dsimp only [sweepAnchor]
  split_ifs
  · exact hy
  · dsimp only [openArc, Progress.touch, Progress.put, ArcsState.put]
    rw [Dict.get?_set, if_neg hne, hy]
  · split
    · exact hy
    · rename_i x arc htarget
      have hx : y ≠ x := by
        rintro rfl
        rw [get?_of_targetArc htarget] at hy
        simp at hy
      dsimp only [extendArc]
      split_ifs
      · exact hy
      · dsimp only [Progress.touch, Progress.put, ArcsState.put]
        rw [Dict.get?_set, if_neg hx, hy]

/-! ## One arc for each anchor -/

/-- An anchor that has opened an arc has a seed that is a member of an open one, or that an anchor
swept before it has too. -/
def Covered (s : ArcsState) (log : List Event) (anchors : List Anchor) : Prop :=
  ∀ a ∈ anchors, a.ref ∈ openedRefs log →
    ∃ m ∈ a.seedMemoryIds, Held s m ∨
      ∃ b ∈ anchors.takeWhile (fun b => b.ref ≠ a.ref), m ∈ b.seedMemoryIds

/-- The ids drawn for new arcs are distinct, and none is that of an open arc. -/
def FreshIds (s : ArcsState) (p : Pass) : Prop :=
  (p.anchors.map fun a => p.newId a.ref).Nodup ∧
    ∀ a ∈ p.anchors, s.openArcs.get? (p.newId a.ref) = none

/-- The anchors before one with its ref are those that do not have it. -/
theorem takeWhile_ref {done rest : List Anchor} {a : Anchor}
    (h : ((done ++ a :: rest).map Anchor.ref).Nodup) :
    (done ++ a :: rest).takeWhile (fun b => b.ref ≠ a.ref) = done := by
  have hdone : ∀ b ∈ done, decide (b.ref ≠ a.ref) = true := by
    intro b hb
    rw [List.map_append, List.nodup_append] at h
    exact decide_eq_true (h.2.2 _ (List.mem_map_of_mem hb) _ (by simp))
  rw [List.takeWhile_append_of_pos hdone]
  simp

/-- In the middle of the anchor sweep: what was held at its start still is, so are the seeds of the
anchors swept, the ids for the others are free, and arcs were opened by anchors swept that had
opened none. -/
structure Swept (p : Pass) (loaded : ArcsState) (log : List Event) (done : List Anchor)
    (s : Progress) (es : List Event) : Prop where
  held : ∀ m, Held loaded m → Held s.arcs m
  seeds : ∀ b ∈ done, ∀ m ∈ b.seedMemoryIds, Held s.arcs m
  free : ∀ b ∈ p.anchors, b ∉ done → s.arcs.openArcs.get? (p.newId b.ref) = none
  refs : (openedRefs es).Sublist (done.map Anchor.ref)
  unopened : ∀ ref ∈ openedRefs es, ref ∉ openedRefs log

theorem openedRefs_append (log es : List Event) :
    openedRefs (log ++ es) = openedRefs log ++ openedRefs es := List.filterMap_append

section

variable {p : Pass} {loaded : ArcsState} {log es : List Event} {done rest : List Anchor}
  {a : Anchor} {s : Progress}

/-- One anchor's turn. -/
theorem Swept.turn (h : Swept p loaded log done s es) (hsplit : p.anchors = done ++ a :: rest)
    (hrefs : (p.anchors.map Anchor.ref).Nodup) (hids : FreshIds loaded p)
    (hcovered : Covered loaded log p.anchors) :
    Swept p loaded log (done ++ [a]) (sweepAnchor p a s).1 (es ++ (sweepAnchor p a s).2) := by
  have ha : a ∈ p.anchors := by simp [hsplit]
  have hbefore : p.anchors.takeWhile (fun b => b.ref ≠ a.ref) = done := by
    rw [hsplit] at hrefs ⊢
    exact takeWhile_ref hrefs
  have hnot : a ∉ done := by
    intro hmem
    rw [hsplit, List.map_append, List.nodup_append] at hrefs
    exact hrefs.2.2 _ (List.mem_map_of_mem hmem) _ (by simp) rfl
  have hfree := h.free a ha hnot
  have hheld (m : Text) (hm : Held s.arcs m ∨ m ∈ a.seedMemoryIds) :=
    held_sweepAnchor (p := p) hfree hm
  have hopened := openedRefs_sweepAnchor p a s
  constructor
  · exact fun m hm => hheld m (.inl (h.held m hm))
  · intro b hb m hm
    rcases List.mem_append.mp hb with hb | hb
    · exact hheld m (.inl (h.seeds b hb m hm))
    · obtain rfl : b = a := List.mem_singleton.mp hb
      exact hheld m (.inr hm)
  · intro b hb hnotb
    rw [List.mem_append, not_or] at hnotb
    refine free_sweepAnchor (h.free b hb hnotb.1) fun heq => hnotb.2 ?_
    exact List.mem_singleton.mpr (List.inj_on_of_nodup_map hids.1 hb ha heq)
  · rw [openedRefs_append, List.map_append, hopened]
    refine h.refs.append ?_
    split_ifs
    · exact List.Sublist.refl _
    · exact List.nil_sublist _
  · intro ref href
    rw [openedRefs_append, List.mem_append] at href
    rcases href with href | href
    · exact h.unopened ref href
    · rw [hopened] at href
      split_ifs at href with hopens
      · obtain rfl : ref = a.ref := List.mem_singleton.mp href
        intro hlog
        -- the anchor had opened an arc, so one of its seeds is held when its turn comes
        obtain ⟨m, hm, hcover⟩ := hcovered a ha hlog
        rw [hbefore] at hcover
        have hheldm : Held s.arcs m := by
          rcases hcover with hm' | ⟨b, hb, hm'⟩
          · exact h.held m hm'
          · exact h.seeds b hb m hm'
        rw [Bool.and_eq_true] at hopens
        exact (shouldOpen_iff _ _).mp hopens.2 m hm hheldm
      · simp at href

/-- A pass opens at most one arc for each anchor, and none for one that had opened an arc. -/
theorem nodup_openedRefs_sweep (hlog : (openedRefs log).Nodup)
    (hrefs : (p.anchors.map Anchor.ref).Nodup) (hids : FreshIds loaded p)
    (hcovered : Covered loaded log p.anchors) :
    (openedRefs (log ++ (sweep p { arcs := loaded }).2)).Nodup := by
  have hswept := Work.forEach_rule (sweepAnchor p) p.anchors (Swept p loaded log)
    (s := { arcs := loaded })
    ⟨fun m hm => hm, by simp, fun b hb _ => hids.2 b hb, List.Sublist.refl _, by simp [openedRefs]⟩
    fun done a rest s es hsplit h => h.turn hsplit hrefs hids hcovered
  have hsweep : openedRefs (sweep p { arcs := loaded }).2 =
      openedRefs (Work.forEach (sweepAnchor p) p.anchors { arcs := loaded }).2 := by
    rw [sweep, Work.andThen, openedRefs_append, openedRefs_sweepArcs, List.append_nil]
  rw [openedRefs_append, hsweep]
  refine hlog.append (hrefs.sublist hswept.refs) ?_
  exact fun ref hin hnew => hswept.unopened ref hnew hin

end

/-! ## What a load finds -/

theorem any_newestEventTs (log : List Event) (t : Instant) :
    (newestEventTs log).any (t < ·) = true ↔ ∃ e ∈ log, t < e.ts := by
  induction log using List.reverseRecOn with
  | nil => simp [newestEventTs]
  | append_singleton log e ih =>
    have hlast : newestEventTs (log ++ [e]) =
        if (newestEventTs log).all (· < e.ts) then some e.ts else newestEventTs log := by
      rw [newestEventTs, List.foldl_append]
      rfl
    have hmem : (∃ e' ∈ log ++ [e], t < e'.ts) ↔ (∃ e' ∈ log, t < e'.ts) ∨ t < e.ts := by
      simp [or_and_right, exists_or]
    rw [hmem, hlast, ← ih]
    cases newestEventTs log with
    | none => simp
    | some newest =>
      by_cases hlt : newest < e.ts
      · simp only [Option.all_some, hlt, decide_true, if_true, Option.any_some, decide_eq_true_eq]
        exact ⟨.inr, fun h => h.elim (fun h => h.trans hlt) id⟩
      · simp only [Option.all_some, hlt, decide_false, Bool.false_eq_true, if_false,
          Option.any_some, decide_eq_true_eq]
        exact ⟨.inl, fun h => h.elim id fun h => h.trans_le (not_lt.mp hlt)⟩

/-- The log is newer than a state just in case some event is, or the state has no time. -/
theorem logNewer_iff (log : List Event) (s : ArcsState) :
    logNewerThanState log s = true ↔
      log ≠ [] ∧ ∀ last ∈ s.lastPassTs, ∃ e ∈ log, last < e.ts := by
  rw [logNewerThanState]
  cases log with
  | nil => simp
  | cons e log =>
    cases hlast : s.lastPassTs with
    | none => simp
    | some last =>
      simp only [List.isEmpty_cons, Bool.false_eq_true, if_false, any_newestEventTs, ne_eq,
        reduceCtorEq, not_false_eq_true, true_and, Option.mem_some_iff, forall_eq']

theorem logNewer_append {log es : List Event} {s : ArcsState}
    (h : logNewerThanState log s = true) : logNewerThanState (log ++ es) s = true := by
  rw [logNewer_iff] at h ⊢
  refine ⟨by simp [h.1], fun last hlast => ?_⟩
  obtain ⟨e, he, hlt⟩ := h.2 last hlast
  exact ⟨e, List.mem_append_left _ he, hlt⟩

/-- A load takes the saved state, finds nothing, or replays the log. -/
theorem load_cases (file : Option ArcsState) (log : List Event) :
    (∃ s, file = some s ∧ logNewerThanState log s = false ∧ loadOrRecover file log = s) ∨
      (file = none ∧ log = [] ∧ loadOrRecover file log = {}) ∨
        (log ≠ [] ∧ (∀ s ∈ file, logNewerThanState log s = true) ∧
          loadOrRecover file log = replayFromLog log) := by
  cases file with
  | none =>
    cases log with
    | nil => exact .inr (.inl ⟨rfl, rfl, rfl⟩)
    | cons e log => exact .inr (.inr ⟨by simp, by simp, rfl⟩)
  | some s =>
    cases hnewer : logNewerThanState log s with
    | false => exact .inl ⟨s, rfl, hnewer, by simp [loadOrRecover, Option.filter, hnewer]⟩
    | true =>
      have hlog : log ≠ [] := ((logNewer_iff log s).mp hnewer).1
      refine .inr (.inr ⟨hlog, by simpa using hnewer, ?_⟩)
      simp [loadOrRecover, Option.filter, hnewer, hlog]

theorem load_of_newer {file : Option ArcsState} {log : List Event} (hlog : log ≠ [])
    (hnewer : ∀ s ∈ file, logNewerThanState log s = true) :
    loadOrRecover file log = replayFromLog log := by
  rcases load_cases file log with ⟨s, hfile, hold, -⟩ | ⟨-, hnil, -⟩ | ⟨-, -, hload⟩
  · rw [hnewer s hfile] at hold
    simp at hold
  · exact absurd hnil hlog
  · exact hload

/-! ## Runs -/

/-- A persona: the anchors that there are, the log, and the saved state. -/
structure World where
  anchors : List Anchor := []
  log : List Event := []
  file : Option ArcsState := none

/-- What the next pass starts from. -/
def World.loaded (w : World) : ArcsState := loadOrRecover w.file w.log

/-- The anchor is newer than the last pass, or there was none. -/
def newerThan (lastPass : Option Instant) (a : Anchor) : Bool := lastPass.all (· < a.ts)

/-- What may happen next: a new anchor, or a pass, which is through or stops after so many of its
events, before it saves. -/
inductive Act
  | anchor (a : Anchor)
  | pass (p : Pass) (stop : Option ℕ)

/-- `anchor_sweep` returned the anchors newer than the last pass, or all of them where there was
none, in some order. -/
def World.Due (w : World) (p : Pass) : Prop :=
  p.anchors.Perm (w.anchors.filter (newerThan w.loaded.lastPassTs))

instance (w : World) (p : Pass) : Decidable (w.Due p) := inferInstanceAs (Decidable (List.Perm _ _))

/-- One step of a run. -/
def World.step (w : World) : Act → Option World
  | .anchor a =>
    if a.ref ∈ w.anchors.map Anchor.ref then none else some { w with anchors := w.anchors ++ [a] }
  | .pass p stop =>
    if w.Due p then
      let (saved, _, events) := runPass p w.loaded
      match stop with
      | none => some { w with log := w.log ++ events, file := some saved }
      | some n => some { w with log := w.log ++ events.take n }
    else none

/-- The passes of a persona that starts without anchors. -/
def machine : Machine World Act := { init := fun w => w = {}, step := World.step }

/-- What arcs owe a persona whose passes may stop: each anchor opens at most one, one that was
closed does not come back from its anchor, and a load finds the arcs that the log describes. -/
structure Survives (w : World) : Prop where
  /-- No anchor opened two arcs. -/
  once : (openedRefs w.log).Nodup
  /-- The anchor that opened an arc opens none after the arc was closed. -/
  closed : ∀ pre post x ref, w.log = pre ++ post → (∃ e ∈ pre, e.Opens x ∧ e.openedBy = some ref) →
    (∃ e ∈ pre, e.Closes x) → ∀ e ∈ post, e.openedBy ≠ some ref
  /-- The open arcs are those of the log. -/
  arcs : ∀ x, (w.loaded.openArcs.get? x).isSome ↔ OpenIn w.log x
  /-- Their members are those of the log. -/
  members : ∀ x m, (∃ arc, w.loaded.openArcs.get? x = some arc ∧ m ∈ arc.memberIds) ↔
    MemberIn w.log x m

/-- The clock readings of the pass's events are later than the last pass. -/
def LaterThan (last : Instant) (p : Pass) : Prop :=
  (∀ x m, last < p.joinedAt x m) ∧ (∀ x m, last < p.evictedAt x m) ∧ ∀ x, last < p.closedAt x

/-- A pass from a replay finds the anchors that opened arcs covered, no anchor names a seed twice,
the ids drawn are fresh, and in a pass that stops the clock is past the last one. -/
def Kept (w : World) : Act → Prop
  | .anchor _ => True
  | .pass p stop =>
    (w.loaded.replayed = true → Covered w.loaded w.log p.anchors) ∧
      (∀ a ∈ p.anchors, a.seedMemoryIds.Nodup) ∧ FreshIds w.loaded p ∧
        (stop ≠ none → ∀ last ∈ w.loaded.lastPassTs, LaterThan last p)

/-- The invariant of runs within `Kept`. -/
structure Sound (w : World) : Prop where
  refs : (w.anchors.map Anchor.ref).Nodup
  stamped : ∀ e ∈ w.log, ∀ ref, e.openedBy = some ref → ∃ a ∈ w.anchors, a.ref = ref ∧ a.ts = e.ts
  once : (openedRefs w.log).Nodup
  file : ∀ s ∈ w.file, s.replayed = false
  tidy : Tidy w.loaded
  described : accountOf w.loaded = account w.log

/-- A load finds what the log describes, if a saved state that it would take does. -/
theorem load_described (file : Option ArcsState) (log : List Event)
    (h : ∀ s ∈ file, logNewerThanState log s = false → Tidy s ∧ accountOf s = account log) :
    Tidy (loadOrRecover file log) ∧ accountOf (loadOrRecover file log) = account log := by
  rcases load_cases file log with ⟨s, hs, hold, hload⟩ | ⟨-, hnil, hload⟩ | ⟨-, -, hload⟩
  · rw [hload]
    exact h s hs hold
  · rw [hload, hnil]
    exact ⟨fun x arc hget => by simp at hget, rfl⟩
  · rw [hload]
    exact replayFromLog_account log

theorem Tidy.finished {s : ArcsState} (h : Tidy s) (p : Pass) : Tidy (finished p s) := h

theorem accountOf_finished (p : Pass) (s : ArcsState) : accountOf (finished p s) = accountOf s := by
  funext x
  rfl

theorem replayed_replayFromLog (log : List Event) : (replayFromLog log).replayed = true := by
  have hevent (s : ArcsState) (e : Event) : (replayEvent s e).replayed = s.replayed := by
    cases e with
    | arcOpened x => rfl
    | memberAdded x m =>
      dsimp only [replayEvent]
      split
      · rfl
      · split_ifs <;> rfl
    | memberEvicted x m =>
      dsimp only [replayEvent]
      split <;> rfl
    | arcClosed x =>
      dsimp only [replayEvent]
      split <;> rfl
  show (log.foldl replayEvent { replayed := true }).replayed = true
  induction log using List.reverseRecOn with
  | nil => rfl
  | append_singleton log e ih =>
    rw [List.foldl_append]
    exact (hevent _ e).trans ih

/-- From a state that was taken as it is, the sweep meets no anchor that opened an arc: its event
would be newer than the state. -/
theorem covered_of_not_replayed {w : World} (h : Sound w) (hnot : w.loaded.replayed = false)
    {p : Pass} (hp : w.Due p) :
    Covered w.loaded w.log p.anchors := by
  intro a ha href
  exfalso
  obtain ⟨e, he, hopened⟩ := List.mem_filterMap.mp href
  obtain ⟨b, hb, hbref, hbts⟩ := h.stamped e he a.ref hopened
  have hmem := hp.mem_iff.mp ha
  rw [List.mem_filter] at hmem
  obtain rfl : b = a := List.inj_on_of_nodup_map h.refs hb hmem.1 hbref
  rcases load_cases w.file w.log with ⟨s, hs, hold, hload⟩ | ⟨-, hnil, -⟩ | ⟨-, -, hload⟩
  · -- the event has the anchor's time, which is past that of the state
    have hnewer : logNewerThanState w.log s = true := by
      refine (logNewer_iff _ _).mpr ⟨List.ne_nil_of_mem he, fun last hlast => ⟨e, he, ?_⟩⟩
      have hnew := hmem.2
      rw [World.loaded, hload, newerThan, Option.mem_def.mp hlast] at hnew
      rw [← hbts]
      simpa using hnew
    rw [hold] at hnewer
    simp at hnewer
  · rw [hnil] at he
    simp at he
  · rw [World.loaded, hload, replayed_replayFromLog] at hnot
    simp at hnot

theorem ts_of_ofAnchor {a : Anchor} {e : Event} (h : OfAnchor a e) : e.ts = a.ts := by
  cases e with
  | arcOpened => exact h.2
  | memberAdded => exact h
  | memberEvicted => exact h.elim
  | arcClosed => exact h.elim

theorem lt_ts_of_ofArcs {last : Instant} {p : Pass} (hclock : LaterThan last p) {e : Event}
    (h : OfArcs p e) : last < e.ts := by
  cases e with
  | arcOpened => exact h.elim
  | memberAdded x m => exact (hclock.1 x m).trans_eq h.symm
  | memberEvicted x m => exact (hclock.2.1 x m).trans_eq h.symm
  | arcClosed x => exact (hclock.2.2 x).trans_eq h.symm

/-- What the sweeps of a pass leave in memory, and its events. -/
def World.swept (w : World) (p : Pass) : Progress × List Event := sweep p { arcs := w.loaded }

section

variable {w : World} {p : Pass}

/-- The events of a pass from a state with a time are past that time. -/
theorem lt_ts_of_mem_sweep {last : Instant} (hlast : w.loaded.lastPassTs = some last)
    (hp : w.Due p)
    (hclock : LaterThan last p) {e : Event} (he : e ∈ (w.swept p).2) :
    last < e.ts := by
  rcases emits_sweep p _ e he with ⟨a, ha, hof⟩ | hof
  · have hnew := (List.mem_filter.mp (hp.mem_iff.mp ha)).2
    rw [hlast, newerThan] at hnew
    rw [ts_of_ofAnchor hof]
    simpa using hnew
  · exact lt_ts_of_ofArcs hclock hof

/-- The events of a pass that open arcs are of anchors that there are, with their times. -/
theorem stamped_sweep (hp : w.Due p)
    {e : Event} (he : e ∈ (w.swept p).2) {ref : Text}
    (href : e.openedBy = some ref) : ∃ a ∈ w.anchors, a.ref = ref ∧ a.ts = e.ts := by
  rcases emits_sweep p _ e he with ⟨a, ha, hof⟩ | hof
  · refine ⟨a, (List.mem_filter.mp (hp.mem_iff.mp ha)).1, ?_, (ts_of_ofAnchor hof).symm⟩
    cases e with
    | arcOpened => exact hof.1.symm.trans (Option.some.inj href)
    | memberAdded => simp [Event.openedBy] at href
    | memberEvicted => simp [Event.openedBy] at href
    | arcClosed => simp [Event.openedBy] at href
  · cases e with
    | arcOpened => exact hof.elim
    | memberAdded => simp [Event.openedBy] at href
    | memberEvicted => simp [Event.openedBy] at href
    | arcClosed => simp [Event.openedBy] at href

/-- What the sweeps leave in memory is what the log describes with their events. -/
theorem described_sweep (h : Sound w) (hseeds : ∀ a ∈ p.anchors, a.seedMemoryIds.Nodup) :
    Tidy (w.swept p).1.arcs ∧
      accountOf (w.swept p).1.arcs =
        account (w.log ++ (w.swept p).2) := by
  have hsweep := accounted_sweep hseeds
  refine ⟨hsweep.leaves { arcs := w.loaded } h.tidy,
    (hsweep.follows { arcs := w.loaded } h.tidy).trans ?_⟩
  rw [h.described, account, account, List.foldl_append]
  rfl

theorem once_sweep (h : Sound w) (hp : w.Due p)
    (hcovered : w.loaded.replayed = true → Covered w.loaded w.log p.anchors)
    (hids : FreshIds w.loaded p) :
    (openedRefs (w.log ++ (w.swept p).2)).Nodup := by
  have hrefs : (p.anchors.map Anchor.ref).Nodup :=
    (hp.map Anchor.ref).nodup_iff.mpr (h.refs.sublist (List.filter_sublist.map _))
  refine nodup_openedRefs_sweep h.once hrefs hids ?_
  cases hreplayed : w.loaded.replayed with
  | false => exact covered_of_not_replayed h hreplayed hp
  | true => exact hcovered hreplayed

/-- A pass that is through. -/
theorem Sound.through (h : Sound w) (hp : w.Due p)
    (hcovered : w.loaded.replayed = true → Covered w.loaded w.log p.anchors)
    (hseeds : ∀ a ∈ p.anchors, a.seedMemoryIds.Nodup) (hids : FreshIds w.loaded p) :
    Sound { w with
      log := w.log ++ (w.swept p).2
      file := some (finished p (w.swept p).1.arcs) } := by
  obtain ⟨htidy, hdescribed⟩ := described_sweep h hseeds
  have hload := load_described (some (finished p (w.swept p).1.arcs)) (w.log ++ (w.swept p).2) (by
    intro s hs _
    rw [← Option.mem_some_iff.mp hs, accountOf_finished]
    exact ⟨htidy.finished p, hdescribed⟩)
  constructor
  · exact h.refs
  · intro e he ref href
    rcases List.mem_append.mp he with he | he
    · exact h.stamped e he ref href
    · exact stamped_sweep hp he href
  · exact once_sweep h hp hcovered hids
  · intro s hs
    rw [← Option.mem_some_iff.mp hs]
    rfl
  · exact hload.1
  · exact hload.2

/-- A pass that stops before it saves. -/
theorem Sound.stopped (h : Sound w) (hp : w.Due p)
    (hcovered : w.loaded.replayed = true → Covered w.loaded w.log p.anchors)
    (hids : FreshIds w.loaded p) (hclock : ∀ last ∈ w.loaded.lastPassTs, LaterThan last p) (n : ℕ) :
    Sound { w with log := w.log ++ (w.swept p).2.take n } := by
  have hsub : ∀ e ∈ (w.swept p).2.take n, e ∈ (w.swept p).2 :=
    fun e he => List.mem_of_mem_take he
  have hload : Tidy (loadOrRecover w.file (w.log ++ (w.swept p).2.take n)) ∧
      accountOf (loadOrRecover w.file (w.log ++ (w.swept p).2.take n)) =
        account (w.log ++ (w.swept p).2.take n) := by
    cases htake : (w.swept p).2.take n with
    | nil =>
      rw [List.append_nil]
      exact ⟨h.tidy, h.described⟩
    | cons e es =>
      -- the first event appended makes the log newer than the saved state, if it was not
      rw [load_of_newer (by simp)]
      · exact replayFromLog_account _
      · intro s hs
        rcases load_cases w.file w.log with ⟨s', hs', -, hload⟩ | ⟨hnone, -⟩ | ⟨-, hnewer, -⟩
        · obtain rfl : s' = s := by simpa [hs'] using hs
          refine (logNewer_iff _ _).mpr ⟨by simp, fun last hlast => ⟨e, by simp, ?_⟩⟩
          have hlast' : w.loaded.lastPassTs = some last := by
            rw [World.loaded, hload]
            exact hlast
          exact lt_ts_of_mem_sweep hlast' hp (hclock last hlast') (hsub e (by simp [htake]))
        · simp [hnone] at hs
        · exact logNewer_append (hnewer s hs)
  constructor
  · exact h.refs
  · intro e he ref href
    rcases List.mem_append.mp he with he | he
    · exact h.stamped e he ref href
    · exact stamped_sweep hp (hsub e he) href
  · refine (once_sweep h hp hcovered hids).sublist ?_
    exact ((List.Sublist.refl w.log).append (List.take_sublist _ _)).filterMap _
  · exact h.file
  · exact hload.1
  · exact hload.2

end

theorem Sound.anchor {w : World} (h : Sound w) {a : Anchor} (ha : a.ref ∉ w.anchors.map Anchor.ref) :
    Sound { w with anchors := w.anchors ++ [a] } := by
  constructor
  · rw [List.map_append, List.nodup_append]
    refine ⟨h.refs, by simp, ?_⟩
    rintro ref href _ hr rfl
    obtain rfl : ref = a.ref := by simpa using hr
    exact ha href
  · intro e he ref href
    obtain ⟨b, hb, hbref⟩ := h.stamped e he ref href
    exact ⟨b, List.mem_append_left _ hb, hbref⟩
  · exact h.once
  · exact h.file
  · exact h.tidy
  · exact h.described

theorem Sound.step {w w' : World} (h : Sound w) {act : Act} (hkept : Kept w act)
    (hstep : w.step act = some w') : Sound w' := by
  cases act with
  | anchor a =>
    dsimp only [World.step] at hstep
    split_ifs at hstep with ha
    obtain rfl := Option.some.inj hstep
    exact h.anchor ha
  | pass p stop =>
    obtain ⟨hcovered, hseeds, hids, hclock⟩ := hkept
    dsimp only [World.step] at hstep
    split_ifs at hstep with hp
    cases stop with
    | none =>
      obtain rfl := Option.some.inj hstep
      exact h.through hp hcovered hseeds hids
    | some n =>
      obtain rfl := Option.some.inj hstep
      exact h.stopped hp hcovered hids (hclock (by simp)) n

theorem sound {w : World} (h : machine.Reach Kept w) : Sound w := by
  refine h.invariant (I := Sound) ?_ fun w act w' hw hkept hstep => hw.step hkept hstep
  rintro _ rfl
  have hload := load_described none [] (by simp)
  exact ⟨List.nodup_nil, by simp, List.nodup_nil, by simp, hload.1, hload.2⟩

/-- An anchor that opened an arc opens none later. -/
theorem openedBy_ne_of_nodup {pre post : List Event} {ref : Text}
    (h : (openedRefs (pre ++ post)).Nodup) (hpre : ∃ e ∈ pre, e.openedBy = some ref) :
    ∀ e ∈ post, e.openedBy ≠ some ref := by
  intro e he href
  obtain ⟨e₀, he₀, href₀⟩ := hpre
  rw [openedRefs_append, List.nodup_append] at h
  exact h.2.2 ref (List.mem_filterMap.mpr ⟨e₀, he₀, href₀⟩) ref
    (List.mem_filterMap.mpr ⟨e, he, href⟩) rfl

/-- Arcs survive stops, where replays find them covered. -/
theorem arcs_survive {w : World} (h : machine.Reach Kept w) : Survives w := by
  have hsound := sound h
  constructor
  · exact hsound.once
  · intro pre post x ref hlog hopens _
    obtain ⟨e, he, -, href⟩ := hopens
    exact openedBy_ne_of_nodup (hlog ▸ hsound.once) ⟨e, he, href⟩
  · intro x
    rw [← isSome_account, ← hsound.described, accountOf, Option.isSome_map]
  · intro x m
    rw [← mem_account, ← hsound.described]
    simp only [accountOf, Option.map_eq_some_iff]
    constructor
    · rintro ⟨arc, hget, hm⟩
      exact ⟨arc.memberSet, ⟨arc, hget, rfl⟩, hm⟩
    · rintro ⟨_, ⟨arc, hget, rfl⟩, hm⟩
      exact ⟨arc, hget, hm⟩

/-! ## Two runs -/

/-- The first entry of the log of dreams, with one memory. -/
def boatDream : Anchor :=
  ⟨"dream".toList, "dreams.log.jsonl:1".toList, "the boat one".toList, 1, some 0, ["m1".toList]⟩

/-- A pass at an instant and a lived age, without candidates, that would open arcs with this id. -/
def quietPass (anchors : List Anchor) (id : String) (livedAge : ℚ) (now : Instant) : Pass where
  anchors := anchors
  newId _ := id.toList
  candidatePool _ := []
  isExempt _ := false
  weight _ _ := 0
  near _ _ := false
  salienceScore _ := 0
  livedAgeNow := some livedAge
  closeEmotion _ := (0, none)
  joinedAt _ _ := now
  extendedAt _ _ := now
  evictedAt _ _ := now
  closedAt _ := now
  doneAt := now

/-- A dream opens an arc, and the pass that closes it stops between the event and the save. -/
def closedUnsaved : List Act :=
  [.anchor boatDream, .pass (quietPass [boatDream] "arc_a" 0 10) none,
    .pass (quietPass [] "arc_b" 72 20) (some 1), .pass (quietPass [boatDream] "arc_b" 72 30) none]

/-- The dream opens a second arc, after the first was closed. -/
theorem anchor_opens_again : ∃ w, machine.Reachable w ∧
    openedRefs w.log = [boatDream.ref, boatDream.ref] ∧ ¬ Survives w := by
  obtain ⟨w, hreach, hrefs⟩ := Machine.exists_reach_of_runWithin (M := machine)
    (D := fun _ _ => True) (fun _ _ h => h) rfl closedUnsaved
    (fun w => decide (openedRefs w.log = [boatDream.ref, boatDream.ref])) (s := {})
    (by decide +kernel)
  have hrefs := of_decide_eq_true hrefs
  refine ⟨w, hreach, hrefs, fun h => ?_⟩
  have honce := h.once
  rw [hrefs] at honce
  simp at honce

/-- `Kept` where it can be evaluated: from a replay each anchor has a seed that is held, and a pass
that stops started from no saved state. -/
def KeptPlainly (w : World) : Act → Prop
  | .anchor _ => True
  | .pass p stop =>
    (w.loaded.replayed = true →
        ∀ a ∈ p.anchors, shouldOpen a.seedMemoryIds w.loaded.openArcs = false) ∧
      (∀ a ∈ p.anchors, a.seedMemoryIds.Nodup) ∧
        ((p.anchors.map fun a => p.newId a.ref).Nodup ∧
          ∀ a ∈ p.anchors, (w.loaded.openArcs.get? (p.newId a.ref)).isNone) ∧
          (stop = none ∨ w.loaded.lastPassTs = none)

instance (w : World) (act : Act) : Decidable (KeptPlainly w act) :=
  match act with
  | .anchor _ => inferInstanceAs (Decidable True)
  | .pass _ _ => inferInstanceAs (Decidable (_ ∧ _))

theorem kept_of_plainly {w : World} {act : Act} (h : KeptPlainly w act) : Kept w act := by
  cases act with
  | anchor a => exact h
  | pass p stop =>
    obtain ⟨hcovered, hseeds, ⟨hids, hfree⟩, hstop⟩ := h
    refine ⟨fun hreplayed a ha _ => ?_, hseeds, ⟨hids, fun a ha => ?_⟩, fun hstopped last hlast => ?_⟩
    · by_contra hnone
      have hopen : shouldOpen a.seedMemoryIds w.loaded.openArcs = true := by
        refine (shouldOpen_iff _ _).mpr fun m hm hheld => hnone ⟨m, hm, .inl hheld⟩
      rw [hcovered hreplayed a ha] at hopen
      simp at hopen
    · exact Option.isNone_iff_eq_none.mp (hfree a ha)
    · rw [hstop.resolve_left hstopped] at hlast
      simp at hlast

/-- The first pass stops before it saves, and the second one replays its events. -/
theorem arcs_survive_unsaved : ∃ w, machine.Reach Kept w ∧
    (w.log.length = 2 ∧ w.file.isSome) ∧ Survives w := by
  obtain ⟨w, hreach, hw⟩ := Machine.exists_reach_of_runWithin (M := machine) (D := KeptPlainly)
    (fun _ _ => kept_of_plainly) rfl
    [.anchor boatDream, .pass (quietPass [boatDream] "arc_a" 0 10) (some 2),
      .pass (quietPass [boatDream] "arc_b" 1 20) none]
    (fun w => decide (w.log.length = 2 ∧ w.file.isSome)) (s := {}) (by decide +kernel)
  exact ⟨w, hreach, of_decide_eq_true hw, arcs_survive hreach⟩

end Companion.Narrative

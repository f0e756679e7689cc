import Companion.Narrative.Arcs
import Mathlib.Data.List.Induction
import Mathlib.Data.Set.Insert

/-!
# What the log of the arcs describes

An arc is open since the event that opened it, and a memory is a member since the one that added it
(`OpenIn`, `MemberIn`). `account` finds both from one event after the other. A replay changes its
open arcs as each event changes the account, and so do the sweeps of a pass, with the events that
they append: after them, what is in memory is what the log describes (`accounted_sweep`). An anchor
that names a seed twice breaks this, since the cap may evict one of its two members and keep the
other, and the event evicts both.
-/

namespace Companion.Narrative

open Companion.Journal
open Companion.Memory (Text Instant)

/-! ## What the log describes -/

/-- The event opens the arc. -/
def Event.Opens (x : Text) : Event → Prop
  | .arcOpened y _ _ _ _ _ _ => y = x
  | _ => False

/-- The event closes the arc. -/
def Event.Closes (x : Text) : Event → Prop
  | .arcClosed y _ _ _ _ _ => y = x
  | _ => False

/-- The event adds the memory to the arc. -/
def Event.Adds (x m : Text) : Event → Prop
  | .memberAdded y k _ _ _ _ => y = x ∧ k = m
  | _ => False

/-- The event evicts the memory from the arc. -/
def Event.Evicts (x m : Text) : Event → Prop
  | .memberEvicted y k _ => y = x ∧ k = m
  | _ => False

/-- The ref of the anchor, where the event opens an arc from one. -/
def Event.openedBy : Event → Option Text
  | .arcOpened _ _ ref _ _ _ _ => some ref
  | _ => none

/-- The anchors that opened the arcs of a log, in order. -/
def openedRefs (log : List Event) : List Text := log.filterMap Event.openedBy

/-- The arc was opened, and not closed since. -/
def OpenIn (log : List Event) (x : Text) : Prop :=
  Since log (fun _ e => e.Opens x) (Event.Closes x)

/-- The memory was added to the arc while it was open, and since then it was not evicted from the
arc, nor the arc closed or opened anew. -/
def MemberIn (log : List Event) (x m : Text) : Prop :=
  Since log (fun pre e => OpenIn pre x ∧ e.Adds x m)
    fun e => e.Evicts x m ∨ e.Opens x ∨ e.Closes x

/-! ## The account of a log -/

/-- The arcs that are open, each with the set of its members. -/
abbrev Account := Text → Option (Set Text)

/-- What an event changes. -/
def Account.apply (A : Account) : Event → Account
  | .arcOpened x _ _ _ _ _ _ => Function.update A x (some ∅)
  | .memberAdded x m _ _ _ _ => Function.update A x ((A x).map (insert m))
  | .memberEvicted x m _ => Function.update A x ((A x).map (· \ {m}))
  | .arcClosed x _ _ _ _ _ => Function.update A x none

/-- The account after the events of a log. -/
def account (log : List Event) : Account := log.foldl Account.apply fun _ => none

theorem account_append_singleton (log : List Event) (e : Event) :
    account (log ++ [e]) = (account log).apply e := by
  rw [account, List.foldl_append]
  rfl

/-- The arc that an event is about. -/
def Event.arcId : Event → Text
  | .arcOpened x _ _ _ _ _ _ => x
  | .memberAdded x _ _ _ _ _ => x
  | .memberEvicted x _ _ => x
  | .arcClosed x _ _ _ _ _ => x

variable {e : Event} {x m : Text}

theorem apply_of_ne (A : Account) (h : e.arcId ≠ x) : A.apply e x = A x := by
  cases e <;> exact Function.update_of_ne (Ne.symm h) _ _

theorem arcId_of_opens (h : e.Opens x) : e.arcId = x := by
  cases e <;> first | exact h | exact h.elim

theorem arcId_of_closes (h : e.Closes x) : e.arcId = x := by
  cases e <;> first | exact h | exact h.elim

theorem arcId_of_adds (h : e.Adds x m) : e.arcId = x := by
  cases e <;> first | exact h.1 | exact h.elim

theorem arcId_of_evicts (h : e.Evicts x m) : e.arcId = x := by
  cases e <;> first | exact h.1 | exact h.elim

/-- The account has the arcs that are open. -/
theorem isSome_account (log : List Event) (x : Text) : (account log x).isSome ↔ OpenIn log x := by
  induction log using List.reverseRecOn with
  | nil => simp [account, OpenIn, not_since_nil]
  | append_singleton log e ih =>
    rw [OpenIn, since_append_singleton, account_append_singleton, ← OpenIn, ← ih]
    by_cases hx : e.arcId = x
    · subst hx
      cases e <;> simp [Account.apply, Event.arcId, Event.Opens, Event.Closes]
    · have hopens : ¬ e.Opens x := fun h => hx (arcId_of_opens h)
      have hcloses : ¬ e.Closes x := fun h => hx (arcId_of_closes h)
      simp [apply_of_ne _ hx, hopens, hcloses]

/-- The account has the members of each open arc. -/
theorem mem_account (log : List Event) (x m : Text) :
    (∃ M, account log x = some M ∧ m ∈ M) ↔ MemberIn log x m := by
  induction log using List.reverseRecOn with
  | nil => simp [account, MemberIn, not_since_nil]
  | append_singleton log e ih =>
    rw [MemberIn, since_append_singleton, account_append_singleton, ← MemberIn, ← ih,
      ← isSome_account]
    by_cases hx : e.arcId = x
    · subst hx
      -- whether the arc was open decides what an added or an evicted member changes
      cases hA : account log e.arcId with
      | none => cases e <;> simp_all [Account.apply, Event.arcId, Event.Adds]
      | some M =>
        cases e with
        | arcOpened => simp [Account.apply, Event.arcId, Event.Opens, Event.Adds]
        | memberAdded y k =>
          simp only [Event.arcId] at hA
          simp [Account.apply, Event.arcId, Event.Opens, Event.Closes, Event.Adds, Event.Evicts, hA,
            eq_comm (a := k)]
        | memberEvicted y k =>
          simp only [Event.arcId] at hA
          simp [Account.apply, Event.arcId, Event.Opens, Event.Closes, Event.Adds, Event.Evicts, hA,
            eq_comm (a := k)]
        | arcClosed => simp [Account.apply, Event.arcId, Event.Closes, Event.Adds]
    · have hopens : ¬ e.Opens x := fun h => hx (arcId_of_opens h)
      have hcloses : ¬ e.Closes x := fun h => hx (arcId_of_closes h)
      have hadds : ¬ e.Adds x m := fun h => hx (arcId_of_adds h)
      have hevicts : ¬ e.Evicts x m := fun h => hx (arcId_of_evicts h)
      simp [apply_of_ne _ hx, hopens, hcloses, hadds, hevicts]

/-! ## The account of a state -/

/-- The set of the members of an arc. -/
def Arc.memberSet (arc : Arc) : Set Text := {m | m ∈ arc.memberIds}

/-- The open arcs of a state with their members. -/
def accountOf (s : ArcsState) : Account := fun x => (s.openArcs.get? x).map Arc.memberSet

/-- No open arc has a memory twice. -/
def Tidy (s : ArcsState) : Prop := ∀ x arc, s.openArcs.get? x = some arc → arc.memberIds.Nodup

theorem accountOf_of_get? {s : ArcsState} {x : Text} {arc : Arc}
    (h : s.openArcs.get? x = some arc) : accountOf s x = some arc.memberSet := by
  rw [accountOf, h]
  rfl

theorem accountOf_put (s : ArcsState) (x : Text) (arc : Arc) :
    accountOf (s.put x arc) = Function.update (accountOf s) x (some arc.memberSet) := by
  funext y
  rw [accountOf, ArcsState.put, Dict.get?_set, Function.update_apply]
  split_ifs with hy
  · rfl
  · rfl

theorem Tidy.put {s : ArcsState} (h : Tidy s) {x : Text} {arc : Arc} (harc : arc.memberIds.Nodup) :
    Tidy (s.put x arc) := by
  intro y arc' hget
  rw [ArcsState.put, Dict.get?_set] at hget
  split_ifs at hget with hy
  · obtain rfl : arc = arc' := Option.some.inj hget
    exact harc
  · exact h y arc' hget

theorem accountOf_pop {s s' : ArcsState} {x : Text} (hs' : s'.openArcs = s.openArcs.pop x) :
    accountOf s' = Function.update (accountOf s) x none := by
  funext y
  rw [accountOf, hs', Dict.get?_pop, Function.update_apply]
  split_ifs with hy
  · rfl
  · rfl

theorem Tidy.pop {s s' : ArcsState} (h : Tidy s) {x : Text} (hs' : s'.openArcs = s.openArcs.pop x) :
    Tidy s' := by
  intro y arc hget
  rw [hs', Dict.get?_pop] at hget
  split_ifs at hget
  exact h y arc hget

theorem memberSet_append {arc arc' : Arc} {ks : List ArcMember}
    (h : arc'.members = arc.members ++ ks) :
    arc'.memberSet = arc.memberSet ∪ {m | m ∈ ks.map ArcMember.memoryId} := by
  ext m
  simp [Arc.memberSet, Arc.memberIds, h]

/-- An event about the members of an arc that is not open changes nothing. -/
theorem update_of_closed {A : Account} {x : Text} (h : A x = none) (f : Set Text → Set Text) :
    Function.update A x ((A x).map f) = A := by
  rw [h, Option.map_none, ← h, Function.update_eq_self]

theorem accountOf_of_none {s : ArcsState} {x : Text} (h : s.openArcs.get? x = none) :
    accountOf s x = none := by
  rw [accountOf, h]
  rfl

/-! ## A replay -/

/-- A replayed event changes the open arcs as it changes the account. -/
theorem accountOf_replayEvent (s : ArcsState) (e : Event) :
    accountOf (replayEvent s e) = (accountOf s).apply e := by
  cases e with
  | arcOpened x =>
    rw [replayEvent, accountOf_put, Account.apply]
    simp [Arc.memberSet, Arc.memberIds]
  | memberAdded x m ts age salience =>
    dsimp only [replayEvent, Account.apply]
    cases hget : s.openArcs.get? x with
    | none => exact (update_of_closed (accountOf_of_none hget) _).symm
    | some arc =>
      dsimp only
      rw [accountOf_of_get? hget, Option.map_some]
      split_ifs with hm
      · -- the memory is a member already
        have hmem : m ∈ arc.memberSet := hm
        rw [Set.insert_eq_of_mem hmem, ← accountOf_of_get? hget, Function.update_eq_self]
      · rw [accountOf_put, memberSet_append rfl]
        congr 2
        ext k
        simp [or_comm]
  | memberEvicted x m =>
    dsimp only [replayEvent, Account.apply]
    cases hget : s.openArcs.get? x with
    | none => exact (update_of_closed (accountOf_of_none hget) _).symm
    | some arc =>
      dsimp only
      rw [accountOf_of_get? hget, Option.map_some, accountOf_put]
      congr 2
      ext k
      simp only [Arc.memberSet, Arc.memberIds]
      aesop
  | arcClosed x =>
    dsimp only [replayEvent, Account.apply]
    cases hget : s.openArcs.get? x with
    | none =>
      dsimp only
      rw [← accountOf_of_none hget, Function.update_eq_self]
    | some arc => exact accountOf_pop rfl

theorem Tidy.replayEvent {s : ArcsState} (h : Tidy s) (e : Event) : Tidy (replayEvent s e) := by
  cases e with
  | arcOpened x => exact h.put List.nodup_nil
  | memberAdded x m ts age salience =>
    dsimp only [Narrative.replayEvent]
    cases hget : s.openArcs.get? x with
    | none => exact h
    | some arc =>
      dsimp only
      split_ifs with hm
      · exact h
      · refine h.put ?_
        have hnodup := List.nodup_concat _ _ |>.mpr ⟨hm, h x arc hget⟩
        simpa [Arc.memberIds] using hnodup
  | memberEvicted x m =>
    dsimp only [Narrative.replayEvent]
    cases hget : s.openArcs.get? x with
    | none => exact h
    | some arc => exact h.put ((h x arc hget).sublist (List.filter_sublist.map _))
  | arcClosed x =>
    dsimp only [Narrative.replayEvent]
    cases hget : s.openArcs.get? x with
    | none => exact h
    | some arc => exact h.pop rfl

/-- A replay finds what the log describes. -/
theorem replayFromLog_account (log : List Event) :
    Tidy (replayFromLog log) ∧ accountOf (replayFromLog log) = account log := by
  have hrun : Tidy (log.foldl replayEvent { replayed := true }) ∧
      accountOf (log.foldl replayEvent { replayed := true }) = account log := by
    induction log using List.reverseRecOn with
    | nil => exact ⟨fun x arc hget => by simp at hget, rfl⟩
    | append_singleton log e ih =>
      rw [List.foldl_append, account_append_singleton]
      exact ⟨ih.1.replayEvent e, (accountOf_replayEvent _ e).trans (by rw [ih.2])⟩
  exact hrun

/-! ## A pass -/

section Mirrors

variable {ρ : Type*} {I : Progress → Prop} {view : Progress → ρ} {apply : ρ → Event → ρ}

/-- The arc that a seed extends is open. -/
theorem get?_of_targetArc {openArcs : Dict Text Arc} {seeds : List Text} {x : Text} {arc : Arc}
    (h : targetArc openArcs seeds = some (x, arc)) : openArcs.get? x = some arc :=
  Dict.get?_of_mem_entries (List.mem_of_find?_eq_some h)

theorem mirrors_sweepAnchor {p : Pass} {a : Anchor} (hopen : (openArc p a).Mirrors I I view apply)
    (hextend : ∀ x arc, (extendArc a x arc).Mirrors
      (fun s => I s ∧ s.arcs.openArcs.get? x = some arc) I view apply) :
    (sweepAnchor p a).Mirrors I I view apply := by
  refine .chosen fun s hs => ?_
  dsimp only [sweepAnchor]
  split_ifs
  · exact ⟨_, _, hs, .skip, rfl⟩
  · exact ⟨_, _, hs, hopen, rfl⟩
  · split
    · exact ⟨_, _, hs, .skip, rfl⟩
    · rename_i x arc htarget
      exact ⟨_, _, ⟨hs, get?_of_targetArc htarget⟩, hextend x arc, rfl⟩

theorem mirrors_atArc {x : Text} {f : Arc → Work Progress Event}
    (hf : ∀ arc, (f arc).Mirrors (fun s => I s ∧ s.arcs.openArcs.get? x = some arc) I view apply) :
    (atArc x f).Mirrors I I view apply := by
  refine .chosen fun s hs => ?_
  dsimp only [atArc]
  split
  · exact ⟨_, _, hs, .skip, rfl⟩
  · rename_i arc hget
    exact ⟨_, _, ⟨hs, hget⟩, hf arc, rfl⟩

theorem mirrors_overOpen {f : Text → Work Progress Event}
    (hf : ∀ x, (f x).Mirrors I I view apply) : (overOpen f).Mirrors I I view apply :=
  .chosen fun _ hs => ⟨_, _, hs, .forEach fun x _ => hf x, rfl⟩

/-- A candidate joins once: the next time it is a member. -/
theorem mirrors_sweepPool {p : Pass} {x : Text}
    (hjoin : ∀ m arc via, m ∉ arc.memberIds → (joinArc p x m arc via).Mirrors
      (fun s => I s ∧ s.arcs.openArcs.get? x = some arc) I view apply)
    (centroid : Option (List Text)) (pool : List Text) :
    (sweepPool p x centroid pool).Mirrors I I view apply := by
  induction pool generalizing centroid with
  | nil => exact .skip
  | cons m pool ih =>
    rw [sweepPool]
    refine mirrors_atArc fun arc => ?_
    split_ifs with hskip
    · exact (ih centroid).pre fun s hs => hs.1
    · have hm : m ∉ arc.memberIds := fun hm => hskip (by simp [hm])
      split
      · exact (ih _).pre fun s hs => hs.1
      · exact (hjoin m arc _ hm).andThen (ih _)

end Mirrors

/-- The work takes a state with `I` to one with `J`, and changes the open arcs as its events change
the account. -/
abbrev Accounted (I J : Progress → Prop) (f : Work Progress Event) : Prop :=
  f.Mirrors I J (fun s => accountOf s.arcs) Account.apply

/-- No open arc of the state that a pass works on has a memory twice. -/
def TidyProgress (s : Progress) : Prop := Tidy s.arcs

/-- Nor does this one, which is open. -/
def TidyAt (x : Text) (arc : Arc) (s : Progress) : Prop :=
  Tidy s.arcs ∧ s.arcs.openArcs.get? x = some arc

/-- Events that change the members of one arc do so one after the other. -/
theorem foldl_members {β : Type*} {f : β → Event} {g : β → Set Text → Set Text} {x : Text}
    (hf : ∀ (A : Account) b, A.apply (f b) = Function.update A x ((A x).map (g b)))
    (bs : List β) (A : Account) :
    (bs.map f).foldl Account.apply A =
      Function.update A x ((A x).map fun M => bs.foldl (fun M b => g b M) M) := by
  induction bs generalizing A with
  | nil => simp
  | cons b bs ih =>
    rw [List.map_cons, List.foldl_cons, ih, hf]
    simp [Function.comp_def]

theorem foldl_insert (ms : List Text) (M : Set Text) :
    ms.foldl (fun M m => insert m M) M = M ∪ {m | m ∈ ms} := by
  induction ms generalizing M with
  | nil => simp
  | cons m ms ih =>
    rw [List.foldl_cons, ih]
    ext k
    simp only [Set.mem_union, Set.mem_insert_iff, Set.mem_ofPred_eq, List.mem_cons]
    tauto

theorem foldl_diff (ms : List Text) (M : Set Text) :
    ms.foldl (fun M m => M \ {m}) M = M \ {m | m ∈ ms} := by
  induction ms generalizing M with
  | nil => simp
  | cons m ms ih =>
    rw [List.foldl_cons, ih]
    ext k
    simp only [Set.mem_sdiff, Set.mem_singleton_iff, Set.mem_ofPred_eq, List.mem_cons]
    tauto

theorem foldl_seedAdded (x : Text) (a : Anchor) (ms : List Text) (A : Account) :
    (ms.map (seedAdded x a)).foldl Account.apply A =
      Function.update A x ((A x).map (· ∪ {m | m ∈ ms})) := by
  rw [foldl_members (g := insert) fun A m => rfl]
  simp only [foldl_insert]

theorem account_openArc (p : Pass) (a : Anchor) (s : Progress) :
    accountOf (openArc p a s).1.arcs =
      (openArc p a s).2.foldl Account.apply (accountOf s.arcs) := by
  dsimp only [openArc, Progress.touch, Progress.put]
  rw [accountOf_put, List.foldl_cons, foldl_seedAdded]
  simp [Account.apply, Arc.memberSet, Arc.memberIds, seedMember, Function.comp_def]

theorem accounted_openArc (p : Pass) {a : Anchor} (ha : a.seedMemoryIds.Nodup) :
    Accounted TidyProgress TidyProgress (openArc p a) where
  leaves s hs := by
    refine hs.put ?_
    simpa [Arc.memberIds, seedMember, Function.comp_def] using ha
  follows s _ := account_openArc p a s

theorem mem_newSeeds (existing seeds : List Text) (m : Text) :
    m ∈ newSeeds existing seeds ↔ m ∈ seeds ∧ m ∉ existing := by
  induction seeds generalizing existing with
  | nil => simp [newSeeds]
  | cons k seeds ih =>
    rw [newSeeds]
    split_ifs with hk
    · rw [ih]
      grind
    · rw [List.mem_cons, ih]
      grind

theorem nodup_newSeeds (existing seeds : List Text) : (newSeeds existing seeds).Nodup := by
  induction seeds generalizing existing with
  | nil => exact List.nodup_nil
  | cons k seeds ih =>
    rw [newSeeds]
    split_ifs with hk
    · exact ih existing
    · refine List.nodup_cons.mpr ⟨fun hmem => ?_, ih _⟩
      exact ((mem_newSeeds _ _ _).mp hmem).2 (by simp)

theorem account_extendArc (a : Anchor) {x : Text} {arc : Arc} {s : Progress}
    (h : s.arcs.openArcs.get? x = some arc) :
    accountOf (extendArc a x arc s).1.arcs =
      (extendArc a x arc s).2.foldl Account.apply (accountOf s.arcs) := by
  dsimp only [extendArc]
  split_ifs
  · rfl
  · dsimp only [Progress.touch, Progress.put]
    rw [accountOf_put, foldl_seedAdded, accountOf_of_get? h, Option.map_some, memberSet_append rfl]
    simp [seedMember, Function.comp_def]

theorem accounted_extendArc (a : Anchor) (x : Text) (arc : Arc) :
    Accounted (TidyAt x arc) TidyProgress (extendArc a x arc) where
  leaves s hs := by
    dsimp only [extendArc]
    split_ifs
    · exact hs.1
    · refine hs.1.put ?_
      have hdisjoint : arc.memberIds.Disjoint (newSeeds arc.memberIds a.seedMemoryIds) :=
        fun m hm hnew => ((mem_newSeeds _ _ _).mp hnew).2 hm
      have hnodup := (hs.1 x arc hs.2).append (nodup_newSeeds _ a.seedMemoryIds) hdisjoint
      simpa [Arc.memberIds, seedMember, Function.comp_def] using hnodup
  follows s hs := account_extendArc a hs.2

theorem accounted_sweepAnchor (p : Pass) {a : Anchor} (ha : a.seedMemoryIds.Nodup) :
    Accounted TidyProgress TidyProgress (sweepAnchor p a) :=
  mirrors_sweepAnchor (accounted_openArc p ha) (accounted_extendArc a)

theorem account_joinArc (p : Pass) {x m : Text} {arc : Arc} {s : Progress}
    (h : s.arcs.openArcs.get? x = some arc) (via : Via) :
    accountOf (joinArc p x m arc via s).1.arcs =
      (joinArc p x m arc via s).2.foldl Account.apply (accountOf s.arcs) := by
  dsimp only [joinArc, Progress.touch, Progress.put]
  rw [accountOf_put, memberSet_append rfl]
  show _ = Function.update _ _ _
  rw [accountOf_of_get? h, Option.map_some]
  congr 2
  ext k
  simp [or_comm]

theorem accounted_joinArc (p : Pass) {x m : Text} {arc : Arc} (hm : m ∉ arc.memberIds) (via : Via) :
    Accounted (TidyAt x arc) TidyProgress (joinArc p x m arc via) where
  leaves s hs := by
    refine hs.1.put ?_
    have hnodup := (List.nodup_concat _ _).mpr ⟨hm, hs.1 x arc hs.2⟩
    simpa [Arc.memberIds] using hnodup
  follows s hs := account_joinArc p hs.2 via

theorem accounted_sweepCandidates (p : Pass) (x : Text) :
    Accounted TidyProgress TidyProgress (sweepCandidates p x) := by
  refine mirrors_atArc fun arc => ?_
  exact (mirrors_sweepPool (fun m arc via hm => accounted_joinArc p hm via) none _).pre
    fun _ hs => hs.1

/-- The cap evicts some members and keeps the others. -/
theorem capSplit_perm (members : List ArcMember) :
    ((capSplit members).1 ++ (capSplit members).2).Perm members := by
  have hsorted := List.perm_insertionSort
    (fun k l : ArcMember => k.salienceAtJoin ≤ l.salienceAtJoin) members
  have hkept := List.perm_insertionSort (fun k l : ArcMember => k.joinedAt ≤ l.joinedAt)
    ((members.insertionSort fun k l => k.salienceAtJoin ≤ l.salienceAtJoin).drop
      (members.length - maxArcMembers))
  refine (List.Perm.append_left _ hkept).trans ?_
  dsimp only [capSplit]
  rw [List.take_append_drop]
  exact hsorted

/-- No memory is both evicted and kept. -/
def EvictsWhole (members : List ArcMember) : Prop :=
  ∀ k ∈ (capSplit members).1, ∀ l ∈ (capSplit members).2, k.memoryId ≠ l.memoryId

theorem evictsWhole_of_nodup {members : List ArcMember}
    (h : (members.map ArcMember.memoryId).Nodup) : EvictsWhole members := by
  have hids := (capSplit_perm members).map ArcMember.memoryId
  rw [List.map_append] at hids
  intro k hk l hl
  exact (List.nodup_append.mp (hids.nodup_iff.mpr h)).2.2 _ (List.mem_map_of_mem hk) _
    (List.mem_map_of_mem hl)

theorem account_capMembers (p : Pass) {x : Text} {s : Progress}
    (h : ∀ arc, s.arcs.openArcs.get? x = some arc → EvictsWhole arc.members) :
    accountOf (capMembers p x s).1.arcs =
      (capMembers p x s).2.foldl Account.apply (accountOf s.arcs) := by
  dsimp only [capMembers, atArc]
  split
  · rfl
  rename_i arc hget
  have hids := (capSplit_perm arc.members).map ArcMember.memoryId
  rw [List.map_append] at hids
  split_ifs
  · rfl
  dsimp only [Progress.put]
  have hevicted (ks : List ArcMember) (A : Account) :
      (ks.map fun k : ArcMember => Event.memberEvicted x k.memoryId
        (p.evictedAt x k.memoryId)).foldl Account.apply A =
      Function.update A x ((A x).map (· \ {m | m ∈ ks.map ArcMember.memoryId})) := by
    rw [foldl_members (g := fun k M => M \ {k.memoryId}) fun A k => rfl]
    simp only [← foldl_diff, List.foldl_map]
  rw [accountOf_put, hevicted, accountOf_of_get? hget, Option.map_some]
  congr 2
  ext m
  have hmem : m ∈ arc.memberIds ↔ _ := (hids.mem_iff (a := m)).symm
  rw [List.mem_append] at hmem
  show m ∈ (capSplit arc.members).2.map ArcMember.memoryId ↔
    m ∈ arc.memberIds ∧ m ∉ (capSplit arc.members).1.map ArcMember.memoryId
  rw [hmem]
  constructor
  · intro hkept
    refine ⟨.inr hkept, fun hevict => ?_⟩
    obtain ⟨k, hk, rfl⟩ := List.mem_map.mp hevict
    obtain ⟨l, hl, heq⟩ := List.mem_map.mp hkept
    exact h arc hget k hk l hl heq.symm
  · exact fun h => h.1.resolve_left h.2

theorem accounted_capMembers (p : Pass) (x : Text) :
    Accounted TidyProgress TidyProgress (capMembers p x) where
  leaves s hs := by
    dsimp only [capMembers, atArc]
    split
    · exact hs
    · rename_i arc hget
      split_ifs
      · exact hs
      · refine Tidy.put hs ?_
        have hids := (capSplit_perm arc.members).map ArcMember.memoryId
        rw [List.map_append] at hids
        exact (List.nodup_append.mp (hids.nodup_iff.mpr (hs x arc hget))).2.1
  follows s hs := account_capMembers p fun arc hget => evictsWhole_of_nodup (hs x arc hget)

theorem accounted_sweepClose (p : Pass) (x : Text) :
    Accounted TidyProgress TidyProgress (sweepClose p x) := by
  refine mirrors_atArc fun arc => ⟨fun s hs => ?_, fun s hs => ?_⟩
  · dsimp only
    split
    · exact hs.1
    · exact Tidy.pop hs.1 rfl
  · dsimp only
    split
    · rfl
    · exact accountOf_pop rfl

theorem accounted_sweepArcs (p : Pass) : Accounted TidyProgress TidyProgress (sweepArcs p) :=
  ((mirrors_overOpen (accounted_sweepCandidates p)).andThen
    (mirrors_overOpen (accounted_capMembers p))).andThen
      (mirrors_overOpen (accounted_sweepClose p))

/-- What a pass leaves in memory is what its events make of the account, where no anchor names a
seed twice. -/
theorem accounted_sweep {p : Pass} (hp : ∀ a ∈ p.anchors, a.seedMemoryIds.Nodup) :
    Accounted TidyProgress TidyProgress (sweep p) :=
  (Work.Mirrors.forEach fun a ha => accounted_sweepAnchor p (hp a ha)).andThen
    (accounted_sweepArcs p)

end Companion.Narrative

import Companion.Narrative.Recovery
import Companion.Narrative.Saved
import Companion.Sorting

/-!
# The log and the saved state

A persona's passes that are through, from none, and what a replay of the log finds: the open arcs of
the saved state with their members, and the closed arcs that are kept, with theirs, in order. Both
follow from the events alone (`Ledger`), as long as the cap evicts no memory of which it keeps
another copy. An arc has a memory twice where the anchor that opens it names it twice, and a replay
takes the eviction of one copy for that of both (`one_copy_evicted`).
-/

namespace Companion.Narrative

open Companion.Journal
open Companion.JsonText (Floats)
open Companion.Memory (Text Instant)
open Companion.Runs

/-! ## The ledger of a log -/

/-- The open arcs with their members, and the closed ones in order with theirs. -/
structure Ledger where
  account : Account
  closed : List (Text × Set Text)

/-- The arc that an event closes, with its members. -/
def closedBy (A : Account) : Event → List (Text × Set Text)
  | .arcClosed x _ _ _ _ _ => ((A x).map fun M => (x, M)).toList
  | _ => []

/-- What an event changes. -/
def Ledger.apply (L : Ledger) (e : Event) : Ledger :=
  ⟨L.account.apply e, L.closed ++ closedBy L.account e⟩

/-- The closed arcs that are kept. -/
def Ledger.cap (L : Ledger) : Ledger :=
  { L with closed := L.closed.drop (L.closed.length - recentlyClosedCap) }

/-- The ledger after the events of a log. -/
def ledger (log : List Event) : Ledger := log.foldl Ledger.apply ⟨fun _ => none, []⟩

/-- The arcs that the events of a log close, in order. -/
def closedIn (A : Account) : List Event → List (Text × Set Text)
  | [] => []
  | e :: es => closedBy A e ++ closedIn (A.apply e) es

theorem foldl_apply (es : List Event) (L : Ledger) :
    es.foldl Ledger.apply L =
      ⟨es.foldl Account.apply L.account, L.closed ++ closedIn L.account es⟩ := by
  induction es generalizing L with
  | nil => simp [closedIn]
  | cons e es ih =>
    rw [List.foldl_cons, List.foldl_cons, ih, closedIn, ← List.append_assoc]
    rfl

/-- Closed arcs that are not kept are not kept later either. -/
theorem cap_foldl_cap (es : List Event) (L : Ledger) :
    (es.foldl Ledger.apply L.cap).cap = (es.foldl Ledger.apply L).cap := by
  rw [foldl_apply, foldl_apply, Ledger.cap, Ledger.cap]
  congr 1
  rw [Sorting.drop_append_eq_iff]
  dsimp only [Ledger.cap]
  rw [List.drop_drop, List.length_drop]
  congr 1
  omega

/-! ## The ledger of a state -/

/-- The closed arcs of a state with their members. -/
def closedOf (s : ArcsState) : List (Text × Set Text) :=
  s.recentlyClosed.map fun arc => (arc.id, arc.memberSet)

def ledgerOf (s : ArcsState) : Ledger := ⟨accountOf s, closedOf s⟩

/-- Each open arc is filed under its id. -/
def Keyed (s : ArcsState) : Prop := ∀ x arc, s.openArcs.get? x = some arc → arc.id = x

theorem ledgerOf_capClosed (s : ArcsState) : ledgerOf (capClosed s) = (ledgerOf s).cap := by
  rw [ledgerOf, ledgerOf, Ledger.cap, closedOf, closedOf]
  congr 1
  rw [capClosed, List.map_drop, List.length_map]

theorem ledgerOf_finished (p : Pass) (s : ArcsState) :
    ledgerOf (finished p s) = (ledgerOf s).cap := by
  rw [← ledgerOf_capClosed]
  rfl

theorem Keyed.put {s : ArcsState} (h : Keyed s) {x : Text} {arc : Arc} (hid : arc.id = x) :
    Keyed (s.put x arc) := by
  intro y arc' hget
  rw [ArcsState.put, Dict.get?_set] at hget
  split_ifs at hget with hy
  · rw [← Option.some.inj hget, hid, hy]
  · exact h y arc' hget

theorem Keyed.pop {s s' : ArcsState} (h : Keyed s) {x : Text}
    (hs' : s'.openArcs = s.openArcs.pop x) : Keyed s' := by
  intro y arc hget
  rw [hs', Dict.get?_pop] at hget
  split_ifs at hget
  exact h y arc hget

/-- An event is replayed as it changes the ledger. -/
theorem ledgerOf_replayEvent {s : ArcsState} (h : Keyed s) (e : Event) :
    Keyed (replayEvent s e) ∧ ledgerOf (replayEvent s e) = (ledgerOf s).apply e := by
  have haccount := accountOf_replayEvent s e
  rw [Ledger.apply, ledgerOf, ledgerOf, haccount]
  dsimp only
  cases e with
  | arcOpened x type ref seeds title ts age =>
    exact ⟨h.put rfl, by simp [closedBy, closedOf, replayEvent, ArcsState.put]⟩
  | memberAdded x m ts age salience via =>
    rw [replayEvent]
    cases hget : s.openArcs.get? x with
    | none => exact ⟨h, by simp [closedBy]⟩
    | some arc =>
      dsimp only
      split_ifs
      · exact ⟨h, by simp [closedBy]⟩
      · exact ⟨h.put (h x arc hget), by simp [closedBy, closedOf, ArcsState.put]⟩
  | memberEvicted x m ts =>
    rw [replayEvent]
    cases hget : s.openArcs.get? x with
    | none => exact ⟨h, by simp [closedBy]⟩
    | some arc => exact ⟨h.put (h x arc hget), by simp [closedBy, closedOf, ArcsState.put]⟩
  | arcClosed x title ts age reason count =>
    rw [replayEvent]
    cases hget : s.openArcs.get? x with
    | none => exact ⟨h, by simp [closedBy, accountOf, hget]⟩
    | some arc =>
      refine ⟨h.pop rfl, ?_⟩
      have hid := h x arc hget
      simp [closedBy, closedOf, accountOf, hget, hid, Arc.memberSet, Arc.memberIds]

theorem ledgerOf_replayFromLog (log : List Event) :
    Keyed (replayFromLog log) ∧ ledgerOf (replayFromLog log) = (ledger log).cap := by
  have hrun : ∀ s : ArcsState, Keyed s → Keyed (log.foldl replayEvent s) ∧
      ledgerOf (log.foldl replayEvent s) = log.foldl Ledger.apply (ledgerOf s) := by
    induction log with
    | nil => exact fun s h => ⟨h, rfl⟩
    | cons e log ih =>
      intro s h
      obtain ⟨hkeyed, happly⟩ := ledgerOf_replayEvent h e
      rw [List.foldl_cons, List.foldl_cons, ← happly]
      exact ih _ hkeyed
  have hempty : Keyed { replayed := true } := fun x arc hget => by simp at hget
  obtain ⟨hkeyed, hledger⟩ := hrun _ hempty
  refine ⟨hkeyed, ?_⟩
  rw [replayFromLog, ledgerOf_capClosed, hledger]
  rfl

/-! ## A pass -/

/-- The work takes a state with `I` to one with `J`, and changes the ledger as its events do. -/
abbrev Ledgered (I J : Progress → Prop) (f : Work Progress Event) : Prop :=
  f.Mirrors I J (fun s => ledgerOf s.arcs) Ledger.apply

def KeyedProgress (s : Progress) : Prop := Keyed s.arcs

/-- The event closes no arc. -/
def Event.ClosesNone : Event → Prop
  | .arcClosed _ _ _ _ _ _ => False
  | _ => True

/-- Work that closes no arc changes the ledger as it changes the open arcs. -/
theorem ledgerOf_of_accountOf {s s' : Progress} {es : List Event}
    (haccount : accountOf s'.arcs = es.foldl Account.apply (accountOf s.arcs))
    (hclosed : s'.arcs.recentlyClosed = s.arcs.recentlyClosed) (hes : ∀ e ∈ es, e.ClosesNone) :
    ledgerOf s'.arcs = es.foldl Ledger.apply (ledgerOf s.arcs) := by
  have hnone : ∀ A, closedIn A es = [] := by
    clear haccount
    induction es with
    | nil => exact fun A => rfl
    | cons e es ih =>
      intro A
      obtain ⟨he, hes⟩ := List.forall_mem_cons.mp hes
      rw [closedIn, ih hes, List.append_nil]
      cases e with
      | arcClosed => exact he.elim
      | _ => rfl
  rw [foldl_apply, ledgerOf, haccount, ledgerOf, hnone, List.append_nil, closedOf, hclosed]
  rfl

theorem ledgered_openArc (p : Pass) (a : Anchor) :
    Ledgered KeyedProgress KeyedProgress (openArc p a) where
  leaves s hs := Keyed.put hs rfl
  follows s _ := by
    refine ledgerOf_of_accountOf (account_openArc p a s) rfl ?_
    rw [openArc, List.forall_mem_cons]
    exact ⟨trivial, List.forall_mem_map.mpr fun _ _ => trivial⟩

theorem ledgered_extendArc (a : Anchor) (x : Text) (arc : Arc) :
    Ledgered (fun s => KeyedProgress s ∧ s.arcs.openArcs.get? x = some arc) KeyedProgress
      (extendArc a x arc) where
  leaves s hs := by
    dsimp only [extendArc]
    split_ifs
    · exact hs.1
    · exact Keyed.put hs.1 (hs.1 x arc hs.2)
  follows s hs := by
    refine ledgerOf_of_accountOf (account_extendArc a hs.2) ?_ ?_
    · dsimp only [extendArc]
      split_ifs <;> rfl
    · dsimp only [extendArc]
      split_ifs
      · exact List.forall_mem_nil _
      · exact List.forall_mem_map.mpr fun _ _ => trivial

theorem ledgered_joinArc (p : Pass) (x m : Text) (arc : Arc) (via : Via) :
    Ledgered (fun s => KeyedProgress s ∧ s.arcs.openArcs.get? x = some arc) KeyedProgress
      (joinArc p x m arc via) where
  leaves _ hs := Keyed.put hs.1 (hs.1 x arc hs.2)
  follows _ hs := ledgerOf_of_accountOf (account_joinArc p hs.2 via) rfl
    (List.forall_mem_singleton.mpr trivial)

/-- The sweeps before the cap. -/
def sweepGrowing (p : Pass) : Work Progress Event :=
  (Work.forEach (sweepAnchor p) p.anchors).andThen (overOpen (sweepCandidates p))

theorem ledgered_sweepGrowing (p : Pass) :
    Ledgered KeyedProgress KeyedProgress (sweepGrowing p) := by
  refine (Work.Mirrors.forEach fun a _ => ?_).andThen (mirrors_overOpen fun x => ?_)
  · exact mirrors_sweepAnchor (ledgered_openArc p a) (ledgered_extendArc a)
  · refine mirrors_atArc fun arc => ?_
    exact (mirrors_sweepPool (fun m arc via _ => ledgered_joinArc p x m arc via) none _).pre
      fun _ hs => hs.1

/-- The cap evicts no memory of which it keeps another copy. -/
def Whole (s : ArcsState) : Prop := ∀ x arc, s.openArcs.get? x = some arc → EvictsWhole arc.members

/-- At the cap nothing is evicted. -/
theorem evictsWhole_of_le {members : List ArcMember} (h : members.length ≤ maxArcMembers) :
    EvictsWhole members := by
  intro k hk
  have hnone : (capSplit members).1 = [] := by
    rw [capSplit, Nat.sub_eq_zero_of_le h]
    rfl
  rw [hnone] at hk
  cases hk

/-- The cap on one arc keeps so many members at most. -/
theorem length_capSplit (members : List ArcMember) :
    (capSplit members).2.length ≤ maxArcMembers := by
  rw [capSplit, List.length_insertionSort, List.length_drop, List.length_insertionSort]
  omega

theorem ledgered_capMembers (p : Pass) (x : Text) :
    Ledgered (fun s => KeyedProgress s ∧ Whole s.arcs) (fun s => KeyedProgress s ∧ Whole s.arcs)
      (capMembers p x) where
  leaves s hs := by
    dsimp only [capMembers, atArc]
    split
    · exact hs
    rename_i arc hget
    split_ifs
    · exact hs
    · refine ⟨Keyed.put hs.1 (hs.1 x arc hget), fun y arc' hget' => ?_⟩
      rw [Progress.put, ArcsState.put, Dict.get?_set] at hget'
      split_ifs at hget'
      · rw [← Option.some.inj hget']
        exact evictsWhole_of_le (length_capSplit arc.members)
      · exact hs.2 y arc' hget'
  follows s hs := by
    refine ledgerOf_of_accountOf (account_capMembers p fun arc => hs.2 x arc) ?_ ?_
    · dsimp only [capMembers, atArc]
      split
      · rfl
      · split_ifs <;> rfl
    · dsimp only [capMembers, atArc]
      split
      · exact List.forall_mem_nil _
      · split_ifs
        · exact List.forall_mem_nil _
        · exact List.forall_mem_map.mpr fun _ _ => trivial

theorem ledgered_sweepClose (p : Pass) (x : Text) :
    Ledgered KeyedProgress KeyedProgress (sweepClose p x) := by
  refine mirrors_atArc fun arc => ⟨fun s hs => ?_, fun s hs => ?_⟩
  · dsimp only
    split
    · exact hs.1
    · exact Keyed.pop hs.1 rfl
  · dsimp only
    split
    · rfl
    · have hid := hs.1 x arc hs.2
      rw [List.foldl_cons, List.foldl_nil, ledgerOf, accountOf_pop rfl, Ledger.apply]
      simp [closedBy, ledgerOf, closedOf, accountOf_of_get? hs.2, hid, Arc.memberSet,
        Arc.memberIds, Account.apply]

/-- The sweeps of a pass, with the cap between those before it and the one after it. -/
theorem sweep_eq (p : Pass) (s : Progress) :
    sweep p s = ((sweepGrowing p).andThen ((overOpen (capMembers p)).andThen
      (overOpen (sweepClose p)))) s := by
  simp only [sweep, sweepArcs, sweepGrowing, Work.andThen, List.append_assoc]

/-- What a pass leaves in memory is what its events make of the ledger, where the cap evicts no
memory of which it keeps another copy. -/
theorem ledgerOf_sweep {p : Pass} {s : Progress} (hs : KeyedProgress s)
    (hwhole : Whole (sweepGrowing p s).1.arcs) :
    Keyed (sweep p s).1.arcs ∧
      ledgerOf (sweep p s).1.arcs = (sweep p s).2.foldl Ledger.apply (ledgerOf s.arcs) := by
  have hgrow := ledgered_sweepGrowing p
  have hcap : Ledgered (fun s => KeyedProgress s ∧ Whole s.arcs)
      (fun s => KeyedProgress s ∧ Whole s.arcs) (overOpen (capMembers p)) :=
    mirrors_overOpen (ledgered_capMembers p)
  have hclose : Ledgered (fun s => KeyedProgress s ∧ Whole s.arcs) KeyedProgress
      (overOpen (sweepClose p)) :=
    (mirrors_overOpen (ledgered_sweepClose p)).pre fun _ hs => hs.1
  have hkeyed := hgrow.leaves s hs
  have hrest := hcap.andThen hclose
  rw [sweep_eq]
  refine ⟨hrest.leaves _ ⟨hkeyed, hwhole⟩, ?_⟩
  calc ledgerOf (((overOpen (capMembers p)).andThen (overOpen (sweepClose p)))
          (sweepGrowing p s).1).1.arcs
      = (((overOpen (capMembers p)).andThen (overOpen (sweepClose p)))
          (sweepGrowing p s).1).2.foldl Ledger.apply (ledgerOf (sweepGrowing p s).1.arcs) :=
        hrest.follows _ ⟨hkeyed, hwhole⟩
    _ = _ := by
        rw [hgrow.follows s hs, ← List.foldl_append]
        rfl

/-! ## Runs -/

section Runs

variable (stamps : Stamps) (floats : Floats ℚ) (depth : ℕ)

/-- A persona: the log, the file of the saved state, and the state that was saved there last. -/
structure Persona where
  log : List Event := []
  file : Option Text := none
  saved : Option ArcsState := none

/-- What the next pass starts from. -/
def Persona.loaded (w : Persona) : ArcsState :=
  loadOrRecover (w.file.bind (loadState stamps floats depth)) w.log

/-- A pass that is through: one whose state cannot be written is not. -/
def Persona.step (w : Persona) (p : Pass) : Option Persona :=
  let (saved, _, events) := runPass p (w.loaded stamps floats depth)
  (saveState stamps floats depth saved).map fun file =>
    { log := w.log ++ events, file := some file, saved := some saved }

/-- The passes of a persona that starts from none. -/
def passes : Machine Persona Pass := ⟨fun w => w = {}, Persona.step stamps floats depth⟩

/-- Two states with the same open arcs and the same sets of members, and the same closed arcs, in
order, with theirs. -/
structure SameArcs (s s' : ArcsState) : Prop where
  openArcs : ∀ x, (s.openArcs.get? x).map Arc.memberSet = (s'.openArcs.get? x).map Arc.memberSet
  closed : s.recentlyClosed.map (fun arc => (arc.id, arc.memberSet)) =
    s'.recentlyClosed.map fun arc => (arc.id, arc.memberSet)

/-- The cap of the pass evicts no memory of which it keeps another copy. -/
def CapsWhole (w : Persona) (p : Pass) : Prop :=
  Whole (sweepGrowing p { arcs := w.loaded stamps floats depth }).1.arcs

/-- What the saved state and the log agree on. -/
structure Recorded (w : Persona) (s : ArcsState) : Prop where
  saved : w.saved = some s
  file : w.file.bind (loadState stamps floats depth) = some s
  keyed : Keyed s
  ledger : ledgerOf s = (ledger w.log).cap

/-- A persona without a pass, or one whose saved state is that of the log. -/
def Consistent (w : Persona) : Prop := w = {} ∨ ∃ s, Recorded stamps floats depth w s

variable {stamps floats depth} {w : Persona}

theorem sameArcs_of_ledgerOf {s s' : ArcsState} (h : ledgerOf s = ledgerOf s') : SameArcs s s' :=
  ⟨fun x => congrFun (congrArg Ledger.account h) x, congrArg Ledger.closed h⟩

/-- A load has the arcs that the log describes. -/
theorem Consistent.loaded (h : Consistent stamps floats depth w) :
    Keyed (w.loaded stamps floats depth) ∧
      ledgerOf (w.loaded stamps floats depth) = (ledger w.log).cap := by
  have hreplay := ledgerOf_replayFromLog w.log
  rw [Persona.loaded]
  rcases load_cases (w.file.bind (loadState stamps floats depth)) w.log with
    ⟨s, hfile, -, hload⟩ | ⟨-, hnil, hload⟩ | ⟨-, -, hload⟩
  · rw [hload]
    rcases h with rfl | ⟨s', hs'⟩
    · cases hfile
    · obtain rfl := Option.some.inj (hfile.symm.trans hs'.file)
      exact ⟨hs'.keyed, hs'.ledger⟩
  · rw [hload, hnil]
    exact ⟨fun x arc hget => by simp at hget, rfl⟩
  · rw [hload]
    exact hreplay

/-- What the sweeps of a pass leave in memory, and its events. -/
def Persona.swept (stamps : Stamps) (floats : Floats ℚ) (depth : ℕ) (w : Persona) (p : Pass) :
    Progress × List Event :=
  sweep p { arcs := w.loaded stamps floats depth }

theorem step_eq_some {w' : Persona} {p : Pass} (h : w.step stamps floats depth p = some w') :
    ∃ file, saveState stamps floats depth (finished p (w.swept stamps floats depth p).1.arcs) =
      some file ∧
      w' = { log := w.log ++ (w.swept stamps floats depth p).2, file := some file,
             saved := some (finished p (w.swept stamps floats depth p).1.arcs) } := by
  obtain ⟨file, hfile, hw'⟩ := Option.map_eq_some_iff.mp h
  exact ⟨file, hfile, hw'.symm⟩

theorem Consistent.step {w' : Persona} (h : Consistent stamps floats depth w) {p : Pass}
    (hwhole : CapsWhole stamps floats depth w p)
    (hs : w.step stamps floats depth p = some w') : Consistent stamps floats depth w' := by
  obtain ⟨hkeyed, hledger⟩ := h.loaded
  have hswept := ledgerOf_sweep (s := { arcs := w.loaded stamps floats depth }) hkeyed hwhole
  rw [← Persona.swept] at hswept
  obtain ⟨file, hfile, rfl⟩ := step_eq_some hs
  clear hs
  generalize w.swept stamps floats depth p = swept at hswept hfile ⊢
  obtain ⟨hkeyed', hledger'⟩ := hswept
  -- The last of the closed arcs are those of all events, though the load had the last ones only.
  have hsaved : ledgerOf (finished p swept.1.arcs) = (ledger (w.log ++ swept.2)).cap := by
    calc ledgerOf (finished p swept.1.arcs)
        = (ledgerOf swept.1.arcs).cap := ledgerOf_finished p _
      _ = (swept.2.foldl Ledger.apply (ledger w.log).cap).cap := by rw [hledger', hledger]
      _ = (ledger (w.log ++ swept.2)).cap := by
          rw [cap_foldl_cap, ledger, ledger, List.foldl_append]
  exact .inr ⟨_, rfl, loadState_saveState hfile rfl, hkeyed', hsaved⟩

/-- In every run of passes whose cap evicts no memory of which it keeps another copy, a replay of
the log finds the arcs of the saved state, and the saved file is loaded as that state. -/
theorem replay_finds_saved
    (h : (passes stamps floats depth).Reach (CapsWhole stamps floats depth) w) {s : ArcsState}
    (hs : w.saved = some s) :
    SameArcs (replayFromLog w.log) s ∧ w.file.bind (loadState stamps floats depth) = some s := by
  have hcons : Consistent stamps floats depth w :=
    h.invariant (fun _ h0 => .inl h0) fun _ _ _ hcons hwhole hstep => hcons.step hwhole hstep
  rcases hcons with rfl | ⟨s', hs'⟩
  · cases hs
  · obtain rfl := Option.some.inj (hs.symm.trans hs'.saved)
    refine ⟨sameArcs_of_ledgerOf ?_, hs'.file⟩
    rw [(ledgerOf_replayFromLog w.log).2, hs'.ledger]

/-- Where no memory is twice in an arc that is loaded, and no anchor names a memory twice, the cap
evicts none of which it keeps another copy. -/
theorem capsWhole_of_nodup {p : Pass} (htidy : Tidy (w.loaded stamps floats depth))
    (hp : ∀ a ∈ p.anchors, a.seedMemoryIds.Nodup) : CapsWhole stamps floats depth w p := by
  have hgrow : Accounted TidyProgress TidyProgress (sweepGrowing p) :=
    (Work.Mirrors.forEach fun a ha => accounted_sweepAnchor p (hp a ha)).andThen
      (mirrors_overOpen (accounted_sweepCandidates p))
  have hgrown := hgrow.leaves { arcs := w.loaded stamps floats depth } htidy
  exact fun x arc hget => evictsWhole_of_nodup (hgrown x arc hget)

end Runs

/-! ## Two runs -/

/-- Floats of which 0 is the only one. -/
def zeroFloats : Floats ℚ where
  repr q := if q = 0 then some ⟨false, ['0'], ['0'], []⟩ else none
  read _ := 0
  nan := 0
  infinity _ := 0
  valid q n h := by
    split_ifs at h
    obtain rfl := Option.some.inj h
    exact ⟨⟨.inl rfl, List.forall_mem_singleton.mpr rfl, .inl rfl⟩, rfl, by decide⟩
  read_repr q n h := by
    split_ifs at h with hq
    exact hq.symm

theorem signed_natAbs (z : ℤ) : (if z < 0 then -(z.natAbs : ℤ) else z.natAbs) = z := by
  split_ifs <;> omega

/-- The instants 1 and 10, and a text of any other. -/
def sampleStamps : Stamps where
  iso t :=
    if t = 1 then "1970-01-01T00:00:00.000001+00:00".toList
    else if t = 10 then "1970-01-01T00:00:00.000010+00:00".toList
    else (JsonText.intNumeral t).text
  read text :=
    if text = "1970-01-01T00:00:00.000001+00:00".toList then some 1
    else if text = "1970-01-01T00:00:00.000010+00:00".toList then some 10
    else (JsonText.Numeral.read text).map fun (n, _) =>
      if n.negative then -(Nat.ofDigitChars 10 n.whole 0 : ℤ) else Nat.ofDigitChars 10 n.whole 0
  read_iso t := by
    by_cases h₁ : t = 1
    · rw [if_pos h₁, if_pos rfl, h₁]
    by_cases h₂ : t = 10
    · rw [if_neg h₁, if_pos h₂, if_neg (by decide), if_pos rfl, h₂]
    have hvalid := JsonText.valid_intNumeral t
    -- A number has no letter of a time in it.
    have hne : ∀ text : Text, 'T' ∈ text → (JsonText.intNumeral t).text ≠ text := by
      rintro text hT rfl
      exact absurd (JsonText.Numeral.isPart_of_mem_text hvalid hT) (by decide)
    have hread : JsonText.Numeral.read ((JsonText.intNumeral t).text ++ []) =
        some (JsonText.intNumeral t, []) := JsonText.Numeral.read_text hvalid nofun
    rw [List.append_nil] at hread
    have hdigits : Nat.ofDigitChars 10 (JsonText.intNumeral t).whole 0 = t.natAbs :=
      Nat.ofDigitChars_ten_toDigits
    rw [if_neg h₁, if_neg h₂, if_neg (hne _ (by decide)), if_neg (hne _ (by decide)), hread]
    have hneg : (JsonText.intNumeral t).negative = decide (t < 0) := rfl
    simp only [Option.map_some, hdigits, hneg, decide_eq_true_eq, Option.some.injEq]
    exact signed_natAbs t

def samplePasses : Machine Persona Pass := passes sampleStamps zeroFloats 8

/-- A growth entry that names its first memory twice, and 49 others. -/
def twiceNamed : Anchor :=
  ⟨"growth".toList, "growth.log.jsonl:1".toList, "a turn".toList, 1, some 0,
    "m0".toList :: (List.range 50).map fun n => 'm' :: Nat.toDigits 10 n⟩

/-- The memory that is named twice is a member of the saved arc, and not of the replayed one. -/
theorem one_copy_evicted : ∃ (w : Persona) (s : ArcsState), samplePasses.Reachable w ∧
    w.saved = some s ∧ ¬ SameArcs (replayFromLog w.log) s := by
  obtain ⟨w, hreach, hw⟩ := samplePasses.exists_reach_of_runWithin (C := fun _ _ => True)
    (D := fun _ _ => True) (fun _ _ h => h) rfl
    [quietPass [twiceNamed] "arc_a" 0 10]
    (fun w : Persona => w.saved.any fun s : ArcsState =>
      ((s.openArcs.get? "arc_a".toList).any fun arc : Arc => decide ("m0".toList ∈ arc.memberIds)) &&
        (((replayFromLog w.log).openArcs.get? "arc_a".toList).all fun arc : Arc =>
          !decide ("m0".toList ∈ arc.memberIds))) (s := {}) (by decide +kernel)
  obtain ⟨s, hs, hmem⟩ := (Option.any_eq_true _ _).mp hw
  rw [Bool.and_eq_true] at hmem
  obtain ⟨arc, harc, hin⟩ := (Option.any_eq_true _ _).mp hmem.1
  refine ⟨w, s, hreach, hs, fun hsame => ?_⟩
  have hopen := hsame.openArcs "arc_a".toList
  rw [harc, Option.map_some] at hopen
  obtain ⟨arc', harc', hset⟩ := Option.map_eq_some_iff.mp hopen
  have hout := hmem.2
  rw [harc', Option.all_some, Bool.not_eq_true'] at hout
  have hin : "m0".toList ∈ arc.memberIds := of_decide_eq_true hin
  have hin' : "m0".toList ∈ arc'.memberSet := by
    rw [hset]
    exact hin
  have hout : "m0".toList ∉ arc'.memberIds := of_decide_eq_false hout
  exact hout hin'

/-- No arc has more members than the cap. -/
def CapsNone (w : Persona) (p : Pass) : Prop :=
  ((sweepGrowing p { arcs := w.loaded sampleStamps zeroFloats 8 }).1.arcs.openArcs.entries.all
    fun e => decide (e.2.members.length ≤ maxArcMembers)) = true

instance (w : Persona) (p : Pass) : Decidable (CapsNone w p) := inferInstanceAs (Decidable (_ = _))

theorem CapsNone.capsWhole {w : Persona} {p : Pass} (h : CapsNone w p) :
    CapsWhole sampleStamps zeroFloats 8 w p := by
  intro x arc hget
  have hall := List.all_eq_true.mp h (x, arc) (Dict.mem_entries_of_get? hget)
  exact evictsWhole_of_le (of_decide_eq_true hall)

theorem replay_finds_saved_open : ∃ (w : Persona) (s : ArcsState),
    (s.openArcs.entries.map Prod.fst = ["arc_a".toList] ∧ w.log.length = 2) ∧
      SameArcs (replayFromLog w.log) s ∧
        w.file.bind (loadState sampleStamps zeroFloats 8) = some s := by
  obtain ⟨w, hreach, hw⟩ := samplePasses.exists_reach_of_runWithin (D := CapsNone)
    (fun _ _ => CapsNone.capsWhole) rfl
    [quietPass [boatDream] "arc_a" 0 10, quietPass [] "arc_b" 0 10]
    (fun w : Persona => w.saved.any fun s : ArcsState =>
      decide (s.openArcs.entries.map Prod.fst = ["arc_a".toList] ∧ w.log.length = 2)) (s := {})
    (by decide +kernel)
  obtain ⟨s, hs, hw⟩ := (Option.any_eq_true _ _).mp hw
  exact ⟨w, s, of_decide_eq_true hw, replay_finds_saved hreach hs⟩

end Companion.Narrative

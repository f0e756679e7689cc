import Companion.Chat.Plans
import Companion.Runs

/-!
# The ages of the sections of a conversation

Runs of `cascade_conversation` and `emergency_fold_24h` on the buffer of one session, at times that
do not decrease, among appended turns and moves of the extraction cursor. A pass takes the turns
that are appended between its two reads, and may change nothing else: the lock may be held, the
archive may fail, or the process may stop before the rewrite.

A section's age is that of its oldest source, to the second (`Section.OldestEdge`). A turn that was
folded stays a source of some section of the row until its section has passed the eviction boundary
or has no text, and no fold takes a text that left the row with an evicted section (`sections_age`).
It may leave the row when it is young itself, since the sections are told apart by their oldest
sources only, and an emergency fold takes up the section of the last day also where it counts it as
evicted (`young_source_leaves`).

`folded` and `evictions` are bookkeeping: no operation reads them.
-/

namespace Companion.Chat.Aging

open Companion.Memory Companion.Ingest Companion.Runs

inductive Pass
  | cascade
  | emergency
  deriving DecidableEq

/-- A section that a pass reported as evicted. -/
structure Eviction where
  pass : Pass
  key : Tier
  evicted : Section

/-- The section is not the one that an emergency fold takes up. -/
def Eviction.final (e : Eviction) : Prop := ¬(e.pass = .emergency ∧ e.key = .h24)

structure State where
  buffer : List BufferRow
  cursor : Option Stamp
  clock : Instant
  /-- The turns that were folded. -/
  folded : List Turn
  /-- The sections that were evicted. -/
  evictions : List Eviction

inductive Act
  /-- A row with any stamp is appended. -/
  | append (t : Turn)
  /-- `write_cursor`, or `delete_cursor`. -/
  | extract (cursor : Option Stamp)
  /-- A pass, the turns that are appended between its two reads, and whether it comes to the
  rewrite. -/
  | pass (kind : Pass) (now : Instant) (minKeepTail : ℕ) (replies : Tier → Reply × Reply)
      (late : List Turn) (installs : Bool)

variable (P : Setting)

/-- The plan of a pass. -/
def plan (s : State) (kind : Pass) (now : Instant) (minKeepTail : ℕ)
    (replies : Tier → Reply × Reply) : Option Plan :=
  match kind with
  | .cascade => P.cascadePlan s.buffer s.cursor now minKeepTail replies
  | .emergency => P.emergencyPlan s.buffer s.cursor now minKeepTail (replies .h24)

/-- The rewrite of a pass. -/
def State.install (s : State) (kind : Pass) (now : Instant) (late : List Turn) (plan : Plan) :
    State :=
  { s with
    buffer := plan.install (s.buffer ++ late.map .turn)
    clock := now
    folded := s.folded ++ plan.removable
    evictions := s.evictions ++ plan.evicted.map fun (k, X) => ⟨kind, k, X⟩ }

/-- The sections that stand in the rows before the first pass. -/
def IsFirst (row : SummaryRow) : Prop :=
  ∀ k X, row.sections k = some X → X.sources = [] ∧ X.lineage = [.first k]

/-- The runs on one session, from any rows that no pass has folded. -/
def machine : Machine State Act where
  init s := (∀ row, .summary row ∈ s.buffer → IsFirst row) ∧ s.folded = [] ∧ s.evictions = []
  step s
    | .append t =>
      if t.speaker = .summary then none else some { s with buffer := s.buffer ++ [.turn t] }
    | .extract cursor => some { s with cursor := cursor }
    | .pass kind now minKeepTail replies late installs =>
      if now < s.clock ∨ late.any (·.speaker = .summary) then none
      else
        match plan P s kind now minKeepTail replies, installs with
        | some plan, true => some (s.install kind now late plan)
        | _, _ => some { s with buffer := s.buffer ++ late.map .turn, clock := now }

/-- The row that a pass reads. -/
def State.row (s : State) : Option SummaryRow := (splitBuffer s.buffer).1

/-- The turn is a source of a section of the installed row. -/
def State.isSource (s : State) (t : Turn) : Bool :=
  s.row.any fun row => row.sections.entries.any fun (_, X) => t ∈ X.sources

/-- At a pass, the sections that the turn is a source of have a text, and have not passed the
eviction boundary. -/
def Fresh (t : Turn) (s : State) : Act → Bool
  | .pass _ now _ _ _ _ =>
    s.row.all fun row => row.sections.entries.all fun (_, X) =>
      t ∉ X.sources || (X.text.strip ≠ [] && !X.evicts now)
  | _ => true

/-- The sections that a pass may give to a fold. -/
def foldInputs (kind : Pass) (old : Sections) (now : Instant) : List Section :=
  match kind with
  | .cascade => Tier.order.flatMap (classified old now)
  | .emergency => (old .h24).toList

/-! ## The rows of a buffer -/

@[simp]
theorem splitBuffer_append_turns (rows : List BufferRow) (turns : List Turn) :
    (splitBuffer (rows ++ turns.map .turn)).1 = (splitBuffer rows).1 := by
  have hnone : (turns.map BufferRow.turn).findSome? BufferRow.asSummary = none := by
    rw [List.findSome?_eq_none_iff]
    intro row hrow
    obtain ⟨t, -, rfl⟩ := List.mem_map.mp hrow
    rfl
  unfold splitBuffer
  rw [List.findSome?_append, hnone, Option.or_none]

/-- The first row of the form is one of the rows. -/
theorem mem_of_splitBuffer {rows : List BufferRow} {row : SummaryRow}
    (h : (splitBuffer rows).1 = some row) : .summary row ∈ rows := by
  obtain ⟨r, hr, hrow⟩ := List.exists_of_findSome?_eq_some h
  cases r with
  | summary r => exact Option.some.inj hrow ▸ hr
  | turn t => cases hrow

theorem State.isSource_iff {s : State} {t : Turn} :
    s.isSource t = true ↔
      ∃ row, s.row = some row ∧ ∃ k X, row.sections k = some X ∧ t ∈ X.sources := by
  unfold isSource
  simp only [Option.any_eq_true, List.any_eq_true, Prod.exists, Sections.mem_entries,
    decide_eq_true_eq]

theorem fresh_pass {t : Turn} {s : State} {kind : Pass} {now : Instant} {minKeepTail : ℕ}
    {replies : Tier → Reply × Reply} {late : List Turn} {installs : Bool}
    (h : Fresh t s (.pass kind now minKeepTail replies late installs) = true) {row : SummaryRow}
    (hrow : s.row = some row) {k : Tier} {X : Section} (hX : row.sections k = some X)
    (ht : t ∈ X.sources) : X.text.strip ≠ [] ∧ X.evicts now = false := by
  unfold Fresh at h
  rw [hrow] at h
  have hall := List.all_eq_true.mp h (k, X) (Sections.mem_entries.mpr hX)
  simpa [ht] using hall

/-- What is read of a row: its own sections, or the one that its text is read as. -/
theorem readSections_eq_some {row : Option SummaryRow} {now : Instant} {k : Tier} {X : Section}
    (h : readSections row now k = some X) :
    ∃ r, row = some r ∧ (r.sections k = some X ∨
      (nonblank r.sections).entries = [] ∧ r.text ≠ [] ∧ k = .h72 ∧ X = legacySection r now) := by
  cases row with
  | none => cases h
  | some r =>
    refine ⟨r, rfl, ?_⟩
    unfold readSections at h
    simp only at h
    split_ifs at h with hentries hblank
    · exact .inl (nonblank_eq_some.mp h).1
    · have htext : r.text ≠ [] := fun hnil => hblank (by rw [hnil]; rfl)
      by_cases hk : k = .h72
      · rw [hk, Function.update_self] at h
        exact .inr ⟨not_not.mp hentries, htext, hk, (Option.some.inj h).symm⟩
      · rw [Function.update_of_ne hk] at h
        cases h

/-- A section that has a text is read as it stands. -/
theorem readSections_of_nonblank {r : SummaryRow} {k : Tier} {X : Section} (now : Instant)
    (hX : r.sections k = some X) (htext : X.text.strip ≠ []) :
    readSections (some r) now k = some X := by
  have hkept := nonblank_eq_some.mpr ⟨hX, htext⟩
  have hentries : (nonblank r.sections).entries ≠ [] :=
    List.ne_nil_of_mem (Sections.mem_entries.mpr hkept)
  unfold readSections
  simp only
  rw [if_pos hentries]
  exact hkept

/-! ## The invariant -/

/-- What holds of the sections that a pass reads, where the row is of the generation. -/
structure Sound (old : Sections) (gen : ℕ) (evictions : List Eviction) : Prop where
  made : ∀ k X, old k = some X → ∀ g j, .made g j ∈ X.lineage → g ≤ gen
  /-- No two sections are made from one. -/
  apart : ∀ j k X Y, old j = some X → old k = some Y → ∀ id ∈ X.lineage, id ∈ Y.lineage → j = k
  evicted : ∀ e ∈ evictions, e.final → (∀ g j, .made g j ∈ e.evicted.lineage → g ≤ gen) ∧
    ∀ k X, old k = some X → ∀ id ∈ X.lineage, id ∉ e.evicted.lineage
  edge : ∀ k X, old k = some X → (∀ j, .first j ∉ X.lineage) → X.OldestEdge

/-- Fewer sections are sound where more are. -/
theorem Sound.mono {old new : Sections} {gen : ℕ} {evictions : List Eviction}
    (h : Sound new gen evictions) (hsub : ∀ k X, old k = some X → new k = some X) :
    Sound old gen evictions where
  made k X hX := h.made k X (hsub k X hX)
  apart j k X Y hX hY := h.apart j k X Y (hsub j X hX) (hsub k Y hY)
  evicted e he hfinal :=
    ⟨(h.evicted e he hfinal).1, fun k X hX => (h.evicted e he hfinal).2 k X (hsub k X hX)⟩
  edge k X hX := h.edge k X (hsub k X hX)

/-- A pass leaves sound sections. -/
theorem Sound.follows {existing : Option SummaryRow} {owner : Tier → Option Tier} {now : Instant}
    {plan : Plan} {evictions : List Eviction} {kind : Pass}
    (h : Sound (readSections existing now) (summaryGen existing) evictions)
    (hp : plan.Follows existing owner now)
    (hfinal : ∀ k X, readSections existing now k = some X → X.evicts now = true →
      ¬(kind = .emergency ∧ k = .h24) → owner k = none) :
    Sound plan.row.sections plan.row.gen
      (evictions ++ plan.evicted.map fun (k, X) => ⟨kind, k, X⟩) := by
  have hgen : summaryGen existing < plan.row.gen := by
    rw [hp.gen]
    exact Nat.lt_succ_self _
  constructor
  · intro k Y hY g j hid
    rcases hp.made k Y hY _ hid with heq | ⟨i, X, hX, -, hid⟩
    · cases heq
      exact Nat.le_refl _
    · exact Nat.le_trans (h.made i X hX g j hid) hgen.le
  · intro j k X Y hX hY id hidX hidY
    rcases hp.made j X hX id hidX with rfl | ⟨i, X₀, hX₀, hj, hid⟩
    · rcases hp.made k Y hY _ hidY with heq | ⟨i', Y₀, hY₀, -, hid'⟩
      · cases heq
        rfl
      · exact absurd (h.made i' Y₀ hY₀ _ _ hid') (Nat.not_le_of_lt hgen)
    · rcases hp.made k Y hY id hidY with rfl | ⟨i', Y₀, hY₀, hk, hid'⟩
      · exact absurd (h.made i X₀ hX₀ _ _ hid) (Nat.not_le_of_lt hgen)
      · -- The one old section goes on in one tier.
        obtain rfl := h.apart i i' X₀ Y₀ hX₀ hY₀ id hid hid'
        exact Option.some.inj (hj.symm.trans hk)
  · intro e he hfin
    rcases List.mem_append.mp he with he | he
    · obtain ⟨hold, hapart⟩ := h.evicted e he hfin
      refine ⟨fun g j hid => Nat.le_trans (hold g j hid) hgen.le, fun k Y hY id hid hmem => ?_⟩
      rcases hp.made k Y hY id hid with rfl | ⟨i, X, hX, -, hid⟩
      · exact absurd (hold _ _ hmem) (Nat.not_le_of_lt hgen)
      · exact hapart i X hX id hid hmem
    · obtain ⟨⟨k, X⟩, hmem, rfl⟩ := List.mem_map.mp he
      rw [hp.evicted] at hmem
      obtain ⟨hX, hevicts⟩ := mem_evictedSections.mp hmem
      refine ⟨fun g j hid => Nat.le_trans (h.made k X hX g j hid) hgen.le,
        fun k' Y hY id hid hidX => ?_⟩
      rcases hp.made k' Y hY id hid with rfl | ⟨i, X', hX', howner, hid⟩
      · exact absurd (h.made k X hX _ _ hidX) (Nat.not_le_of_lt hgen)
      · -- The evicted section goes on in no tier.
        obtain rfl := h.apart i k X' X hX' hX id hid hidX
        rw [hfinal i X hX hevicts hfin] at howner
        cases howner
  · intro k Y hY hfirst
    refine hp.edge k Y hY fun i X hX _ hsub => h.edge i X hX fun j hj => ?_
    exact hfirst j (hsub _ hj)

/-- What holds after any run. -/
structure Inv (s : State) : Prop where
  sound : ∀ now, Sound (readSections s.row now) (summaryGen s.row) s.evictions
  edge : ∀ row, s.row = some row → ∀ k X, row.sections k = some X →
    (∀ j, .first j ∉ X.lineage) → X.OldestEdge

variable {P} {s : State}

/-- The plan of a pass follows the row that is read. -/
theorem follows_plan {kind : Pass} {now : Instant} {minKeepTail : ℕ}
    {replies : Tier → Reply × Reply} {p : Plan}
    (h : plan P s kind now minKeepTail replies = some p) :
    ∃ owner, p.Follows s.row owner now ∧
      ∀ k X, readSections s.row now k = some X → X.evicts now = true →
        ¬(kind = .emergency ∧ k = .h24) → owner k = none := by
  cases kind with
  | cascade =>
    refine ⟨_, Setting.follows_cascadePlan h, fun k X hX hevicts _ => ?_⟩
    unfold cascadeOwner
    have hX : readSections (splitBuffer s.buffer).1 now k = some X := hX
    rw [hX, Option.bind_some, if_pos hevicts]
  | emergency =>
    refine ⟨_, Setting.follows_emergencyPlan h, fun k X hX hevicts hnot => ?_⟩
    exact Setting.emergencyOwner_eq_none (fun hk => hnot ⟨rfl, hk⟩) hX hevicts

/-- A rewrite leaves the sections sound. -/
theorem Inv.install (h : Inv s) {kind : Pass} {now : Instant} {minKeepTail : ℕ}
    {replies : Tier → Reply × Reply} {p : Plan}
    (hp : plan P s kind now minKeepTail replies = some p) (late : List Turn) :
    Inv (s.install kind now late p) := by
  obtain ⟨owner, hfollows, hfinal⟩ := follows_plan hp
  have hsound := (h.sound now).follows hfollows hfinal
  constructor
  · intro now'
    refine hsound.mono fun k X hX => ?_
    obtain ⟨row, hrow, hsec | ⟨hblank, htext, -⟩⟩ := readSections_eq_some hX
    · cases hrow
      exact hsec
    · cases hrow
      exact absurd (hfollows.text hblank) htext
  · intro row hrow
    cases hrow
    exact hsound.edge

/-- A step that leaves the row and the evictions as they are keeps the invariant. -/
theorem Inv.of_row_eq (h : Inv s) {s' : State} (hrow : s'.row = s.row)
    (hevictions : s'.evictions = s.evictions) : Inv s' := by
  constructor
  · rw [hrow, hevictions]
    exact h.sound
  · rw [hrow]
    exact h.edge

theorem row_append (s : State) (turns : List Turn) :
    (splitBuffer (s.buffer ++ turns.map .turn)).1 = s.row :=
  splitBuffer_append_turns _ _

/-- What a step does to the row: it leaves it, or installs that of a plan. -/
theorem step_cases {a : Act} {s' : State} (h : (machine P).step s a = some s') :
    (s'.row = s.row ∧ s'.folded = s.folded ∧ s'.evictions = s.evictions) ∨
      ∃ kind now minKeepTail replies late p,
        a = .pass kind now minKeepTail replies late true ∧
        plan P s kind now minKeepTail replies = some p ∧ s' = s.install kind now late p := by
  cases a with
  | append t =>
    simp only [machine] at h
    split_ifs at h
    cases h
    exact .inl ⟨row_append s [t], rfl, rfl⟩
  | extract cursor =>
    cases h
    exact .inl ⟨rfl, rfl, rfl⟩
  | pass kind now minKeepTail replies late installs =>
    simp only [machine] at h
    split_ifs at h
    split at h
    · rename_i p hp
      cases h
      exact .inr ⟨kind, now, minKeepTail, replies, late, p, rfl, hp, rfl⟩
    · cases h
      exact .inl ⟨row_append s late, rfl, rfl⟩

theorem Inv.step (h : Inv s) {a : Act} {s' : State} (hstep : (machine P).step s a = some s') :
    Inv s' := by
  obtain ⟨hrow, -, hevictions⟩ | ⟨kind, now, _, _, late, p, -, hp, rfl⟩ := step_cases hstep
  · exact h.of_row_eq hrow hevictions
  · exact h.install hp late

/-- The first rows are sound. -/
theorem Inv.init (h : (machine P).init s) : Inv s := by
  obtain ⟨hfirst, -, hevictions⟩ := h
  have hrow : ∀ row, s.row = some row → IsFirst row := fun row hrow =>
    hfirst row (mem_of_splitBuffer hrow)
  have hlineage : ∀ now k X, readSections s.row now k = some X → X.lineage = [.first k] := by
    intro now k X hX
    obtain ⟨row, hr, hsec | ⟨-, -, rfl, rfl⟩⟩ := readSections_eq_some hX
    · exact (hrow row hr k X hsec).2
    · rfl
  constructor
  · intro now
    refine ⟨fun k X hX g j hid => ?_, fun j k X Y hX hY id hidX hidY => ?_, fun e he => ?_,
      fun k X hX hnone => ?_⟩
    · rw [hlineage now k X hX] at hid
      cases List.mem_singleton.mp hid
    · rw [hlineage now j X hX] at hidX
      rw [hlineage now k Y hY] at hidY
      cases (List.mem_singleton.mp hidX).symm.trans (List.mem_singleton.mp hidY)
      rfl
    · rw [hevictions] at he
      exact absurd he List.not_mem_nil
    · refine absurd ?_ (hnone k)
      rw [hlineage now k X hX]
      exact List.mem_singleton_self _
  · intro row hr k X hX hnone
    refine absurd ?_ (hnone k)
    rw [(hrow row hr k X hX).2]
    exact List.mem_singleton_self _

theorem Inv.of_reachable (h : (machine P).Reachable s) : Inv s :=
  h.invariant (fun _ => Inv.init) fun _ _ _ hI _ hstep => hI.step hstep

/-! ## Sources stay -/

/-- What was folded is a source of the row while its sections are fresh. -/
theorem isSource_of_folded {t : Turn} (h : (machine P).Reach (fun s a => Fresh t s a = true) s) :
    t ∈ s.folded → s.isSource t = true := by
  refine h.invariant (I := fun s => t ∈ s.folded → s.isSource t = true) ?_ ?_
  · rintro s ⟨-, hfolded, -⟩ ht
    rw [hfolded] at ht
    exact absurd ht List.not_mem_nil
  · intro s a s' hI hfresh hstep ht
    obtain ⟨hrow, hfolded, -⟩ | ⟨kind, now, _, _, late, p, rfl, hp, rfl⟩ := step_cases hstep
    · rw [hfolded] at ht
      unfold State.isSource
      rw [hrow]
      exact hI ht
    obtain ⟨owner, hfollows, -⟩ := follows_plan hp
    rw [State.isSource_iff]
    refine ⟨p.row, rfl, ?_⟩
    rcases List.mem_append.mp ht with ht | ht
    · -- Its section is read, and goes on in some tier.
      obtain ⟨row, hrow, k, X, hX, hsource⟩ := State.isSource_iff.mp (hI ht)
      obtain ⟨htext, hevicts⟩ := fresh_pass hfresh hrow hX hsource
      have hread : readSections s.row now k = some X := by
        rw [hrow]
        exact readSections_of_nonblank now hX htext
      cases howner : owner k with
      | none =>
        rw [hfollows.left k X hread howner] at hevicts
        cases hevicts
      | some k' =>
        obtain ⟨Y, hY, hsub⟩ := hfollows.kept k X k' hread htext howner
        exact ⟨k', Y, hY, hsub t hsource⟩
    · exact hfollows.folded t ht

/-- What a pass gives to a fold is a section that it reads. -/
theorem exists_of_mem_foldInputs {kind : Pass} {old : Sections} {now : Instant} {X : Section}
    (h : X ∈ foldInputs kind old now) : ∃ k, old k = some X := by
  cases kind with
  | cascade =>
    obtain ⟨k, -, hk⟩ := List.mem_flatMap.mp h
    obtain ⟨j, hj, -⟩ := mem_classified.mp hk
    exact ⟨j, hj⟩
  | emergency => exact ⟨.h24, Option.mem_toList.mp h⟩

/-- A folded turn stays a source of some section while, at each pass, its sections have a text and
have not passed the eviction boundary. A section made of folded turns only is as old as the oldest
of them. Whenever a section was evicted for good, none of the sections that its text came from is in
the text that a pass may give to a fold. -/
theorem sections_age (P : Setting) :
    (∀ t s, (machine P).Reach (fun s a => Fresh t s a = true) s → t ∈ s.folded →
      s.isSource t = true) ∧
    ∀ s, (machine P).Reachable s →
      (∀ row, s.row = some row → ∀ k X, row.sections k = some X →
        (∀ j, .first j ∉ X.lineage) → X.OldestEdge) ∧
      ∀ e ∈ s.evictions, e.final → ∀ kind now, ∀ X ∈ foldInputs kind (readSections s.row now) now,
        ∀ id ∈ X.lineage, id ∉ e.evicted.lineage := by
  refine ⟨fun t s h => isSource_of_folded h, fun s h => ?_⟩
  have hinv := Inv.of_reachable h
  refine ⟨hinv.edge, fun e he hfinal kind now X hX => ?_⟩
  obtain ⟨k, hk⟩ := exists_of_mem_foldInputs hX
  exact ((hinv.sound now).evicted e he hfinal).2 k X hk

/-! ## Runs -/

/-- A persona whose texts are not refused. -/
def plain : Setting := ⟨"nell".toList, fun _ => false, fun _ => []⟩

/-- A session without a row. -/
def noRows : State := ⟨[], none, 0, [], []⟩

theorem noRows_init : (machine plain).init noRows := ⟨nofun, rfl, rfl⟩

/-- What is said at that hour. -/
def said (speaker : Speaker) (hour : ℤ) : Turn := ingestTurn (hours hour) speaker "hello".toList [] 0

/-- A turn is said and extracted at that hour. -/
def spoken (speaker : Speaker) (hour : ℤ) : List Act :=
  [.append (said speaker hour), .extract (isoSeconds (hours hour))]

/-- A pass at that hour, with a provider that fails and no protected tail. -/
def passAt (kind : Pass) (hour : ℤ) : Act :=
  .pass kind (hours hour) 0 (fun _ => (.error .failed, .error .failed)) [] true

/-- A turn that was folded in the first hour is a source of the older section after two days. -/
theorem sections_age_graduate : ∃ s : State, (s.row.bind fun row => row.sections .h24).isNone ∧
    s.isSource (said .user 0) = true := by
  obtain ⟨s, hs, hp⟩ := Machine.exists_reach_of_runWithin (M := machine plain)
    (D := fun s a => Fresh (said .user 0) s a = true) (fun _ _ h => h) noRows_init
    (spoken .user 0 ++ [passAt .emergency 1, passAt .cascade 50])
    (fun s => (s.row.bind fun row => row.sections .h24).isNone ∧ said .user 0 ∈ s.folded)
    (by decide +kernel)
  obtain ⟨hrow, hfolded⟩ := of_decide_eq_true hp
  exact ⟨s, hrow, (sections_age plain).1 _ s hs hfolded⟩

/-- A turn that was folded, is younger than three days, and is a source of no section. -/
def YoungLost (s : State) (t : Turn) : Prop :=
  t ∈ s.folded ∧ t.stamp.any (fun x => s.clock - x < hours 72) = true ∧ s.isSource t = false

instance (s : State) (t : Turn) : Decidable (YoungLost s t) :=
  inferInstanceAs (Decidable (_ ∧ _ ∧ _))

/-- A turn of the last hour leaves the row with the older turn that an emergency fold took beside
it. An image row leaves it when the fold made no text of it. A section that an emergency fold counts
as evicted is in the text of the section that the next one folds. -/
theorem young_source_leaves :
    (∃ s, (machine plain).Reachable s ∧ YoungLost s (said .user 99)) ∧
    (∃ s, (machine plain).Reachable s ∧ YoungLost s (said (.other "image".toList) 0)) ∧
    ∃ s, (machine plain).Reachable s ∧
      (plan plain s .emergency (hours 102) 0 fun _ => (.error .failed, .error .failed)).isSome ∧
      ∃ e ∈ s.evictions, ∃ X ∈ foldInputs .emergency (readSections s.row (hours 102)) (hours 102),
        ∃ id ∈ X.lineage, id ∈ e.evicted.lineage := by
  refine ⟨?_, ?_, ?_⟩
  · obtain ⟨s, hs, hp⟩ := Machine.exists_reach_of_runWithin (M := machine plain)
      (D := fun _ _ => True) (fun _ _ h => h) noRows_init
      (spoken .user 0 ++ spoken .user 99 ++ [passAt .emergency 100, passAt .cascade 100])
      (fun s => YoungLost s (said .user 99)) (by decide +kernel)
    exact ⟨s, hs, of_decide_eq_true hp⟩
  · obtain ⟨s, hs, hp⟩ := Machine.exists_reach_of_runWithin (M := machine plain)
      (D := fun _ _ => True) (fun _ _ h => h) noRows_init
      (spoken (.other "image".toList) 0 ++ passAt .emergency 25 :: spoken .user 25 ++
        [passAt .emergency 26])
      (fun s => YoungLost s (said (.other "image".toList) 0)) (by decide +kernel)
    exact ⟨s, hs, of_decide_eq_true hp⟩
  · obtain ⟨s, hs, hp⟩ := Machine.exists_reach_of_runWithin (M := machine plain)
      (D := fun _ _ => True) (fun _ _ h => h) noRows_init
      (spoken .user 0 ++ passAt .emergency 1 :: spoken .user 100 ++ passAt .emergency 101 ::
        spoken .user 101)
      (fun s => (plan plain s .emergency (hours 102) 0 fun _ =>
          (.error .failed, .error .failed)).isSome &&
        s.evictions.any fun e => (foldInputs .emergency (readSections s.row (hours 102))
          (hours 102)).any fun X => X.lineage.any fun id => id ∈ e.evicted.lineage)
      (by decide +kernel)
    obtain ⟨hplan, hany⟩ := Bool.and_eq_true_iff.mp hp
    obtain ⟨e, he, hany⟩ := List.any_eq_true.mp hany
    obtain ⟨X, hX, hany⟩ := List.any_eq_true.mp hany
    obtain ⟨id, hid, hmem⟩ := List.any_eq_true.mp hany
    exact ⟨s, hs, hplan, e, he, X, hX, id, hid, of_decide_eq_true hmem⟩

end Companion.Chat.Aging

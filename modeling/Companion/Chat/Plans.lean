import Companion.Chat.Sections

/-!
# The passes over a conversation's buffer

The three operations of `brain/chat/compaction.py` that fade raw turns into the summary row:
`compact_conversation`, `cascade_conversation` and `emergency_fold_24h`. Each reads the buffer,
works out a plan (the turns that it removes and the row that it installs), archives what the plan
removes, reads the buffer once more, and rewrites it. A plan is a pure function of the rows read,
the cursor, the time and the replies of the provider; `Plan.install` is the rewrite, which takes the
archived turns by identity out of the rows that are there by then.

Of each plan it is said once what becomes of the sections of the old row (`Plan.Follows`).
-/

namespace Companion.Chat

open Companion.Memory Companion.Ingest

/-- A row of a buffer. -/
inductive BufferRow
  | summary (row : SummaryRow)
  | turn (t : Turn)

namespace BufferRow

def asSummary : BufferRow → Option SummaryRow
  | summary row => some row
  | turn _ => none

def asTurn : BufferRow → Option Turn
  | summary _ => none
  | turn t => some t

end BufferRow

/-- `_split_buffer` -/
def splitBuffer (rows : List BufferRow) : Option SummaryRow × List Turn :=
  (rows.findSome? BufferRow.asSummary, rows.filterMap BufferRow.asTurn)

/-- `summary_gen` -/
def summaryGen (row : Option SummaryRow) : ℕ := (row.map SummaryRow.gen).getD 0

/-- The turns that `min_keep_tail` does not protect. -/
def beyondTail (rawTurns : List Turn) (minKeepTail : ℕ) : List Turn :=
  rawTurns.take (rawTurns.length - minKeepTail)

/-- What a pass archives, removes and installs. -/
structure Plan where
  removable : List Turn
  /-- The old row, where the pass archives it. -/
  superseded : Option SummaryRow
  row : SummaryRow
  /-- The sections that leave the row by their age. -/
  evicted : List (Tier × Section)

/-- The rows that are not taken by the identities, each of which takes one. -/
def subtractArchived :
    List (Option Stamp × Speaker × Text) → List Turn → List Turn
  | _, [] => []
  | ids, t :: ts =>
    if t.identity ∈ ids then subtractArchived (ids.erase t.identity) ts
    else t :: subtractArchived ids ts

/-- The rewrite of the buffer that is there by then. -/
def Plan.install (plan : Plan) (current : List BufferRow) : List BufferRow :=
  .summary plan.row ::
    (subtractArchived (plan.removable.map Turn.identity) (splitBuffer current).2).map .turn

/-- The turns of the first part that have a property of their identity are taken. -/
theorem subtractArchived_filter {p : Turn → Bool}
    (hp : ∀ t u : Turn, t.identity = u.identity → p t = p u) (ts us : List Turn) :
    subtractArchived ((ts.filter p).map Turn.identity) (ts ++ us) =
      ts.filter (fun t => !p t) ++ us := by
  induction ts with
  | nil =>
    induction us with
    | nil => rfl
    | cons u us ih =>
      rw [List.nil_append, List.filter_nil, List.map_nil] at ih ⊢
      rw [subtractArchived, if_neg List.not_mem_nil, ih]
      rfl
  | cons t ts ih =>
    rw [List.cons_append, subtractArchived]
    cases ht : p t with
    | true =>
      rw [List.filter_cons_of_pos ht, List.map_cons, if_pos List.mem_cons_self,
        List.erase_cons_head, ih, List.filter_cons_of_neg (by simp [ht])]
    | false =>
      have hmem : t.identity ∉ (ts.filter p).map Turn.identity := by
        intro hmem
        obtain ⟨u, hu, heq⟩ := List.mem_map.mp hmem
        exact absurd ((hp u t heq).symm.trans (List.mem_filter.mp hu).2) (by simp [ht])
      rw [List.filter_cons_of_neg (by simp [ht]), if_neg hmem, ih,
        List.filter_cons_of_pos (by simp [ht]), List.cons_append]

theorem splitBuffer_install (plan : Plan) (rows : List BufferRow) :
    splitBuffer (plan.install rows) = (some plan.row,
      subtractArchived (plan.removable.map Turn.identity) (splitBuffer rows).2) := by
  have hturns : ∀ ts : List Turn, (ts.map BufferRow.turn).filterMap BufferRow.asTurn = ts :=
    fun ts => by rw [List.filterMap_map]; exact List.filterMap_some
  exact Prod.ext rfl (hturns _)

/-- What is removed by a property of the identity leaves nothing beyond the tail that has it. -/
theorem Plan.nothing_left (plan : Plan) {rows : List BufferRow} {minKeepTail : ℕ} {p : Turn → Bool}
    (hp : ∀ t u : Turn, t.identity = u.identity → p t = p u)
    (h : plan.removable = (beyondTail (splitBuffer rows).2 minKeepTail).filter p) :
    (beyondTail (splitBuffer (plan.install rows)).2 minKeepTail).filter p = [] := by
  obtain ⟨raw, hraw⟩ : ∃ raw, raw = (splitBuffer rows).2 := ⟨_, rfl⟩
  obtain ⟨taken, tail, hsplit, htail, htaken⟩ : ∃ taken tail, raw = taken ++ tail ∧
      tail.length ≤ minKeepTail ∧ beyondTail raw minKeepTail = taken :=
    ⟨_, _, (List.take_append_drop (raw.length - minKeepTail) raw).symm, by
      rw [List.length_drop]
      omega, rfl⟩
  have hleft : (splitBuffer (plan.install rows)).2 = taken.filter (fun t => !p t) ++ tail := by
    rw [splitBuffer_install, h, ← hraw, htaken, hsplit]
    exact subtractArchived_filter hp taken tail
  rw [hleft, beyondTail, List.filter_eq_nil_iff]
  intro t ht
  -- What the new tail does not protect was not protected before, and was left as it has not `p`.
  rw [List.take_append_of_le_length (by rw [List.length_append]; omega)] at ht
  have hnot := (List.mem_filter.mp (List.mem_of_mem_take ht)).2
  rwa [Bool.not_eq_true', ← Bool.not_eq_true] at hnot

/-! ## `compact_conversation` -/

/-- The plan of `compact_conversation`, or none where it changes nothing. -/
def Setting.compactPlan (P : Setting) (buffer : List BufferRow) (cursor : Option Stamp)
    (now olderThan : Instant) (foldExistingSummary : Bool) (minKeepTail : ℕ)
    (maxCompactTurns : Option ℕ) (replies : Reply × Reply) : Option Plan :=
  let existing := (splitBuffer buffer).1
  let cutoff := ((parseTs cursor).map (min (now - olderThan))).getD (now - olderThan)
  let aged := (beyondTail (splitBuffer buffer).2 minKeepTail).filter fun t => t.stamp.any (· ≤ cutoff)
  -- Where the cap is zero, the last turn of the batch is asked for and the pass raises.
  let removable := maxCompactTurns.elim aged aged.take
  let note := "[truncated ".toList ++ (toString removable.length).toList ++ " earlier messages]".toList
  let install (fellSoft : Bool) (newPart : Text) : Plan :=
    let newText :=
      match existing with
      | none => newPart
      | some row =>
        if (foldExistingSummary ∧ ¬ fellSoft) ∨ row.text = [] then newPart
        else row.text ++ ['\n', '\n'] ++ newPart
    { removable := removable
      superseded := if foldExistingSummary then existing else none
      row :=
        { ts := isoSeconds now
          text := newText
          gen := summaryGen existing + 1
          coversUntil := (removable.getLast?.bind Turn.ts) <|> some (.iso cutoff)
          sections := fun _ => none }
      evicted := [] }
  if cursor = none ∨ removable = [] then none
  else
    match P.generateValidatedFold replies with
    | .error .throttleDeferred => none
    | .error .failed => some (install true note)
    | .ok none => some (install true note)
    | .ok (some text) => some (install false text)

/-! ## `cascade_conversation` -/

/-- The turn is extracted, and as old as the bound. -/
def eligible (cursor : Option Stamp) (bound : Option Instant) (t : Turn) : Bool :=
  t.stamp.any fun ts => (parseTs cursor).all (ts ≤ ·) && bound.all (ts ≤ ·)

theorem eligible_identity (cursor : Option Stamp) (bound : Option Instant) {t u : Turn}
    (h : t.identity = u.identity) : eligible cursor bound t = eligible cursor bound u := by
  have hts : t.ts = u.ts := congrArg Prod.fst h
  unfold eligible Turn.stamp
  rw [hts]

/-- The raw turns of a band. -/
def rawGroup (removable : List Turn) (now : Instant) (k : Tier) : List Turn :=
  removable.filter fun t => t.stamp.any fun ts => bucketOfAge (now - ts) = k

/-- The sections that are classified into a band. -/
def classified (old : Sections) (now : Instant) (k : Tier) : List Section :=
  (old.entries.filter fun (_, X) => !X.evicts now && X.bucket now = k).map Prod.snd

/-- A section is in another band than its own, or leaves the row. -/
def needsGraduate (old : Sections) (now : Instant) : Bool :=
  old.entries.any fun (k, X) => X.evicts now || X.bucket now ≠ k

/-- The sections past the eviction boundary. -/
def evictedSections (old : Sections) (now : Instant) : List (Tier × Section) :=
  old.entries.filter fun (_, X) => X.evicts now

/-- The cap of a tier. -/
def Tier.cap : Tier → Option ℕ
  | .h24 => some sectionCap24h
  | .h48 => none
  | .h72 => some sectionCap72h

/-- The row that `_install_cascade_row` installs. -/
def Setting.cascadeRow (P : Setting) (newSections : Sections) (existing : Option SummaryRow)
    (now : Instant) : SummaryRow where
  ts := isoSeconds now
  text := P.renderSections newSections
  gen := summaryGen existing + 1
  coversUntil :=
    isoSeconds ((newSections.entries.filterMap fun (_, X) => parseTs X.coversUntil).max?.getD now)
  sections := newSections

/-- The fold of a cascade into one tier. -/
def Setting.cascadeFold (P : Setting) (existing : Option SummaryRow) (removable : List Turn)
    (now : Instant) (replies : Tier → Reply × Reply) (k : Tier) :
    Except ProviderError (Option Section) :=
  P.foldIntoSection (.made (summaryGen existing + 1) k)
    (classified (readSections existing now) now k) (rawGroup removable now k) k.cap (replies k) now

/-- The plan of `cascade_conversation`, or none where it changes nothing. -/
def Setting.cascadePlan (P : Setting) (buffer : List BufferRow) (cursor : Option Stamp)
    (now : Instant) (minKeepTail : ℕ) (replies : Tier → Reply × Reply) : Option Plan :=
  let existing := (splitBuffer buffer).1
  let removable := (beyondTail (splitBuffer buffer).2 minKeepTail).filter
    (eligible cursor (some (now - hours 24)))
  let old := readSections existing now
  let fold := P.cascadeFold existing removable now replies
  if cursor = none ∨ (removable = [] ∧ needsGraduate old now = false) then none
  else if Tier.order.all fun k => (fold k).isOk then
    some
      { removable := removable
        superseded := existing
        row := P.cascadeRow (fun k => (fold k).toOption.join) existing now
        evicted := evictedSections old now }
  else none

/-! ## `emergency_fold_24h` -/

/-- The plan of `emergency_fold_24h`, or none where it changes nothing. -/
def Setting.emergencyPlan (P : Setting) (buffer : List BufferRow) (cursor : Option Stamp)
    (now : Instant) (minKeepTail : ℕ) (replies : Reply × Reply) : Option Plan :=
  let existing := (splitBuffer buffer).1
  let removable := (beyondTail (splitBuffer buffer).2 minKeepTail).filter (eligible cursor none)
  let old := readSections existing now
  let kept : Sections := fun k => (old k).filter fun X => !X.evicts now
  if cursor = none ∨ removable = [] then none
  else
    match P.foldIntoSection (.made (summaryGen existing + 1) .h24) (old .h24).toList removable
      (some sectionCap24h) replies now with
    | .error _ => none
    | .ok new24 =>
      some
        { removable := removable
          superseded := existing
          row := P.cascadeRow (Function.update kept .h24 (new24 <|> kept .h24)) existing now
          evicted := evictedSections old now }

/-! ## What becomes of the old sections -/

/-- A pass over the old row. `owner` is the tier that an old section goes on in, and none where it
leaves the row. -/
structure Plan.Follows (plan : Plan) (existing : Option SummaryRow) (owner : Tier → Option Tier)
    (now : Instant) : Prop where
  gen : plan.row.gen = summaryGen existing + 1
  evicted : plan.evicted = evictedSections (readSections existing now) now
  /-- A text comes from the old sections that go on in its tier. -/
  made : ∀ k Y, plan.row.sections k = some Y → ∀ id ∈ Y.lineage,
    id = .made plan.row.gen k ∨
      ∃ j X, readSections existing now j = some X ∧ owner j = some k ∧ id ∈ X.lineage
  /-- An old section that goes on hands its sources on. -/
  kept : ∀ j X k, readSections existing now j = some X → X.text.strip ≠ [] → owner j = some k →
    ∃ Y, plan.row.sections k = some Y ∧ ∀ t ∈ X.sources, t ∈ Y.sources
  /-- An old section leaves the row only by its age. -/
  left : ∀ j X, readSections existing now j = some X → owner j = none → X.evicts now = true
  folded : ∀ t ∈ plan.removable, ∃ k Y, plan.row.sections k = some Y ∧ t ∈ Y.sources
  edge : ∀ k Y, plan.row.sections k = some Y →
    (∀ j X, readSections existing now j = some X → owner j = some k →
      (∀ id ∈ X.lineage, id ∈ Y.lineage) → X.OldestEdge) → Y.OldestEdge
  /-- The text of the row is that of its sections. -/
  text : (nonblank plan.row.sections).entries = [] → plan.row.text = []

theorem mem_classified {old : Sections} {now : Instant} {k : Tier} {X : Section} :
    X ∈ classified old now k ↔ ∃ j, old j = some X ∧ X.evicts now = false ∧ X.bucket now = k := by
  unfold classified
  constructor
  · intro h
    obtain ⟨⟨j, Y⟩, hY, rfl⟩ := List.mem_map.mp h
    obtain ⟨hmem, hband⟩ := List.mem_filter.mp hY
    obtain ⟨hevicts, hbucket⟩ := Bool.and_eq_true_iff.mp hband
    exact ⟨j, Sections.mem_entries.mp hmem, Bool.not_eq_true' _ |>.mp hevicts,
      of_decide_eq_true hbucket⟩
  · rintro ⟨j, hX, hevicts, hbucket⟩
    refine List.mem_map.mpr ⟨(j, X), List.mem_filter.mpr ⟨Sections.mem_entries.mpr hX, ?_⟩, rfl⟩
    simp only [hevicts, hbucket, decide_true, Bool.not_false, Bool.and_self]

theorem mem_evictedSections {old : Sections} {now : Instant} {k : Tier} {X : Section} :
    (k, X) ∈ evictedSections old now ↔ old k = some X ∧ X.evicts now = true := by
  unfold evictedSections
  rw [List.mem_filter, Sections.mem_entries]

/-- A turn that a pass may take has a stamp. -/
theorem stamp_of_eligible {cursor : Option Stamp} {bound : Option Instant} {rawTurns : List Turn}
    {t : Turn} (h : t ∈ rawTurns.filter (eligible cursor bound)) : ∃ x, t.stamp = some x := by
  obtain ⟨x, hx, -⟩ := (Option.any_eq_true _ _).mp (List.mem_filter.mp h).2
  exact ⟨x, hx⟩

/-- The tier that a cascade takes an old section on in. -/
def cascadeOwner (old : Sections) (now : Instant) (j : Tier) : Option Tier :=
  (old j).bind fun X => if X.evicts now then none else some (X.bucket now)

theorem cascadeOwner_eq_some {old : Sections} {now : Instant} {j k : Tier} {X : Section}
    (hX : old j = some X) :
    cascadeOwner old now j = some k ↔ X.evicts now = false ∧ X.bucket now = k := by
  unfold cascadeOwner
  rw [hX, Option.bind_some]
  split_ifs with hevicts
  · simp [hevicts]
  · simp [hevicts]

namespace Setting

variable {P : Setting} {buffer : List BufferRow} {cursor : Option Stamp} {now : Instant}
  {minKeepTail : ℕ} {plan : Plan}

/-- A tier of a cascade is made of its band, or has nothing that it could be made of. -/
theorem cascadeFold_isOk {existing : Option SummaryRow} {removable : List Turn}
    {replies : Tier → Reply × Reply} {k : Tier}
    (h : (P.cascadeFold existing removable now replies k).isOk = true) :
    ((P.cascadeFold existing removable now replies k).toOption.join = none ∧
        rawGroup removable now k = [] ∧
        ∀ X ∈ classified (readSections existing now) now k, X.text.strip = []) ∨
      (classified (readSections existing now) now k ≠ [] ∨ rawGroup removable now k ≠ []) ∧
        ∃ text, (P.cascadeFold existing removable now replies k).toOption.join =
          some (foldedSection (.made (summaryGen existing + 1) k)
            (classified (readSections existing now) now k) (rawGroup removable now k) now text) := by
  cases hout : P.cascadeFold existing removable now replies k with
  | error e =>
    rw [hout] at h
    cases h
  | ok out => exact foldIntoSection_ok hout

/-- What a cascade does with the sections of the old row. -/
theorem follows_cascadePlan {replies : Tier → Reply × Reply}
    (h : P.cascadePlan buffer cursor now minKeepTail replies = some plan) :
    plan.Follows (splitBuffer buffer).1
      (cascadeOwner (readSections (splitBuffer buffer).1 now) now) now := by
  unfold cascadePlan at h
  simp only at h
  split_ifs at h with hnone hok
  cases h
  have hfold := fun k : Tier => cascadeFold_isOk (List.all_eq_true.mp hok k k.mem_order)
  obtain ⟨removable, hremovable⟩ : ∃ removable, removable =
      (beyondTail (splitBuffer buffer).2 minKeepTail).filter
        (eligible cursor (some (now - hours 24))) := ⟨_, rfl⟩
  rw [← hremovable] at hfold ⊢
  refine ⟨rfl, rfl, ?_, ?_, ?_, ?_, ?_, ?_⟩
  · -- A new text is that of its band.
    intro k Y hY id hid
    rcases hfold k with ⟨hno, -⟩ | ⟨-, text, hsome⟩
    · exact absurd (hno.symm.trans hY) (by simp)
    · obtain rfl := Option.some.inj (hsome.symm.trans hY)
      rcases List.mem_cons.mp hid with rfl | hid
      · exact .inl rfl
      · obtain ⟨X, hX, hid⟩ := List.mem_flatMap.mp hid
        obtain ⟨j, hj, hband⟩ := mem_classified.mp hX
        exact .inr ⟨j, X, hj, (cascadeOwner_eq_some hj).mpr hband, hid⟩
  · intro j X k hX hstrip howner
    have hmem : X ∈ classified _ now k := mem_classified.mpr ⟨j, hX, (cascadeOwner_eq_some hX).mp howner⟩
    rcases hfold k with ⟨-, -, hblank⟩ | ⟨-, text, hsome⟩
    · exact absurd (hblank X hmem) hstrip
    · exact ⟨_, hsome, fun t ht =>
        List.mem_append_left _ (List.mem_flatMap.mpr ⟨X, hmem, ht⟩)⟩
  · intro j X hX howner
    unfold cascadeOwner at howner
    rw [hX, Option.bind_some] at howner
    split_ifs at howner with hevicts
    exact hevicts
  · -- Every turn is in the group of its band.
    intro t ht
    obtain ⟨x, hx⟩ := stamp_of_eligible (hremovable ▸ ht)
    have hgroup : t ∈ rawGroup removable now (bucketOfAge (now - x)) :=
      List.mem_filter.mpr ⟨ht, by simp [hx]⟩
    rcases hfold (bucketOfAge (now - x)) with ⟨-, hnil, -⟩ | ⟨-, text, hsome⟩
    · rw [hnil] at hgroup
      exact absurd hgroup List.not_mem_nil
    · exact ⟨_, _, hsome, List.mem_append_right _ hgroup⟩
  · intro k Y hY hold
    rcases hfold k with ⟨hno, -⟩ | ⟨hne, text, hsome⟩
    · exact absurd (hno.symm.trans hY) (by simp)
    · obtain rfl := Option.some.inj (hsome.symm.trans hY)
      refine foldedSection_oldestEdge (fun X hX => ?_) (fun t ht => ?_) hne
      · obtain ⟨j, hj, hband⟩ := mem_classified.mp hX
        exact hold j X hj ((cascadeOwner_eq_some hj).mpr hband) fun id hid =>
          List.mem_cons_of_mem _ (List.mem_flatMap.mpr ⟨X, hX, hid⟩)
      · exact stamp_of_eligible (hremovable ▸ (List.mem_filter.mp ht).1)
  · exact P.renderSections_of_blank

/-- The tier that an emergency fold leaves an old section in. -/
def emergencyOwner (old : Sections) (now : Instant) (j : Tier) : Option Tier :=
  if j = .h24 then some .h24 else (old j).bind fun X => if X.evicts now then none else some j

theorem emergencyOwner_eq_some {old : Sections} {j k : Tier} (h : emergencyOwner old now j = some k) :
    j = k ∧ ∀ X, old j = some X → j ≠ .h24 → X.evicts now = false := by
  unfold emergencyOwner at h
  split_ifs at h with hj
  · exact ⟨hj.trans (Option.some.inj h), fun X _ hne => absurd hj hne⟩
  · obtain ⟨X, hX, hk⟩ := Option.bind_eq_some_iff.mp h
    split_ifs at hk with hevicts
    refine ⟨Option.some.inj hk, fun Y hY _ => ?_⟩
    obtain rfl := Option.some.inj (hX.symm.trans hY)
    exact Bool.not_eq_true _ |>.mp hevicts

/-- What an emergency fold does with the sections of the old row. -/
theorem follows_emergencyPlan {replies : Reply × Reply}
    (h : P.emergencyPlan buffer cursor now minKeepTail replies = some plan) :
    plan.Follows (splitBuffer buffer).1
      (emergencyOwner (readSections (splitBuffer buffer).1 now) now) now := by
  unfold emergencyPlan at h
  simp only at h
  split_ifs at h with hnone
  split at h
  · cases h
  rename_i new24 hfold
  cases h
  rcases foldIntoSection_ok hfold with ⟨-, hnil, -⟩ | ⟨hne, text, rfl⟩
  · exact absurd (.inr hnil) hnone
  obtain ⟨old, hold⟩ : ∃ old, old = readSections (splitBuffer buffer).1 now := ⟨_, rfl⟩
  rw [← hold] at hne ⊢
  obtain ⟨removable, hremovable⟩ : ∃ removable, removable =
      (beyondTail (splitBuffer buffer).2 minKeepTail).filter (eligible cursor none) := ⟨_, rfl⟩
  rw [← hremovable] at hne ⊢
  obtain ⟨made, hmade⟩ : ∃ made, made = foldedSection (.made (summaryGen (splitBuffer buffer).1 + 1)
      .h24) (old .h24).toList removable now text := ⟨_, rfl⟩
  rw [← hmade]
  obtain ⟨kept, hkept⟩ : ∃ kept : Sections, kept = fun k => (old k).filter fun X => !X.evicts now :=
    ⟨_, rfl⟩
  rw [← hkept]
  obtain ⟨new, hnew⟩ : ∃ new : Sections, new = Function.update kept .h24 (some made) := ⟨_, rfl⟩
  have h24 : new .h24 = some made := by rw [hnew, Function.update_self]
  -- The other tiers keep what does not leave.
  have hother : ∀ k Y, k ≠ .h24 →
      (new k = some Y ↔ old k = some Y ∧ emergencyOwner old now k = some k) := by
    intro k Y hk
    rw [hnew, Function.update_of_ne hk, hkept, Option.filter_eq_some_iff]
    unfold emergencyOwner
    rw [if_neg hk]
    refine and_congr_right fun hY => ?_
    rw [hY, Option.bind_some]
    cases Y.evicts now <;> simp
  rw [show (some made <|> (old .h24).filter fun X => !X.evicts now) = some made from rfl, ← hnew]
  refine ⟨rfl, by rw [hold], ?_, ?_, ?_, ?_, ?_, ?_⟩
  · rw [← hold]
    intro k Y hY id hid
    by_cases hk : k = .h24
    · subst hk
      obtain rfl := Option.some.inj (h24.symm.trans hY)
      rw [hmade] at hid
      rcases List.mem_cons.mp hid with rfl | hid
      · exact .inl rfl
      · obtain ⟨X, hX, hid⟩ := List.mem_flatMap.mp hid
        exact .inr ⟨.h24, X, Option.mem_toList.mp hX, if_pos rfl, hid⟩
    · obtain ⟨hold, howner⟩ := (hother k Y hk).mp hY
      exact .inr ⟨k, Y, hold, howner, hid⟩
  · rw [← hold]
    intro j X k hX _ howner
    obtain rfl := (emergencyOwner_eq_some howner).1
    by_cases hj : j = .h24
    · subst hj
      refine ⟨made, h24, fun t ht => ?_⟩
      rw [hmade]
      exact List.mem_append_left _ (List.mem_flatMap.mpr ⟨X, Option.mem_toList.mpr hX, ht⟩)
    · exact ⟨X, (hother j X hj).mpr ⟨hX, howner⟩, fun t ht => ht⟩
  · rw [← hold]
    intro j X hX howner
    unfold emergencyOwner at howner
    split_ifs at howner with hj
    rw [hX, Option.bind_some] at howner
    split_ifs at howner with hevicts
    exact hevicts
  · intro t ht
    refine ⟨.h24, made, h24, ?_⟩
    rw [hmade]
    exact List.mem_append_right _ ht
  · rw [← hold]
    intro k Y hY hedge
    by_cases hk : k = .h24
    · subst hk
      obtain rfl := Option.some.inj (h24.symm.trans hY)
      rw [hmade]
      refine foldedSection_oldestEdge (fun X hX => ?_) (fun t ht => ?_) hne
      · refine hedge .h24 X (Option.mem_toList.mp hX) (if_pos rfl) fun id hid => ?_
        rw [hmade]
        exact List.mem_cons_of_mem _ (List.mem_flatMap.mpr ⟨X, hX, hid⟩)
      · exact stamp_of_eligible (hremovable ▸ ht)
    · obtain ⟨hold, howner⟩ := (hother k Y hk).mp hY
      exact hedge k Y hold howner fun id hid => hid
  · exact P.renderSections_of_blank

/-- What an emergency fold evicts, other than the section that it takes up, goes on in no tier. -/
theorem emergencyOwner_eq_none {old : Sections} {j : Tier} {X : Section} (hj : j ≠ .h24)
    (hX : old j = some X) (hevicts : X.evicts now = true) : emergencyOwner old now j = none := by
  unfold emergencyOwner
  rw [if_neg hj, hX, Option.bind_some, if_pos hevicts]

end Setting

end Companion.Chat

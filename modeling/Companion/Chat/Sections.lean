import Companion.Ingest.Buffer
import Mathlib.Data.Int.Order.Basic
import Mathlib.Data.List.Sort
import Mathlib.Logic.Function.Basic

/-!
# The sections of a summary row

The summary row of a conversation holds up to three sections, one for each age band. This file has
the functions of `brain/chat/compaction.py` on one row or one section: the bands of ages
(`_bucket_of_age`), the time that a section covers (`_tier_span`), the tolerant reader
(`_read_sections`), the render (`_render_sections`), and the fold of older sections and raw turns
into a new one (`_fold_into_section`).

A section carries two records that no operation reads: the turns that were folded into it, directly
or through an earlier section, and the sections that its text was made from.
-/

namespace Companion.Chat

open Companion.Memory Companion.Ingest

/-- The keys of the sections. -/
inductive Tier
  | h24
  | h48
  | h72
  deriving DecidableEq

/-- `_SECTION_ORDER` -/
def Tier.order : List Tier := [.h24, .h48, .h72]

theorem Tier.mem_order (k : Tier) : k ∈ order := by cases k <;> decide

/-- A number of hours. -/
def hours (n : ℤ) : Instant := n * 3600000000

/-- `_AGE_EVICT` -/
def ageEvict : Instant := hours 96

/-- `_LEGACY_AGE_FLOOR` -/
def legacyAgeFloor : Instant := hours 84

/-- `_SECTION_24H_CHAR_CAP` -/
def sectionCap24h : ℕ := 12000

/-- `_SECTION_72H_CHAR_CAP` -/
def sectionCap72h : ℕ := 2400

/-- `_bucket_of_age` -/
def bucketOfAge (age : Instant) : Tier :=
  if age < hours 48 then .h24 else if age < hours 72 then .h48 else .h72

/-- Which section this is: one of the row that a run starts with, or the one that the row of a
generation was installed with. -/
inductive SectionId
  | first (key : Tier)
  | made (gen : ℕ) (key : Tier)
  deriving DecidableEq

/-- A section of a summary row. -/
structure Section where
  text : Text
  coversFrom : Option Stamp
  coversUntil : Option Stamp
  /-- The turns that were folded into it. -/
  sources : List Turn
  /-- The sections that it was made from, itself included. -/
  lineage : List SectionId

/-- `compaction.sections` -/
abbrev Sections := Tier → Option Section

/-- A row with the speaker `summary`. -/
structure SummaryRow where
  ts : Option Stamp
  text : Text
  gen : ℕ
  coversUntil : Option Stamp
  /-- Without a section in a row of the older form. -/
  sections : Sections

/-- What the functions take from their surroundings. -/
structure Setting where
  /-- The name of the persona's directory. -/
  kindledName : Text
  /-- The patterns of `_validate_fold_output` refuse the text. -/
  rejects : Text → Bool
  /-- `_coarse_stamp` of a time, which depends on the time zone. -/
  coarseStamp : Instant → Text

/-- `_parse_ts` -/
def parseTs : Option Stamp → Option Instant
  | some (.iso t) => some t
  | _ => none

/-- `_iso_seconds` -/
def isoSeconds (t : Instant) : Option Stamp := some (.iso (nowIso t))

@[simp]
theorem parseTs_isoSeconds (t : Instant) : parseTs (isoSeconds t) = some (nowIso t) :=
  rfl

/-- The second of a second. -/
@[simp]
theorem nowIso_nowIso (t : Instant) : nowIso (nowIso t) = nowIso t := by
  unfold nowIso
  rw [Int.mul_ediv_cancel _ (by decide)]

theorem nowIso_mono {t u : Instant} (h : t ≤ u) : nowIso t ≤ nowIso u :=
  Int.mul_le_mul_of_nonneg_right (Int.ediv_le_ediv (by decide) h) (by decide)

/-! ## Reading and rendering a row -/

namespace Section

variable (X : Section) (now : Instant)

/-- `covers_from_ts` has passed the eviction boundary. -/
def evicts : Bool := (parseTs X.coversFrom).any fun from_ => ageEvict ≤ now - from_

/-- The band that the section is classified into. -/
def bucket : Tier := ((parseTs X.coversFrom).map fun from_ => bucketOfAge (now - from_)).getD .h72

end Section

/-- The sections that are there, in the order of their keys. -/
def Sections.entries (sections : Sections) : List (Tier × Section) :=
  Tier.order.filterMap fun k => (sections k).map (k, ·)

theorem Sections.mem_entries {sections : Sections} {k : Tier} {X : Section} :
    (k, X) ∈ sections.entries ↔ sections k = some X := by
  constructor
  · intro h
    obtain ⟨j, -, hj⟩ := List.mem_filterMap.mp h
    obtain ⟨Y, hY, heq⟩ := Option.map_eq_some_iff.mp hj
    cases heq
    exact hY
  · intro h
    exact List.mem_filterMap.mpr ⟨k, k.mem_order, by rw [h]; rfl⟩

/-- The sections of a row that have a text. -/
def nonblank (sections : Sections) : Sections :=
  fun k => (sections k).filter fun X => X.text.strip ≠ []

theorem nonblank_eq_some {sections : Sections} {k : Tier} {X : Section} :
    nonblank sections k = some X ↔ sections k = some X ∧ X.text.strip ≠ [] := by
  unfold nonblank
  rw [Option.filter_eq_some_iff, decide_eq_true_iff]

/-- The section that a row of the older form is read as. -/
def legacySection (row : SummaryRow) (now : Instant) : Section where
  text := row.text.strip
  coversFrom := isoSeconds (now - legacyAgeFloor)
  coversUntil := row.coversUntil <|> row.ts <|> isoSeconds now
  sources := []
  lineage := [.first .h72]

/-- `_read_sections` -/
def readSections (row : Option SummaryRow) (now : Instant) : Sections :=
  match row with
  | none => fun _ => none
  | some row =>
    if (nonblank row.sections).entries ≠ [] then nonblank row.sections
    else if row.text.strip = [] then fun _ => none
    else Function.update (fun _ => none) .h72 (some (legacySection row now))

/-- `_SECTION_LABELS` -/
def Tier.label : Tier → Text
  | .h24 => "yesterday".toList
  | .h48 => "day before yesterday".toList
  | .h72 => "a few days ago".toList

namespace Setting

variable (P : Setting)

/-- `_coarse_span` -/
def coarseSpan (coversFrom coversUntil : Option Stamp) : Text :=
  match (parseTs coversFrom).map P.coarseStamp, (parseTs coversUntil).map P.coarseStamp with
  | some a, some b => if a = b then a else a ++ " – ".toList ++ b
  | some a, none => a
  | none, some b => b
  | none, none => []

/-- The part of the render for one section. -/
def renderSection (k : Tier) (X : Section) : Option Text :=
  if X.text.strip = [] then none
  else
    let span := P.coarseSpan X.coversFrom X.coversUntil
    let header :=
      if span = [] then '[' :: k.label ++ [']'] else '[' :: k.label ++ " — ".toList ++ span ++ [']']
    some (header ++ ' ' :: X.text.strip)

/-- `_render_sections` -/
def renderSections (sections : Sections) : Text :=
  List.intercalate ['\n', '\n']
    (sections.entries.reverse.filterMap fun (k, X) => P.renderSection k X)

/-- Where no section has a text, the render is empty. -/
theorem renderSections_of_blank {sections : Sections} (h : (nonblank sections).entries = []) :
    P.renderSections sections = [] := by
  have hnone : sections.entries.reverse.filterMap (fun (k, X) => P.renderSection k X) = [] := by
    refine List.filterMap_eq_nil_iff.mpr fun ⟨k, X⟩ hX => ?_
    refine if_pos (Classical.byContradiction fun hstrip => ?_)
    have hmem := Sections.mem_entries.mp (List.mem_reverse.mp hX)
    have hentry := Sections.mem_entries.mpr (nonblank_eq_some.mpr ⟨hmem, hstrip⟩)
    rw [h] at hentry
    exact List.not_mem_nil hentry
  unfold renderSections
  rw [hnone]
  rfl

end Setting

/-! ## Folding -/

/-- `str.rfind`: the last place at which the pattern stands. -/
def rfind (pattern : Text) : Text → Option ℕ
  | [] => none
  | c :: cs =>
    match rfind pattern cs with
    | some i => some (i + 1)
    | none => if pattern.isPrefixOf (c :: cs) then some 0 else none

/-- The ends of sentences that `_truncate_sentence` looks for. -/
def sentenceEnds : List Text :=
  [". ".toList, "! ".toList, "? ".toList, ".\n".toList, "!\n".toList, "?\n".toList]

/-- `_truncate_sentence` -/
def truncateSentence (text : Text) (cap : ℕ) : Text :=
  if text.length ≤ cap then text
  else
    let window := text.take cap
    match (sentenceEnds.filterMap fun stop => rfind stop window).max?.filter (cap / 2 ≤ ·),
      (rfind [' '] window).filter (cap / 2 ≤ ·) with
    | some best, _ => Text.rstrip (window.take (best + 1))
    | none, some space => Text.rstrip (window.take space)
    | none, none => Text.rstrip window

/-- `_render_transcript` -/
def renderTranscript (kindledName : Text) (turns : List Turn) : Text :=
  List.intercalate ['\n'] (turns.filterMap fun t =>
    match t.speaker with
    | .user => some ("user: ".toList ++ t.text)
    | .assistant => some (kindledName ++ ": ".toList ++ t.text)
    | .summary => some ("summary: ".toList ++ t.text)
    | .other name => if name = "image".toList then none else some (name ++ ": ".toList ++ t.text))

/-- `_tier_span` -/
def tierSpan (inputs : List Section) (rawTurns : List Turn) (fallback : Instant) :
    Option Stamp × Option Stamp :=
  let stamps := rawTurns.filterMap Turn.stamp
  let froms := inputs.filterMap (fun X => parseTs X.coversFrom) ++ stamps
  let untils := inputs.filterMap (fun X => parseTs X.coversUntil) ++ stamps
  (isoSeconds (froms.min?.getD fallback), isoSeconds (untils.max?.getD fallback))

/-- What a provider call raises. -/
inductive ProviderError
  | failed
  | throttleDeferred

/-- What a provider call comes to. -/
abbrev Reply := Except ProviderError Text

namespace Setting

variable (P : Setting)

/-- `_validate_fold_output` -/
def validateFoldOutput (text : Text) : Option Text :=
  if text.strip = [] ∨ P.rejects text.strip then none else some text.strip

/-- `_generate_validated_fold` -/
def generateValidatedFold (replies : Reply × Reply) : Except ProviderError (Option Text) := do
  match P.validateFoldOutput (← replies.1) with
  | some out => return some out
  | none => return P.validateFoldOutput (← replies.2)

end Setting

/-- The order of `_fold_into_section`: what covers no readable time comes last. -/
def olderFirst (X Y : Section) : Bool :=
  match parseTs X.coversFrom, parseTs Y.coversFrom with
  | some a, some b => a ≤ b
  | some _, none => true
  | none, some _ => false
  | none, none => true

/-- The texts of the sections, oldest first. -/
def priorJoined (inputs : List Section) : Text :=
  List.intercalate ['\n', '\n']
    (((inputs.insertionSort fun X Y => olderFirst X Y).map fun X => X.text.strip).filter (· ≠ []))

/-- The section that a fold makes. -/
def foldedSection (id : SectionId) (inputs : List Section) (rawTurns : List Turn) (now : Instant)
    (text : Text) : Section where
  text := text
  coversFrom := (tierSpan inputs rawTurns now).1
  coversUntil := (tierSpan inputs rawTurns now).2
  sources := inputs.flatMap Section.sources ++ rawTurns
  lineage := id :: inputs.flatMap Section.lineage

/-- `_fold_into_section` -/
def Setting.foldIntoSection (P : Setting) (id : SectionId) (inputs : List Section)
    (rawTurns : List Turn) (cap : Option ℕ) (replies : Reply × Reply) (now : Instant) :
    Except ProviderError (Option Section) :=
  let prior := priorJoined inputs
  let transcript := renderTranscript P.kindledName rawTurns
  let join :=
    if transcript = [] then prior
    else if prior = [] then transcript
    else prior ++ ['\n', '\n'] ++ transcript
  let made (text : Text) : Option Section := some (foldedSection id inputs rawTurns now text)
  if prior = [] ∧ rawTurns = [] then .ok none
  else
    match P.generateValidatedFold replies with
    | .error .throttleDeferred => .error .throttleDeferred
    | .error .failed => .ok (made (truncateSentence join (cap.getD sectionCap24h)))
    | .ok none => .ok (made (truncateSentence join (cap.getD sectionCap24h)))
    | .ok (some text) => .ok (made (cap.elim text (truncateSentence text)))

/-! ## What a fold makes -/

theorem intercalate_eq_nil {α : Type} {sep : List α} {xs : List (List α)} (hne : ∀ x ∈ xs, x ≠ [])
    (h : List.intercalate sep xs = []) : xs = [] := by
  cases xs with
  | nil => rfl
  | cons x xs =>
    have hall := List.flatten_eq_nil_iff.mp h
    have hx : x ∈ List.intersperse sep (x :: xs) := by cases xs <;> simp
    exact absurd (hall x hx) (hne x List.mem_cons_self)

/-- Only sections without a text have an empty join. -/
theorem strip_eq_nil_of_priorJoined {inputs : List Section} (h : priorJoined inputs = [])
    {X : Section} (hX : X ∈ inputs) : X.text.strip = [] := by
  apply Classical.byContradiction
  intro hstrip
  have hnil := intercalate_eq_nil (fun x hx => of_decide_eq_true (List.mem_filter.mp hx).2) h
  have hsorted : X ∈ inputs.insertionSort fun X Y => olderFirst X Y :=
    (List.mem_insertionSort _).mpr hX
  have hmem : X.text.strip ∈ ((inputs.insertionSort fun X Y => olderFirst X Y).map
      fun X => X.text.strip).filter (· ≠ []) :=
    List.mem_filter.mpr ⟨List.mem_map_of_mem hsorted, decide_eq_true hstrip⟩
  rw [hnil] at hmem
  exact List.not_mem_nil hmem

/-- A fold that is not deferred makes a section of all its inputs, or has none that it could use. -/
theorem Setting.foldIntoSection_ok {P : Setting} {id : SectionId} {inputs : List Section}
    {rawTurns : List Turn} {cap : Option ℕ} {replies : Reply × Reply} {now : Instant}
    {out : Option Section} (h : P.foldIntoSection id inputs rawTurns cap replies now = .ok out) :
    (out = none ∧ rawTurns = [] ∧ ∀ X ∈ inputs, X.text.strip = []) ∨
      (inputs ≠ [] ∨ rawTurns ≠ []) ∧
        ∃ text, out = some (foldedSection id inputs rawTurns now text) := by
  unfold foldIntoSection at h
  simp only at h
  split at h
  · rename_i hempty
    cases h
    exact .inl ⟨rfl, hempty.2, fun X => strip_eq_nil_of_priorJoined hempty.1⟩
  · rename_i hsome
    have hinputs : inputs ≠ [] ∨ rawTurns ≠ [] := by
      by_contra hnot
      obtain ⟨rfl, rfl⟩ := not_or.mp hnot |>.imp not_not.mp not_not.mp
      exact hsome ⟨rfl, rfl⟩
    refine .inr ⟨hinputs, ?_⟩
    split at h
    · cases h
    all_goals
      cases h
      exact ⟨_, rfl⟩

/-- `covers_from_ts` is the second of the oldest source. -/
def Section.OldestEdge (X : Section) : Prop :=
  ∃ from_, X.coversFrom = isoSeconds from_ ∧ (∃ u ∈ X.sources, u.stamp = some from_) ∧
    ∀ v ∈ X.sources, ∃ t, v.stamp = some t ∧ nowIso from_ ≤ nowIso t

/-- A fold keeps the edge at the oldest source. -/
theorem foldedSection_oldestEdge {id : SectionId} {inputs : List Section} {rawTurns : List Turn}
    {now : Instant} {text : Text} (hinputs : ∀ X ∈ inputs, X.OldestEdge)
    (hraw : ∀ t ∈ rawTurns, ∃ x, t.stamp = some x) (hne : inputs ≠ [] ∨ rawTurns ≠ []) :
    (foldedSection id inputs rawTurns now text).OldestEdge := by
  obtain ⟨froms, hfroms⟩ : ∃ froms, froms =
      inputs.filterMap (fun X => parseTs X.coversFrom) ++ rawTurns.filterMap Turn.stamp := ⟨_, rfl⟩
  have hinput : ∀ X ∈ inputs, ∀ x, X.coversFrom = isoSeconds x → nowIso x ∈ froms := by
    intro X hX x hx
    rw [hfroms]
    exact List.mem_append_left _ (List.mem_filterMap.mpr ⟨X, hX, by rw [hx]; rfl⟩)
  have hstamp : ∀ t ∈ rawTurns, ∀ x, t.stamp = some x → x ∈ froms := by
    intro t ht x hx
    rw [hfroms]
    exact List.mem_append_right _ (List.mem_filterMap.mpr ⟨t, ht, hx⟩)
  have hsome : froms ≠ [] := by
    rcases hne with hne | hne
    · obtain ⟨X, hX⟩ := List.exists_mem_of_ne_nil _ hne
      obtain ⟨x, hx, -⟩ := hinputs X hX
      exact List.ne_nil_of_mem (hinput X hX x hx)
    · obtain ⟨t, ht⟩ := List.exists_mem_of_ne_nil _ hne
      obtain ⟨x, hx⟩ := hraw t ht
      exact List.ne_nil_of_mem (hstamp t ht x hx)
  obtain ⟨m, hm⟩ := Option.ne_none_iff_exists'.mp (mt List.min?_eq_none_iff.mp hsome)
  obtain ⟨hmem, hle⟩ := List.min?_eq_some_iff.mp hm
  have hedge : (foldedSection id inputs rawTurns now text).coversFrom = isoSeconds m := by
    show isoSeconds _ = _
    rw [← hfroms, hm]
    rfl
  -- The least edge is that of an input or the stamp of a turn.
  obtain ⟨x, hx, u, hu, hux⟩ : ∃ x, nowIso x = nowIso m ∧
      ∃ u ∈ inputs.flatMap Section.sources ++ rawTurns, u.stamp = some x := by
    rw [hfroms] at hmem
    rcases List.mem_append.mp hmem with hmem | hmem
    · obtain ⟨X, hX, hXm⟩ := List.mem_filterMap.mp hmem
      obtain ⟨x, hx, ⟨u, hu, hux⟩, -⟩ := hinputs X hX
      rw [hx] at hXm
      obtain rfl : nowIso x = m := Option.some.inj hXm
      exact ⟨x, (nowIso_nowIso x).symm, u,
        List.mem_append_left _ (List.mem_flatMap.mpr ⟨X, hX, hu⟩), hux⟩
    · obtain ⟨u, hu, hum⟩ := List.mem_filterMap.mp hmem
      exact ⟨m, rfl, u, List.mem_append_right _ hu, hum⟩
  refine ⟨x, ?_, ⟨u, hu, hux⟩, fun v hv => ?_⟩
  · rw [hedge]
    unfold isoSeconds
    rw [hx]
  · rw [hx]
    rcases List.mem_append.mp hv with hv | hv
    · obtain ⟨X, hX, hv⟩ := List.mem_flatMap.mp hv
      obtain ⟨y, hy, -, hold⟩ := hinputs X hX
      obtain ⟨t, ht, hyt⟩ := hold v hv
      refine ⟨t, ht, ?_⟩
      calc nowIso m ≤ nowIso (nowIso y) := nowIso_mono (hle _ (hinput X hX y hy))
        _ = nowIso y := nowIso_nowIso y
        _ ≤ nowIso t := hyt
    · obtain ⟨t, ht⟩ := hraw v hv
      exact ⟨t, ht, nowIso_mono (hle _ (hstamp v hv t ht))⟩

end Companion.Chat

import Companion.Ingest.Chunks
import Mathlib.Data.List.Infix

/-!
# The pieces of a chunk

A chunk longer than the limit is sent in pieces, and a row longer than the limit in segments that
each open with its label. `_split_line` of `brain/ingest/ingest_utils.py` finds the label in the
line, as what is before the first `": "`.

The chunks and pieces lose nothing (`lossless_iff`), where that is the label. A label that has a
`": "` itself is repeated in part, and what is left of it counts as text.
-/

namespace Companion.Ingest

open Companion.Memory
open Companion.Packing

section Definitions

variable (maxChars : ℕ) (userName assistantName : Option Text)

/-- The label of a row. -/
def labelOf (t : Turn) : Text :=
  match t.speaker with
  | .summary => []
  | .user => labelOr userName "user".toList
  | .assistant => labelOr assistantName "assistant".toList
  | .other name => name

/-- The label with which the line of a row opens. -/
def openingOf (t : Turn) : Text := labelOf userName assistantName t ++ ": ".toList

/-- What the line of a row says after its label. -/
def bodyOf (t : Turn) : Text :=
  let markers := List.intercalate [' '] (t.imageShas.map fun s => "[image: ".toList ++ s.take 8 ++ [']'])
  if t.imageShas = [] then t.text
  else if t.text = [] then markers
  else Text.strip (markers ++ ' ' :: t.text)

/-- The segments of a line. -/
def segmentsOf (line : Text) : List Text :=
  if line.length ≤ maxChars then [line] else splitLine line maxChars

/-- A text without its line breaks. -/
def unbroken (text : Text) : Text := text.filter (· ≠ '\n')

/-- Segments that each open with the label, and have the body between them, but for line breaks. -/
def Labelled (opening body : Text) (segments : List Text) : Prop :=
  ∃ parts : List Text, parts ≠ [] ∧ segments = parts.map (opening ++ ·) ∧
    unbroken parts.flatten = unbroken body

/-- Pieces that are the segments of rows, in order, with a line break between those of one piece. -/
def JoinedFrom (segments pieces : List Text) : Prop :=
  ∃ parts : List (Text × List Text),
    pieces = parts.map (fun p => List.intercalate ['\n'] (p.1 :: p.2)) ∧
      parts.flatMap (fun p => p.1 :: p.2) = segments

/-- What is promised of a chunk that is longer than the limit. -/
structure TurnChunk.Split (c : TurnChunk) : Prop where
  joined : JoinedFrom (c.turns.flatMap fun t =>
    segmentsOf maxChars (lineOf userName assistantName t)) c.pieces
  labelled : ∀ t ∈ c.turns, Labelled (openingOf userName assistantName t) (bodyOf t)
    (segmentsOf maxChars (lineOf userName assistantName t))
  opened : ∀ p ∈ c.pieces, ∃ t ∈ c.turns, openingOf userName assistantName t <+: p ∧
    (p.length ≤ maxChars ∨ maxChars ≤ (openingOf userName assistantName t).length)

/-- What is promised of the chunks. -/
def Lossless (turns : List Turn) : Prop :=
  ∃ chunks, chunkTurns maxChars userName assistantName turns = some chunks ∧
    chunks.flatMap TurnChunk.turns = turns.filter (fun t => t.speaker ≠ .summary) ∧
    ∀ c ∈ chunks, (c.oversize = false → c.text.length ≤ maxChars ∧ c.pieces = [c.text]) ∧
      (c.oversize = true → c.Split maxChars userName assistantName)

end Definitions

/-! ## Chunks of one length -/

theorem toChunks_go {α : Type*} {n : ℕ} (hn : 0 < n) (xs : List α) {held : Array α}
    {done : Array (List α)} (hheld : held.size ≤ n) (hdone : ∀ c ∈ done.toList, c.length ≤ n) :
    (List.toChunks.go n xs held done).flatten = done.toList.flatten ++ held.toList ++ xs ∧
      ∀ c ∈ List.toChunks.go n xs held done, c.length ≤ n := by
  induction xs generalizing held done with
  | nil =>
    rw [List.toChunks.go]
    refine ⟨by simp, fun c hc => ?_⟩
    rw [Array.toList_push] at hc
    rcases List.mem_append.mp hc with hc | hc
    · exact hdone c hc
    · rw [List.mem_singleton.mp hc]
      exact hheld
  | cons x xs ih =>
    rw [List.toChunks.go]
    split_ifs with hfull
    · have hdone' : ∀ c ∈ (done.push held.toList).toList, c.length ≤ n := by
        intro c hc
        rw [Array.toList_push] at hc
        rcases List.mem_append.mp hc with hc | hc
        · exact hdone c hc
        · rw [List.mem_singleton.mp hc]
          exact hheld
      have hone : ((Array.mkEmpty n).push x).size ≤ n := Nat.succ_le_of_lt hn
      obtain ⟨hflatten, hlength⟩ := ih hone hdone'
      exact ⟨by rw [hflatten]; simp, hlength⟩
    · have hroom : (held.push x).size ≤ n := by
        rw [Array.size_push]
        have hne : held.size ≠ n := by simpa using hfull
        omega
      obtain ⟨hflatten, hlength⟩ := ih hroom hdone
      exact ⟨by rw [hflatten]; simp, hlength⟩

/-- The chunks of a list are no longer than the length, and make it up. -/
theorem toChunks_spec {α : Type*} {n : ℕ} (hn : 0 < n) (xs : List α) :
    (xs.toChunks n).flatten = xs ∧ ∀ c ∈ xs.toChunks n, c.length ≤ n := by
  cases xs with
  | nil => exact ⟨by rw [List.toChunks]; rfl, by rw [List.toChunks]; exact nofun⟩
  | cons x xs =>
    obtain ⟨m, rfl⟩ := Nat.exists_eq_succ_of_ne_zero hn.ne'
    have hone : (#[x] : Array α).size ≤ m + 1 := Nat.succ_le_of_lt hn
    exact toChunks_go hn xs hone nofun

/-! ## The label -/

/-- The separator that a line is split at. -/
theorem partitionColon_append {label : Text} (h : ¬ ": ".toList <:+: label) (body : Text) :
    partitionColon (label ++ ": ".toList ++ body) = (label, some body) := by
  induction label with
  | nil => rfl
  | cons c cs ih =>
    have hrest : ¬ ": ".toList <:+: cs := fun hcs => h (List.infix_cons hcs)
    have hcs := ih hrest
    cases cs with
    | nil =>
      show partitionColon (c :: ':' :: ' ' :: body) = ([c], some body)
      rw [partitionColon, if_neg (by rintro ⟨-, hcolon⟩; exact absurd hcolon (by decide))]
      rfl
    | cons d ds =>
      show partitionColon (c :: d :: (ds ++ ": ".toList ++ body)) = (c :: d :: ds, some body)
      have hne : ¬ (c = ':' ∧ d = ' ') := by
        rintro ⟨rfl, rfl⟩
        exact h (List.IsPrefix.isInfix ⟨ds, rfl⟩)
      rw [partitionColon, if_neg hne]
      rw [show d :: (ds ++ ": ".toList ++ body) = d :: ds ++ ": ".toList ++ body from rfl, hcs]

/-- A label with a separator has a first one. -/
theorem exists_first_colon {label : Text} (h : ": ".toList <:+: label) :
    ∃ first rest, label = first ++ ": ".toList ++ rest ∧ ¬ ": ".toList <:+: first := by
  induction label with
  | nil => exact absurd (List.eq_nil_of_infix_nil h) (by decide)
  | cons c cs ih =>
    rcases List.infix_cons_iff.mp h with hstart | hlater
    · obtain ⟨rest, hrest⟩ := hstart
      exact ⟨[], rest, hrest.symm, fun hnil => absurd (List.eq_nil_of_infix_nil hnil) (by decide)⟩
    · by_cases hstart : ": ".toList <+: c :: cs
      · obtain ⟨rest, hrest⟩ := hstart
        exact ⟨[], rest, hrest.symm,
          fun hnil => absurd (List.eq_nil_of_infix_nil hnil) (by decide)⟩
      · obtain ⟨first, rest, rfl, hfirst⟩ := ih hlater
        refine ⟨c :: first, rest, rfl, fun hinfix => ?_⟩
        rcases List.infix_cons_iff.mp hinfix with hprefix | hinfix
        · obtain ⟨more, hmore⟩ := hprefix
          exact hstart ⟨more ++ ": ".toList ++ rest, by
            rw [← List.append_assoc, ← List.append_assoc, hmore]; simp⟩
        · exact hfirst hinfix

/-! ## The segments of a line -/

theorem unbroken_append (s t : Text) : unbroken (s ++ t) = unbroken s ++ unbroken t :=
  List.filter_append _ _

/-- Texts with a line break each. -/
def withBreaks (texts : List Text) : Text := texts.flatMap (· ++ ['\n'])

theorem withBreaks_spec (texts : List Text) :
    unbroken (withBreaks texts) = unbroken texts.flatten ∧
      (withBreaks texts).length = texts.flatten.length + texts.length := by
  induction texts with
  | nil => exact ⟨rfl, rfl⟩
  | cons t ts ih =>
    obtain ⟨hunbroken, hlength⟩ := ih
    have hcons : withBreaks (t :: ts) = t ++ ['\n'] ++ withBreaks ts := rfl
    rw [hcons, List.flatten_cons]
    refine ⟨?_, ?_⟩
    · rw [unbroken_append, unbroken_append, unbroken_append, hunbroken]
      simp [unbroken]
    · simp only [List.length_append, List.length_cons, List.length_nil, hlength]
      omega

/-- The lines of a body, with a line break each, are the body with one more. -/
theorem withBreaks_splitOn (body : Text) : withBreaks (body.splitOn '\n') = body ++ ['\n'] := by
  induction body with
  | nil => rfl
  | cons c cs ih =>
    rw [List.splitOn_cons_eq_if_modifyHead]
    obtain ⟨l, ls, hls⟩ := List.exists_cons_of_ne_nil (List.splitOn_ne_nil '\n' cs)
    rw [hls] at ih ⊢
    by_cases hc : c = '\n'
    · rw [if_pos (by simpa using hc), hc]
      exact congrArg ('\n' :: ·) ih
    · rw [if_neg (by simpa using hc), List.modifyHead_cons]
      exact congrArg (c :: ·) ih

/-- The parts of a line are no longer than the room, and make it up. -/
theorem bodyParts_spec {room : ℕ} (hroom : 0 < room) (line : Text) :
    bodyParts room line ≠ [] ∧ (∀ p ∈ bodyParts room line, p.1.length ≤ room) ∧
      (bodyParts room line).flatMap Prod.fst = line := by
  obtain ⟨hflatten, hlength⟩ := toChunks_spec hroom line
  unfold bodyParts
  split
  · rename_i hnil
    rw [hnil] at hflatten
    subst hflatten
    exact ⟨nofun, by simp, rfl⟩
  · rename_i part hone
    rw [hone] at hflatten hlength
    refine ⟨nofun, fun p hp => ?_, ?_⟩
    · rw [List.mem_singleton.mp hp]
      exact hlength part (List.mem_singleton_self part)
    · simpa using hflatten
  · rename_i hnil hone
    refine ⟨by simpa using hnil, fun p hp => ?_, ?_⟩
    · obtain ⟨c, hc, rfl⟩ := List.mem_map.mp hp
      exact hlength c hc
    · rw [List.flatMap_map]
      exact (List.flatMap_id' (L := _)).trans hflatten

/-- The parts of the lines of a body. -/
theorem flatMap_bodyParts {room : ℕ} (hroom : 0 < room) (lines : List Text) :
    ((lines.flatMap (bodyParts room)).map Prod.fst).flatten = lines.flatten ∧
      lines.length ≤ (lines.flatMap (bodyParts room)).length ∧
      ∀ p ∈ lines.flatMap (bodyParts room), p.1.length ≤ room := by
  induction lines with
  | nil => exact ⟨rfl, le_rfl, nofun⟩
  | cons line lines ih =>
    obtain ⟨hflatten, hlength, hbound⟩ := ih
    obtain ⟨hne, hparts, hline⟩ := bodyParts_spec hroom line
    have hpos : 0 < (bodyParts room line).length := List.length_pos_iff.mpr hne
    rw [List.flatMap_cons]
    refine ⟨?_, ?_, fun p hp => ?_⟩
    · rw [List.map_append, List.flatten_append, hflatten, List.flatten_cons]
      exact congrArg (· ++ lines.flatten) hline
    · rw [List.length_append, List.length_cons]
      omega
    · rcases List.mem_append.mp hp with hp | hp
      · exact hparts p hp
      · exact hbound p hp

/-- What a line is split into, given its label as the split finds it. -/
theorem splitLine_eq {line first body : Text} (h : partitionColon line = (first, some body))
    (maxChars : ℕ) :
    ∃ parts : List Text, parts ≠ [] ∧
      splitLine line maxChars = parts.map (first ++ ": ".toList ++ ·) ∧
      unbroken parts.flatten = unbroken body ∧
      body.length + 1 ≤ parts.flatten.length + parts.length ∧
      ∀ p ∈ parts, p.length ≤ max 1 (maxChars - (first ++ ": ".toList).length) := by
  have hroom : 0 < max 1 (maxChars - (first ++ ": ".toList).length) := by omega
  unfold splitLine
  simp only [h]
  generalize max 1 (maxChars - (first ++ ": ".toList).length) = room at hroom ⊢
  obtain ⟨hflatten, hlength, hbound⟩ := flatMap_bodyParts hroom (body.splitOn '\n')
  generalize (body.splitOn '\n').flatMap (bodyParts room) = parts at hflatten hlength hbound ⊢
  generalize hpack : pack (fun current part : Text × Bool =>
    part.2 && decide (current.1.length + 1 + part.1.length ≤ room))
    (fun current part => (current.1 ++ '\n' :: part.1, part.2)) parts = segments
  -- Packing joins parts with the line breaks that are between them.
  have hbreaks : withBreaks (segments.map Prod.fst) = withBreaks (parts.map Prod.fst) := by
    unfold withBreaks
    rw [List.flatMap_map, List.flatMap_map, ← hpack]
    exact flatMap_pack (fun x y => by simp) parts
  have hfits : ∀ s ∈ segments, s.1.length ≤ room := by
    rw [← hpack]
    refine forall_mem_pack (fun x y hfits => ?_) hbound
    have hle := of_decide_eq_true (Bool.and_eq_true_iff.mp hfits).2
    simp only [List.length_append, List.length_cons]
    omega
  obtain ⟨hsegments, hsegmentsLength⟩ := withBreaks_spec (segments.map Prod.fst)
  obtain ⟨hparts, hpartsLength⟩ := withBreaks_spec (parts.map Prod.fst)
  obtain ⟨hlines, hlinesLength⟩ := withBreaks_spec (body.splitOn '\n')
  rw [hbreaks] at hsegments hsegmentsLength
  rw [hflatten, List.length_map] at hpartsLength
  rw [withBreaks_splitOn, List.length_append, List.length_singleton] at hlinesLength
  have hbody : unbroken (segments.map Prod.fst).flatten = unbroken body := by
    rw [← hsegments, hparts, hflatten, ← hlines, withBreaks_splitOn, unbroken_append]
    exact List.append_nil _
  -- A line break is lost where two segments part, so that the count of the segments makes up for
  -- it.
  have hlonger : body.length + 1 ≤
      (segments.map Prod.fst).flatten.length + (segments.map Prod.fst).length := by
    rw [← hsegmentsLength, hpartsLength]
    omega
  refine ⟨segments.map Prod.fst, ?_, ?_, hbody, hlonger, ?_⟩
  · intro hnil
    rw [hnil] at hlonger
    simp at hlonger
  · rw [List.map_map]
    rfl
  · intro p hp
    obtain ⟨s, hs, rfl⟩ := List.mem_map.mp hp
    exact hfits s hs

/-! ## One row -/

/-- The characters of segments that open alike. -/
theorem length_unbroken_map (opening : Text) (parts : List Text) :
    (unbroken (parts.map (opening ++ ·)).flatten).length =
      parts.length * (unbroken opening).length + (unbroken parts.flatten).length := by
  induction parts with
  | nil => simp [unbroken]
  | cons p ps ih =>
    rw [List.map_cons, List.flatten_cons, List.flatten_cons, unbroken_append, unbroken_append,
      unbroken_append, List.length_append, List.length_append, ih, List.length_append,
      List.length_cons, Nat.succ_mul]
    omega

/-- The split of a long line keeps its label just in case the label has no separator of its own. -/
theorem labelled_splitLine {label body : Text} {maxChars : ℕ}
    (hlong : maxChars < (label ++ ": ".toList ++ body).length) :
    Labelled (label ++ ": ".toList) body (splitLine (label ++ ": ".toList ++ body) maxChars) ↔
      ¬ ": ".toList <:+: label := by
  constructor
  · rintro ⟨parts, hne, hsplit, hbody⟩ hinfix
    obtain ⟨first, rest, rfl, hfirst⟩ := exists_first_colon hinfix
    have hcolon := partitionColon_append hfirst (rest ++ ": ".toList ++ body)
    rw [← List.append_assoc, ← List.append_assoc] at hcolon
    obtain ⟨parts', -, hsplit', hbody', hlonger, hbound⟩ := splitLine_eq hcolon maxChars
    have hsame := hsplit.symm.trans hsplit'
    have hcount : parts.length = parts'.length := by
      have hlength := congrArg List.length hsame
      rwa [List.length_map, List.length_map] at hlength
    have htail : 2 ≤ (unbroken (rest ++ ": ".toList)).length := by
      rw [unbroken_append, List.length_append]
      exact Nat.le_add_left 2 _
    -- The rest of the label is repeated with every segment, and in what was split it stands once.
    have hchars := congrArg (fun ts => (unbroken (List.flatten ts)).length) hsame
    simp only [length_unbroken_map] at hchars
    rw [hbody, hbody', hcount, List.append_assoc (first ++ ": ".toList), unbroken_append,
      List.append_assoc rest, ← List.append_assoc rest, unbroken_append _ body,
      List.length_append, List.length_append, Nat.mul_add] at hchars
    have hone : parts'.length = 1 := by
      have hpos : 0 < parts'.length := by
        rw [← hcount]
        exact List.length_pos_iff.mpr hne
      have hmul : parts'.length * (unbroken (rest ++ ": ".toList)).length =
          1 * (unbroken (rest ++ ": ".toList)).length := by omega
      exact Nat.eq_of_mul_eq_mul_right (by omega) hmul
    obtain ⟨part, rfl⟩ := List.length_eq_one_iff.mp hone
    have hpart := hbound part (List.mem_singleton_self part)
    simp only [List.flatten_singleton, List.length_append, List.length_singleton] at *
    have htwo : ": ".toList.length = 2 := rfl
    omega
  · intro hnone
    obtain ⟨parts, hne, hsplit, hbody, -, -⟩ :=
      splitLine_eq (partitionColon_append hnone body) maxChars
    exact ⟨parts, hne, hsplit, hbody⟩

section Rows

variable {maxChars : ℕ} {userName assistantName : Option Text} {t : Turn}

/-- The line of a row. -/
theorem formatTurnLine_eq (h : t.speaker ≠ .summary) :
    formatTurnLine t (labelOr userName "user".toList)
        (labelOr assistantName "assistant".toList) =
      some (openingOf userName assistantName t ++ bodyOf t) := by
  unfold formatTurnLine openingOf labelOf
  cases hspeaker : t.speaker with
  | summary => exact absurd hspeaker h
  | user => rfl
  | assistant => rfl
  | other name => rfl

theorem lineOf_eq (h : t.speaker ≠ .summary) :
    lineOf userName assistantName t = openingOf userName assistantName t ++ bodyOf t := by
  rw [lineOf, formatTurnLine_eq h, Option.getD_some]

/-- The segments of a row open with its label, where that has no separator or the line is short. -/
theorem labelled_segmentsOf (h : t.speaker ≠ .summary) :
    Labelled (openingOf userName assistantName t) (bodyOf t)
        (segmentsOf maxChars (lineOf userName assistantName t)) ↔
      (maxChars < (lineOf userName assistantName t).length →
        ¬ ": ".toList <:+: labelOf userName assistantName t) := by
  unfold segmentsOf
  rw [lineOf_eq h]
  split_ifs with hshort
  · refine ⟨fun _ hlong => absurd hshort (not_le.mpr hlong), fun _ => ?_⟩
    exact ⟨[bodyOf t], nofun, rfl, by rw [List.flatten_singleton]⟩
  · have hlong := not_le.mp hshort
    rw [openingOf, labelled_splitLine hlong]
    exact ⟨fun hnone _ => hnone, fun hnone => hnone hlong⟩

/-- A segment of such a row is within the limit, or opens with a label that is not. -/
theorem segment_fits (h : t.speaker ≠ .summary)
    (hlabel : maxChars < (lineOf userName assistantName t).length →
      ¬ ": ".toList <:+: labelOf userName assistantName t) {s : Text}
    (hs : s ∈ segmentsOf maxChars (lineOf userName assistantName t)) :
    openingOf userName assistantName t <+: s ∧
      (s.length ≤ maxChars ∨ maxChars ≤ (openingOf userName assistantName t).length) := by
  unfold segmentsOf at hs
  rw [lineOf_eq h] at hs hlabel
  split_ifs at hs with hshort
  · obtain rfl := List.mem_singleton.mp hs
    exact ⟨List.prefix_append _ _, Or.inl hshort⟩
  · obtain ⟨parts, -, hsplit, -, -, hbound⟩ :=
      splitLine_eq (partitionColon_append (hlabel (not_le.mp hshort)) (bodyOf t)) maxChars
    rw [openingOf, hsplit] at hs
    obtain ⟨part, hpart, rfl⟩ := List.mem_map.mp hs
    refine ⟨List.prefix_append _ _, ?_⟩
    have hle := hbound part hpart
    rw [openingOf, List.length_append]
    -- A part has what room the label leaves, or one character where it leaves none.
    rcases Nat.lt_or_ge (labelOf userName assistantName t ++ ": ".toList).length maxChars with
      hroom | hroom
    · left
      omega
    · exact Or.inr hroom

/-! ## One chunk -/

theorem foldl_join (text : Text) (more : List Text) :
    more.foldl (fun current segment => current ++ '\n' :: segment) text =
      List.intercalate ['\n'] (text :: more) := by
  induction more generalizing text with
  | nil => simp
  | cons t ts ih =>
    rw [List.foldl_cons, ih]
    cases ts with
    | nil => simp
    | cons u us => simp

/-- Pieces are segments that are joined. -/
theorem joinedFrom_pieces (lines : List Text) :
    JoinedFrom (lines.flatMap (segmentsOf maxChars)) (pieces lines maxChars) := by
  obtain ⟨parts, hpack, hparts⟩ := exists_joined
    (fun current segment : Text => decide (current.length + 1 + segment.length ≤ maxChars))
    (fun current segment => current ++ '\n' :: segment) (lines.flatMap (segmentsOf maxChars))
  refine ⟨parts, ?_, hparts⟩
  simp only [← foldl_join]
  exact hpack

/-- A piece opens as its first segment does. -/
theorem prefix_of_joined (s : Text) (more : List Text) :
    s <+: List.intercalate ['\n'] (s :: more) := by
  cases more with
  | nil => simp
  | cons t ts => exact ⟨'\n' :: List.intercalate ['\n'] (t :: ts), by simp⟩

theorem length_le_intercalate {lines : List Text} {line : Text} (h : line ∈ lines) :
    line.length ≤ (List.intercalate ['\n'] lines).length := by
  induction lines with
  | nil => cases h
  | cons l ls ih =>
    rcases List.mem_cons.mp h with rfl | h
    · exact (prefix_of_joined line ls).length_le
    · cases ls with
      | nil => cases h
      | cons l' ls =>
        have hle := ih h
        rw [List.intercalate_cons_cons, List.length_append, List.length_append]
        omega

/-- What a chunk consists of. -/
theorem mem_chunksFrom {m : Option Instant} {gs : List (List Turn)} {c : TurnChunk}
    (hc : c ∈ chunksFrom maxChars userName assistantName m gs) :
    c.text = formatTranscript c.turns userName assistantName ∧
      c.oversize = decide (maxChars < c.text.length) ∧
      c.pieces = if maxChars < c.text.length then
        pieces (c.turns.map (lineOf userName assistantName)) maxChars else [c.text] := by
  induction gs generalizing m with
  | nil => cases hc
  | cons g gs ih =>
    rw [chunksFrom] at hc
    rcases List.mem_cons.mp hc with rfl | hc
    · exact ⟨rfl, rfl, by simp only [decide_eq_true_eq]⟩
    · exact ih hc

/-- A chunk longer than the limit is split as promised, where no label of a long row has a
separator. -/
theorem split_of_labels {c : TurnChunk} (hrows : ∀ t ∈ c.turns, t.speaker ≠ .summary)
    (hlabels : ∀ t ∈ c.turns, maxChars < (lineOf userName assistantName t).length →
      ¬ ": ".toList <:+: labelOf userName assistantName t)
    (hpieces : c.pieces = pieces (c.turns.map (lineOf userName assistantName)) maxChars) :
    c.Split maxChars userName assistantName := by
  have hsegments : (c.turns.map (lineOf userName assistantName)).flatMap (segmentsOf maxChars) =
      c.turns.flatMap fun t => segmentsOf maxChars (lineOf userName assistantName t) :=
    List.flatMap_map ..
  have hjoined := @joinedFrom_pieces maxChars
    (c.turns.map (lineOf userName assistantName))
  rw [hsegments, ← hpieces] at hjoined
  have hmem : ∀ s ∈ c.turns.flatMap fun t =>
      segmentsOf maxChars (lineOf userName assistantName t),
      ∃ t ∈ c.turns, openingOf userName assistantName t <+: s ∧
        (s.length ≤ maxChars ∨ maxChars ≤ (openingOf userName assistantName t).length) := by
    intro s hs
    obtain ⟨t, ht, hs⟩ := List.mem_flatMap.mp hs
    exact ⟨t, ht, segment_fits (hrows t ht) (hlabels t ht) hs⟩
  -- A piece of several segments is within the limit, and one that is not is a segment.
  have hsize : ∀ p ∈ c.pieces, p.length ≤ maxChars ∨
      ∃ t ∈ c.turns, openingOf userName assistantName t <+: p ∧
        maxChars ≤ (openingOf userName assistantName t).length := by
    rw [hpieces]
    refine forall_mem_pack (P := fun p : Text => p.length ≤ maxChars ∨
      ∃ t ∈ c.turns, openingOf userName assistantName t <+: p ∧
        maxChars ≤ (openingOf userName assistantName t).length)
      (fun x y hfits => Or.inl ?_) fun s hs => ?_
    · have hle := of_decide_eq_true hfits
      simp only [List.length_append, List.length_cons]
      omega
    · obtain ⟨t, ht, hopens, hle | hlong⟩ := hmem s (hsegments ▸ hs)
      · exact Or.inl hle
      · exact Or.inr ⟨t, ht, hopens, hlong⟩
  refine ⟨hjoined, fun t ht => (labelled_segmentsOf (hrows t ht)).mpr (hlabels t ht), ?_⟩
  intro p hp
  rcases hsize p hp with hle | ⟨t, ht, hopens, hlong⟩
  · -- The first of the joined segments has the label.
    obtain ⟨parts, hparts, hflat⟩ := hjoined
    rw [hparts] at hp
    obtain ⟨part, hpart, rfl⟩ := List.mem_map.mp hp
    obtain ⟨t, ht, hopens, -⟩ := hmem part.1 (by
      rw [← hflat]
      exact List.mem_flatMap.mpr ⟨part, hpart, List.mem_cons_self⟩)
    exact ⟨t, ht, hopens.trans (prefix_of_joined part.1 part.2), Or.inl hle⟩
  · exact ⟨t, ht, hopens, Or.inr hlong⟩

/-- **The chunks and pieces lose nothing**, and are within the limit, just in case no row that is
longer than the limit has a label with a separator of its own. -/
theorem lossless_iff (hlimit : 0 < maxChars) (userName assistantName : Option Text)
    (turns : List Turn) :
    Lossless maxChars userName assistantName turns ↔
      ∀ t ∈ turns, t.speaker ≠ .summary →
        maxChars < (lineOf userName assistantName t).length →
          ¬ ": ".toList <:+: labelOf userName assistantName t := by
  obtain ⟨chunks, hchunks⟩ : ∃ chunks,
      chunkTurns maxChars userName assistantName turns = some chunks := by
    unfold chunkTurns
    rw [if_neg (Nat.ne_of_gt hlimit)]
    exact ⟨_, rfl⟩
  have hrows := flatMap_turns_chunkTurns hchunks
  have hparts : ∀ c ∈ chunks, c.text = formatTranscript c.turns userName assistantName ∧
      c.oversize = decide (maxChars < c.text.length) ∧
      c.pieces = if maxChars < c.text.length then
        pieces (c.turns.map (lineOf userName assistantName)) maxChars else [c.text] := by
    unfold chunkTurns at hchunks
    rw [if_neg (Nat.ne_of_gt hlimit)] at hchunks
    obtain rfl := Option.some.inj hchunks
    exact fun c hc => mem_chunksFrom hc
  -- The rows of the chunks are those of the buffer but for summaries.
  have hturn : ∀ c ∈ chunks, ∀ t ∈ c.turns, t ∈ turns ∧ t.speaker ≠ .summary := by
    intro c hc t ht
    have hmem : t ∈ chunks.flatMap TurnChunk.turns := List.mem_flatMap.mpr ⟨c, hc, ht⟩
    rw [hrows] at hmem
    exact ⟨List.mem_of_mem_filter hmem, of_decide_eq_true (List.mem_filter.mp hmem).2⟩
  constructor
  · rintro ⟨chunks', hchunks', -, hall⟩ t ht hspeaker hlong
    obtain rfl := Option.some.inj (hchunks.symm.trans hchunks')
    have hmem : t ∈ chunks.flatMap TurnChunk.turns := by
      rw [hrows]
      exact List.mem_filter.mpr ⟨ht, decide_eq_true hspeaker⟩
    obtain ⟨c, hc, htc⟩ := List.mem_flatMap.mp hmem
    obtain ⟨htext, hoversize, -⟩ := hparts c hc
    -- A line is within the text of its chunk.
    have hline : (lineOf userName assistantName t).length ≤ c.text.length := by
      rw [htext]
      refine length_le_intercalate (List.mem_filterMap.mpr ⟨t, htc, ?_⟩)
      rw [formatTurnLine_eq hspeaker, lineOf_eq hspeaker]
    rw [decide_eq_true (hlong.trans_le hline)] at hoversize
    exact (labelled_segmentsOf hspeaker).mp (((hall c hc).2 hoversize).labelled t htc) hlong
  · intro hlabels
    refine ⟨chunks, hchunks, hrows, fun c hc => ?_⟩
    obtain ⟨-, hoversize, hpieces⟩ := hparts c hc
    refine ⟨fun hsmall => ?_, fun hlarge => ?_⟩
    · have hle := of_decide_eq_false (hoversize.symm.trans hsmall)
      rw [if_neg hle] at hpieces
      exact ⟨not_lt.mp hle, hpieces⟩
    · have hlt := of_decide_eq_true (hoversize.symm.trans hlarge)
      rw [if_pos hlt] at hpieces
      exact split_of_labels (fun t ht => (hturn c hc t ht).2)
        (fun t ht => hlabels t (hturn c hc t ht).1 (hturn c hc t ht).2) hpieces

end Rows

/-- A row of a user. -/
def sampleRow : Turn := ⟨none, .user, "ccccccc".toList, [], 0⟩

/-- A row that is sent in pieces. -/
theorem lossless_iff_sample :
    Lossless 8 none none [sampleRow] ↔
      ∀ t ∈ [sampleRow], t.speaker ≠ .summary → 8 < (lineOf none none t).length →
        ¬ ": ".toList <:+: labelOf none none t :=
  lossless_iff (by decide) none none [sampleRow]

/-- The user is called `a: b`: the pieces after the first open with `a: `, and the rest of the label
is sent as text. -/
theorem not_lossless :
    (chunkTurns 6 (some "a: b".toList) none [sampleRow]).map (List.flatMap TurnChunk.pieces) =
        some ["a: b: ".toList, "a: ccc".toList, "a: ccc".toList, "a: c".toList] ∧
      openingOf (some "a: b".toList) none sampleRow = "a: b: ".toList ∧
      ¬ Lossless 6 (some "a: b".toList) none [sampleRow] := by
  refine ⟨by decide +kernel, by decide, ?_⟩
  rintro ⟨chunks, hchunks, -, hall⟩
  have hone : chunkTurns 6 (some "a: b".toList) none [sampleRow] =
      some [⟨[sampleRow], "a: b: ccccccc".toList, none, true,
        ["a: b: ".toList, "a: ccc".toList, "a: ccc".toList, "a: c".toList]⟩] := by decide +kernel
  obtain rfl := Option.some.inj (hone.symm.trans hchunks)
  have hsplit := (hall _ (List.mem_singleton_self _)).2 rfl
  have hlabelled := hsplit.labelled sampleRow (List.mem_singleton_self _)
  exact (labelled_segmentsOf (by decide)).mp hlabelled (by decide) (by decide)

end Companion.Ingest

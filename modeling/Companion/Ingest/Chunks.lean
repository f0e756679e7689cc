import Companion.Ingest.Buffer
import Companion.Packing
import Mathlib

/-!
# Extraction chunks

`chunk_turns` of `brain/ingest/ingest_utils.py`. The rows between two allowed cuts form a unit,
whole units are packed into chunks up to the limit, and the cursor value of a chunk is the newest
stamp up to its end. A chunk longer than the limit is sent in pieces.

Every row is in one chunk, in order (`flatMap_turns_chunkTurns`), and the rows of the later chunks
are newer than a chunk's cursor value (`pairwise_chunkTurns`), so that a pass that stops after a
chunk leaves them after the cursor.
-/

namespace Companion.Ingest

open Companion.Memory
open Companion.Packing

/-- `TurnChunk` -/
structure TurnChunk where
  turns : List Turn
  text : Text
  cursorTs : Option Instant
  oversize : Bool
  pieces : List Text
  deriving DecidableEq

/-! ## Pieces -/

/-- `str.partition(": ")`: the text before the first one, and what is after it, if there is one. -/
def partitionColon : Text → Text × Option Text
  | [] => ([], none)
  | [c] => ([c], none)
  | c :: d :: cs =>
    if c = ':' ∧ d = ' ' then ([], some cs)
    else
      let (head, body) := partitionColon (d :: cs)
      (c :: head, body)

/-- The parts of a body line, each with whether it is the whole line. -/
def bodyParts (room : ℕ) (bodyLine : Text) : List (Text × Bool) :=
  match bodyLine.toChunks room with
  | [] => [([], true)]
  | [part] => [(part, true)]
  | parts => parts.map (·, false)

/-- `_split_line`: a whole line joins the one before it where both fit. -/
def splitLine (line : Text) (maxChars : ℕ) : List Text :=
  let (pfx, body) :=
    match partitionColon line with
    | (head, some body) => (head ++ ": ".toList, body)
    | (_, none) => ([], line)
  let room := max 1 (maxChars - pfx.length)
  let parts := (body.splitOn '\n').flatMap (bodyParts room)
  let segments := pack (fun current part => part.2 && decide (current.1.length + 1 + part.1.length ≤ room))
    (fun current part => (current.1 ++ '\n' :: part.1, part.2)) parts
  segments.map fun segment => pfx ++ segment.1

/-- `_pieces` -/
def pieces (lines : List Text) (maxChars : ℕ) : List Text :=
  let segments := lines.flatMap fun line => if line.length ≤ maxChars then [line] else splitLine line maxChars
  pack (fun current segment => current.length + 1 + segment.length ≤ maxChars)
    (fun current segment => current ++ '\n' :: segment) segments

/-! ## Units -/

/-- `_cut_allowed` -/
def cutAllowed (speaker : Speaker) (ts prefixMax suffixMin : Option Instant) : Bool :=
  match ts, prefixMax, suffixMin with
  | some _, some m, some n => speaker = .user && m < n
  | _, _, _ => false

/-- The newer of a time and the stamp of a row. -/
def newer (m : Option Instant) (t : Turn) : Option Instant :=
  match t.stamp with
  | some x => if m.all (· < x) then some x else m
  | none => m

/-- The least stamp of the rows: `suffix_min`. -/
def suffixMin : List Turn → Option Instant
  | [] => none
  | t :: rows =>
    match t.stamp with
    | some x => if (suffixMin rows).all (x < ·) then some x else suffixMin rows
    | none => suffixMin rows

/-- The units, from the one that is being built, with the newest stamp up to its end. -/
def unitsFrom (prefixMax : Option Instant) (current : List Turn) : List Turn → List (List Turn)
  | [] => [current]
  | row :: rows =>
    if cutAllowed row.speaker row.stamp prefixMax (suffixMin (row :: rows)) then
      current :: unitsFrom (newer prefixMax row) [row] rows
    else unitsFrom (newer prefixMax row) (current ++ [row]) rows

/-- `_units` -/
def units : List Turn → List (List Turn)
  | [] => []
  | row :: rows => unitsFrom (newer none row) [row] rows

/-! ## Chunks -/

variable (maxChars : ℕ) (userName assistantName : Option Text)

/-- The line of a row. -/
def lineOf (t : Turn) : Text :=
  (formatTurnLine t (labelOr userName "user".toList) (labelOr assistantName "assistant".toList)).getD []

/-- `_length` -/
def lengthOf (rows : List Turn) : ℕ :=
  (rows.map fun t => (lineOf userName assistantName t).length).sum + rows.length - 1

/-- The chunks of the groups of rows, with the newest stamp before them. -/
def chunksFrom (newest : Option Instant) : List (List Turn) → List TurnChunk
  | [] => []
  | group :: groups =>
    let newest := group.foldl newer newest
    let text := formatTranscript group userName assistantName
    let oversize := decide (maxChars < text.length)
    ⟨group, text, newest, oversize,
      if oversize then pieces (group.map (lineOf userName assistantName)) maxChars else [text]⟩ ::
        chunksFrom newest groups

/-- Whether a unit joins the rows that are held. -/
def unitFits (current unit : List Turn) : Bool :=
  decide (lengthOf userName assistantName current + 1 + lengthOf userName assistantName unit ≤ maxChars)

/-- `chunk_turns`, which refuses a limit of no characters. -/
def chunkTurns (turns : List Turn) : Option (List TurnChunk) :=
  if maxChars = 0 then none
  else
    let rows := turns.filter fun t => t.speaker ≠ .summary
    some (chunksFrom maxChars userName assistantName none
      (pack (unitFits maxChars userName assistantName) (· ++ ·) (units rows)))

/-! ## What the cuts keep -/

/-- Every stamp of the first row is before every one of the second. -/
def Turn.Older (a b : Turn) : Prop :=
  ∀ x, a.stamp = some x → ∀ y, b.stamp = some y → x < y

/-- The rows of the second chunk are newer than the cursor value of the first. -/
def TurnChunk.Behind (c d : TurnChunk) : Prop :=
  ∀ x, c.cursorTs = some x → ∀ t ∈ d.turns, ∀ y, t.stamp = some y → x < y

/-- The newer time is no older than either, and is one of them. -/
theorem newer_eq (m : Option Instant) (t : Turn) :
    (∀ x, m = some x → ∃ n, newer m t = some n ∧ x ≤ n) ∧
      (∀ x, t.stamp = some x → ∃ n, newer m t = some n ∧ x ≤ n) ∧
        (newer m t = m ∨ newer m t = t.stamp) := by
  unfold newer
  cases t.stamp with
  | none => exact ⟨fun x hx => ⟨x, hx, le_rfl⟩, nofun, .inl rfl⟩
  | some y =>
    cases m with
    | none => exact ⟨nofun, fun x hx => ⟨x, hx, le_rfl⟩, .inr rfl⟩
    | some m =>
      simp only [Option.all_some, decide_eq_true_eq]
      split_ifs with h
      · refine ⟨?_, ?_, .inr rfl⟩
        · rintro x ⟨⟩
          exact ⟨y, rfl, h.le⟩
        · rintro x ⟨⟩
          exact ⟨y, rfl, le_rfl⟩
      · refine ⟨?_, ?_, .inl rfl⟩
        · rintro x ⟨⟩
          exact ⟨m, rfl, le_rfl⟩
        · rintro x ⟨⟩
          exact ⟨m, rfl, not_lt.mp h⟩

/-- No stamp of the rows is before the least. -/
theorem suffixMin_le {rows : List Turn} {t : Turn} (ht : t ∈ rows) {x : Instant}
    (hx : t.stamp = some x) : ∃ m, suffixMin rows = some m ∧ m ≤ x := by
  induction rows with
  | nil => cases ht
  | cons row rows ih =>
    rw [suffixMin]
    rcases List.mem_cons.mp ht with rfl | ht
    · rw [hx]
      cases hm : suffixMin rows with
      | none => exact ⟨x, by simp, le_rfl⟩
      | some m =>
        by_cases h : x < m
        · exact ⟨x, by simp [h], le_rfl⟩
        · exact ⟨m, by simp [h], not_lt.mp h⟩
    · obtain ⟨m, hm, hmx⟩ := ih ht
      rw [hm]
      cases row.stamp with
      | none => exact ⟨m, rfl, hmx⟩
      | some y =>
        by_cases h : y < m
        · exact ⟨y, by simp [h], h.le.trans hmx⟩
        · exact ⟨m, by simp [h], hmx⟩

theorem flatten_unitsFrom (m : Option Instant) (current rows : List Turn) :
    (unitsFrom m current rows).flatten = current ++ rows := by
  induction rows generalizing m current with
  | nil => simp [unitsFrom]
  | cons row rows ih =>
    rw [unitsFrom]
    split_ifs
    · rw [List.flatten_cons, ih, List.singleton_append]
    · rw [ih, List.append_assoc, List.singleton_append]

/-- The units have the rows, in order. -/
theorem flatten_units (rows : List Turn) : (units rows).flatten = rows := by
  cases rows with
  | nil => rfl
  | cons row rows => exact flatten_unitsFrom _ _ _

/-- The newest stamp is that of some row or was there before. -/
theorem foldl_newer_eq_some {rows : List Turn} {m : Option Instant} {x : Instant}
    (h : rows.foldl newer m = some x) : m = some x ∨ ∃ t ∈ rows, t.stamp = some x := by
  induction rows generalizing m with
  | nil => exact .inl h
  | cons row rows ih =>
    rcases ih h with h | ⟨t, ht, hx⟩
    · rcases (newer_eq m row).2.2 with heq | heq
      · exact .inl (heq ▸ h)
      · exact .inr ⟨row, List.mem_cons_self, heq ▸ h⟩
    · exact .inr ⟨t, List.mem_cons_of_mem _ ht, hx⟩

/-- A cut separates the rows before it from those after it. -/
theorem older_of_cutAllowed {m : Option Instant} {row : Turn} {rows : List Turn}
    (h : cutAllowed row.speaker row.stamp m (suffixMin (row :: rows)) = true) {a b : Turn}
    (ha : ∀ x, a.stamp = some x → ∃ n, m = some n ∧ x ≤ n) (hb : b ∈ row :: rows) :
    a.Older b := by
  intro x hx y hy
  obtain ⟨p, hp, hxp⟩ := ha x hx
  obtain ⟨q, hq, hqy⟩ := suffixMin_le hb hy
  have hpq : p < q := by
    rw [hp, hq] at h
    cases hs : row.stamp with
    | none => simp [cutAllowed, hs] at h
    | some z =>
      simp only [cutAllowed, hs, Bool.and_eq_true, decide_eq_true_eq] at h
      exact h.2
  calc x ≤ p := hxp
    _ < q := hpq
    _ ≤ y := hqy

theorem pairwise_unitsFrom {m : Option Instant} {current rows : List Turn}
    (h : ∀ a ∈ current, ∀ x, a.stamp = some x → ∃ n, m = some n ∧ x ≤ n) :
    (unitsFrom m current rows).Pairwise (Before Turn.Older) := by
  induction rows generalizing m current with
  | nil => exact List.pairwise_singleton _ _
  | cons row rows ih =>
    rw [unitsFrom]
    split_ifs with hcut
    · refine List.pairwise_cons.mpr ⟨fun v hv a ha b hb => ?_, ih fun a ha x hx => ?_⟩
      · refine older_of_cutAllowed hcut (h a ha) ?_
        have hmem : b ∈ (unitsFrom (newer m row) [row] rows).flatten := List.mem_flatten_of_mem hv hb
        rwa [flatten_unitsFrom, List.singleton_append] at hmem
      · rw [List.mem_singleton.mp ha] at hx
        exact (newer_eq m row).2.1 x hx
    · refine ih fun a ha x hx => ?_
      rcases List.mem_append.mp ha with ha | ha
      · obtain ⟨n, rfl, hxn⟩ := h a ha x hx
        obtain ⟨n', hn', hle⟩ := (newer_eq (some n) row).1 n rfl
        exact ⟨n', hn', hxn.trans hle⟩
      · rw [List.mem_singleton.mp ha] at hx
        exact (newer_eq m row).2.1 x hx

/-- The rows of a unit are older than those of the later ones. -/
theorem pairwise_units (rows : List Turn) : (units rows).Pairwise (Before Turn.Older) := by
  cases rows with
  | nil => exact List.Pairwise.nil
  | cons row rows =>
    refine pairwise_unitsFrom fun a ha x hx => ?_
    rw [List.mem_singleton.mp ha] at hx
    exact (newer_eq none row).2.1 x hx

variable {maxChars userName assistantName}

theorem map_turns_chunksFrom (newest : Option Instant) (groups : List (List Turn)) :
    (chunksFrom maxChars userName assistantName newest groups).map TurnChunk.turns = groups := by
  induction groups generalizing newest with
  | nil => rfl
  | cons group groups ih => rw [chunksFrom, List.map_cons, ih]

/-- The rows of the later groups are newer than the cursor value of a chunk. -/
theorem pairwise_chunksFrom {newest : Option Instant} {groups : List (List Turn)}
    (hnewest : ∀ x, newest = some x → ∀ t ∈ groups.flatten, ∀ y, t.stamp = some y → x < y)
    (h : groups.Pairwise (Before Turn.Older)) :
    (chunksFrom maxChars userName assistantName newest groups).Pairwise TurnChunk.Behind := by
  induction groups generalizing newest with
  | nil => exact List.Pairwise.nil
  | cons group groups ih =>
    obtain ⟨hgroup, hrest⟩ := List.pairwise_cons.mp h
    have hlater : ∀ x, group.foldl newer newest = some x →
        ∀ t ∈ groups.flatten, ∀ y, t.stamp = some y → x < y := by
      intro x hx t ht y hy
      rcases foldl_newer_eq_some hx with hx | ⟨a, ha, hx⟩
      · exact hnewest x hx t (by simp [ht]) y hy
      · exact Before.flatten hgroup a ha t ht x hx y hy
    rw [chunksFrom]
    refine List.pairwise_cons.mpr ⟨fun d hd x hx t ht => hlater x hx t ?_, ih hlater hrest⟩
    refine List.mem_flatten_of_mem ?_ ht
    have hturns := List.mem_map_of_mem (f := TurnChunk.turns) hd
    rwa [map_turns_chunksFrom] at hturns

/-- A cursor value is the stamp of a row. -/
theorem exists_stamp_of_mem_chunksFrom {newest : Option Instant} {groups : List (List Turn)}
    {c : TurnChunk} (hc : c ∈ chunksFrom maxChars userName assistantName newest groups) {x : Instant}
    (hx : c.cursorTs = some x) : newest = some x ∨ ∃ t ∈ groups.flatten, t.stamp = some x := by
  induction groups generalizing newest with
  | nil => cases hc
  | cons group groups ih =>
    rw [chunksFrom] at hc
    have hgroup : group.foldl newer newest = some x →
        newest = some x ∨ ∃ t ∈ (group :: groups).flatten, t.stamp = some x := by
      intro h
      rcases foldl_newer_eq_some h with h | ⟨t, ht, hx⟩
      · exact .inl h
      · exact .inr ⟨t, by simp [ht], hx⟩
    rcases List.mem_cons.mp hc with rfl | hc
    · exact hgroup hx
    · rcases ih hc with h | ⟨t, ht, hx⟩
      · exact hgroup h
      · exact .inr ⟨t, by simp [ht], hx⟩

section ChunkTurns

variable {turns : List Turn} {chunks : List TurnChunk}

theorem flatten_groups (rows : List Turn) :
    (pack (unitFits maxChars userName assistantName) (· ++ ·) (units rows)).flatten = rows := by
  rw [flatten_pack, flatten_units]

/-- The chunks have every row that is not a summary, in order. -/
theorem flatMap_turns_chunkTurns (h : chunkTurns maxChars userName assistantName turns = some chunks) :
    chunks.flatMap TurnChunk.turns = turns.filter fun t => t.speaker ≠ .summary := by
  unfold chunkTurns at h
  split_ifs at h
  obtain rfl := Option.some.inj h
  rw [List.flatMap_def, map_turns_chunksFrom, flatten_groups]

/-- A cut leaves the rows after it newer than the cursor value at it. -/
theorem pairwise_chunkTurns (h : chunkTurns maxChars userName assistantName turns = some chunks) :
    chunks.Pairwise TurnChunk.Behind := by
  unfold chunkTurns at h
  split_ifs at h
  obtain rfl := Option.some.inj h
  exact pairwise_chunksFrom (by simp) (pairwise_pack _ (pairwise_units _))

/-- A cursor value is the stamp of one of the turns. -/
theorem exists_stamp_of_mem_chunkTurns
    (h : chunkTurns maxChars userName assistantName turns = some chunks) {c : TurnChunk}
    (hc : c ∈ chunks) {x : Instant} (hx : c.cursorTs = some x) : ∃ t ∈ turns, t.stamp = some x := by
  unfold chunkTurns at h
  split_ifs at h
  obtain rfl := Option.some.inj h
  rcases exists_stamp_of_mem_chunksFrom hc hx with h | ⟨t, ht, hx⟩
  · cases h
  · rw [flatten_groups] at ht
    exact ⟨t, List.mem_of_mem_filter ht, hx⟩

end ChunkTurns

end Companion.Ingest

import Companion.Ingest.Chunks

/-!
# Passes over one chunk

A pass that stops after a chunk leaves the cursor at its end, and the next pass reads the rows after
the cursor and chunks them again. `read_session_after` and `write_cursor` of
`brain/ingest/buffer.py` parse a stamp in their own way, which the chunker does not use: a row can
be dated for one of them only. Where both date it, they agree.

Chunk by chunk every row is sent once just in case the two parse alike where it counts
(`passes_iff`). A row that no parser dates is lost from every chunk but the first.
-/

namespace Companion.Ingest

open Companion.Memory
open Companion.Packing

/-- The time to which the rows after a cursor, and the cursor itself, are parsed. -/
structure Reader where
  read : Turn → Option Instant
  agrees : ∀ t x y, t.stamp = some x → read t = some y → x = y

section Definitions

variable (R : Reader) (maxChars : ℕ) (userName assistantName : Option Text)

/-- `read_session_after`, as it parses. -/
def Reader.after (buffer : List Turn) : Option Instant → List Turn
  | none => buffer
  | some cutoff => buffer.filter fun t => (R.read t).any (cutoff < ·)

/-- The rows that a pass reads. -/
def Reader.unread (buffer : List Turn) (cursor : Option Instant) : List Turn :=
  (R.after buffer cursor).filter fun t => t.speaker ≠ .summary

/-- The first of the newest rows. -/
def newerRow (m : Option Turn) (t : Turn) : Option Turn :=
  match t.stamp with
  | some x => if (m.bind Turn.stamp).all (· < x) then some t else m
  | none => m

/-- The row whose stamp is `cursor_ts`. -/
def newestRow (rows : List Turn) : Option Turn := rows.foldl newerRow none

/-- The cursor after a chunk. `write_cursor` refuses what it cannot parse, and leaves the old one.
-/
def Reader.advance (cursor : Option Instant) (chunk : TurnChunk) : Option Instant :=
  ((newestRow chunk.turns).bind R.read).or cursor

/-- The chunks of the rows that a pass reads. -/
def Reader.chunks (buffer : List Turn) (cursor : Option Instant) : List TurnChunk :=
  (chunkTurns maxChars userName assistantName (R.unread buffer cursor)).getD []

/-- Passes of one chunk each, until there is nothing left: the chunks that they send, or none where
that many passes are not enough. -/
def Reader.passes (buffer : List Turn) : ℕ → Option Instant → Option (List TurnChunk)
  | 0, _ => none
  | n + 1, cursor =>
    match R.chunks maxChars userName assistantName buffer cursor with
    | [] => some []
    | chunk :: _ => (Reader.passes buffer n (R.advance cursor chunk)).map (chunk :: ·)

/-- The rows of each chunk. -/
def groups (rows : List Turn) : List (List Turn) :=
  pack (unitFits maxChars userName assistantName) (· ++ ·) (units rows)

/-- A chunk of the rows ends here. -/
def ChunkEnds (rows before after : List Turn) : Prop :=
  ∃ gs hs, groups maxChars userName assistantName rows = gs ++ hs ∧ gs ≠ [] ∧
    before = gs.flatten ∧ after = hs.flatten

/-- The newest of the rows before can be parsed, those that only the reader dates are no newer, and
it dates each of the rows after, as newer where the chunker does not date it. -/
def Reader.Parts (before after : List Turn) : Prop :=
  ∃ x, (newestRow before).bind R.read = some x ∧
    (∀ t ∈ before, t.stamp = none → ∀ y, R.read t = some y → y ≤ x) ∧
    ∀ t ∈ after, ∃ y, R.read t = some y ∧ (t.stamp = none → x < y)

/-- Every end of a chunk parts the rows. -/
def Reader.Settles (rows : List Turn) : Prop :=
  ∀ before after, ChunkEnds maxChars userName assistantName rows before after →
    R.Parts before after

end Definitions

/-! ## The newest row -/

theorem newerRow_eq (m : Option Turn) (t : Turn) :
    newerRow m t = m ∨ newerRow m t = some t ∧ t.stamp ≠ none := by
  unfold newerRow
  cases hx : t.stamp with
  | none => exact .inl rfl
  | some x =>
    dsimp only
    split_ifs
    · exact .inr ⟨rfl, nofun⟩
    · exact .inl rfl

theorem stamp_newerRow (m : Option Turn) (t : Turn) :
    (newerRow m t).bind Turn.stamp = newer (m.bind Turn.stamp) t := by
  unfold newerRow newer
  cases hx : t.stamp with
  | none => rfl
  | some x =>
    dsimp only
    split_ifs
    · exact hx
    · rfl

/-- The stamp of the newest row is the cursor value of the chunk. -/
theorem stamp_foldl_newerRow (rows : List Turn) (m : Option Turn) :
    (rows.foldl newerRow m).bind Turn.stamp = rows.foldl newer (m.bind Turn.stamp) := by
  induction rows generalizing m with
  | nil => rfl
  | cons row rows ih => rw [List.foldl_cons, List.foldl_cons, ih, stamp_newerRow]

/-- The newest stamp is no older than that of any row. -/
theorem le_foldl_newer {rows : List Turn} {m : Option Instant} :
    (∀ x, m = some x → ∃ n, rows.foldl newer m = some n ∧ x ≤ n) ∧
      ∀ t ∈ rows, ∀ x, t.stamp = some x → ∃ n, rows.foldl newer m = some n ∧ x ≤ n := by
  induction rows generalizing m with
  | nil => exact ⟨fun x hx => ⟨x, hx, le_rfl⟩, nofun⟩
  | cons row rows ih =>
    obtain ⟨hheld, hrow, -⟩ := newer_eq m row
    have hlater : ∀ x, (∃ n, newer m row = some n ∧ x ≤ n) →
        ∃ n, rows.foldl newer (newer m row) = some n ∧ x ≤ n := by
      rintro x ⟨n, hn, hle⟩
      obtain ⟨n', hn', hle'⟩ := (ih (m := newer m row)).1 n hn
      exact ⟨n', hn', hle.trans hle'⟩
    refine ⟨fun x hx => hlater x (hheld x hx), fun t ht x hx => ?_⟩
    rcases List.mem_cons.mp ht with rfl | ht
    · exact hlater x (hrow x hx)
    · exact ih.2 t ht x hx

theorem mem_foldl_newerRow {rows : List Turn} {m : Option Turn} {n : Turn}
    (h : rows.foldl newerRow m = some n) : m = some n ∨ n ∈ rows ∧ n.stamp ≠ none := by
  induction rows generalizing m with
  | nil => exact .inl h
  | cons row rows ih =>
    rcases ih h with hm | ⟨hmem, hdated⟩
    · rcases newerRow_eq m row with heq | ⟨heq, hdated⟩
      · exact .inl (heq ▸ hm)
      · obtain rfl := Option.some.inj (heq.symm.trans hm)
        exact .inr ⟨List.mem_cons_self, hdated⟩
    · exact .inr ⟨List.mem_cons_of_mem _ hmem, hdated⟩

/-- The newest row is one of the rows, and is as new as each. -/
theorem newestRow_eq_some {rows : List Turn} {n : Turn} (h : newestRow rows = some n) :
    n ∈ rows ∧ ∃ x, n.stamp = some x ∧ ∀ t ∈ rows, ∀ y, t.stamp = some y → y ≤ x := by
  rcases mem_foldl_newerRow h with hnone | ⟨hmem, hdated⟩
  · cases hnone
  · obtain ⟨x, hx⟩ := Option.ne_none_iff_exists'.mp hdated
    refine ⟨hmem, x, hx, fun t ht y hy => ?_⟩
    obtain ⟨z, hz, hle⟩ := (le_foldl_newer (m := none)).2 t ht y hy
    have hstamp := stamp_foldl_newerRow rows none
    rw [show rows.foldl newerRow none = some n from h] at hstamp
    obtain rfl := Option.some.inj ((hx.symm.trans hstamp).trans hz)
    exact hle

/-- Rows that are newer than those before them have the newest row of all. -/
theorem newestRow_append {before rows : List Turn} (holder : Before Turn.Older before rows)
    (hdated : ∃ t ∈ rows, t.stamp ≠ none) : newestRow (before ++ rows) = newestRow rows := by
  have hfold : ∀ m : Option Turn,
      (∀ x, m.bind Turn.stamp = some x → ∀ t ∈ rows, ∀ y, t.stamp = some y → x < y) →
      rows.foldl newerRow m = rows.foldl newerRow none := by
    intro m hm
    clear holder
    induction rows with
    | nil =>
      obtain ⟨t, ht, -⟩ := hdated
      cases ht
    | cons row rows ih =>
      rw [List.foldl_cons, List.foldl_cons]
      cases hrow : row.stamp with
      | none =>
        -- The rows have a date further on.
        have hskip : ∀ m : Option Turn, newerRow m row = m := fun m => by rw [newerRow, hrow]
        rw [hskip, hskip]
        refine ih ?_ fun x hx t ht => hm x hx t (List.mem_cons_of_mem _ ht)
        obtain ⟨t, ht, hne⟩ := hdated
        rcases List.mem_cons.mp ht with rfl | ht
        · exact absurd hrow hne
        · exact ⟨t, ht, hne⟩
      | some y =>
        have htake : (m.bind Turn.stamp).all (· < y) = true := by
          cases hx : m.bind Turn.stamp with
          | none => rfl
          | some x => exact decide_eq_true (hm x hx row List.mem_cons_self y hrow)
        have hm' : newerRow m row = some row := by
          simp only [newerRow, hrow]
          rw [if_pos htake]
        have hnone : newerRow none row = some row := by
          simp only [newerRow, hrow]
          rfl
        rw [hm', hnone]
  unfold newestRow
  rw [List.foldl_append]
  refine hfold _ fun x hx t ht y hy => ?_
  obtain ⟨n, hn, hstamp⟩ := Option.bind_eq_some_iff.mp hx
  exact holder n (newestRow_eq_some hn).1 t ht x hstamp y hy

/-! ## The later chunks -/

/-- What the first unit has a row of, and a row at a cut is, every unit has a row of. -/
theorem exists_mem_unitsFrom {P : Turn → Prop} (hcut : ∀ t : Turn, t.stamp ≠ none → P t)
    {m : Option Instant} {current rows : List Turn} (h : ∃ t ∈ current, P t) :
    ∀ v ∈ unitsFrom m current rows, ∃ t ∈ v, P t := by
  induction rows generalizing m current with
  | nil =>
    intro v hv
    rw [List.mem_singleton.mp hv]
    exact h
  | cons row rows ih =>
    rw [unitsFrom]
    split_ifs with hallowed
    · have hrow : row.stamp ≠ none := by
        intro hnone
        simp [cutAllowed, hnone] at hallowed
      intro v hv
      rcases List.mem_cons.mp hv with rfl | hv
      · exact h
      · exact ih ⟨row, List.mem_singleton_self row, hcut row hrow⟩ v hv
    · obtain ⟨t, ht, hP⟩ := h
      exact ih ⟨t, List.mem_append_left _ ht, hP⟩

/-- No unit is empty. -/
theorem ne_nil_of_mem_units {rows v : List Turn} (hv : v ∈ units rows) : v ≠ [] := by
  cases rows with
  | nil => cases hv
  | cons row rows =>
    obtain ⟨t, ht, -⟩ := exists_mem_unitsFrom (P := fun _ => True) (fun _ _ => trivial)
      ⟨row, List.mem_singleton_self row, trivial⟩ v hv
    exact List.ne_nil_of_mem ht

/-- At a cut the newest row before it does not matter any more. -/
theorem newer_of_cutAllowed {m : Option Instant} {row : Turn} {rows : List Turn}
    (h : cutAllowed row.speaker row.stamp m (suffixMin (row :: rows)) = true) :
    row.stamp ≠ none ∧ newer m row = newer none row := by
  cases hx : row.stamp with
  | none => simp [cutAllowed, hx] at h
  | some x =>
    refine ⟨by rintro ⟨⟩, ?_⟩
    have holder : ∀ y, m = some y → y < x := by
      intro y hy
      obtain ⟨least, hleast, hle⟩ := suffixMin_le (List.mem_cons_self (a := row) (l := rows)) hx
      rw [hx, hy, hleast] at h
      simp only [cutAllowed, Bool.and_eq_true, decide_eq_true_eq] at h
      exact lt_of_lt_of_le h.2 hle
    have hall : m.all (· < x) = true := by
      cases m with
      | none => rfl
      | some y => exact decide_eq_true (holder y rfl)
    simp only [newer, hx]
    rw [if_pos hall]
    rfl

/-- Units after a cut are those of the rows after it, and have a dated row. -/
theorem units_of_unitsFrom {m : Option Instant} {current rows : List Turn} {us vs : List (List Turn)}
    (h : unitsFrom m current rows = us ++ vs) (hus : us ≠ []) :
    units vs.flatten = vs ∧ ∀ v ∈ vs, ∃ t ∈ v, t.stamp ≠ none := by
  induction rows generalizing m current us with
  | nil =>
    obtain ⟨u, us, rfl⟩ := List.exists_cons_of_ne_nil hus
    obtain ⟨-, hrest⟩ := List.cons.inj h
    obtain ⟨rfl, rfl⟩ := List.append_eq_nil_iff.mp hrest.symm
    exact ⟨rfl, nofun⟩
  | cons row rows ih =>
    rw [unitsFrom] at h
    split_ifs at h with hcut
    · obtain ⟨u, us, rfl⟩ := List.exists_cons_of_ne_nil hus
      obtain ⟨-, hrest⟩ := List.cons.inj h
      by_cases hnil : us = []
      · -- The cut is the one between `us` and `vs`.
        obtain ⟨hdated, hnewer⟩ := newer_of_cutAllowed hcut
        have hvs : unitsFrom (newer m row) [row] rows = vs := by
          rw [hrest, hnil]
          rfl
        rw [← hvs]
        refine ⟨?_, exists_mem_unitsFrom (fun _ h => h) ⟨row, List.mem_singleton_self row, hdated⟩⟩
        rw [flatten_unitsFrom, hnewer]
        rfl
      · exact ih hrest hnil
    · exact ih h hus

theorem units_flatten {rows : List Turn} {us vs : List (List Turn)} (h : units rows = us ++ vs)
    (hus : us ≠ []) : units vs.flatten = vs ∧ ∀ v ∈ vs, ∃ t ∈ v, t.stamp ≠ none := by
  cases rows with
  | nil =>
    obtain ⟨rfl, -⟩ := List.append_eq_nil_iff.mp h.symm
    exact absurd rfl hus
  | cons row rows => exact units_of_unitsFrom h hus

section Groups

variable {maxChars : ℕ} {userName assistantName : Option Text}

/-- The chunks after the first are those of the rows after it, which are newer. -/
theorem groups_eq_cons {rows g : List Turn} {gs : List (List Turn)}
    (h : groups maxChars userName assistantName rows = g :: gs) :
    g ≠ [] ∧ rows = g ++ gs.flatten ∧ groups maxChars userName assistantName gs.flatten = gs ∧
      Before Turn.Older g gs.flatten ∧
        ∀ hs hs', gs = hs ++ hs' → hs ≠ [] → ∃ t ∈ hs.flatten, t.stamp ≠ none := by
  have hrows : rows = g ++ gs.flatten := by
    rw [← @flatten_groups maxChars userName assistantName rows]
    exact congrArg List.flatten h
  have hpairwise := pairwise_pack (unitFits maxChars userName assistantName) (pairwise_units rows)
  rw [show pack (unitFits maxChars userName assistantName) (· ++ ·) (units rows) = g :: gs from h]
    at hpairwise
  have holder : Before Turn.Older g gs.flatten :=
    Before.flatten (List.pairwise_cons.mp hpairwise).1
  -- The first chunk packs the first units, and the other chunks are what packing makes of the rest.
  obtain ⟨us, vs, hus, hunits, hg, hgs⟩ := pack_eq_cons _ h
  obtain ⟨hvs, hdated⟩ := units_flatten hunits hus
  have hflatten : gs.flatten = vs.flatten := by rw [← hgs, flatten_pack]
  refine ⟨?_, hrows, ?_, holder, ?_⟩
  · obtain ⟨u, us, rfl⟩ := List.exists_cons_of_ne_nil hus
    obtain ⟨t, u', hu⟩ := List.exists_cons_of_ne_nil
      (@ne_nil_of_mem_units rows u (by rw [hunits]; exact List.mem_cons_self))
    rw [hg, List.flatten_cons, hu]
    exact nofun
  · rw [groups, hflatten, hvs]
    exact hgs
  · intro hs hs' heq hne
    obtain ⟨g', hs, rfl⟩ := List.exists_cons_of_ne_nil hne
    rw [List.cons_append] at heq
    obtain ⟨us', vs', hus', rfl, rfl, -⟩ := pack_eq_cons _ (hgs.trans heq)
    obtain ⟨v, us', rfl⟩ := List.exists_cons_of_ne_nil hus'
    obtain ⟨t, ht, hstamp⟩ := hdated v (by simp)
    exact ⟨t, by simp [ht], hstamp⟩

end Groups

section Passes

variable {R : Reader} {maxChars : ℕ} {userName assistantName : Option Text} {buffer : List Turn}
  {cursor : Option Instant}

/-! ## One pass -/

/-- The rows of a chunk, and its texts. -/
def sentOf (maxChars : ℕ) (userName assistantName : Option Text) (g : List Turn) :
    List Turn × List Text :=
  (g, if maxChars < (formatTranscript g userName assistantName).length then
      pieces (g.map (lineOf userName assistantName)) maxChars
    else [formatTranscript g userName assistantName])

/-- The texts of a chunk depend on its rows alone. -/
theorem map_pieces_chunksFrom (m : Option Instant) (gs : List (List Turn)) :
    (chunksFrom maxChars userName assistantName m gs).map (fun c => (c.turns, c.pieces)) =
      gs.map (sentOf maxChars userName assistantName) := by
  induction gs generalizing m with
  | nil => rfl
  | cons g gs ih =>
    rw [chunksFrom, List.map_cons, List.map_cons, ih, sentOf]
    simp only [decide_eq_true_eq]

theorem chunks_eq (hlimit : 0 < maxChars) (buffer : List Turn) (cursor : Option Instant) :
    R.chunks maxChars userName assistantName buffer cursor =
      chunksFrom maxChars userName assistantName none
        (groups maxChars userName assistantName (R.unread buffer cursor)) := by
  have hrows : (R.unread buffer cursor).filter (fun t => t.speaker ≠ .summary) =
      R.unread buffer cursor := by
    unfold Reader.unread
    rw [List.filter_filter]
    exact List.filter_congr fun t _ => Bool.and_self _
  unfold Reader.chunks chunkTurns
  rw [if_neg (Nat.ne_of_gt hlimit), hrows]
  rfl

/-- The rows after a cursor that is later are those of the rows after the old one. -/
theorem unread_of_lt {x : Instant} (h : ∀ c, cursor = some c → c < x) :
    R.unread buffer (some x) =
      (R.unread buffer cursor).filter fun t => (R.read t).any (x < ·) := by
  unfold Reader.unread
  cases cursor with
  | none => exact List.filter_comm _ _ _
  | some c =>
    have hlt := h c rfl
    simp only [Reader.after, List.filter_filter]
    refine List.filter_congr fun t _ => ?_
    cases R.read t with
    | none => simp
    | some y =>
      by_cases hy : x < y
      · simp [hy, hlt.trans hy]
      · simp [hy]

/-- No row is after a cursor just in case all that can be read are up to it. -/
theorem filter_after_eq_nil {rows : List Turn} {x : Instant} :
    (rows.filter fun t => (R.read t).any (x < ·)) = [] ↔
      ∀ t ∈ rows, ∀ y, R.read t = some y → y ≤ x := by
  rw [List.filter_eq_nil_iff]
  refine forall₂_congr fun t _ => ?_
  cases R.read t with
  | none => simp
  | some y => simp

theorem filter_after_eq_self {rows : List Turn} {x : Instant}
    (h : ∀ t ∈ rows, ∃ y, R.read t = some y ∧ x < y) :
    (rows.filter fun t => (R.read t).any (x < ·)) = rows := by
  refine List.filter_eq_self.mpr fun t ht => ?_
  obtain ⟨y, hy, hxy⟩ := h t ht
  exact (Option.any_eq_true _ _).mpr ⟨y, hy, decide_eq_true hxy⟩

/-- The rows of a pass are after its cursor. -/
theorem lt_of_mem_unread {t : Turn} (ht : t ∈ R.unread buffer cursor) {c : Instant}
    (hc : cursor = some c) : ∃ y, R.read t = some y ∧ c < y := by
  have hafter := List.mem_of_mem_filter ht
  rw [hc] at hafter
  obtain ⟨y, hy, hlt⟩ := (Option.any_eq_true _ _).mp (List.mem_filter.mp hafter).2
  exact ⟨y, hy, of_decide_eq_true hlt⟩

/-- A cursor that moves is the time of a row that was read, and later. -/
theorem advance_cases (buffer : List Turn) (cursor : Option Instant) {chunk : TurnChunk}
    (hturns : ∀ t ∈ chunk.turns, t ∈ R.unread buffer cursor) :
    ((newestRow chunk.turns).bind R.read = none ∧ R.advance cursor chunk = cursor) ∨
      ∃ n x, newestRow chunk.turns = some n ∧ R.read n = some x ∧
        R.advance cursor chunk = some x ∧ ∀ c, cursor = some c → c < x := by
  unfold Reader.advance
  cases hnewest : (newestRow chunk.turns).bind R.read with
  | none => exact .inl ⟨rfl, rfl⟩
  | some x =>
    obtain ⟨n, hn, hx⟩ := Option.bind_eq_some_iff.mp hnewest
    refine .inr ⟨n, x, hn, hx, rfl, fun c hc => ?_⟩
    obtain ⟨y, hy, hlt⟩ := lt_of_mem_unread (hturns n (newestRow_eq_some hn).1) hc
    obtain rfl := Option.some.inj (hx.symm.trans hy)
    exact hlt

/-- What passes send, from a cursor on, they read after it. -/
theorem mem_unread_of_passes (hlimit : 0 < maxChars) {n : ℕ} {sent : List TurnChunk}
    (h : R.passes maxChars userName assistantName buffer n cursor = some sent) :
    ∀ t ∈ sent.flatMap TurnChunk.turns, t ∈ R.unread buffer cursor := by
  induction n generalizing cursor sent with
  | zero => cases h
  | succ n ih =>
    rw [Reader.passes, chunks_eq hlimit] at h
    cases hgroups : groups maxChars userName assistantName (R.unread buffer cursor) with
    | nil =>
      rw [hgroups] at h
      obtain rfl := Option.some.inj h
      exact nofun
    | cons g gs =>
      rw [hgroups] at h
      obtain ⟨sent, hsent, rfl⟩ := Option.map_eq_some_iff.mp h
      have hrows := (groups_eq_cons hgroups).2.1
      have hg : ∀ t ∈ g, t ∈ R.unread buffer cursor := fun t ht => by
        rw [hrows]
        exact List.mem_append_left _ ht
      intro t ht
      rw [List.flatMap_cons] at ht
      rcases List.mem_append.mp ht with ht | ht
      · exact hg t ht
      · -- The cursor only moves on.
        have hlater := ih hsent t ht
        rcases @advance_cases R buffer cursor ⟨g, _, _, _, _⟩ hg with
          ⟨-, hsame⟩ | ⟨_, x, -, -, hx, hlt⟩
        · rwa [hsame] at hlater
        · rw [hx, unread_of_lt hlt] at hlater
          exact List.mem_of_mem_filter hlater

/-! ## The condition -/

/-- The newest row can be parsed, as its stamp. -/
theorem Reader.Parts.exists_newest {before after : List Turn} (h : R.Parts before after) :
    ∃ n x, newestRow before = some n ∧ n ∈ before ∧ n.stamp = some x ∧ R.read n = some x ∧
      (∀ t ∈ before, ∀ y, R.read t = some y → y ≤ x) ∧
      ∀ t ∈ after, ∃ y, R.read t = some y ∧ (t.stamp = none → x < y) := by
  obtain ⟨x, hnewest, hbefore, hafter⟩ := h
  obtain ⟨n, hn, hx⟩ := Option.bind_eq_some_iff.mp hnewest
  obtain ⟨hmem, y, hy, hle⟩ := newestRow_eq_some hn
  obtain rfl := R.agrees n y x hy hx
  refine ⟨n, y, hn, hmem, hy, hx, fun t ht z hz => ?_, hafter⟩
  cases hstamp : t.stamp with
  | none => exact hbefore t ht hstamp z hz
  | some z' =>
    obtain rfl := R.agrees t z' z hstamp hz
    exact hle t ht z' hstamp

/-- A parted chunk leaves the rows after it. -/
theorem unread_of_parts {before after : List Turn} (h : R.Parts before after)
    (holder : Before Turn.Older before after) (hrows : R.unread buffer cursor = before ++ after) :
    ∃ x, (newestRow before).bind R.read = some x ∧ R.unread buffer (some x) = after := by
  obtain ⟨n, x, hn, hmem, hstamp, hx, hbefore, hafter⟩ := h.exists_newest
  refine ⟨x, by rw [hn]; exact hx, ?_⟩
  -- The newest row of the chunk was read after the old cursor.
  have hlt : ∀ c, cursor = some c → c < x := by
    intro c hc
    have hunread : n ∈ R.unread buffer cursor := by
      rw [hrows]
      exact List.mem_append_left _ hmem
    obtain ⟨y, hy, hlt⟩ := lt_of_mem_unread hunread hc
    obtain rfl := Option.some.inj (hx.symm.trans hy)
    exact hlt
  have hnone := filter_after_eq_nil.mpr hbefore
  have hall : (after.filter fun t => (R.read t).any (x < ·)) = after := by
    refine filter_after_eq_self fun t ht => ?_
    obtain ⟨y, hy, hnewer⟩ := hafter t ht
    refine ⟨y, hy, ?_⟩
    -- Two dated rows are in order as rows of different units.
    cases htstamp : t.stamp with
    | none => exact hnewer htstamp
    | some z =>
      obtain rfl := R.agrees t z y htstamp hy
      exact holder n hmem t ht x hstamp z htstamp
  rw [unread_of_lt hlt, hrows, List.filter_append, hnone, hall, List.nil_append]

/-- The ends of the chunks: the end of the first, and those after it. -/
theorem chunkEnds_iff {rows g : List Turn} {gs : List (List Turn)}
    (h : groups maxChars userName assistantName rows = g :: gs) {before after : List Turn} :
    ChunkEnds maxChars userName assistantName rows before after ↔
      (before = g ∧ after = gs.flatten) ∨ ∃ later, before = g ++ later ∧
        ChunkEnds maxChars userName assistantName gs.flatten later after := by
  obtain ⟨-, -, hgs, -, -⟩ := groups_eq_cons h
  unfold ChunkEnds
  rw [h, hgs]
  constructor
  · rintro ⟨hs, hs', heq, hne, rfl, rfl⟩
    obtain ⟨g', hs, rfl⟩ := List.exists_cons_of_ne_nil hne
    obtain ⟨rfl, rfl⟩ := List.cons.inj heq
    cases hs with
    | nil => exact .inl ⟨by simp, rfl⟩
    | cons g' hs => exact .inr ⟨_, rfl, _, _, rfl, by simp, rfl, rfl⟩
  · rintro (⟨rfl, rfl⟩ | ⟨later, rfl, hs, hs', rfl, -, rfl, rfl⟩)
    · exact ⟨[before], gs, rfl, by simp, by simp, rfl⟩
    · exact ⟨g :: hs, hs', rfl, by simp, rfl, rfl⟩

/-- The ends of the later chunks part the rows after the first one. -/
theorem settles_iff {rows g : List Turn} {gs : List (List Turn)}
    (h : groups maxChars userName assistantName rows = g :: gs) :
    R.Settles maxChars userName assistantName rows ↔
      R.Parts g gs.flatten ∧ R.Settles maxChars userName assistantName gs.flatten := by
  obtain ⟨-, -, hgs, holder, hdated⟩ := groups_eq_cons h
  -- The newest row of the first chunk and some more is that of these.
  have hnewest : ∀ later after, ChunkEnds maxChars userName assistantName gs.flatten later after →
      Before Turn.Older g later ∧ newestRow (g ++ later) = newestRow later := by
    rintro _ _ ⟨hs, hs', heq, hne, rfl, rfl⟩
    rw [hgs] at heq
    have hbefore : Before Turn.Older g hs.flatten := fun a ha b hb =>
      holder a ha b (by rw [heq, List.flatten_append]; exact List.mem_append_left _ hb)
    exact ⟨hbefore, newestRow_append hbefore (hdated hs hs' heq hne)⟩
  constructor
  · intro hsettles
    refine ⟨hsettles g gs.flatten ((chunkEnds_iff h).mpr (.inl ⟨rfl, rfl⟩)), ?_⟩
    intro later after hends
    obtain ⟨x, hx, hbefore, hafter⟩ :=
      hsettles (g ++ later) after ((chunkEnds_iff h).mpr (.inr ⟨later, rfl, hends⟩))
    rw [(hnewest later after hends).2] at hx
    exact ⟨x, hx, fun t ht => hbefore t (List.mem_append_right _ ht), hafter⟩
  · rintro ⟨hfirst, hsettles⟩ before after hends
    rcases (chunkEnds_iff h).mp hends with ⟨rfl, rfl⟩ | ⟨later, rfl, hrest⟩
    · exact hfirst
    · -- A row of the first chunk that only one parser reads is before its newest row, which is
      -- older than that of the later rows.
      obtain ⟨hbefore, hsame⟩ := hnewest later after hrest
      have hlater := hsettles later after hrest
      obtain ⟨n, x, hn, hmem, hstamp, hread, -, -⟩ := hlater.exists_newest
      obtain ⟨x', hx', hlow, hafter⟩ := hlater
      obtain rfl : x = x' := Option.some.inj (by rw [← hx', hn]; exact hread.symm)
      obtain ⟨m, y, -, hm, hy, -, hle, -⟩ := hfirst.exists_newest
      refine ⟨x, by rw [hsame]; exact hx', fun t ht hnone z hz => ?_, hafter⟩
      rcases List.mem_append.mp ht with ht | ht
      · exact (hle t ht z hz).trans (hbefore m hm n hmem y hy x hstamp).le
      · exact hlow t ht hnone z hz

/-! ## All passes -/

/-- A pass sends its first chunk, and the next ones what is after the cursor that it leaves. -/
theorem passes_succ (hlimit : 0 < maxChars) (n : ℕ) {g : List Turn} {gs : List (List Turn)}
    (h : groups maxChars userName assistantName (R.unread buffer cursor) = g :: gs) :
    ∃ chunk : TurnChunk, chunk.turns = g ∧
      (chunk.turns, chunk.pieces) = sentOf maxChars userName assistantName g ∧
      R.passes maxChars userName assistantName buffer (n + 1) cursor =
        (R.passes maxChars userName assistantName buffer n (R.advance cursor chunk)).map
          (chunk :: ·) := by
  have hmap := @map_pieces_chunksFrom maxChars userName assistantName none [g]
  refine ⟨_, rfl, (List.cons.inj hmap).1, ?_⟩
  rw [Reader.passes, chunks_eq hlimit, h]
  rfl

/-- Where the chunks part the rows, the passes send the chunks of all of them. -/
theorem passes_of_settles (hlimit : 0 < maxChars) {gs : List (List Turn)}
    (h : groups maxChars userName assistantName (R.unread buffer cursor) = gs)
    (hsettles : R.Settles maxChars userName assistantName (R.unread buffer cursor)) :
    ∃ sent, R.passes maxChars userName assistantName buffer (gs.length + 1) cursor = some sent ∧
      sent.map (fun c => (c.turns, c.pieces)) =
        gs.map (sentOf maxChars userName assistantName) := by
  induction gs generalizing cursor with
  | nil =>
    refine ⟨[], ?_, rfl⟩
    rw [List.length_nil, Reader.passes, chunks_eq hlimit, h]
    rfl
  | cons g gs ih =>
    obtain ⟨-, hrows, hgs, holder, -⟩ := groups_eq_cons h
    obtain ⟨hparts, hlater⟩ := (settles_iff h).mp hsettles
    -- The cursor comes to the end of the first chunk, and the next pass reads what is after it.
    obtain ⟨x, hx, hunread⟩ := unread_of_parts hparts holder hrows
    obtain ⟨chunk, hturns, hpieces, hpasses⟩ := passes_succ hlimit (gs.length + 1) h
    have hadvance : R.advance cursor chunk = some x := by
      rw [Reader.advance, hturns, hx]
      rfl
    obtain ⟨sent, hsent, hmap⟩ := @ih (some x) (by rw [hunread]; exact hgs)
      (by rw [hunread]; exact hlater)
    refine ⟨chunk :: sent, ?_, ?_⟩
    · rw [List.length_cons, hpasses, hadvance, hsent]
      rfl
    · rw [List.map_cons, List.map_cons, hmap, hpieces]

/-- Passes that end have sent the first row that they read. -/
theorem head_mem_of_passes (hlimit : 0 < maxChars) {n : ℕ} {sent : List TurnChunk}
    (h : R.passes maxChars userName assistantName buffer n cursor = some sent) {a : Turn}
    {rest : List Turn} (hrows : R.unread buffer cursor = a :: rest) :
    a ∈ sent.flatMap TurnChunk.turns := by
  cases n with
  | zero => cases h
  | succ n =>
    cases hgroups : groups maxChars userName assistantName (R.unread buffer cursor) with
    | nil =>
      have hflatten := @flatten_groups maxChars userName assistantName (R.unread buffer cursor)
      rw [show pack (unitFits maxChars userName assistantName) (· ++ ·)
        (units (R.unread buffer cursor)) = [] from hgroups, hrows] at hflatten
      cases hflatten
    | cons g gs =>
      obtain ⟨hne, hsplit, -⟩ := groups_eq_cons hgroups
      obtain ⟨chunk, hturns, -, hpasses⟩ := passes_succ hlimit n hgroups
      rw [hpasses] at h
      obtain ⟨sent, -, rfl⟩ := Option.map_eq_some_iff.mp h
      obtain ⟨b, g, rfl⟩ := List.exists_cons_of_ne_nil hne
      rw [hrows, List.cons_append] at hsplit
      rw [List.flatMap_cons, hturns, (List.cons.inj hsplit).1]
      simp

/-- Where every row is sent once, the chunks part the rows. -/
theorem settles_of_passes (hlimit : 0 < maxChars) {n : ℕ} {sent : List TurnChunk}
    (hnodup : (R.unread buffer cursor).Nodup)
    (h : R.passes maxChars userName assistantName buffer n cursor = some sent)
    (hsent : sent.flatMap TurnChunk.turns = R.unread buffer cursor) :
    R.Settles maxChars userName assistantName (R.unread buffer cursor) := by
  induction n generalizing cursor sent with
  | zero => cases h
  | succ n ih =>
    cases hgroups : groups maxChars userName assistantName (R.unread buffer cursor) with
    | nil =>
      rintro before after ⟨gs, hs, heq, hne, -, -⟩
      rw [hgroups] at heq
      exact absurd (List.append_eq_nil_iff.mp heq.symm).1 hne
    | cons g gs =>
      obtain ⟨hne, hrows, -, -, -⟩ := groups_eq_cons hgroups
      obtain ⟨chunk, hturns, -, hpasses⟩ := passes_succ hlimit n hgroups
      rw [hpasses] at h
      obtain ⟨sent, hlater, rfl⟩ := Option.map_eq_some_iff.mp h
      rw [List.flatMap_cons, hturns, hrows] at hsent
      have hrest : sent.flatMap TurnChunk.turns = gs.flatten := List.append_cancel_left hsent
      rw [hrows] at hnodup
      have hapart : ∀ a ∈ g, a ∉ gs.flatten := fun a ha hmem =>
        (List.nodup_append.mp hnodup).2.2 a ha a hmem rfl
      -- No row of the first chunk is read again, as it would be sent again.
      have hagain : ∀ a ∈ g, ∀ rest, R.unread buffer (R.advance cursor chunk) ≠ a :: rest := by
        intro a ha rest hread
        exact hapart a ha (hrest ▸ head_mem_of_passes hlimit hlater hread)
      have hg : ∀ t ∈ chunk.turns, t ∈ R.unread buffer cursor := by
        rw [hturns, hrows]
        exact fun t ht => List.mem_append_left _ ht
      -- A cursor that stays would read the first row again.
      rcases advance_cases buffer cursor hg with ⟨-, hsame⟩ | ⟨m, x, hm, hx, hadvance, hlt⟩
      · obtain ⟨a, g, rfl⟩ := List.exists_cons_of_ne_nil hne
        exact absurd (by rw [hsame, hrows]; rfl) (hagain a List.mem_cons_self _)
      · rw [hturns] at hm
        rw [hadvance] at hlater hagain
        have hunread := @unread_of_lt R buffer cursor x hlt
        rw [hrows, List.filter_append] at hunread
        -- What is sent later was read after the new cursor.
        have hafter : ∀ t ∈ gs.flatten, ∃ y, R.read t = some y ∧ x < y := fun t ht =>
          lt_of_mem_unread (mem_unread_of_passes hlimit hlater t (hrest ▸ ht)) rfl
        have hnone : (g.filter fun t => (R.read t).any (x < ·)) = [] := by
          cases hfilter : g.filter fun t => (R.read t).any (x < ·) with
          | nil => rfl
          | cons a rest =>
            rw [hfilter] at hunread
            have hmem : a ∈ g := List.mem_of_mem_filter (hfilter ▸ List.mem_cons_self)
            exact absurd hunread (hagain a hmem _)
        rw [hnone, filter_after_eq_self hafter, List.nil_append] at hunread
        have hsettles := @ih (some x) _
          (by rw [hunread]; exact (List.nodup_append.mp hnodup).2.1) hlater
          (by rw [hunread]; exact hrest)
        rw [hunread] at hsettles
        refine (settles_iff hgroups).mpr ⟨⟨x, by rw [hm]; exact hx, ?_, ?_⟩, hsettles⟩
        · exact fun t ht _ => filter_after_eq_nil.mp hnone t ht
        · intro t ht
          obtain ⟨y, hy, hxy⟩ := hafter t ht
          exact ⟨y, hy, fun _ => hxy⟩

/-- **Chunk by chunk is all at once** where each chunk ends between rows that the two parsers tell
apart: the passes end, their texts are those of one pass over all chunks, and every row is sent
once. Where a chunk ends otherwise, a row is lost or sent again. -/
theorem passes_iff (R : Reader) {maxChars : ℕ} (hlimit : 0 < maxChars)
    (userName assistantName : Option Text) {buffer : List Turn} (hnodup : buffer.Nodup)
    (cursor : Option Instant) :
    (∃ n sent, R.passes maxChars userName assistantName buffer n cursor = some sent ∧
      sent.flatMap TurnChunk.pieces =
        (R.chunks maxChars userName assistantName buffer cursor).flatMap TurnChunk.pieces ∧
      sent.flatMap TurnChunk.turns = R.unread buffer cursor) ↔
      R.Settles maxChars userName assistantName (R.unread buffer cursor) := by
  constructor
  · rintro ⟨n, sent, hsent, -, hrows⟩
    refine settles_of_passes hlimit ?_ hsent hrows
    unfold Reader.unread
    cases cursor with
    | none => exact hnodup.filter _
    | some c => exact (hnodup.filter _).filter _
  · intro hsettles
    obtain ⟨sent, hsent, hmap⟩ := passes_of_settles hlimit rfl hsettles
    have hchunks := @map_pieces_chunksFrom maxChars userName assistantName none
      (groups maxChars userName assistantName (R.unread buffer cursor))
    have hflatten := @flatten_groups maxChars userName assistantName (R.unread buffer cursor)
    refine ⟨_, sent, hsent, ?_, ?_⟩
    · have hpieces := congrArg (List.flatMap Prod.snd) (hmap.trans hchunks.symm)
      rw [List.flatMap_map, List.flatMap_map] at hpieces
      rw [chunks_eq hlimit]
      exact hpieces
    · have hturns := congrArg (List.flatMap Prod.fst) hmap
      rw [List.flatMap_map, List.flatMap_map] at hturns
      refine hturns.trans (Eq.trans ?_ hflatten)
      exact List.flatMap_id'

end Passes

/-- Both parse alike. -/
def Reader.plain : Reader := ⟨Turn.stamp, fun _ _ _ hx hy => Option.some.inj (hx.symm.trans hy)⟩

/-- A user's row of a second. -/
def userRow (second : ℤ) (text : String) (nr : ℕ) : Turn :=
  ⟨some (.iso (second * 1000000)), .user, text.toList, [], nr⟩

/-- Two rows, of which each is a chunk. -/
theorem passes_iff_dated :
    ∃ n sent, Reader.plain.passes 10 none none [userRow 1 "aaaa" 0, userRow 2 "bbbb" 1] n none =
        some sent ∧
      sent.flatMap TurnChunk.pieces =
        (Reader.plain.chunks 10 none none
          [userRow 1 "aaaa" 0, userRow 2 "bbbb" 1] none).flatMap TurnChunk.pieces ∧
      sent.flatMap TurnChunk.turns =
        Reader.plain.unread [userRow 1 "aaaa" 0, userRow 2 "bbbb" 1] none := by
  refine (passes_iff Reader.plain (by decide) none none (by decide) none).mpr ?_
  have hfirst : groups 10 none none
      (Reader.plain.unread [userRow 1 "aaaa" 0, userRow 2 "bbbb" 1] none) =
        [[userRow 1 "aaaa" 0], [userRow 2 "bbbb" 1]] := by decide
  have hsecond : groups 10 none none [userRow 2 "bbbb" 1] = [[userRow 2 "bbbb" 1]] := by decide
  refine (settles_iff hfirst).mpr ⟨⟨1000000, rfl, ?_, ?_⟩, (settles_iff hsecond).mpr
    ⟨⟨2000000, rfl, ?_, nofun⟩, ?_⟩⟩
  · intro t ht hnone
    obtain rfl := List.mem_singleton.mp ht
    cases hnone
  · intro t ht
    obtain rfl := List.mem_singleton.mp ht
    exact ⟨2000000, rfl, nofun⟩
  · intro t ht hnone
    obtain rfl := List.mem_singleton.mp ht
    cases hnone
  · rintro before after ⟨gs, hs, heq, hne, -, -⟩
    exact absurd (List.append_eq_nil_iff.mp heq.symm).1 hne

/-- A reply without a stamp is in the second chunk: it is not read after the first. -/
theorem not_passes_undated :
    let buffer := [userRow 1 "aaaa" 0, userRow 2 "bbbb" 1,
      ⟨none, .assistant, "cc".toList, [], 2⟩]
    ((Reader.plain.passes 24 none none buffer 3 none).map (List.flatMap TurnChunk.pieces) =
        some ["user: aaaa".toList, "user: bbbb".toList]) ∧
      (Reader.plain.chunks 24 none none buffer none).flatMap TurnChunk.pieces =
        ["user: aaaa".toList, "user: bbbb\nassistant: cc".toList] ∧
      ¬ ∃ n sent, Reader.plain.passes 24 none none buffer n none = some sent ∧
        sent.flatMap TurnChunk.pieces =
          (Reader.plain.chunks 24 none none buffer none).flatMap TurnChunk.pieces ∧
        sent.flatMap TurnChunk.turns = Reader.plain.unread buffer none := by
  intro buffer
  refine ⟨by decide +kernel, by decide +kernel, ?_⟩
  rintro ⟨n, sent, hsent, -, hturns⟩
  have hfirst : groups 24 none none (Reader.plain.unread buffer none) =
      [[userRow 1 "aaaa" 0],
        [userRow 2 "bbbb" 1, ⟨none, .assistant, "cc".toList, [], 2⟩]] := by decide +kernel
  -- If the rows were all sent, the reply could be read.
  have hsettles := settles_of_passes (by decide) (by decide) hsent hturns
  obtain ⟨x, -, -, hafter⟩ := ((settles_iff hfirst).mp hsettles).1
  obtain ⟨y, hy, -⟩ := hafter ⟨none, .assistant, "cc".toList, [], 2⟩ (by simp)
  cases hy

end Companion.Ingest

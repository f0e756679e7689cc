import Companion.Chat.Aging
import Mathlib.Data.List.DropRight

/-!
# A second cascade

A call of `cascade_conversation` after one that installed a row, at the same time. The turns that
the first one folded are gone, so that the second one is a no-op just in case each section of the
new row is in the band of its own oldest edge and has not passed the eviction boundary.

An edge is cut to its second, which can put it into the next band, and the raw turns have no
eviction boundary. A section without a readable edge counts as of the oldest band, and gets the time
of the pass for an edge (`cascade_settled_iff`).
-/

namespace Companion.Chat.Idempotence

open Companion.Memory Companion.Ingest Companion.Chat.Aging

/-- The rows of a session and its archive. -/
structure Conversation where
  buffer : List BufferRow
  archive : List BufferRow

/-- The reason in a result, or the refusal that is raised. -/
inductive Reason
  | cursorNone
  | nothingAged
  | throttleDeferred
  | ok
  deriving DecidableEq

section Definitions

variable (buffer : List BufferRow) (cursor : Option Stamp) (now : Instant) (minKeepTail : ℕ)

/-- The turns that a cascade removes. -/
def removableTurns : List Turn :=
  (beyondTail (splitBuffer buffer).2 minKeepTail).filter (eligible cursor (some (now - hours 24)))

/-- The sections that a cascade reads. -/
def oldSections : Sections := readSections (splitBuffer buffer).1 now

/-- `cascade_conversation` -/
def cascade (P : Setting) (c : Conversation) (replies : Tier → Reply × Reply) :
    Reason × Conversation :=
  if cursor = none then (.cursorNone, c)
  else if removableTurns c.buffer cursor now minKeepTail = [] ∧
      needsGraduate (oldSections c.buffer now) now = false then (.nothingAged, c)
  else
    match P.cascadePlan c.buffer cursor now minKeepTail replies with
    | none => (.throttleDeferred, c)
    | some plan =>
      (.ok,
        { buffer := plan.install c.buffer
          archive := c.archive ++ plan.removable.map .turn ++ plan.superseded.toList.map .summary })

/-- A time that a cascade goes by: the oldest edge of a section that is not evicted, or the stamp of
a turn. -/
def Edge (x : Instant) : Prop :=
  (∃ k X, oldSections buffer now k = some X ∧ X.evicts now = false ∧ parseTs X.coversFrom = some x) ∨
    ∃ t ∈ removableTurns buffer cursor now minKeepTail, t.stamp = some x

/-- The second of each time is in the band of the time and before the eviction boundary, and a
section without a readable edge is not alone in the oldest band. -/
structure Settles : Prop where
  edge : ∀ x, Edge buffer cursor now minKeepTail x →
    bucketOfAge (now - nowIso x) = bucketOfAge (now - x) ∧ now - nowIso x < ageEvict
  unread : ∀ k X, oldSections buffer now k = some X → parseTs X.coversFrom = none →
    ∃ x, Edge buffer cursor now minKeepTail x ∧ bucketOfAge (now - x) = .h72

/-- Each section is in the band of its edge, and younger than the eviction boundary. -/
def Placed (row : SummaryRow) : Prop :=
  ∀ k Y, row.sections k = some Y →
    ∃ x, parseTs Y.coversFrom = some x ∧ bucketOfAge (now - x) = k ∧ now - x < ageEvict

end Definitions

/-! ## The turns that are left -/

/-- After an install there is nothing to remove. -/
theorem removableTurns_install {plan : Plan} {buffer : List BufferRow} {cursor : Option Stamp}
    {now : Instant} {minKeepTail : ℕ}
    (h : plan.removable = removableTurns buffer cursor now minKeepTail) :
    removableTurns (plan.install buffer) cursor now minKeepTail = [] :=
  plan.nothing_left (fun _ _ => eligible_identity _ _) h

/-! ## The sections that are installed -/

section Sections

variable {P : Setting} {buffer : List BufferRow} {cursor : Option Stamp} {now : Instant}
  {minKeepTail : ℕ} {replies : Tier → Reply × Reply} {plan : Plan}

theorem bucketOfAge_mono {a b c : Instant} (hab : a ≤ b) (hbc : b ≤ c)
    (h : bucketOfAge a = bucketOfAge c) : bucketOfAge b = bucketOfAge a := by
  unfold bucketOfAge at h ⊢
  grind

theorem nowIso_le (x : Instant) : nowIso x ≤ x := Int.ediv_mul_le x (by decide)

theorem lt_nowIso (x : Instant) : x < nowIso x + 1000000 := by
  have hlt := Int.lt_ediv_add_one_mul_self x (b := 1000000) (by decide)
  rwa [Int.add_mul, Int.one_mul] at hlt

theorem strip_strip (t : Text) : t.strip.strip = t.strip := by
  have hstrip : t.strip <+: t.dropWhile isSpace := List.rdropWhile_prefix _ _
  have hleft : t.strip.dropWhile isSpace = t.strip := by
    refine List.dropWhile_eq_self_iff.mpr fun hpos => ?_
    have hlen := Nat.lt_of_lt_of_le hpos hstrip.length_le
    rw [hstrip.getElem hpos]
    exact List.dropWhile_get_zero_not _ _ hlen
  calc t.strip.strip = (t.strip.dropWhile isSpace).rdropWhile isSpace := rfl
    _ = t.strip.rdropWhile isSpace := by rw [hleft]
    _ = t.strip := List.rdropWhile_idempotent _ _

/-- A section that is read has a text. -/
theorem strip_oldSections {k : Tier} {X : Section} (h : oldSections buffer now k = some X) :
    X.text.strip ≠ [] := by
  unfold oldSections readSections at h
  cases hrow : (splitBuffer buffer).1 with
  | none =>
    rw [hrow] at h
    cases h
  | some row =>
    rw [hrow] at h
    simp only at h
    split_ifs at h with hentries hblank
    · exact (nonblank_eq_some.mp h).2
    · by_cases hk : k = .h72
      · rw [hk, Function.update_self] at h
        obtain rfl := Option.some.inj h
        rwa [legacySection, strip_strip]
      · rw [Function.update_of_ne hk] at h
        cases h

/-- The new row is read as it was installed. -/
theorem oldSections_install (h : P.cascadePlan buffer cursor now minKeepTail replies = some plan) :
    oldSections (plan.install buffer) now = nonblank plan.row.sections := by
  rw [oldSections, splitBuffer_install]
  unfold readSections
  simp only
  split_ifs with hentries hblank
  · rfl
  · funext k
    cases hk : nonblank plan.row.sections k with
    | none => rfl
    | some X => exact absurd (Sections.mem_entries.mpr hk) (by rw [not_not.mp hentries]; simp)
  · exact absurd (by rw [(Setting.follows_cascadePlan h).text (not_not.mp hentries)]; rfl) hblank

/-- The times of a band: the edges of its sections and the stamps of its turns. -/
def bandEdges (buffer : List BufferRow) (cursor : Option Stamp) (now : Instant) (minKeepTail : ℕ)
    (k : Tier) : List Instant :=
  (classified (oldSections buffer now) now k).filterMap (fun X => parseTs X.coversFrom) ++
    (rawGroup (removableTurns buffer cursor now minKeepTail) now k).filterMap Turn.stamp

theorem mem_bandEdges {k : Tier} {x : Instant} :
    x ∈ bandEdges buffer cursor now minKeepTail k ↔
      Edge buffer cursor now minKeepTail x ∧ bucketOfAge (now - x) = k := by
  rw [bandEdges, List.mem_append, List.mem_filterMap, List.mem_filterMap, Edge, or_and_right]
  refine or_congr ⟨?_, ?_⟩ ⟨?_, ?_⟩
  · rintro ⟨X, hX, hx⟩
    obtain ⟨j, hj, hevicts, hbucket⟩ := mem_classified.mp hX
    rw [Section.bucket, hx] at hbucket
    exact ⟨⟨j, X, hj, hevicts, hx⟩, hbucket⟩
  · rintro ⟨⟨j, X, hj, hevicts, hx⟩, hbucket⟩
    refine ⟨X, mem_classified.mpr ⟨j, hj, hevicts, ?_⟩, hx⟩
    rw [Section.bucket, hx]
    exact hbucket
  · rintro ⟨t, ht, hx⟩
    obtain ⟨hmem, hband⟩ := List.mem_filter.mp ht
    rw [hx] at hband
    exact ⟨⟨t, hmem, hx⟩, of_decide_eq_true hband⟩
  · rintro ⟨⟨t, hmem, hx⟩, hbucket⟩
    refine ⟨t, List.mem_filter.mpr ⟨hmem, ?_⟩, hx⟩
    rw [hx]
    exact decide_eq_true hbucket

/-- What a cascade installs in a band: nothing where the band is empty. -/
theorem cascadePlan_sections (h : P.cascadePlan buffer cursor now minKeepTail replies = some plan)
    (k : Tier) :
    plan.removable = removableTurns buffer cursor now minKeepTail ∧
      ((plan.row.sections k = none ∧
          classified (oldSections buffer now) now k = [] ∧
          rawGroup (removableTurns buffer cursor now minKeepTail) now k = []) ∨
        (classified (oldSections buffer now) now k ≠ [] ∨
            rawGroup (removableTurns buffer cursor now minKeepTail) now k ≠ []) ∧
          ∃ Y, plan.row.sections k = some Y ∧ Y.coversFrom =
            isoSeconds ((bandEdges buffer cursor now minKeepTail k).min?.getD now)) := by
  unfold Setting.cascadePlan at h
  simp only at h
  split_ifs at h with hnone hok
  cases h
  refine ⟨rfl, ?_⟩
  rcases Setting.cascadeFold_isOk (List.all_eq_true.mp hok k k.mem_order) with
    ⟨hno, hraw, hblank⟩ | ⟨hne, text, hsome⟩
  · refine .inl ⟨hno, ?_, hraw⟩
    refine List.eq_nil_iff_forall_not_mem.mpr fun X hX => ?_
    obtain ⟨j, hj, -⟩ := mem_classified.mp hX
    exact strip_oldSections hj (hblank X hX)
  · exact .inr ⟨hne, _, hsome, rfl⟩

theorem bucketOfAge_second (now : Instant) : bucketOfAge (now - nowIso now) = .h24 := by
  have hlt : now - nowIso now < 1000000 := Int.sub_left_lt_of_lt_add (lt_nowIso now)
  have hday : (1000000 : Instant) ≤ hours 48 := by decide
  exact if_pos (Int.lt_of_lt_of_le hlt hday)

/-- What is in a band has a time in it, but for sections without a readable edge. -/
theorem bandEdges_eq_nil {k : Tier} (h : bandEdges buffer cursor now minKeepTail k = [])
    (hne : classified (oldSections buffer now) now k ≠ [] ∨
      rawGroup (removableTurns buffer cursor now minKeepTail) now k ≠ []) :
    k = .h72 ∧ ∃ j X, oldSections buffer now j = some X ∧ parseTs X.coversFrom = none := by
  obtain ⟨hsections, hturns⟩ := List.append_eq_nil_iff.mp h
  rcases hne with hne | hne
  · obtain ⟨X, hX⟩ := List.exists_mem_of_ne_nil _ hne
    have hunread := List.filterMap_eq_nil_iff.mp hsections X hX
    obtain ⟨j, hj, -, hbucket⟩ := mem_classified.mp hX
    rw [Section.bucket, hunread] at hbucket
    exact ⟨hbucket.symm, j, X, hj, hunread⟩
  · obtain ⟨t, ht⟩ := List.exists_mem_of_ne_nil _ hne
    obtain ⟨x, hx⟩ := stamp_of_eligible (List.mem_filter.mp ht).1
    exact absurd (hx.symm.trans (List.filterMap_eq_nil_iff.mp hturns t ht)) nofun

/-- Where the sections are placed, the times settle. -/
theorem settles_of_placed (h : P.cascadePlan buffer cursor now minKeepTail replies = some plan)
    (hplaced : Placed now plan.row) : Settles buffer cursor now minKeepTail := by
  refine ⟨fun x hx => ?_, fun j X hX hunread => ?_⟩
  · have hmem : x ∈ bandEdges buffer cursor now minKeepTail (bucketOfAge (now - x)) :=
      mem_bandEdges.mpr ⟨hx, rfl⟩
    rcases (cascadePlan_sections h (bucketOfAge (now - x))).2 with
      ⟨-, hsections, hturns⟩ | ⟨-, Y, hY, hfrom⟩
    · rw [bandEdges, hsections, hturns] at hmem
      cases hmem
    · obtain ⟨m, hm⟩ := Option.ne_none_iff_exists'.mp
        (mt List.min?_eq_none_iff.mp (List.ne_nil_of_mem hmem))
      obtain ⟨y, hy, hbucket, hage⟩ := hplaced _ Y hY
      rw [hfrom, hm, Option.getD_some, parseTs_isoSeconds] at hy
      obtain rfl := Option.some.inj hy
      -- The age of the second is between the age of the time and that of the oldest edge.
      have hle : nowIso m ≤ nowIso x := nowIso_mono ((List.min?_eq_some_iff.mp hm).2 x hmem)
      have hmid := bucketOfAge_mono (Int.sub_le_sub_left (nowIso_le x) now)
        (Int.sub_le_sub_left hle now) hbucket.symm
      exact ⟨hmid, Int.lt_of_le_of_lt (Int.sub_le_sub_left hle now) hage⟩
  · -- A section whose edge cannot be read goes to the oldest band.
    have hclassified : X ∈ classified (oldSections buffer now) now .h72 := by
      refine mem_classified.mpr ⟨j, hX, ?_, ?_⟩
      · rw [Section.evicts, hunread, Option.any_none]
      · rw [Section.bucket, hunread]
        rfl
    rcases (cascadePlan_sections h .h72).2 with ⟨-, hsections, -⟩ | ⟨-, Y, hY, hfrom⟩
    · rw [hsections] at hclassified
      cases hclassified
    · obtain ⟨y, hy, hbucket, -⟩ := hplaced _ Y hY
      cases hedges : bandEdges buffer cursor now minKeepTail .h72 with
      | nil =>
        -- Then its edge would be the time of the cascade, and not be in the oldest band.
        rw [hfrom, hedges, List.min?_nil, Option.getD_none, parseTs_isoSeconds] at hy
        obtain rfl := Option.some.inj hy
        cases (bucketOfAge_second now).symm.trans hbucket
      | cons x xs =>
        exact ⟨x, mem_bandEdges.mp (hedges ▸ List.mem_cons_self)⟩

/-- Where the times settle, the sections are placed. -/
theorem placed_of_settles (h : P.cascadePlan buffer cursor now minKeepTail replies = some plan)
    (hsettles : Settles buffer cursor now minKeepTail) : Placed now plan.row := by
  intro k Y hY
  rcases (cascadePlan_sections h k).2 with ⟨hnone, -⟩ | ⟨hne, Y', hY', hfrom⟩
  · cases hnone.symm.trans hY
  obtain rfl := Option.some.inj (hY'.symm.trans hY)
  have hedges : bandEdges buffer cursor now minKeepTail k ≠ [] := by
    intro hnil
    obtain ⟨rfl, j, X, hX, hunread⟩ := bandEdges_eq_nil hnil hne
    obtain ⟨x, hx⟩ := hsettles.unread j X hX hunread
    exact List.ne_nil_of_mem (mem_bandEdges.mpr hx) hnil
  -- The edge of the section is the oldest time of its band.
  obtain ⟨m, hm⟩ := Option.ne_none_iff_exists'.mp (mt List.min?_eq_none_iff.mp hedges)
  obtain ⟨hedge, hbucket⟩ := mem_bandEdges.mp (List.min?_eq_some_iff.mp hm).1
  obtain ⟨hsame, hage⟩ := hsettles.edge m hedge
  refine ⟨nowIso m, ?_, hsame.trans hbucket, hage⟩
  rw [hfrom, hm, Option.getD_some, parseTs_isoSeconds]

theorem placed_iff (h : P.cascadePlan buffer cursor now minKeepTail replies = some plan) :
    Placed now plan.row ↔ Settles buffer cursor now minKeepTail :=
  ⟨settles_of_placed h, placed_of_settles h⟩

/-- A second cascade finds nothing that has aged just in case the nonblank sections are placed. -/
theorem needsGraduate_of_placed {row : SummaryRow} (h : Placed now row) :
    needsGraduate (nonblank row.sections) now = false := by
  rw [needsGraduate, List.any_eq_false]
  rintro ⟨k, X⟩ hX
  obtain ⟨hsome, -⟩ := nonblank_eq_some.mp (Sections.mem_entries.mp hX)
  obtain ⟨x, hx, hbucket, hage⟩ := h k X hsome
  simp only [Section.evicts, Section.bucket, hx, Option.any_some, Option.map_some,
    Option.getD_some, hbucket]
  simpa using hage

end Sections

/-! ## The second call -/

section Second

variable {P : Setting} {c c' : Conversation} {cursor : Option Stamp} {now : Instant}
  {minKeepTail : ℕ} {replies : Tier → Reply × Reply}

theorem cascade_ok (h : cascade cursor now minKeepTail P c replies = (.ok, c')) :
    cursor ≠ none ∧ ∃ plan, P.cascadePlan c.buffer cursor now minKeepTail replies = some plan ∧
      c'.buffer = plan.install c.buffer := by
  unfold cascade at h
  split_ifs at h with hcursor hnothing
  · cases h
  · cases h
  · cases hplan : P.cascadePlan c.buffer cursor now minKeepTail replies with
    | none =>
      rw [hplan] at h
      cases h
    | some plan =>
      rw [hplan] at h
      exact ⟨hcursor, plan, rfl, congrArg (fun r => r.2.buffer) h.symm⟩

/-- After a cascade that installed a row, a second one at the same time finds nothing aged and
changes nothing, and each installed section is in the band of its edge and younger than the eviction
boundary, just in case the times that the first one goes by settle. -/
theorem cascade_settled_iff (h : cascade cursor now minKeepTail P c replies = (.ok, c')) :
    ((∀ replies', cascade cursor now minKeepTail P c' replies' = (.nothingAged, c')) ∧
        ∀ row, (splitBuffer c'.buffer).1 = some row → Placed now row) ↔
      Settles c.buffer cursor now minKeepTail := by
  obtain ⟨hcursor, plan, hplan, hbuffer⟩ := cascade_ok h
  rw [← placed_iff hplan, hbuffer, splitBuffer_install]
  constructor
  · rintro ⟨-, hplaced⟩
    exact hplaced plan.row rfl
  · intro hplaced
    refine ⟨fun replies' => ?_, fun row hrow => Option.some.inj hrow ▸ hplaced⟩
    -- Both reasons for a cascade are gone: turns to remove, and sections to graduate.
    have hturns : removableTurns c'.buffer cursor now minKeepTail = [] := by
      rw [hbuffer]
      exact removableTurns_install (cascadePlan_sections hplan .h24).1
    have hgraduate : needsGraduate (oldSections c'.buffer now) now = false := by
      rw [hbuffer, oldSections_install hplan]
      exact needsGraduate_of_placed hplaced
    rw [cascade, if_neg hcursor, if_pos ⟨hturns, hgraduate⟩]

/-- A provider that fails. -/
def failing (_ : Tier) : Reply × Reply := (.error .failed, .error .failed)

/-- A turn that was said at hour zero, and a first cascade at some hour. -/
def once (hour : ℤ) : Reason × Conversation :=
  cascade (isoSeconds (hours hour)) (hours hour) 0 plain ⟨[.turn (said .user 0)], []⟩ failing

/-- A turn of the day before settles. -/
theorem cascade_settled_day :
    cascade (isoSeconds (hours 30)) (hours 30) 0 plain (once 30).2 failing =
      (.nothingAged, (once 30).2) := by
  have hok : once 30 = (.ok, (once 30).2) := Prod.ext (by decide +kernel) rfl
  refine ((cascade_settled_iff hok).mpr ⟨fun x hx => ?_, fun k X hX => ?_⟩).1 failing
  · rcases hx with ⟨k, X, hX, -⟩ | ⟨t, ht, hx⟩
    · cases hX
    · obtain rfl := List.mem_singleton.mp (List.mem_filter.mp ht).1
      obtain rfl := Option.some.inj hx
      exact ⟨by decide, by decide⟩
  · cases hX

/-- A turn of four days ago is put into the oldest band, and a second cascade evicts it. -/
theorem cascade_twice_backlog : (once 100).1 = .ok ∧
    (cascade (isoSeconds (hours 100)) (hours 100) 0 plain (once 100).2 failing).1 = .ok := by
  decide +kernel

end Second

end Companion.Chat.Idempotence

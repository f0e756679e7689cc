import Companion.Consolidation.Gate
import Mathlib.Data.List.TakeWhile

/-!
# Repeats of a stored text

`_has_exact_existing` of `brain/engines/consolidation.py` is to say whether an active memory has the
text of a candidate, up to runs of whitespace and letter case. It looks at the twenty newest rows
that contain the first 200 characters of the candidate's text, as `LIKE` compares them: by every
character, but for the case of ASCII letters.

A row that it finds is such a memory. `hasExactExisting_iff` says when it finds one where there is
one: just in case fewer than twenty of the rows that contain the characters come before one of the
repeats among them.
-/

namespace Companion.Consolidation

open Companion.Memory

variable (casefold : Text → Text)

/-- An active row has the text, normalized. -/
def Repeated (rows : Dict MemoryId Row) (content : Text) : Prop :=
  ∃ e ∈ rows.entries, e.2.active = true ∧
    normalize casefold e.2.content = normalize casefold content

/-- Of the active rows that contain the first 200 characters, the newest first, fewer than twenty
come before one that has the text, normalized. -/
def Uncrowded (rows : Dict MemoryId Row) (content : Text) : Prop :=
  ∃ newer r older, found rows (content.strip.take 200) = newer ++ r :: older ∧
    newer.length < 20 ∧ normalize casefold r.content = normalize casefold content

variable {casefold : Text → Text} {rows : Dict MemoryId Row} {content : Text}

/-- A row that is found is an active row of the table. -/
theorem mem_found {query : Text} {r : Row} (h : r ∈ found rows query) :
    ∃ id, (id, r) ∈ rows.entries ∧ r.active = true := by
  obtain ⟨hrow, hkept⟩ := List.mem_filter.mp ((List.perm_insertionSort _ _).subset h)
  obtain ⟨⟨id, r'⟩, hmem, rfl⟩ := List.mem_map.mp hrow
  exact ⟨id, hmem, (Bool.and_eq_true_iff.mp hkept).1⟩

/-- Stripping leaves nothing just in case there is only whitespace. -/
theorem strip_eq_nil_iff {t : Text} : t.strip = [] ↔ ∀ c ∈ t, isSpace c = true := by
  rw [Text.strip, Text.rstrip, List.reverse_eq_nil_iff, List.dropWhile_eq_nil_iff, Text.lstrip]
  constructor
  · intro h
    refine List.dropWhile_eq_nil_iff.mp ?_
    by_contra hne
    have hhead := List.head_dropWhile_not isSpace hne
    rw [h _ (List.mem_reverse.mpr (List.head_mem hne))] at hhead
    cases hhead
  · intro h
    rw [List.dropWhile_eq_nil_iff.mpr h]
    exact fun c hc => absurd hc List.not_mem_nil

/-- Whitespace collapses to spaces. -/
theorem isSpace_of_mem_collapseFrom {t : Text} (h : ∀ c ∈ t, isSpace c = true) (inRun : Bool) :
    ∀ c ∈ Text.collapseFrom inRun t, isSpace c = true := by
  induction t generalizing inRun with
  | nil => simp [Text.collapseFrom]
  | cons c cs ih =>
    have hcs := ih (fun c hc => h c (List.mem_cons_of_mem _ hc)) true
    rw [Text.collapseFrom, if_pos (h c List.mem_cons_self)]
    cases inRun with
    | true => exact hcs
    | false => exact List.forall_mem_cons.mpr ⟨by decide, hcs⟩

/-- The first 200 characters are missing only where nothing but whitespace is there. -/
theorem normalize_eq_nil (hcasefold : casefold [] = []) (h : content.strip.take 200 = []) :
    normalize casefold content = [] := by
  -- 200 characters are taken of what is not empty.
  have hstrip : content.strip = [] := by
    rcases List.take_eq_nil_iff.mp h with h0 | h0
    · exact absurd h0 (by decide)
    · exact h0
  have hblank := isSpace_of_mem_collapseFrom (strip_eq_nil_iff.mp hstrip) false
  rw [normalize, strip_eq_nil_iff.mpr hblank, hcasefold]

/-- A row is found to be a repeat just in case fewer than twenty come before one. -/
theorem hasExactExisting_eq_true (hcasefold : casefold [] = [])
    (hnorm : normalize casefold content ≠ []) :
    hasExactExisting casefold rows content (normalize casefold content) = true ↔
      Uncrowded casefold rows content := by
  -- The search has something to look for.
  have hsnippet : content.strip.take 200 ≠ [] := fun h => hnorm (normalize_eq_nil hcasefold h)
  simp only [hasExactExisting, if_neg hsnippet, List.any_eq_true, decide_eq_true_eq, searchText]
  constructor
  · rintro ⟨r, hr, heq⟩
    obtain ⟨newer, older, hsplit⟩ := List.append_of_mem hr
    refine ⟨newer, r, older ++ (found rows (content.strip.take 200)).drop 20, ?_, ?_, heq⟩
    · rw [← List.cons_append, ← List.append_assoc, ← hsplit, List.take_append_drop]
    · have hlength := congrArg List.length hsplit
      rw [List.length_append, List.length_cons, List.length_take] at hlength
      omega
  · rintro ⟨newer, r, older, hsplit, hlt, heq⟩
    refine ⟨r, ?_, heq⟩
    -- The row is among the twenty that are taken.
    obtain ⟨k, hk⟩ : ∃ k, 20 - newer.length = k + 1 := ⟨20 - newer.length - 1, by omega⟩
    rw [hsplit, List.take_append, hk, List.take_succ_cons]
    exact List.mem_append_right _ List.mem_cons_self

/-- `_has_exact_existing` is right just in case a text that is repeated has a repeat with fewer than
twenty of the rows that contain its characters before it. -/
theorem hasExactExisting_iff (hcasefold : casefold [] = []) (hnorm : normalize casefold content ≠ []) :
    (hasExactExisting casefold rows content (normalize casefold content) = true ↔
        Repeated casefold rows content) ↔
      (Repeated casefold rows content → Uncrowded casefold rows content) := by
  rw [hasExactExisting_eq_true hcasefold hnorm]
  have hrepeated : Uncrowded casefold rows content → Repeated casefold rows content := by
    rintro ⟨newer, r, older, hsplit, -, heq⟩
    have hfound : r ∈ found rows (content.strip.take 200) := by
      rw [hsplit]
      exact List.mem_append_right newer List.mem_cons_self
    obtain ⟨id, hmem, hactive⟩ := mem_found hfound
    exact ⟨(id, r), hmem, hactive, heq⟩
  exact ⟨Iff.mpr, fun h => ⟨hrepeated, h⟩⟩

/-- A table of one row, whose text has two spaces. -/
def twoSpaces : Dict MemoryId Row := Dict.set ∅ 1 (.created "the dog  ate".toList true 0 0)

theorem hasExactExisting_iff_twoSpaces :
    (hasExactExisting id twoSpaces "the dog  ate".toList (normalize id "the dog  ate".toList) = true ↔
        Repeated id twoSpaces "the dog  ate".toList) ↔
      (Repeated id twoSpaces "the dog  ate".toList → Uncrowded id twoSpaces "the dog  ate".toList) :=
  hasExactExisting_iff rfl (by decide +kernel)

/-- The same text with one space is a repeat that is not found. -/
theorem repeat_not_found :
    Repeated id twoSpaces "the dog ate".toList ∧
      hasExactExisting id twoSpaces "the dog ate".toList (normalize id "the dog ate".toList) =
        false := by
  constructor
  · exact ⟨_, List.mem_singleton.mpr rfl, rfl, by decide +kernel⟩
  · decide +kernel

end Companion.Consolidation

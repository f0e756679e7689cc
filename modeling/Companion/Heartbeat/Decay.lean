import Companion.Dict
import Companion.Memory.Text
import Mathlib.Algebra.Order.Ring.Rat
import Mathlib.Data.Char
import Mathlib.Data.List.Lex
import Mathlib.Data.List.Sort
import Mathlib.Data.Prod.Lex

/-!
# The decay of the stored emotions

`apply_decay` (`brain/emotion/decay.py`) and `EmotionalState.set` (`brain/emotion/state.py`) as
`_apply_emotion_decay` (`brain/engines/heartbeat.py`) applies them to the rows of a page, and the
two operations of the store that it uses, `list_active_since` and `update_emotions_batch`.

Intensities are exact, and the powers of one half are a parameter. The time of a row is the text of
its column, which is in the form that `isoformat` writes.
-/

namespace Companion.Heartbeat

open Companion.Memory (Text Instant)

/-! ## One row -/

/-- `Emotion`, of the vocabulary. -/
structure Emotion where
  decayHalfLifeDays : Option ℚ
  intensityClamp : ℚ

/-- The emotions that are registered. -/
abbrev Vocabulary := Text → Option Emotion

/-- Intensities by name. -/
abbrev Emotions := Dict Text ℚ

/-- A day in microseconds. -/
def day : ℚ := 86400000000

/-- `_NOISE_FLOOR` -/
def noiseFloor : ℚ := 1 / 100

namespace Emotions

/-- `EmotionalState.set`, or none where it raises. -/
def set? (voc : Vocabulary) (e : Emotions) (name : Text) (intensity : ℚ) : Option Emotions :=
  match voc name with
  | none => none
  | some emotion =>
    if intensity < 0 ∨ emotion.intensityClamp < intensity then none
    else if intensity = 0 then some (e.pop name)
    else some (e.set name intensity)

/-- The state that the loop builds of the emotions of a row: what `set` refuses is left out. -/
def known (voc : Vocabulary) (e : Emotions) : Emotions :=
  e.entries.foldl (fun state item => (set? voc state item.1 item.2).getD state) ∅

variable (half : ℚ → ℚ)

/-- `apply_decay` -/
def applyDecay (voc : Vocabulary) (e : Emotions) (elapsed : ℤ) : Emotions :=
  if elapsed ≤ 0 then e
  else
    e.filterMap fun name intensity =>
      match voc name with
      | none => some intensity
      | some emotion =>
        match emotion.decayHalfLifeDays with
        | none => some intensity
        | some halfLife =>
          let new := intensity * half (elapsed / day / halfLife)
          if new < noiseFloor then none else some new

/-- `new_emotions` -/
def decayed (voc : Vocabulary) (elapsed : ℤ) (e : Emotions) : Emotions :=
  (applyDecay half voc (known voc e) elapsed).filterMap fun _ intensity =>
    if 0 < intensity then some intensity else none

theorem decayed_empty (voc : Vocabulary) (elapsed : ℤ) {e : Emotions} (h : e.entries = []) :
    decayed half voc elapsed e = e := by
  have he : e = ∅ := by
    cases e
    cases h
    rfl
  rw [he, decayed, known, applyDecay]
  split_ifs <;> rfl

end Emotions

/-! ## The store -/

/-- The keyset of `list_active_since`: `created_at`, then the id. -/
abbrev Key := Text ×ₗ Text

/-- A row of `memories`, as far as the decay reads it. -/
structure Row where
  createdAt : Text
  id : Text
  active : Bool
  isProtected : Bool
  emotions : Emotions
  deriving DecidableEq

def Row.key (r : Row) : Key := toLex (r.createdAt, r.id)

/-- The table: an id is that of one row. -/
structure Store where
  rows : List Row
  ids : (rows.map Row.id).Nodup
  deriving DecidableEq

/-- The order of the rows of a page. -/
def Row.Before (r r' : Row) : Prop := r.key ≤ r'.key

instance : DecidableRel Row.Before := fun r r' => inferInstanceAs (Decidable (r.key ≤ r'.key))

instance : Std.Total Row.Before := ⟨fun r r' => le_total r.key r'.key⟩

instance : IsTrans Row Row.Before := ⟨fun _ _ _ => le_trans⟩

/-- The emotions that the rows of a batch are to have, by id. -/
abbrev Changes := List (Text × Emotions)

/-- What `UPDATE` after `UPDATE` makes of the emotions of a row. -/
def Changes.apply (changed : Changes) (id : Text) (e : Emotions) : Emotions :=
  changed.foldl (fun e change => if id = change.1 then change.2 else e) e

namespace Store

/-- The row of an id. -/
def row? (s : Store) (id : Text) : Option Row := s.rows.find? (·.id = id)

/-- The active rows after a cursor, in order. -/
def activeSince (s : Store) (cursor : Option Key) : List Row :=
  (s.rows.filter fun r : Row => r.active && cursor.all fun c => decide (c < r.key)).insertionSort
    Row.Before

/-- `list_active_since` -/
def listActiveSince (s : Store) (cursor : Option Key) (limit : ℕ) : List Row :=
  (s.activeSince cursor).take limit

/-- `update_emotions_batch` -/
def updateEmotionsBatch (s : Store) (changed : Changes) : Store where
  rows := s.rows.map fun r => { r with emotions := changed.apply r.id r.emotions }
  ids := by
    rw [List.map_map]
    exact s.ids

end Store

section Batch

variable (half : ℚ → ℚ) (voc : Vocabulary) (elapsed : ℤ)

/-- What the batch writes for a row: nothing where its emotions stay as they are. -/
def Row.change? (r : Row) : Option (Text × Emotions) :=
  if r.isProtected ∨ r.emotions.entries = [] then none
  else if r.emotions.decayed half voc elapsed = r.emotions then none
  else some (r.id, r.emotions.decayed half voc elapsed)

/-- The changes of a batch, of the rows that it has examined. -/
def changedOf (rows : List Row) : Changes := rows.filterMap (Row.change? half voc elapsed)

end Batch

/-! ## What a page and a batch do to a row -/

section Row

variable {s : Store} {r : Row} {cursor : Option Key} {limit n : ℕ}

/-- The cursor has come to a key. -/
def Passed (cursor : Option Key) (key : Key) : Prop := ∃ c ∈ cursor, key ≤ c

theorem Store.mem_of_row? {id : Text} (h : s.row? id = some r) : r ∈ s.rows ∧ r.id = id := by
  refine ⟨List.mem_of_find?_eq_some h, ?_⟩
  have hid := List.find?_some h
  exact of_decide_eq_true hid

theorem Store.row?_updateEmotionsBatch (s : Store) (changed : Changes) (id : Text) :
    (s.updateEmotionsBatch changed).row? id =
      (s.row? id).map fun r => { r with emotions := changed.apply id r.emotions } := by
  unfold Store.row? Store.updateEmotionsBatch
  rw [List.find?_map]
  change Option.map _ (s.rows.find? fun r => decide (r.id = id)) = _
  cases h : s.rows.find? fun r => decide (r.id = id) with
  | none => rfl
  | some r =>
    have hid : r.id = id := (Store.mem_of_row? h).2
    subst hid
    rfl

theorem Store.mem_activeSince :
    r ∈ s.activeSince cursor ↔ r ∈ s.rows ∧ r.active ∧ ¬ Passed cursor r.key := by
  unfold Store.activeSince Passed
  rw [List.mem_insertionSort, List.mem_filter, Bool.and_eq_true, Option.all_eq_true]
  simp only [decide_eq_true_eq, not_exists, not_and, not_le]
  exact Iff.rfl

theorem Store.activeSince_sorted (s : Store) (cursor : Option Key) :
    (s.activeSince cursor).Pairwise Row.Before := List.pairwise_insertionSort _ _

theorem Store.activeSince_ids (s : Store) (cursor : Option Key) :
    ((s.activeSince cursor).map Row.id).Nodup := by
  unfold Store.activeSince
  have hperm := List.perm_insertionSort Row.Before
    (s.rows.filter fun r : Row => r.active && cursor.all fun c => decide (c < r.key))
  exact (hperm.map Row.id).nodup_iff.mpr (s.ids.sublist (List.filter_sublist.map _))

/-- Rows are examined in the order of their keys, so that a row that the batch ends after is in it.
-/
theorem Store.mem_examined (hrow : r ∈ s.rows) (hactive : r.active) (hpassed : ¬ Passed cursor r.key)
    {last : Row} (hlast : ((s.listActiveSince cursor limit).take n).getLast? = some last)
    (hle : r.key ≤ last.key) : r ∈ (s.listActiveSince cursor limit).take n := by
  have hmem := Store.mem_activeSince.mpr ⟨hrow, hactive, hpassed⟩
  have hlastmem := List.mem_of_getLast? hlast
  unfold Store.listActiveSince at hlast hlastmem ⊢
  rw [List.take_take] at hlast hlastmem ⊢
  by_contra hnot
  rw [← List.take_append_drop (min n limit) (s.activeSince cursor), List.mem_append] at hmem
  have hdrop := hmem.resolve_left hnot
  -- What is left after the batch is not before its last row.
  have hsorted := s.activeSince_sorted cursor
  rw [← List.take_append_drop (min n limit) (s.activeSince cursor), List.pairwise_append] at hsorted
  have hge : last.key ≤ r.key := hsorted.2.2 last hlastmem r hdrop
  have hkey : r.id = last.id := congrArg (fun k : Key => (ofLex k).2) (le_antisymm hle hge)
  have hlastrow := (Store.mem_activeSince.mp (List.mem_of_mem_take hlastmem)).1
  obtain rfl : r = last := List.inj_on_of_nodup_map s.ids hrow hlastrow hkey
  exact hnot hlastmem

/-- A page that is not full has the last row there is. -/
theorem Store.mem_of_short_page (hrow : r ∈ s.rows) (hactive : r.active)
    (hpassed : ¬ Passed cursor r.key) (hshort : (s.listActiveSince cursor limit).length < limit) :
    r ∈ s.listActiveSince cursor limit := by
  have hmem := Store.mem_activeSince.mpr ⟨hrow, hactive, hpassed⟩
  unfold Store.listActiveSince at hshort ⊢
  rw [List.length_take] at hshort
  rwa [List.take_of_length_le (by omega)]

theorem key_le_of_mem {rows : List Row} (hsorted : rows.Pairwise Row.Before) {last : Row}
    (hlast : rows.getLast? = some last) (hmem : r ∈ rows) : r.key ≤ last.key := by
  obtain ⟨front, rfl⟩ := List.getLast?_eq_some_iff.mp hlast
  rcases List.mem_append.mp hmem with hfront | hend
  · exact (List.pairwise_append.mp hsorted).2.2 r hfront last (List.mem_singleton_self _)
  · rw [List.mem_singleton.mp hend]

variable {half : ℚ → ℚ} {voc : Vocabulary} {elapsed : ℤ}

theorem Row.fst_of_change? {change : Text × Emotions} (h : r.change? half voc elapsed = some change) :
    change.1 = r.id := by
  unfold Row.change? at h
  split_ifs at h
  rw [← Option.some.inj h]

theorem Changes.apply_cons (change : Text × Emotions) (changed : Changes) (id : Text) (e : Emotions) :
    Changes.apply (change :: changed) id e =
      changed.apply id (if id = change.1 then change.2 else e) := rfl

/-- A batch leaves a row that it has not examined. -/
theorem apply_changedOf_of_not_mem {rows : List Row} {id : Text} (h : id ∉ rows.map Row.id)
    (e : Emotions) :
    (changedOf half voc elapsed rows).apply id e = e := by
  induction rows with
  | nil => rfl
  | cons r rows ih =>
    rw [List.map_cons, List.mem_cons, not_or] at h
    unfold changedOf at ih ⊢
    rw [List.filterMap_cons]
    cases hchange : r.change? half voc elapsed with
    | none => exact ih h.2
    | some change =>
      change Changes.apply (change :: _) id e = e
      rw [Changes.apply_cons, if_neg (Row.fst_of_change? hchange ▸ h.1)]
      exact ih h.2

/-- A batch decays a row that it has examined, whether it writes it or not. -/
theorem apply_changedOf_of_mem {rows : List Row} (hids : (rows.map Row.id).Nodup) (hmem : r ∈ rows)
    (hprotected : ¬ r.isProtected) :
    (changedOf half voc elapsed rows).apply r.id r.emotions = r.emotions.decayed half voc elapsed := by
  induction rows with
  | nil => cases hmem
  | cons r' rows ih =>
    rw [List.map_cons, List.nodup_cons] at hids
    unfold changedOf at ih ⊢
    rw [List.filterMap_cons]
    rcases List.mem_cons.mp hmem with rfl | hmem
    · have hrest : ∀ e, Changes.apply (rows.filterMap (Row.change? half voc elapsed)) r.id e = e :=
        apply_changedOf_of_not_mem hids.1
      by_cases hnil : r.emotions.entries = []
      · have hchange : r.change? half voc elapsed = none := if_pos (.inr hnil)
        rw [hchange, Emotions.decayed_empty half voc elapsed hnil]
        exact hrest r.emotions
      · by_cases hsame : r.emotions.decayed half voc elapsed = r.emotions
        · have hchange : r.change? half voc elapsed = none := by
            rw [Row.change?, if_neg (not_or.mpr ⟨hprotected, hnil⟩), if_pos hsame]
          rw [hchange, hsame]
          exact hrest r.emotions
        · have hchange : r.change? half voc elapsed =
              some (r.id, r.emotions.decayed half voc elapsed) := by
            rw [Row.change?, if_neg (not_or.mpr ⟨hprotected, hnil⟩), if_neg hsame]
          rw [hchange]
          change Changes.apply (_ :: _) _ _ = _
          rw [Changes.apply_cons, if_pos rfl]
          exact hrest _
    · have hne : r.id ≠ r'.id := fun heq => hids.1 (heq ▸ List.mem_map_of_mem hmem)
      cases hchange : r'.change? half voc elapsed with
      | none => exact ih hids.2 hmem
      | some change =>
        change Changes.apply (change :: _) _ _ = _
        rw [Changes.apply_cons, if_neg (Row.fst_of_change? hchange ▸ hne)]
        exact ih hids.2 hmem

end Row

end Companion.Heartbeat

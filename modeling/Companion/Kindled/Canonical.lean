import Companion.Kindled.Json
import Companion.Memory.Text
import Companion.Utf16
import Mathlib

/-!
# The two canonical encoders

`canonicalJson` of the worker (`relay/cf-worker/src/canonical.ts`), on the UTF-16 units of a
JavaScript string, and `canonical_json` (`brain/kindled_link/codec.py`), on the code points of a
Python string.

They differ in the order of the keys alone. `dumps` has the order as a parameter, and
`canonicalJson_encode` shows that the units of `canonicalJson` are those of `dumps` with the keys in
the order of their units. Texts with the keys in two orders have the same characters
(`dumps_perm`), and so the same size, and are the same just in case each object has the same order
(`dumps_eq_iff`).
-/

namespace Companion.Kindled.Canonical

open Companion.Memory

/-- The letter of a two-character escape. -/
def shortEscape (n : ℕ) : Option Char :=
  if n = 0x22 then some '\"'
  else if n = 0x5C then some '\\'
  else if n = 0x08 then some 'b'
  else if n = 0x0C then some 'f'
  else if n = 0x0A then some 'n'
  else if n = 0x0D then some 'r'
  else if n = 0x09 then some 't'
  else none

/-- A digit in hexadecimal, in lower case. -/
def hexDigit (n : ℕ) : Char := .ofNat (if n < 10 then 0x30 + n else 0x57 + n)

/-- Four digits in hexadecimal. -/
def hex4 (n : ℕ) : Text :=
  [hexDigit (n / 0x1000 % 0x10), hexDigit (n / 0x100 % 0x10), hexDigit (n / 0x10 % 0x10),
    hexDigit (n % 0x10)]

/-- The texts with a separator between them. -/
def join {κ : Type} (separator : κ) : List (List κ) → List κ
  | [] => []
  | s :: ss => s ++ ss.flatMap (separator :: ·)

/-! ## Python -/

/-- A character in `json.encoder.encode_basestring`. -/
def escape (c : Char) : Text :=
  match shortEscape c.toNat with
  | some e => ['\\', e]
  | none => if c.toNat < 0x20 then '\\' :: 'u' :: hex4 c.toNat else [c]

/-- `json.encoder.encode_basestring` -/
def encodeBasestring (s : Text) : Text := '\"' :: (s.flatMap escape ++ ['\"'])

/-- `json.dumps(value, separators=(",", ":"), ensure_ascii=False)` with the keys of each object
sorted by `le`, where `floatRepr` is `float.__repr__`. -/
def dumps (floatRepr : FloatValue → Text) (le : Text → Text → Prop) [DecidableRel le] :
    Json Text → Text
  | .null => "null".toList
  | .bool b => if b then "true".toList else "false".toList
  | .int n => (toString n).toList
  | .float x => floatRepr x
  | .str s => encodeBasestring s
  | .arr items => '[' :: (join ',' (items.map fun j => dumps floatRepr le j) ++ [']'])
  | .obj items =>
    '{' :: (join ',' ((items.insertionSort fun a b => le a.1 b.1).attach.map fun item =>
      encodeBasestring item.1.1 ++ ':' :: dumps floatRepr le item.1.2) ++ ['}'])
decreasing_by
  · exact Json.sizeOf_lt_arr ‹_›
  · exact Json.sizeOf_lt_obj ((List.mem_insertionSort _).mp item.2)

/-- `canonical_json`: `sort_keys=True` sorts by code points, and the text is encoded in UTF-8. -/
def canonicalJsonPy (floatRepr : FloatValue → Text) (v : Json Text) : ByteArray :=
  (String.ofList (dumps floatRepr (· ≤ ·) v)).toUTF8

/-! ## JavaScript -/

/-- The units of an escape. -/
def escapeUnit (u : ℕ) : List ℕ :=
  match shortEscape u with
  | some e => Utf16.encode ['\\', e]
  | none => if u < 0x20 ∨ Utf16.IsSurrogate u then Utf16.encode ('\\' :: 'u' :: hex4 u) else [u]

/-- The units of a string in `JSON.stringify`, which keeps a pair of surrogates, and escapes one by
itself. -/
def stringifyUnits : List ℕ → List ℕ
  | [] => []
  | [u] => escapeUnit u
  | u :: l :: us =>
    if Utf16.IsLead u ∧ Utf16.IsTrail l then u :: l :: stringifyUnits us
    else escapeUnit u ++ stringifyUnits (l :: us)

/-- `JSON.stringify` of a string. -/
def stringify (s : List ℕ) : List ℕ := 0x22 :: (stringifyUnits s ++ [0x22])

/-- `ser`, where `numberText` is the text of a number that is no integer. A number that is an
integer is written in decimal, as it is below 10^21. -/
def ser (numberText : FloatValue → List ℕ) : Json (List ℕ) → List ℕ
  | .null => Utf16.encode "null".toList
  | .bool b => if b then Utf16.encode "true".toList else Utf16.encode "false".toList
  | .int n => Utf16.encode (toString n).toList
  | .float x => numberText x
  | .str s => stringify s
  | .arr items => 0x5B :: (join 0x2C (items.map fun j => ser numberText j) ++ [0x5D])
  | .obj items =>
    0x7B :: (join 0x2C ((items.insertionSort fun a b => a.1 ≤ b.1).attach.map fun item =>
      stringify item.1.1 ++ 0x3A :: ser numberText item.1.2) ++ [0x7D])
decreasing_by
  · exact Json.sizeOf_lt_arr ‹_›
  · exact Json.sizeOf_lt_obj ((List.mem_insertionSort _).mp item.2)

/-- `new TextEncoder().encode(canonicalJson(value))` -/
def canonicalJson (numberText : FloatValue → List ℕ) (v : Json (List ℕ)) : ByteArray :=
  (String.ofList (Utf16.decode (ser numberText v))).toUTF8

/-- A JSON value whose numbers are integers that a double has, with each key of an object once. -/
inductive Plain : Json Text → Prop
  | null : Plain .null
  | bool (b : Bool) : Plain (.bool b)
  | int {n : ℤ} : -2^53 ≤ n → n ≤ 2^53 → Plain (.int n)
  | str (s : Text) : Plain (.str s)
  | arr {items : List (Json Text)} : (∀ j ∈ items, Plain j) → Plain (.arr items)
  | obj {items : List (Text × Json Text)} : (items.map Prod.fst).Nodup →
    (∀ item ∈ items, Plain item.2) → Plain (.obj items)

/-! ## Separators -/

section Join

variable {κ α : Type} (separator : κ)

/-- With a separator put first, every text has one before it. -/
theorem cons_join {ss : List (List κ)} (h : ss ≠ []) :
    separator :: join separator ss = ss.flatMap (separator :: ·) := by
  cases ss with
  | nil => exact absurd rfl h
  | cons s ss => rfl

theorem join_perm {ss ss' : List (List κ)} (h : ss.Perm ss') :
    (join separator ss).Perm (join separator ss') := by
  by_cases hss : ss = []
  · subst hss
    rw [List.nil_perm.mp h]
  · have hss' : ss' ≠ [] := fun heq => hss (List.perm_nil.mp (heq ▸ h))
    rw [← List.perm_cons separator, cons_join separator hss, cons_join separator hss']
    exact h.flatMap_right _

theorem join_map_perm {xs : List α} {f g : α → List κ} (h : ∀ x ∈ xs, (f x).Perm (g x)) :
    (join separator (xs.map f)).Perm (join separator (xs.map g)) := by
  cases xs with
  | nil => exact .nil
  | cons x xs =>
    rw [List.map_cons, List.map_cons, join, join, List.flatMap_map, List.flatMap_map]
    refine (h x List.mem_cons_self).append (List.Perm.flatMap_left _ fun y hy => ?_)
    exact (h y (List.mem_cons_of_mem x hy)).cons separator

/-- Texts of the same length for each element can be read off a joined text. -/
theorem map_eq_of_join_eq {xs : List α} {f g : α → List κ}
    (hlen : ∀ x ∈ xs, (f x).length = (g x).length)
    (h : join separator (xs.map f) = join separator (xs.map g)) : ∀ x ∈ xs, f x = g x := by
  have hflat : ∀ ys : List α, (∀ x ∈ ys, (f x).length = (g x).length) →
      ys.flatMap (fun x => separator :: f x) = ys.flatMap (fun x => separator :: g x) →
      ∀ x ∈ ys, f x = g x := by
    intro ys hys heq
    induction ys with
    | nil => exact fun x hx => absurd hx List.not_mem_nil
    | cons y ys ih =>
      rw [List.forall_mem_cons] at hys ⊢
      simp only [List.flatMap_cons, List.cons_append, List.cons.injEq, true_and] at heq
      obtain ⟨hy, hrest⟩ := List.append_inj heq hys.1
      exact ⟨hy, ih hys.2 hrest⟩
  by_cases hxs : xs = []
  · subst hxs
    exact fun x hx => absurd hx List.not_mem_nil
  · have hcons : separator :: join separator (xs.map f) = separator :: join separator (xs.map g) := by
      rw [h]
    rw [cons_join separator (by simpa using hxs), cons_join separator (by simpa using hxs),
      List.flatMap_map, List.flatMap_map] at hcons
    exact hflat xs hlen hcons

end Join

/-! ## Strings -/

theorem shortEscape_eq {n : ℕ} {e : Char} (h : shortEscape n = some e) :
    e ≠ 'u' ∧ (e = '\"' ∧ n = 0x22 ∨ e = '\\' ∧ n = 0x5C ∨ e = 'b' ∧ n = 0x08 ∨
      e = 'f' ∧ n = 0x0C ∨ e = 'n' ∧ n = 0x0A ∨ e = 'r' ∧ n = 0x0D ∨ e = 't' ∧ n = 0x09) := by
  unfold shortEscape at h
  split_ifs at h <;> obtain rfl := Option.some.inj h <;> simp [*]

theorem shortEscape_inj {n n' : ℕ} {e : Char} (h : shortEscape n = some e)
    (h' : shortEscape n' = some e) : n = n' := by
  obtain ⟨-, hn⟩ := shortEscape_eq h
  obtain ⟨-, hn'⟩ := shortEscape_eq h'
  rcases hn with ⟨rfl, rfl⟩ | ⟨rfl, rfl⟩ | ⟨rfl, rfl⟩ | ⟨rfl, rfl⟩ | ⟨rfl, rfl⟩ | ⟨rfl, rfl⟩ | ⟨rfl, rfl⟩
  all_goals
    simp at hn'
    exact hn'.symm

theorem hexDigit_inj {n n' : ℕ} (hn : n < 0x10) (hn' : n' < 0x10) (h : hexDigit n = hexDigit n') :
    n = n' := by
  have hall : ∀ n < 0x10, ∀ n' < 0x10, hexDigit n = hexDigit n' → n = n' := by decide
  exact hall n hn n' hn' h

theorem hex4_inj {n n' : ℕ} (hn : n < 0x10000) (hn' : n' < 0x10000) (h : hex4 n = hex4 n') :
    n = n' := by
  simp only [hex4, List.cons.injEq, and_true] at h
  obtain ⟨h3, h2, h1, h0⟩ := h
  have e3 := hexDigit_inj (by omega) (by omega) h3
  have e2 := hexDigit_inj (by omega) (by omega) h2
  have e1 := hexDigit_inj (by omega) (by omega) h1
  have e0 := hexDigit_inj (by omega) (by omega) h0
  omega

/-- A character is written as a short escape, as a long one, or as itself. -/
theorem escape_cases (c : Char) :
    (∃ e, shortEscape c.toNat = some e ∧ escape c = ['\\', e]) ∨
      (c.toNat < 0x20 ∧ escape c = '\\' :: 'u' :: hex4 c.toNat) ∨
      (c ≠ '\"' ∧ c ≠ '\\' ∧ 0x20 ≤ c.toNat ∧ escape c = [c]) := by
  cases hshort : shortEscape c.toNat with
  | some e => exact .inl ⟨e, rfl, by simp [escape, hshort]⟩
  | none =>
    by_cases hc : c.toNat < 0x20
    · exact .inr (.inl ⟨hc, by simp [escape, hshort, hc]⟩)
    · refine .inr (.inr ⟨?_, ?_, not_lt.mp hc, by simp [escape, hshort, hc]⟩)
      · rintro rfl
        exact absurd hshort (by decide)
      · rintro rfl
        exact absurd hshort (by decide)

/-- No two characters have escapes of which one starts the other. -/
theorem escape_append_inj {c c' : Char} {r r' : Text} (h : escape c ++ r = escape c' ++ r') :
    c = c' ∧ r = r' := by
  rcases escape_cases c with ⟨e, he, hc⟩ | ⟨hlow, hc⟩ | ⟨-, hc, -, hself⟩
  · rcases escape_cases c' with ⟨e', he', hc'⟩ | ⟨hlow', hc'⟩ | ⟨-, hc', -, hself'⟩
    · simp only [hc, hc', List.cons_append, List.nil_append, List.cons.injEq, true_and] at h
      obtain ⟨rfl, rfl⟩ := h
      exact ⟨Char.toNat_inj.mp (shortEscape_inj he he'), rfl⟩
    · simp only [hc, hc', List.cons_append, List.nil_append, List.cons.injEq, true_and] at h
      exact absurd h.1 (shortEscape_eq he).1
    · simp only [hc, hself', List.cons_append, List.cons.injEq] at h
      exact absurd h.1.symm hc'
  · rcases escape_cases c' with ⟨e', he', hc'⟩ | ⟨hlow', hc'⟩ | ⟨-, hc', -, hself'⟩
    · simp only [hc, hc', List.cons_append, List.nil_append, List.cons.injEq, true_and] at h
      exact absurd h.1.symm (shortEscape_eq he').1
    · simp only [hc, hc', List.cons_append, List.cons.injEq, true_and] at h
      obtain ⟨hhex, hr⟩ := List.append_inj h rfl
      exact ⟨Char.toNat_inj.mp (hex4_inj (by omega) (by omega) hhex), hr⟩
    · simp only [hc, hself', List.cons_append, List.cons.injEq] at h
      exact absurd h.1.symm hc'
  · rcases escape_cases c' with ⟨e', he', hc'⟩ | ⟨hlow', hc'⟩ | ⟨-, -, -, hself'⟩
    · simp only [hself, hc', List.cons_append, List.cons.injEq] at h
      exact absurd h.1 hc
    · simp only [hself, hc', List.cons_append, List.cons.injEq] at h
      exact absurd h.1 hc
    · simp only [hself, hself', List.cons_append, List.nil_append, List.cons.injEq] at h
      exact h

/-- No escape starts with a quotation mark. -/
theorem escape_append_ne (c : Char) (r r' : Text) : escape c ++ r ≠ '\"' :: r' := by
  intro h
  rcases escape_cases c with ⟨e, -, hc⟩ | ⟨-, hc⟩ | ⟨hc, -, -, hself⟩
  · simp [hc] at h
  · simp [hc] at h
  · simp only [hself, List.cons_append, List.cons.injEq] at h
    exact hc h.1

/-- A string is read up to its closing quotation mark. -/
theorem encodeBasestring_append_inj {s s' r r' : Text}
    (h : encodeBasestring s ++ r = encodeBasestring s' ++ r') : s = s' ∧ r = r' := by
  simp only [encodeBasestring, List.cons_append, List.append_assoc, List.nil_append,
    List.cons.injEq, true_and] at h
  induction s generalizing s' with
  | nil =>
    cases s' with
    | nil =>
      simp only [List.flatMap_nil, List.nil_append, List.cons.injEq, true_and] at h
      exact ⟨rfl, h⟩
    | cons c' s' =>
      rw [List.flatMap_cons, List.append_assoc] at h
      exact absurd h.symm (escape_append_ne c' _ _)
  | cons c s ih =>
    cases s' with
    | nil =>
      rw [List.flatMap_cons, List.append_assoc] at h
      exact absurd h (escape_append_ne c _ _)
    | cons c' s' =>
      rw [List.flatMap_cons, List.flatMap_cons, List.append_assoc, List.append_assoc] at h
      obtain ⟨rfl, hrest⟩ := escape_append_inj h
      obtain ⟨rfl, rfl⟩ := ih hrest
      exact ⟨rfl, rfl⟩

/-! ## The order of the keys -/

section Order

variable (floatRepr : FloatValue → Text) (le le' : Text → Text → Prop)
  [DecidableRel le] [DecidableRel le']

/-- The items of an object in the order of their keys. -/
abbrev sortItems {σ τ : Type} (le : σ → σ → Prop) [DecidableRel le] (items : List (σ × τ)) :
    List (σ × τ) :=
  items.insertionSort fun a b => le a.1 b.1

/-- An item of an object. -/
def member (text : Json Text → Text) (item : Text × Json Text) : Text :=
  encodeBasestring item.1 ++ ':' :: text item.2

theorem dumps_arr (items : List (Json Text)) : dumps floatRepr le (.arr items) =
    '[' :: (join ',' (items.map (dumps floatRepr le)) ++ [']']) := by
  rw [dumps]

theorem dumps_obj (items : List (Text × Json Text)) : dumps floatRepr le (.obj items) =
    '{' :: (join ',' ((sortItems le items).map (member (dumps floatRepr le))) ++ ['}']) := by
  rw [dumps, ← List.attach_map_val (l := sortItems le items)]
  rfl

/-- The texts of a value with the keys in two orders have the same characters. -/
theorem dumps_perm {v : Json Text} (hv : Plain v) :
    (dumps floatRepr le v).Perm (dumps floatRepr le' v) := by
  induction hv with
  | null => simp only [dumps]; exact .refl _
  | bool b => simp only [dumps]; exact .refl _
  | int => simp only [dumps]; exact .refl _
  | str s => simp only [dumps]; exact .refl _
  | arr _ ih =>
    rw [dumps_arr, dumps_arr]
    exact ((join_map_perm ',' ih).append_right _).cons _
  | @obj items _ _ ih =>
    rw [dumps_obj, dumps_obj]
    have hsort : (sortItems le items).Perm (sortItems le' items) :=
      (List.perm_insertionSort _ items).trans (List.perm_insertionSort _ items).symm
    have hmember : ∀ item ∈ sortItems le' items,
        (member (dumps floatRepr le) item).Perm (member (dumps floatRepr le') item) :=
      fun item hitem => ((ih item ((List.mem_insertionSort _).mp hitem)).cons _).append_left _
    have hjoin := (join_perm ',' (hsort.map (member (dumps floatRepr le)))).trans
      (join_map_perm ',' hmember)
    exact (hjoin.append_right _).cons _

/-- The items of two joined texts are the same, in the same order, where they are items of one
object and each has texts of the same length. -/
theorem items_eq_of_flatMap_eq {items xs ys : List (Text × Json Text)} {f g : Json Text → Text}
    (hkeys : (items.map Prod.fst).Nodup) (hxs : xs ⊆ items) (hys : ys ⊆ items)
    (hlen : ∀ item ∈ items, (f item.2).length = (g item.2).length)
    (h : xs.flatMap (fun x => ',' :: member f x) = ys.flatMap (fun y => ',' :: member g y)) :
    xs = ys ∧ ∀ x ∈ xs, f x.2 = g x.2 := by
  induction xs generalizing ys with
  | nil =>
    cases ys with
    | nil => exact ⟨rfl, fun x hx => absurd hx List.not_mem_nil⟩
    | cons y ys => simp at h
  | cons x xs ih =>
    cases ys with
    | nil => simp at h
    | cons y ys =>
      rw [List.cons_subset] at hxs hys
      simp only [List.flatMap_cons, member, List.cons_append, List.append_assoc, List.cons.injEq,
        true_and] at h
      obtain ⟨hkey, hvalue⟩ := encodeBasestring_append_inj h
      -- One key has one value, so that the two texts of it have one length.
      obtain rfl : x = y := List.inj_on_of_nodup_map hkeys hxs.1 hys.1 hkey
      obtain ⟨htext, hrest⟩ := List.append_inj (List.cons.inj hvalue).2 (hlen x hxs.1)
      obtain ⟨rfl, hall⟩ := ih hxs.2 hys.2 hrest
      exact ⟨rfl, List.forall_mem_cons.mpr ⟨htext, hall⟩⟩

theorem items_eq_of_join_eq {items xs ys : List (Text × Json Text)} {f g : Json Text → Text}
    (hkeys : (items.map Prod.fst).Nodup) (hxs : xs.Perm items) (hys : ys.Perm items)
    (hlen : ∀ item ∈ items, (f item.2).length = (g item.2).length)
    (h : join ',' (xs.map (member f)) = join ',' (ys.map (member g))) :
    xs = ys ∧ ∀ item ∈ items, f item.2 = g item.2 := by
  have hsame : xs = ys ∧ ∀ x ∈ xs, f x.2 = g x.2 := by
    by_cases hnil : xs = []
    · subst hnil
      obtain rfl := List.nil_perm.mp (hxs.trans hys.symm)
      exact ⟨rfl, fun x hx => absurd hx List.not_mem_nil⟩
    · have hnil' : ys ≠ [] := fun heq => hnil (List.perm_nil.mp (heq ▸ hxs.trans hys.symm))
      have hcons : ',' :: join ',' (xs.map (member f)) = ',' :: join ',' (ys.map (member g)) := by
        rw [h]
      rw [cons_join ',' (by simpa using hnil), cons_join ',' (by simpa using hnil'),
        List.flatMap_map, List.flatMap_map] at hcons
      exact items_eq_of_flatMap_eq hkeys hxs.subset hys.subset hlen hcons
  exact ⟨hsame.1, fun item hitem => hsame.2 item (hxs.symm.subset hitem)⟩

variable {le le'} [Std.Total le] [Std.Total le'] [IsTrans Text le] [IsTrans Text le']
  [Std.Antisymm le] [Std.Antisymm le']

omit [DecidableRel le] [DecidableRel le'] [IsTrans Text le] [IsTrans Text le'] in
/-- Keys that are in order both ways are compared alike. -/
theorem agree_of_pairwise {ks : List Text} (h : ks.Pairwise le) (h' : ks.Pairwise le') :
    ∀ k ∈ ks, ∀ k' ∈ ks, (le k k' ↔ le' k k') := by
  have hrefl : ∀ k, le k k := fun k => or_self_iff.mp (Std.Total.total k k)
  have hrefl' : ∀ k, le' k k := fun k => or_self_iff.mp (Std.Total.total k k)
  have hagree : ks.Pairwise fun k k' => (le k k' ↔ le' k k') :=
    (h.and h').imp fun hboth => iff_of_true hboth.1 hboth.2
  have hflip : ks.Pairwise fun k k' => (le k' k ↔ le' k' k) := by
    refine (h.and h').imp fun {k k'} ⟨hk, hk'⟩ => ⟨fun hback => ?_, fun hback => ?_⟩
    · rw [Std.Antisymm.antisymm k k' hk hback]
      exact hrefl' k'
    · rw [Std.Antisymm.antisymm k k' hk' hback]
      exact hrefl k'
  have hall := List.Pairwise.forall_of_forall_of_flip (R := fun k k' => (le k k' ↔ le' k k'))
    (fun k _ => iff_of_true (hrefl k) (hrefl' k)) hagree hflip
  exact fun k hk k' hk' => hall hk hk'

/-- Items are sorted alike just in case the two orders agree on their keys. -/
theorem sortItems_eq_iff {τ : Type} {items : List (Text × τ)} :
    sortItems le items = sortItems le' items ↔
      ∀ k ∈ items.map Prod.fst, ∀ k' ∈ items.map Prod.fst, (le k k' ↔ le' k k') := by
  constructor
  · intro heq
    have hle : ((sortItems le items).map Prod.fst).Pairwise le :=
      List.pairwise_map.mpr (List.pairwise_insertionSort _ items)
    have hle' : ((sortItems le' items).map Prod.fst).Pairwise le' :=
      List.pairwise_map.mpr (List.pairwise_insertionSort _ items)
    rw [← heq] at hle'
    have hmem : ∀ k, k ∈ items.map Prod.fst → k ∈ (sortItems le items).map Prod.fst :=
      fun k hk => ((List.perm_insertionSort _ items).map Prod.fst).mem_iff.mpr hk
    exact fun k hk k' hk' => agree_of_pairwise hle hle' k (hmem k hk) k' (hmem k' hk')
  · intro hiff
    have hsort := List.map_insertionSort (fun a b : Text × τ => le a.1 b.1)
      (fun a b => le' a.1 b.1) id items fun a ha b hb =>
        hiff a.1 (List.mem_map_of_mem ha) b.1 (List.mem_map_of_mem hb)
    simpa using hsort

/-- The texts of a value with the keys in two orders are the same just in case the orders agree on
the keys of each object. -/
theorem dumps_eq_iff {v : Json Text} (hv : Plain v) :
    dumps floatRepr le v = dumps floatRepr le' v ↔
      ∀ o, v.HasObject o → ∀ k ∈ o.map Prod.fst, ∀ k' ∈ o.map Prod.fst, (le k k' ↔ le' k k') := by
  have hlen : ∀ {j : Json Text}, Plain j →
      (dumps floatRepr le j).length = (dumps floatRepr le' j).length :=
    fun hj => (dumps_perm floatRepr le le' hj).length_eq
  induction hv with
  | null => simp only [dumps, true_iff]; exact fun o ho => nomatch ho
  | bool b => simp only [dumps, true_iff]; exact fun o ho => nomatch ho
  | int => simp only [dumps, true_iff]; exact fun o ho => nomatch ho
  | str s => simp only [dumps, true_iff]; exact fun o ho => nomatch ho
  | @arr items hitems ih =>
    rw [dumps_arr, dumps_arr, Json.forall_hasObject_arr]
    constructor
    · intro h j hj
      have hjoin := List.append_cancel_right (List.cons.inj h).2
      exact (ih j hj).mp (map_eq_of_join_eq ',' (fun j hj => hlen (hitems j hj)) hjoin j hj)
    · intro h
      rw [List.map_congr_left fun j hj => (ih j hj).mpr (h j hj)]
  | @obj items hkeys hitems ih =>
    rw [dumps_obj, dumps_obj, Json.forall_hasObject_obj, ← sortItems_eq_iff]
    constructor
    · intro h
      have hjoin := List.append_cancel_right (List.cons.inj h).2
      obtain ⟨hsort, htexts⟩ := items_eq_of_join_eq hkeys (List.perm_insertionSort _ items)
        (List.perm_insertionSort _ items) (fun item hitem => hlen (hitems item hitem)) hjoin
      exact ⟨hsort, fun item hitem => (ih item hitem).mp (htexts item hitem)⟩
    · rintro ⟨hsort, hinside⟩
      have hmember : ∀ item ∈ sortItems le' items,
          member (dumps floatRepr le) item = member (dumps floatRepr le') item := by
        intro item hitem
        have hmem := (List.mem_insertionSort _).mp hitem
        rw [member, member, (ih item hmem).mpr (hinside item hmem)]
      rw [hsort, List.map_congr_left hmember]

end Order

/-! ## The units of a text -/

/-- The order of texts by their units. -/
abbrev UnitsLe (s t : Text) : Prop := Utf16.encode s ≤ Utf16.encode t

instance : Std.Total UnitsLe where
  total s t := le_total (Utf16.encode s) (Utf16.encode t)

instance : IsTrans Text UnitsLe where
  trans _ _ _ h h' := le_trans h h'

instance : Std.Antisymm UnitsLe where
  antisymm _ _ h h' := Utf16.encode_injective (le_antisymm h h')

/-- A unit that is no surrogate is escaped by itself. -/
theorem stringifyUnits_cons {u : ℕ} (us : List ℕ) (h : ¬Utf16.IsSurrogate u) :
    stringifyUnits (u :: us) = escapeUnit u ++ stringifyUnits us := by
  cases us with
  | nil => rw [stringifyUnits, stringifyUnits, List.append_nil]
  | cons l us =>
    have hlead : ¬(Utf16.IsLead u ∧ Utf16.IsTrail l) := by
      rintro ⟨⟨hlo, hhi⟩, -⟩
      exact h ⟨hlo, by omega⟩
    rw [stringifyUnits, if_neg hlead]

/-- The two escapes of a character of one unit. -/
theorem escapeUnit_toNat {c : Char} (hc : c.toNat < 0x10000) :
    escapeUnit c.toNat = Utf16.encode (escape c) := by
  have hsurrogate : ¬Utf16.IsSurrogate c.toNat := by
    have hvalid := Utf16.toNat_valid c
    rintro ⟨hlo, hhi⟩
    omega
  unfold escapeUnit escape
  cases shortEscape c.toNat with
  | some e => rfl
  | none =>
    by_cases hlow : c.toNat < 0x20
    · simp [hlow]
    · simp only [hlow, hsurrogate, or_self, if_false]
      rw [Utf16.encode_cons, Utf16.units_bmp hc, Utf16.encode_nil, List.append_nil]

/-- A character beyond U+FFFF is not escaped. -/
theorem escape_astral {c : Char} (hc : ¬c.toNat < 0x10000) : escape c = [c] := by
  rcases escape_cases c with ⟨e, he, -⟩ | ⟨hlow, -⟩ | ⟨-, -, -, hself⟩
  · have hn := (shortEscape_eq he).2
    omega
  · omega
  · exact hself

theorem stringifyUnits_encode (s : Text) :
    stringifyUnits (Utf16.encode s) = Utf16.encode (s.flatMap escape) := by
  induction s with
  | nil => rfl
  | cons c s ih =>
    rw [List.flatMap_cons, Utf16.encode_append, Utf16.encode_cons]
    have hvalid := Utf16.toNat_valid c
    by_cases hc : c.toNat < 0x10000
    · have hsurrogate : ¬Utf16.IsSurrogate c.toNat := by
        rintro ⟨hlo, hhi⟩
        omega
      rw [Utf16.units_bmp hc, List.singleton_append, stringifyUnits_cons _ hsurrogate,
        escapeUnit_toNat hc, ih]
    · have hpair : Utf16.IsLead (0xD800 + (c.toNat - 0x10000) / 0x400) ∧
          Utf16.IsTrail (0xDC00 + (c.toNat - 0x10000) % 0x400) := by
        unfold Utf16.IsLead Utf16.IsTrail
        omega
      rw [escape_astral hc, Utf16.encode_cons, Utf16.encode_nil, Utf16.units_astral hc,
        List.cons_append, List.singleton_append, stringifyUnits, if_pos hpair, ih]
      rfl

theorem stringify_encode (s : Text) :
    stringify (Utf16.encode s) = Utf16.encode (encodeBasestring s) := by
  rw [stringify, stringifyUnits_encode, encodeBasestring, Utf16.encode_cons, Utf16.encode_append]
  rfl

theorem encode_join (ss : List Text) :
    Utf16.encode (join ',' ss) = join 0x2C (ss.map Utf16.encode) := by
  cases ss with
  | nil => rfl
  | cons s ss =>
    rw [join, Utf16.encode_append, List.map_cons, join, List.flatMap_map]
    congr 1
    induction ss with
    | nil => rfl
    | cons t ss ih =>
      rw [List.flatMap_cons, List.flatMap_cons, Utf16.encode_append, ih, Utf16.encode_cons]
      rfl

section Bridge

variable (floatRepr : FloatValue → Text) (numberText : FloatValue → List ℕ)

theorem ser_arr (items : List (Json (List ℕ))) : ser numberText (.arr items) =
    0x5B :: (join 0x2C (items.map (ser numberText)) ++ [0x5D]) := by
  rw [ser]

theorem ser_obj (items : List (List ℕ × Json (List ℕ))) : ser numberText (.obj items) =
    0x7B :: (join 0x2C ((sortItems (· ≤ ·) items).map fun item =>
      stringify item.1 ++ 0x3A :: ser numberText item.2) ++ [0x7D]) := by
  rw [ser, ← List.attach_map_val (l := sortItems (· ≤ ·) items)]

/-- `ser` writes the units of `dumps`, with the keys in the order of their units. -/
theorem ser_encode {v : Json Text} (hv : Plain v) :
    ser numberText (v.mapStr Utf16.encode) = Utf16.encode (dumps floatRepr UnitsLe v) := by
  induction hv with
  | null => simp only [Json.mapStr, ser, dumps]
  | bool b =>
    simp only [Json.mapStr, ser, dumps]
    split_ifs
    · rfl
    · rfl
  | int => simp only [Json.mapStr, ser, dumps]
  | str s =>
    simp only [Json.mapStr, ser, dumps]
    exact stringify_encode s
  | @arr items _ ih =>
    have hitems : items.map (ser numberText ∘ fun j => j.mapStr Utf16.encode) =
        items.map (Utf16.encode ∘ dumps floatRepr UnitsLe) := List.map_congr_left ih
    rw [Json.mapStr, ser_arr, dumps_arr, Utf16.encode_cons, Utf16.encode_append, encode_join,
      List.map_map, List.map_map, hitems]
    rfl
  | @obj items _ _ ih =>
    -- The sort commutes with taking the units of the keys.
    have hsort : (sortItems UnitsLe items).map
        (fun item => (Utf16.encode item.1, item.2.mapStr Utf16.encode)) =
        sortItems (· ≤ ·) (items.map fun item =>
          (Utf16.encode item.1, item.2.mapStr Utf16.encode)) :=
      List.map_insertionSort _ _ _ _ fun _ _ _ _ => Iff.rfl
    have hmember : ∀ item ∈ sortItems UnitsLe items,
        stringify (Utf16.encode item.1) ++ 0x3A :: ser numberText (item.2.mapStr Utf16.encode) =
          Utf16.encode (member (dumps floatRepr UnitsLe) item) := by
      intro item hitem
      rw [ih item ((List.mem_insertionSort _).mp hitem), stringify_encode, member,
        Utf16.encode_append, Utf16.encode_cons]
      rfl
    rw [Json.mapStr, ser_obj, dumps_obj, Utf16.encode_cons, Utf16.encode_append, encode_join,
      List.map_map, ← hsort, List.map_map]
    have hmap := List.map_congr_left hmember
    simp only [Function.comp_def]
    rw [hmap]
    rfl

theorem canonicalJson_encode {v : Json Text} (hv : Plain v) :
    canonicalJson numberText (v.mapStr Utf16.encode) =
      (String.ofList (dumps floatRepr UnitsLe v)).toUTF8 := by
  rw [canonicalJson, ser_encode floatRepr numberText hv, Utf16.decode_encode]

/-- The texts are of one size in any case, since they have the same characters. -/
theorem size_canonicalJson {v : Json Text} (hv : Plain v) :
    (canonicalJson numberText (v.mapStr Utf16.encode)).size = (canonicalJsonPy floatRepr v).size := by
  have hsize : ∀ s : Text, (String.ofList s).toUTF8.size = (s.flatMap String.utf8EncodeChar).length :=
    fun s => by
      rw [String.toUTF8_eq_toByteArray, String.toByteArray_ofList, List.utf8Encode, List.size_toByteArray]
  have hperm := (dumps_perm floatRepr UnitsLe (· ≤ ·) hv).flatMap_right String.utf8EncodeChar
  rw [canonicalJson_encode floatRepr numberText hv, canonicalJsonPy, hsize, hsize,
    hperm.length_eq]

/-- The two encoders agree just in case no object has two keys such that at the first place where
they differ one has a character from U+E000 to U+FFFF and the other one beyond. -/
theorem canonicalJson_eq_iff {v : Json Text} (hv : Plain v) :
    canonicalJson numberText (v.mapStr Utf16.encode) = canonicalJsonPy floatRepr v ↔
      ∀ o, v.HasObject o → ∀ k ∈ o.map Prod.fst, ∀ k' ∈ o.map Prod.fst, ¬Utf16.Clash k k' := by
  have hbytes : canonicalJson numberText (v.mapStr Utf16.encode) = canonicalJsonPy floatRepr v ↔
      dumps floatRepr UnitsLe v = dumps floatRepr (· ≤ ·) v := by
    rw [canonicalJson_encode floatRepr numberText hv, canonicalJsonPy]
    exact String.toByteArray_inj.trans String.ofList_inj
  rw [hbytes, dumps_eq_iff floatRepr hv]
  simp only [Utf16.encode_le_iff]
  constructor
  · exact fun h o ho k hk k' hk' => (h o ho k hk k' hk').1
  · exact fun h o ho k hk k' hk' => ⟨h o ho k hk k' hk', h o ho k' hk' k hk⟩

end Bridge

/-- An object in an array, with two keys that do not clash. -/
theorem canonicalJson_eq_iff_plain :
    canonicalJson (fun _ => []) ((Json.arr [.obj [(['b'], .int 1), (['a'], .null)]]).mapStr
        Utf16.encode) =
      canonicalJsonPy (fun _ => []) (.arr [.obj [(['b'], .int 1), (['a'], .null)]]) ↔
      ∀ o, (Json.arr [.obj [(['b'], .int 1), (['a'], .null)]]).HasObject o →
        ∀ k ∈ o.map Prod.fst, ∀ k' ∈ o.map Prod.fst, ¬Utf16.Clash k k' := by
  refine canonicalJson_eq_iff _ _ (.arr fun j hj => ?_)
  obtain rfl := List.mem_singleton.mp hj
  refine .obj (by decide) fun item hitem => ?_
  simp only [List.mem_cons, List.not_mem_nil, or_false] at hitem
  rcases hitem with rfl | rfl
  · exact .int (by decide) (by decide)
  · exact .null

/-- The keys U+E000 and U+10000. -/
def clashing : List (Text × Json Text) := [([.ofNat 0xE000], .null), ([.ofNat 0x10000], .null)]

theorem plain_clashing : Plain (.obj clashing) := by
  refine .obj (by decide) fun item hitem => ?_
  simp only [clashing, List.mem_cons, List.not_mem_nil, or_false] at hitem
  rcases hitem with rfl | rfl
  · exact .null
  · exact .null

theorem size_canonicalJson_clashing :
    (canonicalJson (fun _ => []) ((Json.obj clashing).mapStr Utf16.encode)).size =
      (canonicalJsonPy (fun _ => []) (.obj clashing)).size :=
  size_canonicalJson _ _ plain_clashing

/-- The worker puts U+10000 first. -/
theorem canonicalJson_differs :
    Plain (.obj clashing) ∧ ∀ floatRepr numberText,
      canonicalJson numberText ((Json.obj clashing).mapStr Utf16.encode) ≠
        canonicalJsonPy floatRepr (.obj clashing) := by
  have hplain : Plain (.obj clashing) := by
    refine .obj (by decide) fun item hitem => ?_
    simp only [clashing, List.mem_cons, List.not_mem_nil, or_false] at hitem
    rcases hitem with rfl | rfl
    · exact .null
    · exact .null
  refine ⟨hplain, fun floatRepr numberText h => ?_⟩
  rw [canonicalJson_encode floatRepr numberText hplain, canonicalJsonPy] at h
  have htexts := String.ofList_inj.mp (String.toByteArray_inj.mp h)
  have hunits : sortItems UnitsLe clashing = clashing.reverse := rfl
  have hpoints : sortItems (· ≤ ·) clashing = clashing := rfl
  rw [dumps_obj, dumps_obj, hunits, hpoints] at htexts
  have hfirst := (List.cons.inj htexts).2
  simp [clashing, join, member, encodeBasestring, escape, shortEscape] at hfirst

end Companion.Kindled.Canonical

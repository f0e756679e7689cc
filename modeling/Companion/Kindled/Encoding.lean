import Companion.JsonText
import Companion.Kindled.Canonical
import Companion.Kindled.Envelope
import Mathlib

/-!
# The canonical text of a value

`canonical_json` of `brain/kindled_link/codec.py` on any JSON value, and what `json.loads` makes of
the text: the value, with the keys of each object in order (`jsonLoads_canonicalText`). Two values
of one text are the same but for the order of the keys, so that a signature over the text is one
over the value.
-/

namespace Companion.Kindled.Encoding

open Companion.Memory Companion.Kindled.Canonical
open Companion.JsonText (Floats Numeral CodeUnit Reads Writes Solid maxDigits intNumeral scan scanOnce
  scanString spaced)

/-! ## The writer -/

/-- The floats that are numbers, and their texts. -/
structure FloatTexts where
  /-- `float.__repr__`, none of a number that is no float. -/
  repr : ℚ → Option Numeral
  read : Numeral → FloatValue
  valid : ∀ x n, repr x = some n → n.Valid ∧ n.isInt = false ∧ n.whole.length ≤ maxDigits
  read_repr : ∀ x n, repr x = some n → read n = .finite x

/-- The floats as the reader has them. -/
def FloatTexts.floats (T : FloatTexts) : Floats FloatValue where
  repr
    | .finite x => T.repr x
    | _ => none
  read := T.read
  nan := .nan
  infinity := .infinite
  valid x n h := by
    cases x with
    | finite x => exact T.valid x n h
    | infinite _ => cases h
    | nan => cases h
  read_repr x n h := by
    cases x with
    | finite x => exact T.read_repr x n h
    | infinite _ => cases h
    | nan => cases h

/-- The text of a string, none where it has a code point that is no character. -/
def chars (s : Points) : Option Text :=
  if ∀ c ∈ s, c.isValidChar then some (s.map Char.ofNat) else none

def floatText (T : FloatTexts) : FloatValue → Option Text
  | .nan => some "NaN".toList
  | .infinite true => some "-Infinity".toList
  | .infinite false => some "Infinity".toList
  | .finite x => (T.repr x).map Numeral.text

/-- `canonical_json`, with the depth that is left, before the text is encoded. -/
def canonicalText (T : FloatTexts) : ℕ → Value → Option Text
  | _, .null => some "null".toList
  | _, .bool b => some (if b then "true".toList else "false".toList)
  | _, .int n =>
    if (intNumeral n).whole.length ≤ maxDigits then some (intNumeral n).text else none
  | _, .float x => floatText T x
  | _, .str s => (chars s).map encodeBasestring
  | 0, .arr _ | 0, .obj _ => none
  | d + 1, .arr items =>
    (items.mapM (canonicalText T d)).map fun ts => '[' :: (join ',' ts ++ [']'])
  | d + 1, .obj items =>
    ((sortItems (· ≤ ·) items).mapM fun item =>
      (chars item.1).bind fun key => (canonicalText T d item.2).map fun t =>
        encodeBasestring key ++ ':' :: t).map fun ts => '{' :: (join ',' ts ++ ['}'])

/-- `canonical_json` -/
def canonicalJson (T : FloatTexts) (depth : ℕ) (v : Value) : Option ByteArray :=
  (canonicalText T depth v).map fun t => (String.ofList t).toUTF8

/-! ## The reader -/

/-- The code points of a string: two units that are a pair are one. -/
def points : List CodeUnit → Points
  | [] => []
  | [u] => [u.val]
  | u :: l :: us =>
    if Utf16.IsLead u.val ∧ Utf16.IsTrail l.val then
      (0x10000 + (u.val - 0xD800) * 0x400 + (l.val - 0xDC00)) :: points us
    else u.val :: points (l :: us)

mutual

/-- A value that was loaded. -/
def fromLoaded : JsonText.Value FloatValue → Value
  | .null => .null
  | .bool b => .bool b
  | .int n => .int n
  | .float x => .float x
  | .str s => .str (points s)
  | .arr items => .arr (fromItems items)
  | .obj fields => .obj (fromFields fields)

def fromItems : List (JsonText.Value FloatValue) → List Value
  | [] => []
  | v :: vs => fromLoaded v :: fromItems vs

def fromFields : List (List CodeUnit × JsonText.Value FloatValue) → List (Points × Value)
  | [] => []
  | (k, v) :: fs => (points k, fromLoaded v) :: fromFields fs

end

/-- `bytes.decode("utf-8")`, none where it raises. -/
def decodeUtf8 (bytes : ByteArray) : Option Text := (String.fromUTF8? bytes).map String.toList

/-- `json.loads` of a text of at most this depth, none where it raises. -/
def jsonLoads (T : FloatTexts) (depth : ℕ) (t : Text) : Option Value :=
  (JsonText.loads T.floats depth t).toOption.map fromLoaded

/-! ## The order of the keys -/

mutual

/-- The value with the keys of each object in order. -/
def sorted : Value → Value
  | .arr items => .arr (sortedItems items)
  | .obj items => .obj (sortItems (· ≤ ·) (sortedFields items))
  | v => v

def sortedItems : List Value → List Value
  | [] => []
  | v :: vs => sorted v :: sortedItems vs

def sortedFields : List (Points × Value) → List (Points × Value)
  | [] => []
  | (k, v) :: es => (k, sorted v) :: sortedFields es

end

theorem fromItems_eq_map (items : List (JsonText.Value FloatValue)) :
    fromItems items = items.map fromLoaded := by
  induction items with
  | nil => rfl
  | cons v vs ih => rw [fromItems, ih, List.map_cons]

theorem fromFields_eq_map (fields : List (List CodeUnit × JsonText.Value FloatValue)) :
    fromFields fields = fields.map fun f => (points f.1, fromLoaded f.2) := by
  induction fields with
  | nil => rfl
  | cons f fs ih => rw [fromFields, ih, List.map_cons]

theorem sortedItems_eq_map (items : List Value) : sortedItems items = items.map sorted := by
  induction items with
  | nil => rfl
  | cons v vs ih => rw [sortedItems, ih, List.map_cons]

theorem sortedFields_eq_map (items : List (Points × Value)) :
    sortedFields items = items.map fun item => (item.1, sorted item.2) := by
  induction items with
  | nil => rfl
  | cons item items ih => rw [sortedFields, ih, List.map_cons]

/-- The fields are put in order before they are written or after. -/
theorem sortItems_sortedFields (items : List (Points × Value)) :
    sortItems (· ≤ ·) (sortedFields items) =
      (sortItems (· ≤ ·) items).map fun item => (item.1, sorted item.2) := by
  rw [sortedFields_eq_map]
  exact (List.map_insertionSort (fun a b : Points × Value => a.1 ≤ b.1)
    (fun a b : Points × Value => a.1 ≤ b.1) (fun item => (item.1, sorted item.2)) items
    fun _ _ _ _ => Iff.rfl).symm

/-! ## Strings -/

/-- The units of a text. -/
def units (s : Text) : List CodeUnit := (Utf16.encode s).map (Fin.ofNat _)

theorem units_cons (c : Char) (s : Text) :
    units (c :: s) = (Utf16.units c).map (Fin.ofNat _) ++ units s := by
  rw [units, Utf16.encode_cons, List.map_append, units]

theorem points_cons {u : CodeUnit} (us : List CodeUnit) (h : ¬ Utf16.IsSurrogate u.val) :
    points (u :: us) = u.val :: points us := by
  cases us with
  | nil => rfl
  | cons l us =>
    have hlead : ¬ (Utf16.IsLead u.val ∧ Utf16.IsTrail l.val) := by
      rintro ⟨⟨hlo, hhi⟩, -⟩
      exact h ⟨hlo, by omega⟩
    rw [points, if_neg hlead]

theorem points_units_append (c : Char) (us : List CodeUnit) :
    points ((Utf16.units c).map (Fin.ofNat _) ++ us) = c.toNat :: points us := by
  have hvalid := Utf16.toNat_valid c
  by_cases hc : c.toNat < 0x10000
  · have hval : (Fin.ofNat 0x10000 c.toNat).val = c.toNat := Nat.mod_eq_of_lt hc
    rw [Utf16.units_bmp hc, List.map_singleton, List.singleton_append, points_cons, hval]
    rintro ⟨hlo, hhi⟩
    omega
  · -- A character beyond the first plane is a pair of units, which gives it back.
    have hlead : (Fin.ofNat 0x10000 (0xD800 + (c.toNat - 0x10000) / 0x400)).val =
        0xD800 + (c.toNat - 0x10000) / 0x400 := Nat.mod_eq_of_lt (by omega)
    have htrail : (Fin.ofNat 0x10000 (0xDC00 + (c.toNat - 0x10000) % 0x400)).val =
        0xDC00 + (c.toNat - 0x10000) % 0x400 := Nat.mod_eq_of_lt (by omega)
    have hcode : 0x10000 + (0xD800 + (c.toNat - 0x10000) / 0x400 - 0xD800) * 0x400 +
        (0xDC00 + (c.toNat - 0x10000) % 0x400 - 0xDC00) = c.toNat := by omega
    rw [Utf16.units_astral hc, List.map_cons, List.map_singleton, List.cons_append,
      List.singleton_append, points, hlead, htrail, if_pos ⟨⟨by omega, by omega⟩, by omega, by omega⟩,
      hcode]

/-- The units of a text are read as its characters. -/
theorem points_units (s : Text) : points (units s) = s.map Char.toNat := by
  induction s with
  | nil => rfl
  | cons c s ih => rw [units_cons, points_units_append, ih, List.map_cons]

theorem eq_map_of_chars {s : Points} {t : Text} (h : chars s = some t) : t = s.map Char.ofNat := by
  unfold chars at h
  split_ifs at h
  exact (Option.some.inj h).symm

theorem map_toNat_of_chars {s : Points} {t : Text} (h : chars s = some t) :
    t.map Char.toNat = s := by
  unfold chars at h
  split_ifs at h with hvalid
  obtain rfl := Option.some.inj h
  rw [List.map_map]
  refine (List.map_congr_left fun c hc => ?_).trans (List.map_id s)
  rw [Function.comp_apply, Char.ofNat, dif_pos (hvalid c hc)]
  rfl

/-- What is written for a character is read as its units. -/
theorem scanString_escape (c : Char) (t : Text) : scanString (escape c ++ t) =
    (scanString t).map fun (s, rest) => ((Utf16.units c).map (Fin.ofNat _) ++ s, rest) := by
  have hlow : c.toNat < 0x80 → (Utf16.units c).map (Fin.ofNat 0x10000) = [Fin.ofNat _ c.toNat] :=
    fun hc => by rw [Utf16.units_bmp (by omega), List.map_singleton]
  have hval : c.toNat < 0x80 → (Fin.ofNat 0x10000 c.toNat).val = c.toNat :=
    fun hc => Nat.mod_eq_of_lt (by omega)
  rcases escape_cases c with ⟨e, he, hc⟩ | ⟨hcontrol, hc⟩ | ⟨hquote, hslash, hprintable, hc⟩
  · have hsmall : c.toNat < 0x80 := by
      rcases (shortEscape_eq he).2 with ⟨-, h⟩ | ⟨-, h⟩ | ⟨-, h⟩ | ⟨-, h⟩ | ⟨-, h⟩ | ⟨-, h⟩ | ⟨-, h⟩
      all_goals omega
    have he' : JsonText.shortEscape (Fin.ofNat 0x10000 c.toNat).val = some e := by
      rw [hval hsmall]
      exact he
    obtain ⟨hne, hescape⟩ := JsonText.unescape_shortEscape he'
    rw [hc, hlow hsmall, List.cons_append, List.singleton_append, scanString, hescape,
      Option.bind_some]
    · rfl
    · rintro a b c d t rfl
      exact absurd rfl hne
  · have hhex : JsonText.readHex4 (Canonical.hexDigit (c.toNat / 0x1000 % 0x10))
        (Canonical.hexDigit (c.toNat / 0x100 % 0x10)) (Canonical.hexDigit (c.toNat / 0x10 % 0x10))
        (Canonical.hexDigit (c.toNat % 0x10)) = some (Fin.ofNat _ c.toNat) := by
      have h := JsonText.readHex4_hex4 (Fin.ofNat _ c.toNat)
      rw [hval (by omega)] at h
      exact h
    rw [hc, hlow (by omega), hex4]
    simp only [List.cons_append, List.nil_append]
    rw [scanString, hhex, Option.bind_some]
  · rw [hc, List.singleton_append, scanString.eq_5 _ _ (by simpa using hquote)
      (by intros; contradiction) (by intros; contradiction), if_neg (by simp [hslash, hprintable])]

/-- A string is read up to its closing quotation mark. -/
theorem scanString_encode (s rest : Text) :
    scanString (s.flatMap escape ++ '\"' :: rest) = some (units s, rest) := by
  induction s with
  | nil => simp [scanString, units, Utf16.encode]
  | cons c s ih =>
    rw [List.flatMap_cons, List.append_assoc, scanString_escape, ih, Option.map_some, units_cons]

/-! ## Values -/

variable {T : FloatTexts} {object array : Text → JsonText.Result (JsonText.Value FloatValue)}

theorem reads_encodeBasestring (s : Text) : Solid (encodeBasestring s) ∧
    Reads (scanOnce T.floats object array) (encodeBasestring s) (.str (units s)) := by
  refine ⟨⟨'\"', _, rfl, by decide⟩, fun rest _ => ?_⟩
  rw [encodeBasestring, List.cons_append, List.append_assoc, List.singleton_append, scanOnce,
    scanString_encode]

theorem reads_floatText {x : FloatValue} {t : Text} (h : floatText T x = some t) :
    Solid t ∧ Reads (scanOnce T.floats object array) t (.float x) := by
  cases x with
  | finite x =>
    obtain ⟨n, hn, rfl⟩ := Option.map_eq_some_iff.mp h
    have hnumber : JsonText.IsNumber T.floats (.float (.finite x)) n := JsonText.isNumber_float hn
    have hwrites : Writes (scanOnce T.floats object array) n.text _ :=
      JsonText.writes_number hnumber
    exact ⟨hwrites.1, hwrites.2.1⟩
  | infinite negative =>
    cases negative with
    | true =>
      obtain rfl := Option.some.inj h
      exact ⟨⟨'-', _, rfl, by decide⟩, fun rest _ => rfl⟩
    | false =>
      obtain rfl := Option.some.inj h
      exact ⟨⟨'I', _, rfl, by decide⟩, fun rest _ => rfl⟩
  | nan =>
    obtain rfl := Option.some.inj h
    exact ⟨⟨'N', _, rfl, by decide⟩, fun rest _ => rfl⟩

theorem canonicalText_arr {d : ℕ} {items : List Value} {t : Text}
    (h : canonicalText T d (.arr items) = some t) :
    ∃ d' ts, d = d' + 1 ∧ t = '[' :: (spaced [] ts ++ [']']) ∧
      List.Forall₂ (fun t v => canonicalText T d' v = some t) ts items := by
  cases d with
  | zero => cases h
  | succ d =>
    rw [canonicalText] at h
    obtain ⟨ts, hts, rfl⟩ := Option.map_eq_some_iff.mp h
    exact ⟨d, ts, rfl, by cases ts <;> rfl, JsonText.mapM_some hts⟩

/-- The text of an object has those of its items, in the order of their keys. -/
theorem canonicalText_obj {d : ℕ} {items : List (Points × Value)} {t : Text}
    (h : canonicalText T d (.obj items) = some t) :
    ∃ d' ts, d = d' + 1 ∧ t = '{' :: (spaced [] ts ++ ['}']) ∧
      List.Forall₂ (fun t item => ∃ key u, chars item.1 = some key ∧
        canonicalText T d' item.2 = some u ∧ t = encodeBasestring key ++ ':' :: u) ts
          (sortItems (· ≤ ·) items) := by
  cases d with
  | zero => cases h
  | succ d =>
    rw [canonicalText] at h
    obtain ⟨ts, hts, rfl⟩ := Option.map_eq_some_iff.mp h
    refine ⟨d, ts, rfl, by cases ts <;> rfl, ?_⟩
    refine JsonText.forall₂_of_mem (JsonText.mapM_some hts) fun t item _ hitem => ?_
    obtain ⟨key, hkey, hrest⟩ := Option.bind_eq_some_iff.mp hitem
    obtain ⟨u, hu, rfl⟩ := Option.map_eq_some_iff.mp hrest
    exact ⟨key, u, hkey, hu, rfl⟩

/-- Each has one, so that there is a list of them. -/
theorem exists_forall₂ {α β γ δ : Type} {R : α → γ → Prop} {f : β → δ} {g : γ → δ} {as : List α}
    {bs : List β} (h : List.Forall₂ (fun a b => ∃ c, R a c ∧ g c = f b) as bs) :
    ∃ cs, List.Forall₂ R as cs ∧ cs.map g = bs.map f := by
  induction h with
  | nil => exact ⟨[], .nil, rfl⟩
  | cons hab _ ih =>
    obtain ⟨c, hc, hgc⟩ := hab
    obtain ⟨cs, hcs, hmap⟩ := ih
    exact ⟨c :: cs, .cons hc hcs, by rw [List.map_cons, List.map_cons, hgc, hmap]⟩

/-- An item of an object is read with its key. -/
theorem reads_member {item : Text → JsonText.Result (JsonText.Value FloatValue)} {key u : Text}
    {x : JsonText.Value FloatValue} (h : Reads item u x) (hsolid : Solid u) :
    Reads (JsonText.member item) (encodeBasestring key ++ ':' :: u) (units key, x) := by
  have hkey : ∀ rest, scanString (key.flatMap escape ++ ['\"'] ++ rest) = some (units key, rest) :=
    fun rest => by rw [List.append_assoc, List.singleton_append, scanString_encode]
  exact JsonText.reads_member_gap hkey (List.forall_mem_nil _) h hsolid

theorem exists_of_writes {item : Text → JsonText.Result (JsonText.Value FloatValue)} {t : Text}
    {x : JsonText.Value FloatValue} {v : Value} (h : Writes item t x) (hx : fromLoaded x = sorted v) :
    Solid t ∧ ∃ x, Reads item t x ∧ fromLoaded x = sorted v := ⟨h.1, x, h.2.1, hx⟩

/-- A value that is no list and no object is read at any depth. -/
theorem scan_leaf {d : ℕ} {v : Value} {t : Text} (harr : ∀ items, v ≠ .arr items)
    (hobj : ∀ items, v ≠ .obj items) (h : canonicalText T d v = some t) :
    Solid t ∧ ∃ x, Reads (scan T.floats d) t x ∧ fromLoaded x = sorted v := by
  have hscan : ∃ object array, scan T.floats d = scanOnce T.floats object array := by
    cases d with
    | zero => exact ⟨_, _, rfl⟩
    | succ d => exact ⟨_, _, rfl⟩
  obtain ⟨object, array, hscan⟩ := hscan
  rw [hscan]
  cases v with
  | null =>
    rw [canonicalText] at h
    obtain rfl := Option.some.inj h
    exact exists_of_writes JsonText.writes_null rfl
  | bool b =>
    rw [canonicalText] at h
    obtain rfl := Option.some.inj h
    exact exists_of_writes (JsonText.writes_bool b) rfl
  | int n =>
    rw [canonicalText] at h
    split_ifs at h with hlength
    obtain rfl := Option.some.inj h
    have hnumber : JsonText.IsNumber T.floats (.int n) (intNumeral n) :=
      ⟨JsonText.valid_intNumeral n, hlength, JsonText.ofNumeral_intNumeral hlength⟩
    exact exists_of_writes (JsonText.writes_number hnumber) rfl
  | float x =>
    rw [canonicalText] at h
    obtain ⟨hsolid, hreads⟩ := reads_floatText h
    exact ⟨hsolid, _, hreads, rfl⟩
  | str s =>
    rw [canonicalText] at h
    obtain ⟨key, hkey, rfl⟩ := Option.map_eq_some_iff.mp h
    obtain ⟨hsolid, hreads⟩ := reads_encodeBasestring key
    refine ⟨hsolid, _, hreads, ?_⟩
    rw [fromLoaded, points_units, map_toNat_of_chars hkey]
    rfl
  | arr items => exact absurd rfl (harr items)
  | obj items => exact absurd rfl (hobj items)

/-- What is written of a value is read as the value with the keys in order. -/
theorem scan_canonicalText {d : ℕ} {v : Value} {t : Text} (hv : v.Distinct)
    (h : canonicalText T d v = some t) :
    Solid t ∧ ∃ x, Reads (scan T.floats d) t x ∧ fromLoaded x = sorted v := by
  induction hv generalizing d t with
  | null => exact scan_leaf nofun nofun h
  | bool b => exact scan_leaf nofun nofun h
  | int n => exact scan_leaf nofun nofun h
  | float x => exact scan_leaf nofun nofun h
  | str s => exact scan_leaf nofun nofun h
  | arr _ ih =>
    obtain ⟨d, ts, rfl, rfl, hts⟩ := canonicalText_arr h
    -- The texts of the items are read one by one, and the list is what they are read as.
    have hitems := JsonText.forall₂_of_mem hts fun t v hv htext => ih v hv htext
    have hsolid : ∀ t ∈ ts, Solid t := JsonText.forall_mem_of_forall₂ hitems fun _ _ _ h => h.1
    obtain ⟨xs, hxs, hmap⟩ := exists_forall₂ (hitems.imp fun _ _ h => h.2)
    refine ⟨⟨'[', _, rfl, by decide⟩, .arr xs, fun rest _ => ?_, ?_⟩
    · rw [List.cons_append, List.append_assoc, List.singleton_append, scan, scanOnce,
        JsonText.parseArray, JsonText.delimited_spaced (List.forall_mem_nil _) (.inl rfl) hxs hsolid]
      rfl
    · rw [fromLoaded, sorted, fromItems_eq_map, sortedItems_eq_map, hmap]
  | @obj items hkeys _ ih =>
    obtain ⟨d, ts, rfl, rfl, hts⟩ := canonicalText_obj h
    -- The items are written in the order of their keys.
    have hitems : List.Forall₂ (fun t item => Solid t ∧
        ∃ f, Reads (JsonText.member (scan T.floats d)) t f ∧
          (points f.1, fromLoaded f.2) = (item.1, sorted item.2)) ts (sortItems (· ≤ ·) items) := by
      refine JsonText.forall₂_of_mem hts fun t item hitem htext => ?_
      obtain ⟨key, u, hkey, hu, rfl⟩ := htext
      obtain ⟨hsolid, x, hreads, hx⟩ := ih item ((List.mem_insertionSort _).mp hitem) hu
      refine ⟨⟨'\"', _, rfl, by decide⟩, (units key, x), reads_member hreads hsolid, ?_⟩
      rw [points_units, map_toNat_of_chars hkey, hx]
    have hsolid : ∀ t ∈ ts, Solid t := JsonText.forall_mem_of_forall₂ hitems fun _ _ _ h => h.1
    obtain ⟨fs, hfs, hmap⟩ := exists_forall₂ (hitems.imp fun _ _ h => h.2)
    -- Keys that are read as different code points are different.
    have hdistinct : (fs.map Prod.fst).Nodup := by
      refine List.Nodup.of_map points ?_
      have hfst := congrArg (List.map Prod.fst) hmap
      rw [List.map_map, List.map_map] at hfst
      rw [List.map_map]
      refine (hfst.symm ▸ ?_ : (fs.map (points ∘ Prod.fst)).Nodup)
      exact ((List.perm_insertionSort _ items).map Prod.fst).nodup_iff.mpr hkeys
    refine ⟨⟨'{', _, rfl, by decide⟩, .obj fs, fun rest _ => ?_, ?_⟩
    · rw [List.cons_append, List.append_assoc, List.singleton_append, scan, scanOnce,
        JsonText.parseObject, JsonText.delimited_spaced (List.forall_mem_nil _) (.inr rfl) hfs hsolid]
      change Except.ok (JsonText.Value.obj (JsonText.dict fs), rest) = _
      rw [JsonText.dict_eq_self hdistinct]
    · rw [fromLoaded, sorted, fromFields_eq_map, sortItems_sortedFields, hmap]

/-! ## What has a text -/

theorem exists_mapM {α β : Type} {f : α → Option β} {as : List α} (h : ∀ a ∈ as, ∃ b, f a = some b) :
    ∃ bs, as.mapM f = some bs := by
  induction as with
  | nil => exact ⟨[], rfl⟩
  | cons a as ih =>
    obtain ⟨⟨b, hb⟩, has⟩ := List.forall_mem_cons.mp h
    obtain ⟨bs, hbs⟩ := ih has
    exact ⟨b :: bs, by rw [List.mapM_cons, hb, hbs]; rfl⟩

/-- An object has a text where its keys and its values have one. -/
theorem exists_canonicalText_obj {d : ℕ} {items : List (Points × Value)}
    (h : ∀ item ∈ items, (∃ k, chars item.1 = some k) ∧ ∃ t, canonicalText T d item.2 = some t) :
    ∃ t, canonicalText T (d + 1) (.obj items) = some t := by
  have hitem : ∀ item ∈ sortItems (· ≤ ·) items, ∃ t, ((chars item.1).bind fun key =>
      (canonicalText T d item.2).map fun t => encodeBasestring key ++ ':' :: t) = some t := by
    intro item hmem
    obtain ⟨⟨k, hk⟩, t, ht⟩ := h item ((List.mem_insertionSort _).mp hmem)
    rw [hk, ht]
    exact ⟨_, rfl⟩
  obtain ⟨ts, hts⟩ := exists_mapM hitem
  rw [canonicalText, hts]
  exact ⟨_, rfl⟩

theorem exists_chars_of_lt {s : Points} (h : ∀ c ∈ s, c < 0x80) : ∃ t, chars s = some t :=
  ⟨_, if_pos fun c hc => .inl (by have hlt := h c hc; omega)⟩

theorem chars_pts (s : String) : chars (pts s) = some s.toList := by
  have hvalid : ∀ c ∈ pts s, c.isValidChar := by
    intro c hc
    obtain ⟨a, -, rfl⟩ := List.mem_map.mp hc
    exact a.valid
  rw [chars, if_pos hvalid, pts, List.map_map]
  exact congrArg some ((List.map_congr_left fun c _ => Char.ofNat_toNat c).trans (List.map_id _))

theorem exists_canonicalText_str {d : ℕ} {s : Points} (h : ∃ t, chars s = some t) :
    ∃ t, canonicalText T d (.str s) = some t := by
  obtain ⟨t, ht⟩ := h
  rw [canonicalText, ht]
  exact ⟨_, rfl⟩

theorem exists_canonicalText_int {d : ℕ} {n : ℤ} (h : 0 ≤ n ∧ n < 2^88) :
    ∃ t, canonicalText T d (.int n) = some t := by
  have hlength : (intNumeral n).whole.length ≤ maxDigits := by
    have hlt : n.natAbs < 10^27 := by omega
    exact (Nat.length_toDigits_le_iff (by decide) (by decide)).mpr (hlt.trans_le
      (Nat.pow_le_pow_right (by decide) (by decide)))
  rw [canonicalText, if_pos hlength]
  exact ⟨_, rfl⟩

/-! ## The text -/

/-- The text of an object is loaded as the object, with the keys in order. -/
theorem jsonLoads_canonicalText {d : ℕ} {items : List (Points × Value)} {t : Text}
    (hv : (Json.obj items).Distinct) (h : canonicalText T d (.obj items) = some t) :
    jsonLoads T d t = some (sorted (.obj items)) := by
  obtain ⟨hsolid, x, hreads, hx⟩ := scan_canonicalText hv h
  obtain ⟨-, ts, -, rfl, -⟩ := canonicalText_obj h
  have hread := hreads [] JsonText.ended_nil
  have hskip := hsolid.skip_append []
  rw [List.append_nil] at hread hskip
  have hbom : ('{' :: (spaced [] ts ++ ['}'])).head? ≠ some '\uFEFF' :=
    fun heq => absurd (Option.some.inj heq) (by decide)
  rw [jsonLoads, JsonText.loads, if_neg hbom, hskip, hread, ← hx]
  rfl

theorem decodeUtf8_toUTF8 (t : Text) : decodeUtf8 (String.ofList t).toUTF8 = some t := by
  have hvalid : ((String.ofList t).toUTF8).IsValidUTF8 := (String.ofList t).isValidUTF8
  rw [decodeUtf8, String.fromUTF8?, dif_pos hvalid, Option.map_some]
  exact congrArg some (String.toList_ofList)

theorem canonicalText_of_canonicalJson {d : ℕ} {v : Value} {bytes : ByteArray}
    (h : canonicalJson T d v = some bytes) :
    ∃ t, canonicalText T d v = some t ∧ bytes = (String.ofList t).toUTF8 := by
  obtain ⟨t, ht, rfl⟩ := Option.map_eq_some_iff.mp h
  exact ⟨t, ht, rfl⟩

/-- Objects of one text are the same but for the order of the keys. -/
theorem sorted_eq_of_canonicalJson {d : ℕ} {items items' : List (Points × Value)} {bytes : ByteArray}
    (hv : (Json.obj items).Distinct) (hv' : (Json.obj items').Distinct)
    (h : canonicalJson T d (.obj items) = some bytes)
    (h' : canonicalJson T d (.obj items') = some bytes) :
    sorted (.obj items) = sorted (.obj items') := by
  obtain ⟨t, ht, rfl⟩ := canonicalText_of_canonicalJson h
  obtain ⟨t', ht', heq⟩ := canonicalText_of_canonicalJson h'
  obtain rfl : t = t' := String.ofList_inj.mp (String.toByteArray_inj.mp heq)
  exact Option.some.inj ((jsonLoads_canonicalText hv ht).symm.trans (jsonLoads_canonicalText hv' ht'))

/-- The order of the keys does not count for what is at a key. -/
theorem get?_sorted {items : List (Points × Value)} (hkeys : (items.map Prod.fst).Nodup)
    (key : Points) : (sorted (.obj items)).get? key = ((Json.obj items).get? key).map sorted := by
  have hperm := List.perm_insertionSort (fun a b : Points × Value => a.1 ≤ b.1) (sortedFields items)
  have hfst : (sortedFields items).map Prod.fst = items.map Prod.fst := by
    rw [sortedFields_eq_map, List.map_map]
    rfl
  have hkeys' : ((sortItems (· ≤ ·) (sortedFields items)).map Prod.fst).Nodup := by
    rw [(hperm.map Prod.fst).nodup_iff, hfst]
    exact hkeys
  have hget : (Json.obj items).get? key = (⟨items, hkeys⟩ : Dict Points Value).get? key := rfl
  have hget' : (sorted (.obj items)).get? key = (⟨_, hkeys'⟩ : Dict Points Value).get? key := rfl
  rw [hget, hget']
  -- The items are the same up to their order, and no key is there twice.
  ext w
  rw [Option.map_eq_some_iff, Dict.get?_eq_some, hperm.mem_iff, sortedFields_eq_map, List.mem_map]
  constructor
  · rintro ⟨⟨k, v⟩, hmem, heq⟩
    obtain ⟨rfl, rfl⟩ := Prod.mk.inj heq
    exact ⟨v, Dict.get?_eq_some.mpr hmem, rfl⟩
  · rintro ⟨v, hv, rfl⟩
    exact ⟨(key, v), Dict.get?_eq_some.mp hv, rfl⟩

/-! ## The encoder without failures -/

theorem canonicalItems_eq_all (items : List Value) : canonicalItems items = items.all canonical := by
  induction items with
  | nil => rfl
  | cons v vs ih => rw [canonicalItems, ih, List.all_cons]

theorem canonicalFields_eq_all (items : List (Points × Value)) :
    canonicalFields items = items.all fun item => encodable item.1 && canonical item.2 := by
  induction items with
  | nil => rfl
  | cons item items ih => rw [canonicalFields, ih, List.all_cons]

theorem encodable_of_chars {s : Points} {t : Text} (h : chars s = some t) : encodable s = true := by
  unfold chars at h
  split_ifs at h with hvalid
  refine List.all_eq_true.mpr fun c hc => ?_
  have hc := hvalid c hc
  unfold Nat.isValidChar at hc
  simp only [Bool.not_eq_true', Bool.and_eq_false_iff, decide_eq_false_iff_not]
  omega

theorem map_toNat_lt_iff {s t : Text} : s.map Char.toNat < t.map Char.toNat ↔ s < t := by
  induction s generalizing t with
  | nil =>
    cases t with
    | nil => simp
    | cons c t => simp
  | cons c s ih =>
    cases t with
    | nil => simp
    | cons c' t =>
      rw [List.map_cons, List.map_cons, List.cons_lt_cons_iff, List.cons_lt_cons_iff, ih,
        Utf16.lt_iff_toNat, Char.toNat_inj]

/-- The order of texts is that of their code points. -/
theorem map_toNat_le_iff {s t : Text} : s.map Char.toNat ≤ t.map Char.toNat ↔ s ≤ t := by
  rw [← not_lt, ← not_lt, map_toNat_lt_iff]

theorem text_intNumeral (n : ℤ) : (intNumeral n).text = (toString n).toList := by
  rw [Int.toString_eq_repr, Int.repr_eq_if]
  by_cases hn : n < 0
  · have hsign : Numeral.sign (decide (n < 0)) = ['-'] := by rw [decide_eq_true hn]; rfl
    have habs : n.natAbs = (-n).toNat := by omega
    rw [if_neg (by omega), String.toList_append, Nat.repr_eq_ofList_toDigits, String.toList_ofList,
      ← habs]
    simp [intNumeral, Numeral.text, hsign, Numeral.point]
  · have hsign : Numeral.sign (decide (n < 0)) = [] := by rw [decide_eq_false hn]; rfl
    have habs : n.natAbs = n.toNat := by omega
    rw [if_pos (by omega), Nat.repr_eq_ofList_toDigits, String.toList_ofList, ← habs]
    simp [intNumeral, Numeral.text, hsign, Numeral.point]

/-- A value with a text can be encoded. -/
theorem canonical_of_canonicalText {d : ℕ} {v : Value} {t : Text}
    (h : canonicalText T d v = some t) : canonical v = true := by
  induction d using Nat.strong_induction_on generalizing v t with
  | _ d ih =>
    cases v with
    | str s =>
      rw [canonicalText] at h
      obtain ⟨key, hkey, -⟩ := Option.map_eq_some_iff.mp h
      exact encodable_of_chars hkey
    | arr items =>
      obtain ⟨d, ts, rfl, -, hts⟩ := canonicalText_arr h
      rw [canonical, canonicalItems_eq_all, List.all_eq_true]
      exact JsonText.forall_mem_of_forall₂ hts.flip fun v t _ htext => ih d (Nat.lt_succ_self d) htext
    | obj items =>
      obtain ⟨d, ts, rfl, -, hts⟩ := canonicalText_obj h
      rw [canonical, canonicalFields_eq_all, List.all_eq_true]
      intro item hitem
      have hall := JsonText.forall_mem_of_forall₂ hts.flip fun item t _ ⟨key, u, hkey, hu, _⟩ =>
        Bool.and_eq_true_iff.mpr ⟨encodable_of_chars hkey, ih d (Nat.lt_succ_self d) hu⟩
      exact hall item ((List.mem_insertionSort _).mpr hitem)
    | _ => rfl

/-- The text of a float that has one. -/
def floatRepr (T : FloatTexts) (x : FloatValue) : Text := (floatText T x).getD []

/-- The keys are in order as texts just in case they are as code points. -/
theorem sortItems_map_ofNat {τ : Type} {items : List (Points × Value)} {f : Value → τ}
    (h : ∀ item ∈ items, ∃ key, chars item.1 = some key) :
    (sortItems (· ≤ ·) items).map (fun item => (item.1.map Char.ofNat, f item.2)) =
      sortItems (· ≤ ·) (items.map fun item => (item.1.map Char.ofNat, f item.2)) := by
  refine List.map_insertionSort (fun a b : Points × Value => a.1 ≤ b.1)
    (fun a b : Text × τ => a.1 ≤ b.1) _ items fun a ha b hb => ?_
  obtain ⟨k, hk⟩ := h a ha
  obtain ⟨l, hl⟩ := h b hb
  rw [← eq_map_of_chars hk, ← eq_map_of_chars hl, ← map_toNat_le_iff, map_toNat_of_chars hk,
    map_toNat_of_chars hl]

theorem eq_map_of_forall₂ {α β : Type} {f : β → α} {as : List α} {bs : List β}
    (h : List.Forall₂ (fun a b => a = f b) as bs) : as = bs.map f := by
  rw [← List.forall₂_eq_eq_eq, List.forall₂_map_right_iff]
  exact h

theorem spaced_nil (ts : List Text) : spaced [] ts = join ',' ts := by
  cases ts <;> rfl

/-- The text is that of `dumps`. -/
theorem canonicalText_eq_dumps {d : ℕ} {v : Value} {t : Text} (h : canonicalText T d v = some t) :
    t = dumps (floatRepr T) (· ≤ ·) (v.mapStr (List.map Char.ofNat)) := by
  induction d using Nat.strong_induction_on generalizing v t with
  | _ d ih =>
    cases v with
    | null =>
      rw [canonicalText] at h
      rw [Json.mapStr, dumps, Option.some.inj h]
    | bool b =>
      rw [canonicalText] at h
      rw [Json.mapStr, dumps, Option.some.inj h]
    | int n =>
      rw [canonicalText] at h
      split_ifs at h
      rw [Json.mapStr, dumps, ← Option.some.inj h, text_intNumeral]
    | float x =>
      rw [canonicalText] at h
      rw [Json.mapStr, dumps, floatRepr, h, Option.getD_some]
    | str s =>
      rw [canonicalText] at h
      obtain ⟨key, hkey, rfl⟩ := Option.map_eq_some_iff.mp h
      rw [Json.mapStr, dumps, ← eq_map_of_chars hkey]
    | arr items =>
      obtain ⟨d, ts, rfl, rfl, hts⟩ := canonicalText_arr h
      have htexts := eq_map_of_forall₂ (JsonText.forall₂_of_mem hts fun t v _ htext =>
        ih d (Nat.lt_succ_self d) htext)
      rw [Json.mapStr, dumps_arr, spaced_nil, List.map_map, htexts]
      rfl
    | obj items =>
      obtain ⟨d, ts, rfl, rfl, hts⟩ := canonicalText_obj h
      have htexts : ts = (sortItems (· ≤ ·) items).map fun item =>
          member (dumps (floatRepr T) (· ≤ ·))
            (item.1.map Char.ofNat, item.2.mapStr (List.map Char.ofNat)) := by
        refine eq_map_of_forall₂ (JsonText.forall₂_of_mem hts fun t item _ htext => ?_)
        obtain ⟨key, u, hkey, hu, rfl⟩ := htext
        rw [member, ← eq_map_of_chars hkey, ih d (Nat.lt_succ_self d) hu]
      have hkeys : ∀ item ∈ items, ∃ key, chars item.1 = some key := by
        have hall := JsonText.forall_mem_of_forall₂ hts.flip
          (P := fun item => ∃ key, chars item.1 = some key) fun item t _ htext => by
            obtain ⟨key, -, hkey, -⟩ := htext
            exact ⟨key, hkey⟩
        exact fun item hitem => hall item ((List.mem_insertionSort _).mpr hitem)
      rw [Json.mapStr, dumps_obj, spaced_nil, ← sortItems_map_ofNat hkeys, List.map_map, htexts]
      rfl

/-- The encoder is that of `Canonical`, where it does not raise. -/
theorem canonicalJson_eq {d : ℕ} {v : Value} {bytes : ByteArray}
    (h : canonicalJson T d v = some bytes) :
    canonical v = true ∧ bytes = canonicalJsonPy (floatRepr T) (v.mapStr (List.map Char.ofNat)) := by
  obtain ⟨t, ht, rfl⟩ := canonicalText_of_canonicalJson h
  exact ⟨canonical_of_canonicalText ht, by rw [canonicalJsonPy, ← canonicalText_eq_dumps ht]⟩

end Companion.Kindled.Encoding

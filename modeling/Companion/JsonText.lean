import Companion.Dict
import Companion.Utf16
import Mathlib.Data.Fin.Basic
import Mathlib.Data.List.Basic
import Mathlib.Data.List.Forall2
import Mathlib.Data.List.Infix
import Mathlib.Tactic.IntervalCases
import Mathlib.Tactic.SplitIfs

/-!
# JSON text

The writer and the reader of JSON text, as `json.dumps` in ASCII and `json.loads`. A string is the
list of its UTF-16 units: a character beyond U+FFFF is written as two escapes, and two escapes are
read as one character. The floats are a parameter, with their texts.

An integer has a greatest number of digits and a value a greatest depth, beyond which there is no
text to be written, and a text is not merely malformed but cannot be loaded.

What is written is printable (`printable_dumps`) and is read back (`loads_dumps`), and no part of
the text of an object that is cut off before its end can be read (`loads_cut`). A property that a
value has once its parts have it holds of all that is read (`Inherits.loads`).
-/

namespace Companion.JsonText

abbrev Text := List Char

/-- A UTF-16 code unit. -/
abbrev CodeUnit := Fin 0x10000

instance neZero_codeUnits : NeZero 0x10000 := ⟨by decide⟩

/-- `sys.get_int_max_str_digits()` -/
def maxDigits : ℕ := 4300

/-! ## Numbers -/

/-- The text of a number, in its parts. -/
structure Numeral where
  negative : Bool
  whole : Text
  /-- The digits after the point, none where there is no point. -/
  frac : Text
  /-- The exponent from its letter on, empty where there is none. -/
  exponent : Text
  deriving DecidableEq

namespace Numeral

def sign (negative : Bool) : Text := if negative then ['-'] else []

def point (frac : Text) : Text := if frac = [] then [] else '.' :: frac

def text (n : Numeral) : Text := sign n.negative ++ (n.whole ++ (point n.frac ++ n.exponent))

def isInt (n : Numeral) : Bool := n.frac.isEmpty && n.exponent.isEmpty

/-- The characters of a number. -/
def isPart (c : Char) : Bool := c.isDigit || c ∈ ['-', '+', '.', 'e', 'E']

/-- No digit is before the first but a zero that is the only one. -/
def ValidWhole (t : Text) : Prop :=
  t = ['0'] ∨ ∃ c ds, t = c :: ds ∧ c ≠ '0' ∧ c.isDigit ∧ ∀ d ∈ ds, d.isDigit

def ValidExponent (t : Text) : Prop :=
  t = [] ∨ ∃ e s ds, t = e :: (s ++ ds) ∧ (e = 'e' ∨ e = 'E') ∧ (s = [] ∨ s = ['+'] ∨ s = ['-']) ∧
    ds ≠ [] ∧ ∀ d ∈ ds, d.isDigit

structure Valid (n : Numeral) : Prop where
  whole : ValidWhole n.whole
  frac : ∀ d ∈ n.frac, d.isDigit
  exponent : ValidExponent n.exponent

/-! `_match_number_unicode` -/

def readSign : Text → Bool × Text
  | '-' :: t => (true, t)
  | t => (false, t)

def readWhole : Text → Option (Text × Text)
  | '0' :: t => some (['0'], t)
  | c :: t =>
    if c.isDigit then some (c :: t.takeWhile Char.isDigit, t.dropWhile Char.isDigit) else none
  | [] => none

def readFrac (t : Text) : Text × Text :=
  match t with
  | '.' :: rest =>
    if rest.takeWhile Char.isDigit = [] then ([], t)
    else (rest.takeWhile Char.isDigit, rest.dropWhile Char.isDigit)
  | _ => ([], t)

def readExponentSign : Text → Text × Text
  | '+' :: t => (['+'], t)
  | '-' :: t => (['-'], t)
  | t => ([], t)

def readExponent (t : Text) : Text × Text :=
  match t with
  | [] => ([], [])
  | c :: rest =>
    if c = 'e' ∨ c = 'E' then
      let (s, digits) := readExponentSign rest
      if digits.takeWhile Char.isDigit = [] then ([], t)
      else (c :: (s ++ digits.takeWhile Char.isDigit), digits.dropWhile Char.isDigit)
    else ([], t)

def read (t : Text) : Option (Numeral × Text) :=
  let (negative, t) := readSign t
  (readWhole t).map fun (whole, t) =>
    let (frac, t) := readFrac t
    let (exponent, t) := readExponent t
    (⟨negative, whole, frac, exponent⟩, t)

end Numeral

/-- The floats, of which the finite ones have a text that reads as the same float. -/
structure Floats (F : Type) where
  /-- `float.__repr__` -/
  repr : F → Option Numeral
  /-- `float(text)` -/
  read : Numeral → F
  nan : F
  infinity : Bool → F
  valid : ∀ x n, repr x = some n → n.Valid ∧ n.isInt = false ∧ n.whole.length ≤ maxDigits
  read_repr : ∀ x n, repr x = some n → read n = x

/-- Floats of which none has a text. -/
def noFloats : Floats Unit := ⟨fun _ => none, fun _ => (), (), fun _ => (), nofun, nofun⟩

/-! ## Values -/

/-- A JSON value. -/
inductive Value (F : Type)
  | null
  | bool (b : Bool)
  | int (n : ℤ)
  | float (x : F)
  | str (s : List CodeUnit)
  | arr (items : List (Value F))
  | obj (fields : List (List CodeUnit × Value F))

/-- The items of an object, in their order. -/
abbrev Fields (F : Type) := List (List CodeUnit × Value F)

/-- No object has a key twice. -/
inductive Distinct {F : Type} : Value F → Prop
  | null : Distinct .null
  | bool (b : Bool) : Distinct (.bool b)
  | int (n : ℤ) : Distinct (.int n)
  | float (x : F) : Distinct (.float x)
  | str (s : List CodeUnit) : Distinct (.str s)
  | arr {items : List (Value F)} : (∀ v ∈ items, Distinct v) → Distinct (.arr items)
  | obj {fields : Fields F} : (fields.map Prod.fst).Nodup → (∀ f ∈ fields, Distinct f.2) →
    Distinct (.obj fields)

/-! ## The writer -/

/-- The letter of a two-character escape. -/
def shortEscape (n : ℕ) : Option Char :=
  if n = 0x22 then some '\"'
  else if n = 0x5C then some '\\'
  else if n = 0x08 then some 'b'
  else if n = 0x0C then some 'f'
  else if n = 0x0A then some 'n'
  else if n = 0x0D then some 'r'
  else if n = 0x09 then some 't'
  else none

/-- A digit in hexadecimal, in lower case. -/
def hexDigit (n : ℕ) : Char := .ofNat (if n < 10 then 0x30 + n else 0x57 + n)

/-- Four digits in hexadecimal. -/
def hex4 (n : ℕ) : Text :=
  [hexDigit (n / 0x1000 % 0x10), hexDigit (n / 0x100 % 0x10), hexDigit (n / 0x10 % 0x10),
    hexDigit (n % 0x10)]

/-- The text of a unit in `json.encoder.encode_basestring_ascii`. -/
def escape (u : CodeUnit) : Text :=
  match shortEscape u.val with
  | some e => ['\\', e]
  | none =>
    if 0x20 ≤ u.val ∧ u.val < 0x7F then [.ofNat u.val] else '\\' :: 'u' :: hex4 u.val

/-- `json.encoder.encode_basestring_ascii` -/
def encodeBasestring (s : List CodeUnit) : Text := '\"' :: (s.flatMap escape ++ ['\"'])

/-- The texts with a comma and a gap between them. -/
def spaced (gap : Text) : List Text → Text
  | [] => []
  | t :: ts => t ++ ts.flatMap fun t => ',' :: (gap ++ t)

/-- The texts with `", "` between them. -/
def join : List Text → Text
  | [] => []
  | t :: ts => t ++ ts.flatMap fun t => ',' :: ' ' :: t

/-- `int.__repr__`, in its parts. -/
def intNumeral (z : ℤ) : Numeral := ⟨decide (z < 0), Nat.toDigits 10 z.natAbs, [], []⟩

section Write

variable {F : Type} (floats : Floats F)

/-- `json.dumps(value, allow_nan=False)`, with the depth that is left. -/
def dumps : ℕ → Value F → Option Text
  | _, .null => some "null".toList
  | _, .bool b => some (if b then "true".toList else "false".toList)
  | _, .int z =>
    if (intNumeral z).whole.length ≤ maxDigits then some (intNumeral z).text else none
  | _, .float x => (floats.repr x).map Numeral.text
  | _, .str s => some (encodeBasestring s)
  | 0, .arr _ | 0, .obj _ => none
  | d + 1, .arr items => (items.mapM (dumps d)).map fun ts => '[' :: (join ts ++ [']'])
  | d + 1, .obj fields =>
    (fields.mapM fun f => (dumps d f.2).map fun t => encodeBasestring f.1 ++ ':' :: ' ' :: t).map
      fun ts => '{' :: (join ts ++ ['}'])

/-- An object that is too deep has no text. -/
example (fields : Fields F) : dumps floats 0 (.obj fields) = none := by rw [dumps]

end Write

/-! ## The reader -/

/-- Why a text is not read. -/
inductive LoadError
  /-- `JSONDecodeError` -/
  | malformed
  /-- An integer of too many digits, or a value that is too deep. -/
  | unloadable
  deriving DecidableEq

/-- What is read at the start of a text, and the rest of it. -/
abbrev Result (α : Type) := Except LoadError (α × Text)

/-- The whitespace of JSON. -/
def isBlank (c : Char) : Bool := c ∈ [' ', '\t', '\n', '\r']

def skip (t : Text) : Text := t.dropWhile isBlank

def hexValue (c : Char) : Option ℕ :=
  if '0' ≤ c ∧ c ≤ '9' then some (c.toNat - 0x30)
  else if 'a' ≤ c ∧ c ≤ 'f' then some (c.toNat - 0x57)
  else if 'A' ≤ c ∧ c ≤ 'F' then some (c.toNat - 0x37)
  else none

/-- The unit of four digits in hexadecimal. -/
def readHex4 (a b c d : Char) : Option CodeUnit :=
  (hexValue a).bind fun a => (hexValue b).bind fun b => (hexValue c).bind fun c =>
    (hexValue d).map fun d => Fin.ofNat _ (((a * 0x10 + b) * 0x10 + c) * 0x10 + d)

/-- The unit of a two-character escape. -/
def unescape (e : Char) : Option CodeUnit :=
  if e = '\"' then some 0x22
  else if e = '\\' then some 0x5C
  else if e = '/' then some 0x2F
  else if e = 'b' then some 0x08
  else if e = 'f' then some 0x0C
  else if e = 'n' then some 0x0A
  else if e = 'r' then some 0x0D
  else if e = 't' then some 0x09
  else none

/-- `scanstring`, after the opening quotation mark. -/
def scanString : Text → Option (List CodeUnit × Text)
  | [] => none
  | '\"' :: t => some ([], t)
  | '\\' :: 'u' :: a :: b :: c :: d :: t =>
    (readHex4 a b c d).bind fun u => (scanString t).map fun (s, rest) => (u :: s, rest)
  | '\\' :: e :: t => (unescape e).bind fun u => (scanString t).map fun (s, rest) => (u :: s, rest)
  | c :: t =>
    if c = '\\' ∨ c.toNat < 0x20 then none
    else (scanString t).map fun (s, rest) => ((Utf16.units c).map (Fin.ofNat _) ++ s, rest)

/-- The items that were read, set one after another. -/
def dict {F : Type} (fields : Fields F) : Fields F := (Dict.ofList fields).entries

section Read

variable {F : Type} (floats : Floats F)

/-- What an array or an object has, up to its end. There is less of it than there are characters. -/
def sequence {α : Type} (item : Text → Result α) (close : Char) : ℕ → Text → Result (List α)
  | 0, _ => .error .malformed
  | k + 1, t =>
    match item t with
    | .error e => .error e
    | .ok (v, t) =>
      match skip t with
      | [] => .error .malformed
      | c :: t =>
        if c = close then .ok ([v], t)
        else if c = ',' then (sequence item close k (skip t)).map fun (vs, t) => (v :: vs, t)
        else .error .malformed

def delimited {α : Type} (item : Text → Result α) (close : Char) (t : Text) : Result (List α) :=
  if (skip t).head? = some close then .ok ([], (skip t).tail)
  else sequence item close (skip t).length (skip t)

/-- An item of an object. -/
def member (item : Text → Result (Value F)) : Text → Result (List CodeUnit × Value F)
  | '\"' :: t =>
    match scanString t with
    | none => .error .malformed
    | some (key, t) =>
      match skip t with
      | ':' :: t => (item (skip t)).map fun (v, t) => ((key, v), t)
      | _ => .error .malformed
  | _ => .error .malformed

/-- `_parse_array`, after the bracket. -/
def parseArray (item : Text → Result (Value F)) (t : Text) : Result (Value F) :=
  (delimited item ']' t).map fun (vs, t) => (.arr vs, t)

/-- `_parse_object`, after the brace. -/
def parseObject (item : Text → Result (Value F)) (t : Text) : Result (Value F) :=
  (delimited (member item) '}' t).map fun (fields, t) => (.obj (dict fields), t)

/-- A number that was read. -/
def ofNumeral (n : Numeral) : Except LoadError (Value F) :=
  if n.isInt then
    if n.whole.length ≤ maxDigits then
      let magnitude : ℤ := Nat.ofDigitChars 10 n.whole 0
      .ok (.int (if n.negative then -magnitude else magnitude))
    else .error .unloadable
  else .ok (.float (floats.read n))

def readNumber (t : Text) : Result (Value F) :=
  match Numeral.read t with
  | none => .error .malformed
  | some (n, t) => (ofNumeral floats n).map fun v => (v, t)

/-- `scan_once`, with what is done after a brace and after a bracket. -/
def scanOnce (object array : Text → Result (Value F)) : Text → Result (Value F)
  | '\"' :: t =>
    match scanString t with
    | none => .error .malformed
    | some (s, t) => .ok (.str s, t)
  | '{' :: t => object t
  | '[' :: t => array t
  | 'n' :: 'u' :: 'l' :: 'l' :: t => .ok (.null, t)
  | 't' :: 'r' :: 'u' :: 'e' :: t => .ok (.bool true, t)
  | 'f' :: 'a' :: 'l' :: 's' :: 'e' :: t => .ok (.bool false, t)
  | 'N' :: 'a' :: 'N' :: t => .ok (.float floats.nan, t)
  | 'I' :: 'n' :: 'f' :: 'i' :: 'n' :: 'i' :: 't' :: 'y' :: t =>
    .ok (.float (floats.infinity false), t)
  | '-' :: 'I' :: 'n' :: 'f' :: 'i' :: 'n' :: 'i' :: 't' :: 'y' :: t =>
    .ok (.float (floats.infinity true), t)
  | t => readNumber floats t

/-- A value at the start of a text, with the depth that is left. -/
def scan : ℕ → Text → Result (Value F)
  | 0 => scanOnce floats (fun _ => .error .unloadable) (fun _ => .error .unloadable)
  | d + 1 => scanOnce floats (parseObject (scan d)) (parseArray (scan d))

/-- What follows a brace is read as an object. -/
example (d : ℕ) (t : Text) : scan floats (d + 1) ('{' :: t) = parseObject (scan floats d) t := by
  rw [scan, scanOnce]

/-- `json.loads` -/
def loads (d : ℕ) (t : Text) : Except LoadError (Value F) :=
  if t.head? = some '\uFEFF' then .error .malformed
  else
    match scan floats d (skip t) with
    | .error e => .error e
    | .ok (v, t) => if skip t = [] then .ok v else .error .malformed

end Read

/-! ## Strings -/

theorem hexValue_hexDigit {n : ℕ} (h : n < 0x10) : hexValue (hexDigit n) = some n := by
  have hall : ∀ n < 0x10, hexValue (hexDigit n) = some n := by decide
  exact hall n h

theorem readHex4_hex4 (u : CodeUnit) :
    readHex4 (hexDigit (u.val / 0x1000 % 0x10)) (hexDigit (u.val / 0x100 % 0x10))
      (hexDigit (u.val / 0x10 % 0x10)) (hexDigit (u.val % 0x10)) = some u := by
  have hlt : u.val < 0x10000 := u.isLt
  unfold readHex4
  rw [hexValue_hexDigit (by omega), hexValue_hexDigit (by omega), hexValue_hexDigit (by omega),
    hexValue_hexDigit (by omega)]
  simp only [Option.bind_some, Option.map_some, Option.some.injEq]
  apply Fin.ext
  rw [Fin.val_ofNat]
  omega

theorem unescape_shortEscape {u : CodeUnit} {e : Char} (h : shortEscape u.val = some e) :
    e ≠ 'u' ∧ unescape e = some u := by
  unfold shortEscape at h
  split_ifs at h with h1 h2 h3 h4 h5 h6 h7
  all_goals
    obtain rfl := Option.some.inj h
    refine ⟨by decide, congrArg some (Fin.ext ?_)⟩
    simp [*]

/-- A unit is written as a short escape, as itself, or as a long escape. -/
theorem escape_cases (u : CodeUnit) :
    (∃ e, shortEscape u.val = some e ∧ escape u = ['\\', e]) ∨
      (u.val ≠ 0x22 ∧ u.val ≠ 0x5C ∧ 0x20 ≤ u.val ∧ u.val < 0x7F ∧ escape u = [.ofNat u.val]) ∨
      escape u = '\\' :: 'u' :: hex4 u.val := by
  cases hshort : shortEscape u.val with
  | some e => exact .inl ⟨e, rfl, by simp only [escape, hshort]⟩
  | none =>
    by_cases hprint : 0x20 ≤ u.val ∧ u.val < 0x7F
    · refine .inr (.inl ⟨?_, ?_, hprint.1, hprint.2, by simp only [escape, hshort, if_pos hprint]⟩)
      · intro hu
        rw [hu] at hshort
        exact absurd hshort (by decide)
      · intro hu
        rw [hu] at hshort
        exact absurd hshort (by decide)
    · exact .inr (.inr (by simp only [escape, hshort, if_neg hprint]))

theorem toNat_ofNat_of_lt {n : ℕ} (h : n < 0x7F) : (Char.ofNat n).toNat = n := by
  have hall : ∀ n < 0x7F, (Char.ofNat n).toNat = n := by decide
  exact hall n h

theorem scanString_escape (u : CodeUnit) (t : Text) :
    scanString (escape u ++ t) = (scanString t).map fun (s, rest) => (u :: s, rest) := by
  rcases escape_cases u with ⟨e, he, hu⟩ | ⟨hquote, hslash, hlow, hhigh, hu⟩ | hu
  · obtain ⟨hne, hescape⟩ := unescape_shortEscape he
    rw [hu, List.cons_append, List.singleton_append, scanString, hescape, Option.bind_some]
    rintro a b c d t rfl
    exact absurd rfl hne
  · have hc : (Char.ofNat u.val).toNat = u.val := toNat_ofNat_of_lt hhigh
    have hne : ∀ c : Char, c.toNat ≠ u.val → Char.ofNat u.val ≠ c := by
      rintro c hne heq
      exact hne (by rw [← heq, hc])
    have hnq := hne '\"' hquote.symm
    have hns := hne '\\' hslash.symm
    have hlow' : ¬ (Char.ofNat u.val).toNat < 0x20 := by omega
    have hunits : (Utf16.units (Char.ofNat u.val)).map (Fin.ofNat 0x10000) = [u] := by
      rw [Utf16.units_bmp (by omega), hc, List.map_singleton]
      exact congrArg (fun x => [x]) (Fin.ofNat_val_eq_self u)
    rw [hu, List.singleton_append, scanString.eq_5 _ _ (by simpa using hnq)
      (by intros; contradiction) (by intros; contradiction), if_neg (by simp [hns, hlow']), hunits]
    rfl
  · rw [hu, hex4]
    simp only [List.cons_append, List.nil_append]
    rw [scanString, readHex4_hex4, Option.bind_some]

/-- A string is read up to its closing quotation mark. -/
theorem scanString_encode (s : List CodeUnit) (rest : Text) :
    scanString (s.flatMap escape ++ '\"' :: rest) = some (s, rest) := by
  induction s with
  | nil => simp [scanString]
  | cons u s ih => rw [List.flatMap_cons, List.append_assoc, scanString_escape, ih, Option.map_some]

/-- Of a text in two parts, a first part of it ends within the first, or in the second. -/
theorem cut_append {α : Type} {p a b : List α} (h : p <+: a ++ b) :
    (p <+: a ∧ p ≠ a) ∨ ∃ q, p = a ++ q ∧ q <+: b := by
  by_cases hp : a <+: p
  · obtain ⟨q, rfl⟩ := hp
    exact .inr ⟨q, rfl, (List.prefix_append_right_inj a).mp h⟩
  · rcases List.prefix_or_prefix_of_prefix h (List.prefix_append a b) with hpa | hap
    · refine .inl ⟨hpa, ?_⟩
      rintro rfl
      exact hp List.prefix_rfl
    · exact absurd hap hp

/-- A text that ends within an escape has no string. -/
theorem scanString_escape_cut {u : CodeUnit} {p : Text} (h : p <+: escape u) (hne : p ≠ escape u) :
    scanString p = none := by
  rcases escape_cases u with ⟨e, -, hu⟩ | ⟨-, -, -, -, hu⟩ | hu
  all_goals
    rw [hu] at h hne
    simp only [hex4, List.prefix_cons_iff, List.prefix_nil] at h
  · rcases h with rfl | ⟨q, rfl, rfl | ⟨q, rfl, rfl⟩⟩
    · rfl
    · simp [scanString]
    · exact absurd rfl hne
  · rcases h with rfl | ⟨q, rfl, rfl⟩
    · rfl
    · exact absurd rfl hne
  · simp only [hex4] at hne
    rcases h with rfl | ⟨q, rfl, rfl | ⟨q, rfl, rfl | ⟨q, rfl, rfl | ⟨q, rfl, rfl | ⟨q, rfl, rfl |
      ⟨q, rfl, rfl⟩⟩⟩⟩⟩⟩
    case inr.inr.inr.inr.inr.inr => exact absurd rfl hne
    all_goals simp [scanString, unescape]

theorem scanString_cut {s : List CodeUnit} {p : Text} (h : p <+: s.flatMap escape ++ ['\"'])
    (hne : p ≠ s.flatMap escape ++ ['\"']) : scanString p = none := by
  induction s generalizing p with
  | nil =>
    simp only [List.flatMap_nil, List.nil_append, List.prefix_cons_iff, List.prefix_nil] at h hne
    rcases h with rfl | ⟨q, rfl, rfl⟩
    · rfl
    · exact absurd rfl hne
  | cons u s ih =>
    rw [List.flatMap_cons, List.append_assoc] at h hne
    rcases cut_append h with ⟨hcut, hneu⟩ | ⟨q, rfl, hq⟩
    · exact scanString_escape_cut hcut hneu
    · have hq' : q ≠ s.flatMap escape ++ ['\"'] := fun heq => hne (by rw [heq])
      rw [scanString_escape, ih hq hq', Option.map_none]

/-! ## The text of a number -/

/-- A text does not go on with a character. -/
def Stops (p : Char → Bool) (t : Text) : Prop := ∀ c ∈ t.head?, p c = false

theorem stops_append {p : Char → Bool} {s t : Text} (hs : Stops p s) (ht : s = [] → Stops p t) :
    Stops p (s ++ t) := by
  cases s with
  | nil => exact ht rfl
  | cons c s => exact hs

/-- Digits are read up to the first character that is none. -/
theorem takeWhile_digits {ds rest : Text} (hds : ∀ d ∈ ds, d.isDigit)
    (hrest : Stops Char.isDigit rest) :
    (ds ++ rest).takeWhile Char.isDigit = ds ∧ (ds ++ rest).dropWhile Char.isDigit = rest := by
  have hstop : rest.takeWhile Char.isDigit = [] ∧ rest.dropWhile Char.isDigit = rest := by
    cases rest with
    | nil => exact ⟨rfl, rfl⟩
    | cons c rest =>
      have hc : c.isDigit = false := hrest c rfl
      simp [hc]
  rw [List.takeWhile_append_of_pos hds, List.dropWhile_append_of_pos hds, hstop.1, hstop.2,
    List.append_nil]
  exact ⟨rfl, rfl⟩

/-- Digits at the start of a text are within its first part, where no digit follows it. -/
theorem length_le_of_digits {ds s t : Text} (h : ds <+: s ++ t) (hds : ∀ d ∈ ds, d.isDigit)
    (ht : Stops Char.isDigit t) : ds.length ≤ s.length := by
  rcases cut_append h with ⟨hs, -⟩ | ⟨q, rfl, q', rfl⟩
  · exact hs.length_le
  · cases q with
    | nil => rw [List.append_nil]
    | cons c q =>
      have hdigit : c.isDigit = true := hds c (List.mem_append_right _ List.mem_cons_self)
      have hnot : c.isDigit = false := ht c rfl
      rw [hdigit] at hnot
      cases hnot

namespace Numeral

theorem isPart_of_isDigit {c : Char} (h : c.isDigit) : isPart c := by
  rw [isPart, h, Bool.true_or]

theorem ValidWhole.digits {t : Text} (h : ValidWhole t) : t ≠ [] ∧ ∀ d ∈ t, d.isDigit := by
  rcases h with rfl | ⟨c, ds, rfl, -, hc, hds⟩
  · exact ⟨by simp, List.forall_mem_singleton.mpr (by decide)⟩
  · exact ⟨by simp, List.forall_mem_cons.mpr ⟨hc, hds⟩⟩

theorem readWhole_append {t rest : Text} (h : ValidWhole t) (hrest : Stops Char.isDigit rest) :
    readWhole (t ++ rest) = some (t, rest) := by
  rcases h with rfl | ⟨c, ds, rfl, hne, hc, hds⟩
  · rfl
  · obtain ⟨htake, hdrop⟩ := takeWhile_digits hds hrest
    rw [List.cons_append, readWhole, if_pos hc, htake, hdrop]
    exact hne

theorem readFrac_append {t rest : Text} (h : ∀ d ∈ t, d.isDigit)
    (hrest : Stops (fun c => c.isDigit || c == '.') rest) :
    readFrac (point t ++ rest) = (t, rest) := by
  have hdigit : Stops Char.isDigit rest := by
    intro c hc
    have hboth := hrest c hc
    simp only [Bool.or_eq_false_iff] at hboth
    exact hboth.1
  by_cases ht : t = []
  · subst ht
    cases rest with
    | nil => rfl
    | cons c rest =>
      have hc := hrest c rfl
      simp only [Bool.or_eq_false_iff, beq_eq_false_iff_ne] at hc
      have hpoint : point [] ++ c :: rest = c :: rest := rfl
      rw [hpoint, readFrac]
      intro rest' heq
      exact hc.2 (List.cons.inj heq).1
  · obtain ⟨htake, hdrop⟩ := takeWhile_digits h hdigit
    rw [point, if_neg ht, List.cons_append, readFrac, htake, hdrop, if_neg ht]

theorem readExponent_append {t rest : Text} (h : ValidExponent t)
    (hrest : Stops (fun c => c.isDigit || c == 'e' || c == 'E') rest) :
    readExponent (t ++ rest) = (t, rest) := by
  have hdigit : Stops Char.isDigit rest := by
    intro c hc
    have hboth := hrest c hc
    simp only [Bool.or_eq_false_iff] at hboth
    exact hboth.1.1
  rcases h with rfl | ⟨e, s, ds, rfl, he, hs, hne, hds⟩
  · cases rest with
    | nil => rfl
    | cons c rest =>
      have hc := hrest c rfl
      simp only [Bool.or_eq_false_iff, beq_eq_false_iff_ne] at hc
      have hnot : ¬ (c = 'e' ∨ c = 'E') := not_or.mpr ⟨hc.1.2, hc.2⟩
      rw [List.nil_append, readExponent, if_neg hnot]
  · obtain ⟨htake, hdrop⟩ := takeWhile_digits hds hdigit
    have hsign : readExponentSign (s ++ (ds ++ rest)) = (s, ds ++ rest) := by
      rcases hs with rfl | rfl | rfl
      · cases ds with
        | nil => exact absurd rfl hne
        | cons d ds =>
          have hd : d.isDigit := hds d List.mem_cons_self
          have hplus : d ≠ '+' := by rintro rfl; exact absurd hd (by decide)
          have hminus : d ≠ '-' := by rintro rfl; exact absurd hd (by decide)
          rw [List.nil_append, List.cons_append, readExponentSign]
          · exact fun t heq => hplus (List.cons.inj heq).1
          · exact fun t heq => hminus (List.cons.inj heq).1
      · rfl
      · rfl
    rw [List.cons_append, List.append_assoc, readExponent, if_pos he, hsign]
    simp only [htake, hdrop, if_neg hne]

/-- The text of a number is read up to a character that is none of a number's. -/
theorem read_text {n : Numeral} (h : n.Valid) {rest : Text} (hrest : Stops isPart rest) :
    read (n.text ++ rest) = some (n, rest) := by
  obtain ⟨hne, hdigits⟩ := h.whole.digits
  have hstops : ∀ c ∈ rest.head?, c.isDigit = false ∧ c ≠ '.' ∧ c ≠ 'e' ∧ c ≠ 'E' := by
    intro c hc
    have hpart := hrest c hc
    simp only [isPart, Bool.or_eq_false_iff, decide_eq_false_iff_not, List.mem_cons, not_or] at hpart
    exact ⟨hpart.1, hpart.2.2.2.1, hpart.2.2.2.2.1, hpart.2.2.2.2.2.1⟩
  have hexponent : Stops (fun c => c.isDigit || c == 'e' || c == 'E') rest := by
    intro c hc
    obtain ⟨hd, -, he, hE⟩ := hstops c hc
    simp [hd, he, hE]
  have hfrac : Stops (fun c => c.isDigit || c == '.') (n.exponent ++ rest) := by
    refine stops_append ?_ fun _ c hc => ?_
    · rcases h.exponent with heq | ⟨e, s, ds, heq, rfl | rfl, -⟩ <;> rw [heq] <;> simp [Stops]
    · obtain ⟨hd, hp, -, -⟩ := hstops c hc
      simp [hd, hp]
  have hwhole : Stops Char.isDigit (point n.frac ++ (n.exponent ++ rest)) := by
    refine stops_append ?_ fun _ c hc => ?_
    · unfold point
      split_ifs <;> simp [Stops]
    · have hboth := hfrac c hc
      simp only [Bool.or_eq_false_iff] at hboth
      exact hboth.1
  have hsign : readSign (sign n.negative ++ (n.whole ++ (point n.frac ++ (n.exponent ++ rest)))) =
      (n.negative, n.whole ++ (point n.frac ++ (n.exponent ++ rest))) := by
    cases hn : n.negative with
    | true => rfl
    | false =>
      cases hw : n.whole with
      | nil => exact absurd hw hne
      | cons c w =>
        have hc : c.isDigit := hdigits c (hw ▸ List.mem_cons_self)
        rw [sign, if_neg (by decide), List.nil_append, List.cons_append, readSign]
        rintro t heq
        rw [(List.cons.inj heq).1] at hc
        exact absurd hc (by decide)
  simp only [text, List.append_assoc]
  rw [read, hsign]
  simp only [readWhole_append h.whole hwhole, Option.map_some, readFrac_append h.frac hfrac,
    readExponent_append h.exponent hexponent]

theorem readSign_eq {t rest : Text} {negative : Bool} (h : readSign t = (negative, rest)) :
    t = sign negative ++ rest := by
  unfold readSign at h
  split at h
  · obtain ⟨rfl, rfl⟩ := Prod.mk.inj h
    rfl
  · obtain ⟨rfl, rfl⟩ := Prod.mk.inj h
    rfl

theorem readWhole_eq {t whole rest : Text} (h : readWhole t = some (whole, rest)) :
    t = whole ++ rest ∧ whole ≠ [] ∧ ∀ d ∈ whole, d.isDigit := by
  unfold readWhole at h
  split at h
  · obtain ⟨rfl, rfl⟩ := Prod.mk.inj (Option.some.inj h)
    exact ⟨rfl, by simp, List.forall_mem_singleton.mpr (by decide)⟩
  · rename_i c t _
    split_ifs at h with hc
    obtain ⟨rfl, rfl⟩ := Prod.mk.inj (Option.some.inj h)
    refine ⟨?_, by simp, List.forall_mem_cons.mpr ⟨hc, fun d hd => ?_⟩⟩
    · rw [List.cons_append, List.takeWhile_append_dropWhile]
    · exact List.all_eq_true.mp List.all_takeWhile d hd
  · cases h

theorem readFrac_eq {t frac rest : Text} (h : readFrac t = (frac, rest)) :
    t = point frac ++ rest := by
  unfold readFrac at h
  split at h
  · rename_i rest'
    split_ifs at h with hnone
    · obtain ⟨rfl, rfl⟩ := Prod.mk.inj h
      rfl
    · obtain ⟨rfl, rfl⟩ := Prod.mk.inj h
      rw [point, if_neg hnone, List.cons_append, List.takeWhile_append_dropWhile]
  · obtain ⟨rfl, rfl⟩ := Prod.mk.inj h
    rfl

theorem readExponentSign_eq (t : Text) :
    t = (readExponentSign t).1 ++ (readExponentSign t).2 := by
  unfold readExponentSign
  split <;> rfl

theorem readExponent_eq {t exponent rest : Text} (h : readExponent t = (exponent, rest)) :
    t = exponent ++ rest := by
  unfold readExponent at h
  split at h
  · obtain ⟨rfl, rfl⟩ := Prod.mk.inj h
    rfl
  · rename_i c t
    dsimp only at h
    split_ifs at h
    · obtain ⟨rfl, rfl⟩ := Prod.mk.inj h
      rfl
    · obtain ⟨rfl, rfl⟩ := Prod.mk.inj h
      rw [List.cons_append, List.append_assoc, List.takeWhile_append_dropWhile,
        ← readExponentSign_eq]
    · obtain ⟨rfl, rfl⟩ := Prod.mk.inj h
      rfl

/-- What is read as a number is the text of it. -/
theorem read_eq {t rest : Text} {n : Numeral} (h : read t = some (n, rest)) :
    t = n.text ++ rest ∧ n.whole ≠ [] ∧ ∀ d ∈ n.whole, d.isDigit := by
  rw [read] at h
  cases hsign : readSign t with
  | mk negative t₁ =>
    rw [hsign] at h
    obtain ⟨⟨whole, t₂⟩, hwhole, hn⟩ := Option.map_eq_some_iff.mp h
    cases hfrac : readFrac t₂ with
    | mk frac t₃ =>
      cases hexponent : readExponent t₃ with
      | mk exponent t₄ =>
        simp only [hfrac, hexponent] at hn
        obtain ⟨rfl, rfl⟩ := Prod.mk.inj hn
        obtain ⟨heq, hne, hdigits⟩ := readWhole_eq hwhole
        refine ⟨?_, hne, hdigits⟩
        rw [readSign_eq hsign, heq, readFrac_eq hfrac, readExponent_eq hexponent]
        simp only [text, List.append_assoc]

/-- The text of a number is made of the characters of one. -/
theorem isPart_of_mem_text {n : Numeral} (h : n.Valid) {c : Char} (hc : c ∈ n.text) : isPart c := by
  obtain ⟨-, hdigits⟩ := h.whole.digits
  simp only [text, List.mem_append] at hc
  rcases hc with hc | hc | hc | hc
  · unfold sign at hc
    split_ifs at hc
    · rw [List.mem_singleton.mp hc]
      decide
    · cases hc
  · exact isPart_of_isDigit (hdigits c hc)
  · unfold point at hc
    split_ifs at hc
    · cases hc
    · rcases List.mem_cons.mp hc with rfl | hc
      · decide
      · exact isPart_of_isDigit (h.frac c hc)
  · rcases h.exponent with heq | ⟨e, s, ds, heq, he, hs, -, hds⟩
    · rw [heq] at hc
      cases hc
    · rw [heq] at hc
      rcases List.mem_cons.mp hc with rfl | hc
      · rcases he with rfl | rfl <;> decide
      · rcases List.mem_append.mp hc with hc | hc
        · rcases hs with rfl | rfl | rfl
          · cases hc
          · rw [List.mem_singleton.mp hc]
            decide
          · rw [List.mem_singleton.mp hc]
            decide
        · exact isPart_of_isDigit (hds c hc)

/-- A number of which only a first part is there is no number, or one with no more digits before the
point, and characters of a number after it. -/
theorem read_cut {n n' : Numeral} (h : n.Valid) {p rest : Text} (hp : p <+: n.text)
    (hread : read p = some (n', rest)) :
    n'.whole.length ≤ n.whole.length ∧ ∀ c ∈ rest, isPart c := by
  obtain ⟨rfl, hne', hdigits'⟩ := read_eq hread
  obtain ⟨hne, hdigits⟩ := h.whole.digits
  have hstop : Stops Char.isDigit (point n.frac ++ n.exponent) := by
    refine stops_append ?_ fun _ => ?_
    · unfold point
      split_ifs <;> simp [Stops]
    · rcases h.exponent with heq | ⟨e, s, ds, heq, rfl | rfl, -⟩ <;> rw [heq] <;> simp [Stops]
  -- The two have the same sign, since a digit comes next.
  have hwhole : n'.whole <+: n.whole ++ (point n.frac ++ n.exponent) := by
    have hpre : n'.text <+: n.text := (List.prefix_append _ _).trans hp
    simp only [text] at hpre
    obtain ⟨c, w, hw⟩ := List.exists_cons_of_ne_nil hne
    obtain ⟨c', w', hw'⟩ := List.exists_cons_of_ne_nil hne'
    have hc : c.isDigit := hdigits c (hw ▸ List.mem_cons_self)
    have hc' : c'.isDigit := hdigits' c' (hw' ▸ List.mem_cons_self)
    cases hs : n.negative with
    | false =>
      cases hs' : n'.negative with
      | false =>
        rw [hs, hs'] at hpre
        exact (List.prefix_append _ _).trans hpre
      | true =>
        rw [hs, hs', hw] at hpre
        have hhead : '-' = c := (List.cons_prefix_cons.mp hpre).1
        rw [← hhead] at hc
        exact absurd hc (by decide)
    | true =>
      cases hs' : n'.negative with
      | false =>
        rw [hs, hs', hw'] at hpre
        have hhead : c' = '-' := (List.cons_prefix_cons.mp hpre).1
        rw [hhead] at hc'
        exact absurd hc' (by decide)
      | true =>
        rw [hs, hs'] at hpre
        have hrest := (List.cons_prefix_cons.mp hpre).2
        exact (List.prefix_append _ _).trans hrest
  refine ⟨length_le_of_digits hwhole hdigits' hstop, fun c hc => ?_⟩
  exact isPart_of_mem_text h (hp.subset (List.mem_append_right _ hc))

end Numeral

/-! ## Sequences -/

section Sequences

variable {α : Type}

/-- What ends a value within another. -/
def Ended (rest : Text) : Prop := ∀ c ∈ rest.head?, c = ',' ∨ c = ']' ∨ c = '}'

/-- The text is read as the value. -/
def Reads (item : Text → Result α) (t : Text) (v : α) : Prop :=
  ∀ rest, Ended rest → item (t ++ rest) = .ok (v, rest)

/-- A first part of the text is not read, or as a number with characters of a number after it. -/
def Cuts (item : Text → Result α) (t : Text) : Prop :=
  ∀ p, p <+: t → p ≠ t →
    item p = .error .malformed ∨ ∃ v rest, item p = .ok (v, rest) ∧ ∀ c ∈ rest, Numeral.isPart c

/-- The text does not start with a blank, or with an end. -/
def Solid (t : Text) : Prop := ∃ c rest, t = c :: rest ∧ isBlank c = false ∧ c ≠ ']' ∧ c ≠ '}'

theorem skip_of_stops {t : Text} (h : Stops isBlank t) : skip t = t := by
  cases t with
  | nil => rfl
  | cons c t =>
    have hc : isBlank c = false := h c rfl
    rw [skip, List.dropWhile_cons_of_neg (by simp [hc])]

theorem skip_space (t : Text) : skip (' ' :: t) = skip t := rfl

theorem Solid.skip_append {t : Text} (h : Solid t) (rest : Text) : skip (t ++ rest) = t ++ rest := by
  obtain ⟨c, t, rfl, hc, -⟩ := h
  exact skip_of_stops fun c' hc' => by rwa [← Option.some.inj hc']

/-- A part of a text that does not start with a blank does not either. -/
theorem Solid.skip_prefix {t p rest : Text} (h : Solid t) (hp : p <+: t ++ rest) : skip p = p := by
  obtain ⟨c, t, rfl, hc, -⟩ := h
  cases p with
  | nil => rfl
  | cons c' p =>
    obtain rfl := (List.cons_prefix_cons.mp hp).1
    exact skip_of_stops fun c'' hc'' => by rwa [← Option.some.inj hc'']

theorem ended_cons {c : Char} (h : c = ',' ∨ c = ']' ∨ c = '}') (rest : Text) : Ended (c :: rest) := by
  intro c' hc'
  rwa [← Option.some.inj hc']

theorem ended_nil : Ended [] := nofun

theorem join_cons_cons (t t' : Text) (ts : List Text) :
    join (t :: t' :: ts) = t ++ ',' :: ' ' :: join (t' :: ts) := rfl

theorem join_eq_spaced (ts : List Text) : join ts = spaced [' '] ts := by
  cases ts <;> rfl

theorem spaced_cons_cons (gap t t' : Text) (ts : List Text) :
    spaced gap (t :: t' :: ts) = t ++ ',' :: (gap ++ spaced gap (t' :: ts)) := by
  simp only [spaced, List.flatMap_cons, List.cons_append, List.append_assoc]

theorem length_le_length_spaced {gap : Text} {ts : List Text} (h : ∀ t ∈ ts, Solid t) :
    ts.length ≤ (spaced gap ts).length := by
  induction ts with
  | nil => exact Nat.zero_le _
  | cons t ts ih =>
    obtain ⟨⟨c, t, rfl, -⟩, hts⟩ := List.forall_mem_cons.mp h
    have hrest := ih hts
    cases ts with
    | nil => simp [spaced]
    | cons t' ts =>
      rw [spaced_cons_cons]
      simp only [List.length_cons, List.length_append] at hrest ⊢
      omega

theorem Solid.skip_gap {t : Text} (h : Solid t) {gap : Text} (hgap : ∀ c ∈ gap, isBlank c)
    (rest : Text) : skip (gap ++ (t ++ rest)) = t ++ rest := by
  rw [skip, List.dropWhile_append_of_pos hgap]
  exact h.skip_append rest

variable {item : Text → Result α} {close : Char} {gap : Text}

theorem sequence_spaced (hgap : ∀ c ∈ gap, isBlank c) (hclose : close = ']' ∨ close = '}')
    {ts : List Text} {vs : List α} (h : List.Forall₂ (Reads item) ts vs)
    (hsolid : ∀ t ∈ ts, Solid t) (hne : ts ≠ []) {k : ℕ} (hk : ts.length ≤ k) (rest : Text) :
    sequence item close k (spaced gap ts ++ close :: rest) = .ok (vs, rest) := by
  have hblank : skip (close :: rest) = close :: rest :=
    skip_of_stops fun c hc => by
      rw [← Option.some.inj hc]
      rcases hclose with rfl | rfl <;> decide
  have hcomma : ',' ≠ close := by rcases hclose with rfl | rfl <;> decide
  induction h generalizing k with
  | nil => exact absurd rfl hne
  | @cons t v ts vs hread hrest ih =>
    obtain ⟨k, rfl⟩ : ∃ k', k = k' + 1 := Nat.exists_eq_succ_of_ne_zero (by
      rw [List.length_cons] at hk
      omega)
    cases hrest with
    | nil =>
      have hitem : item (t ++ close :: rest) = .ok (v, close :: rest) :=
        hread _ (ended_cons (.inr hclose) rest)
      have hspaced : spaced gap [t] = t := List.append_nil t
      rw [hspaced, sequence, hitem]
      simp only [hblank, if_true]
    | @cons t' v' ts vs hread' hrest' =>
      have hnext := ih (fun t ht => hsolid t (List.mem_cons_of_mem _ ht)) (List.cons_ne_nil _ _)
        (Nat.le_of_succ_le_succ hk)
      have hsolid' : Solid t' := hsolid t' (List.mem_cons_of_mem _ List.mem_cons_self)
      have htail : skip (gap ++ (spaced gap (t' :: ts) ++ close :: rest)) =
          spaced gap (t' :: ts) ++ close :: rest := by
        rw [spaced, List.append_assoc, hsolid'.skip_gap hgap]
      have hitem := hread (',' :: (gap ++ (spaced gap (t' :: ts) ++ close :: rest)))
        (ended_cons (.inl rfl) _)
      have hskip : skip (',' :: (gap ++ (spaced gap (t' :: ts) ++ close :: rest))) =
          ',' :: (gap ++ (spaced gap (t' :: ts) ++ close :: rest)) := rfl
      rw [spaced_cons_cons, List.append_assoc, List.cons_append, List.append_assoc, sequence, hitem]
      simp only [hskip, if_neg hcomma, if_true, htail, hnext]
      rfl

/-- After a part of a number, there is no end and no separator. -/
theorem head_of_isPart {rest : Text} (h : ∀ c ∈ rest, Numeral.isPart c) :
    skip rest = rest ∧ ∀ c t, rest = c :: t → c ≠ ',' ∧ c ≠ ']' ∧ c ≠ '}' := by
  cases rest with
  | nil => exact ⟨rfl, nofun⟩
  | cons c t =>
    have hc : Numeral.isPart c := h c List.mem_cons_self
    refine ⟨skip_of_stops fun c' hc' => ?_, fun c' t' heq => ?_⟩
    · rw [← Option.some.inj hc']
      by_contra hblank
      simp only [Bool.not_eq_false, isBlank, decide_eq_true_eq, List.mem_cons, List.not_mem_nil,
        or_false] at hblank
      rcases hblank with rfl | rfl | rfl | rfl <;> exact absurd hc (by decide)
    · obtain ⟨rfl, -⟩ := List.cons.inj heq
      refine ⟨?_, ?_, ?_⟩ <;> rintro rfl <;> exact absurd hc (by decide)

theorem sequence_cut (hclose : close = ']' ∨ close = '}') {ts : List Text} {vs : List α}
    (h : List.Forall₂ (Reads item) ts vs) (hcuts : ∀ t ∈ ts, Cuts item t)
    (hsolid : ∀ t ∈ ts, Solid t) (k : ℕ) {p : Text} (hp : p <+: join ts ++ [close])
    (hne : p ≠ join ts ++ [close]) (hts : ts ≠ []) :
    sequence item close k p = .error .malformed := by
  have hcomma : ',' ≠ close := by rcases hclose with rfl | rfl <;> decide
  induction h generalizing k p with
  | nil => exact absurd rfl hts
  | @cons t v ts vs hread hrest ih =>
    obtain ⟨hcut, hcutsrest⟩ := List.forall_mem_cons.mp hcuts
    cases k with
    | zero => rfl
    | succ k =>
      -- The text ends within the first item.
      have hwithin : p <+: t → p ≠ t → sequence item close (k + 1) p = .error .malformed := by
        intro hpt hnept
        rcases hcut p hpt hnept with herror | ⟨w, r, hok, hpart⟩
        · rw [sequence, herror]
        · obtain ⟨hskip, hhead⟩ := head_of_isPart hpart
          rw [sequence, hok]
          simp only [hskip]
          cases r with
          | nil => rfl
          | cons c r =>
            obtain ⟨hc, hbracket, hbrace⟩ := hhead c r rfl
            have hcc : c ≠ close := by rcases hclose with rfl | rfl <;> assumption
            simp only [if_neg hcc, if_neg hc]
      -- It ends after it.
      have hafter : p = t → sequence item close (k + 1) p = .error .malformed := by
        rintro rfl
        have hitem := hread [] ended_nil
        rw [List.append_nil] at hitem
        rw [sequence, hitem]
        rfl
      cases hrest with
      | nil =>
        have hjoin : join [t] = t := List.append_nil t
        rw [hjoin] at hp hne
        rcases cut_append hp with ⟨hpt, hnept⟩ | ⟨q, rfl, hq⟩
        · exact hwithin hpt hnept
        · rw [List.prefix_cons_iff] at hq
          rcases hq with rfl | ⟨q, rfl, hq⟩
          · exact hafter (List.append_nil t)
          · exact absurd (by rw [List.prefix_nil.mp hq]) hne
      | @cons t' v' ts vs hread' hrest' =>
        have hsolid' : Solid t' := hsolid t' (List.mem_cons_of_mem _ List.mem_cons_self)
        have hnext : ∀ q, q <+: join (t' :: ts) ++ [close] → q ≠ join (t' :: ts) ++ [close] →
            sequence item close k q = .error .malformed := fun q hq hneq =>
          ih hcutsrest (fun t ht => hsolid t (List.mem_cons_of_mem _ ht)) k hq hneq
            (List.cons_ne_nil _ _)
        rw [join_cons_cons, List.append_assoc, List.cons_append, List.cons_append] at hp hne
        rcases cut_append hp with ⟨hpt, hnept⟩ | ⟨q, rfl, hq⟩
        · exact hwithin hpt hnept
        · rw [List.prefix_cons_iff] at hq
          rcases hq with rfl | ⟨q, rfl, hq⟩
          · exact hafter (List.append_nil t)
          · have hitem := hread (',' :: q) (ended_cons (.inl rfl) q)
            have hskip : skip (',' :: q) = ',' :: q := rfl
            have herror : sequence item close k (skip q) = .error .malformed := by
              rw [List.prefix_cons_iff] at hq
              rcases hq with rfl | ⟨q, rfl, hq⟩
              · exact hnext [] (List.nil_prefix) (by simp)
              · have hq' : q <+: t' ++ ((ts.flatMap fun t => ',' :: ' ' :: t) ++ [close]) := by
                  rwa [join, List.append_assoc] at hq
                rw [skip_space, hsolid'.skip_prefix hq']
                exact hnext q hq fun heq => hne (by rw [heq])
            rw [sequence, hitem]
            simp only [hskip, if_neg hcomma, if_true, herror]
            rfl

theorem delimited_spaced (hgap : ∀ c ∈ gap, isBlank c) (hclose : close = ']' ∨ close = '}')
    {ts : List Text} {vs : List α} (h : List.Forall₂ (Reads item) ts vs)
    (hsolid : ∀ t ∈ ts, Solid t) (rest : Text) :
    delimited item close (spaced gap ts ++ close :: rest) = .ok (vs, rest) := by
  cases hts : ts with
  | nil =>
    subst hts
    obtain rfl := List.forall₂_nil_left_iff.mp h
    rcases hclose with rfl | rfl <;> rfl
  | cons t ts' =>
    subst hts
    have ht : Solid t := hsolid t List.mem_cons_self
    have hskip : skip (spaced gap (t :: ts') ++ close :: rest) =
        spaced gap (t :: ts') ++ close :: rest := by
      rw [spaced, List.append_assoc, ht.skip_append]
    have hhead : (spaced gap (t :: ts') ++ close :: rest).head? ≠ some close := by
      obtain ⟨c, t, rfl, -, hbracket, hbrace⟩ := ht
      intro heq
      have hc : c = close := Option.some.inj heq
      rcases hclose with rfl | rfl <;> contradiction
    have hlength : (t :: ts').length ≤ (spaced gap (t :: ts')).length :=
      length_le_length_spaced hsolid
    rw [delimited, hskip, if_neg hhead]
    refine sequence_spaced hgap hclose h hsolid (List.cons_ne_nil _ _) ?_ rest
    rw [List.length_append]
    omega

theorem delimited_join (hclose : close = ']' ∨ close = '}') {ts : List Text} {vs : List α}
    (h : List.Forall₂ (Reads item) ts vs) (hsolid : ∀ t ∈ ts, Solid t) (rest : Text) :
    delimited item close (join ts ++ close :: rest) = .ok (vs, rest) := by
  rw [join_eq_spaced]
  exact delimited_spaced (List.forall_mem_singleton.mpr rfl) hclose h hsolid rest

theorem delimited_cut (hclose : close = ']' ∨ close = '}') {ts : List Text} {vs : List α}
    (h : List.Forall₂ (Reads item) ts vs) (hcuts : ∀ t ∈ ts, Cuts item t)
    (hsolid : ∀ t ∈ ts, Solid t) {p : Text} (hp : p <+: join ts ++ [close])
    (hne : p ≠ join ts ++ [close]) : delimited item close p = .error .malformed := by
  cases hts : ts with
  | nil =>
    subst hts
    have hp' : p <+: [close] := hp
    rw [List.prefix_cons_iff] at hp'
    rcases hp' with rfl | ⟨q, rfl, hq⟩
    · rfl
    · exact absurd (by rw [List.prefix_nil.mp hq]; rfl) hne
  | cons t ts' =>
    subst hts
    have ht : Solid t := hsolid t List.mem_cons_self
    have hp' : p <+: t ++ ((ts'.flatMap fun t => ',' :: ' ' :: t) ++ [close]) := by
      rwa [join, List.append_assoc] at hp
    have hhead : p.head? ≠ some close := by
      obtain ⟨c, t, rfl, -, hbracket, hbrace⟩ := ht
      cases p with
      | nil => nofun
      | cons c' p =>
        obtain rfl := (List.cons_prefix_cons.mp hp').1
        intro heq
        have hc : c' = close := Option.some.inj heq
        rcases hclose with rfl | rfl <;> contradiction
    rw [delimited, ht.skip_prefix hp', if_neg hhead]
    exact sequence_cut hclose h hcuts hsolid _ hp hne (List.cons_ne_nil _ _)

end Sequences

/-! ## Values -/

section Values

variable {F : Type} {floats : Floats F}

theorem mapM_some {α β : Type} {f : α → Option β} {as : List α} {bs : List β}
    (h : as.mapM f = some bs) : List.Forall₂ (fun b a => f a = some b) bs as := by
  induction as generalizing bs with
  | nil =>
    rw [List.mapM_nil] at h
    obtain rfl : [] = bs := Option.some.inj h
    exact .nil
  | cons a as ih =>
    rw [List.mapM_cons] at h
    obtain ⟨b, hb, hrest⟩ := Option.bind_eq_some_iff.mp h
    obtain ⟨bs', hbs', heq⟩ := Option.bind_eq_some_iff.mp hrest
    obtain rfl : b :: bs' = bs := Option.some.inj heq
    exact .cons hb (ih hbs')

/-- Items with distinct keys are kept as they are. -/
theorem dict_eq_self {fields : Fields F} (h : (fields.map Prod.fst).Nodup) : dict fields = fields :=
  congrArg Dict.entries (Dict.ofList_entries ⟨fields, h⟩)

/-! ### Numbers -/

/-- What does not start as another value is read as a number. -/
theorem scanOnce_number {object array : Text → Result (Value F)} {t : Text}
    (hhead : ∀ c ∈ t.head?, Numeral.isPart c) (hminus : ∀ u, t ≠ '-' :: 'I' :: u) :
    scanOnce floats object array t = readNumber floats t := by
  unfold scanOnce
  split
  case h_10 => rfl
  case h_9 => exact absurd rfl (hminus _)
  all_goals exact absurd (hhead _ rfl) (by decide)

theorem validWhole_toDigits (n : ℕ) : Numeral.ValidWhole (Nat.toDigits 10 n) := by
  have hdigit : ∀ m < 10, (Nat.digitChar m).isDigit := by decide
  have hzero : ∀ m < 10, m ≠ 0 → Nat.digitChar m ≠ '0' := by decide
  have hpos : ∀ m, m ≠ 0 → ∃ c ds, Nat.toDigits 10 m = c :: ds ∧ c ≠ '0' ∧ c.isDigit ∧
      ∀ d ∈ ds, d.isDigit := by
    intro m
    induction m using Nat.strong_induction_on with
    | _ m ih =>
      intro hm
      by_cases hlt : m < 10
      · exact ⟨m.digitChar, [], Nat.toDigits_of_lt_base hlt, hzero m hlt hm, hdigit m hlt, nofun⟩
      · obtain ⟨c, ds, heq, hc, hcd, hds⟩ := ih (m / 10) (by omega) (by omega)
        refine ⟨c, ds ++ [(m % 10).digitChar], ?_, hc, hcd, fun d hd => ?_⟩
        · rw [Nat.toDigits_of_base_le (by decide) (by omega), heq, List.cons_append]
        · rcases List.mem_append.mp hd with hd | hd
          · exact hds d hd
          · rw [List.mem_singleton.mp hd]
            exact hdigit _ (Nat.mod_lt _ (by decide))
  by_cases hn : n = 0
  · subst hn
    exact .inl (Nat.toDigits_zero 10)
  · exact .inr (hpos n hn)

theorem valid_intNumeral (z : ℤ) : (intNumeral z).Valid :=
  ⟨validWhole_toDigits _, nofun, .inl rfl⟩

theorem ofNumeral_intNumeral {z : ℤ} (h : (intNumeral z).whole.length ≤ maxDigits) :
    ofNumeral floats (intNumeral z) = .ok (.int z) := by
  have hint : (intNumeral z).isInt = true := rfl
  have hmagnitude : Nat.ofDigitChars 10 (intNumeral z).whole 0 = z.natAbs :=
    Nat.ofDigitChars_ten_toDigits
  rw [ofNumeral, if_pos hint, if_pos h, hmagnitude]
  by_cases hz : z < 0
  · have hneg : (intNumeral z).negative = true := decide_eq_true hz
    simp only [hneg, if_true]
    congr 2
    omega
  · have hneg : (intNumeral z).negative = false := decide_eq_false hz
    simp only [hneg, Bool.false_eq_true, if_false]
    congr 2
    omega

theorem ofNumeral_ok {n : Numeral} (h : n.whole.length ≤ maxDigits) :
    ∃ v, ofNumeral floats n = .ok v := by
  unfold ofNumeral
  by_cases hint : n.isInt = true
  · rw [if_pos hint, if_pos h]
    exact ⟨_, rfl⟩
  · rw [if_neg hint]
    exact ⟨_, rfl⟩

/-- A value that is written as a number. -/
def IsNumber (floats : Floats F) (v : Value F) (n : Numeral) : Prop :=
  n.Valid ∧ n.whole.length ≤ maxDigits ∧ ofNumeral floats n = .ok v

theorem isNumber_float {x : F} {n : Numeral} (h : floats.repr x = some n) :
    IsNumber floats (.float x) n := by
  obtain ⟨hvalid, hint, hlength⟩ := floats.valid x n h
  refine ⟨hvalid, hlength, ?_⟩
  rw [ofNumeral, if_neg (by simp [hint]), floats.read_repr x n h]

/-- A text has the characters of a number only. -/
theorem head_of_text {n : Numeral} (h : n.Valid) :
    ∃ c t, n.text = c :: t ∧ Numeral.isPart c ∧ ∀ u, c :: t ≠ '-' :: 'I' :: u := by
  have hparts : ∀ c ∈ n.text, Numeral.isPart c := fun c hc => Numeral.isPart_of_mem_text h hc
  have hne : n.text ≠ [] := by
    obtain ⟨hwhole, -⟩ := h.whole.digits
    simp [Numeral.text, hwhole]
  obtain ⟨c, t, ht⟩ := List.exists_cons_of_ne_nil hne
  rw [ht] at hparts
  refine ⟨c, t, ht, hparts c List.mem_cons_self, fun u heq => ?_⟩
  obtain ⟨rfl, rfl⟩ := List.cons.inj heq
  exact absurd (hparts 'I' (List.mem_cons_of_mem _ List.mem_cons_self)) (by decide)

theorem stops_of_ended {rest : Text} (h : Ended rest) : Stops Numeral.isPart rest := by
  intro c hc
  rcases h c hc with rfl | rfl | rfl <;> decide

theorem scanOnce_text {object array : Text → Result (Value F)} {v : Value F} {n : Numeral}
    (h : IsNumber floats v n) : Reads (scanOnce floats object array) n.text v := by
  intro rest hrest
  obtain ⟨hvalid, -, hvalue⟩ := h
  obtain ⟨c, t, ht, hc, hminus⟩ := head_of_text hvalid
  have hstops := stops_of_ended hrest
  have hscan : scanOnce floats object array (n.text ++ rest) =
      readNumber floats (n.text ++ rest) := by
    rw [ht]
    refine scanOnce_number (fun c' hc' => by rwa [← Option.some.inj hc']) fun u heq => ?_
    rw [List.cons_append] at heq
    obtain ⟨rfl, htail⟩ := List.cons.inj heq
    cases t with
    | nil =>
      have hend := hrest 'I' (by rw [← List.nil_append rest, htail]; rfl)
      revert hend
      decide
    | cons c' t => exact hminus t (by rw [(List.cons.inj htail).1])
  rw [hscan, readNumber, Numeral.read_text hvalid hstops]
  simp only [hvalue]
  rfl

theorem scanOnce_text_cut {object array : Text → Result (Value F)} {v : Value F} {n : Numeral}
    (h : IsNumber floats v n) : Cuts (scanOnce floats object array) n.text := by
  intro p hp _
  obtain ⟨hvalid, hlength, -⟩ := h
  obtain ⟨c, t, ht, hc, hminus⟩ := head_of_text hvalid
  have hscan : scanOnce floats object array p = readNumber floats p := by
    refine scanOnce_number (fun c' hc' => ?_) fun u heq => ?_
    · have hmem : c' ∈ p := List.mem_of_mem_head? hc'
      exact Numeral.isPart_of_mem_text hvalid (hp.subset hmem)
    · have hmem : 'I' ∈ n.text := hp.subset (by rw [heq]; simp)
      exact absurd (Numeral.isPart_of_mem_text hvalid hmem) (by decide)
  rw [hscan, readNumber]
  cases hread : Numeral.read p with
  | none => exact .inl rfl
  | some nr =>
    obtain ⟨n', rest⟩ := nr
    obtain ⟨hle, hpart⟩ := Numeral.read_cut hvalid hp hread
    have hok : ∃ w, ofNumeral floats n' = .ok w := ofNumeral_ok (hle.trans hlength)
    obtain ⟨w, hw⟩ := hok
    refine .inr ⟨w, rest, ?_, hpart⟩
    simp only [hw]
    rfl

/-! ### Strings, arrays and objects -/

theorem encodeBasestring_append (s : List CodeUnit) (rest : Text) :
    encodeBasestring s ++ rest = '\"' :: (s.flatMap escape ++ '\"' :: rest) := by
  rw [encodeBasestring, List.cons_append, List.append_assoc, List.singleton_append]

/-- What an item of an object is written as. -/
def memberText (key : List CodeUnit) (t : Text) : Text := encodeBasestring key ++ ':' :: ' ' :: t

theorem solid_memberText (key : List CodeUnit) (t : Text) : Solid (memberText key t) := by
  rw [memberText, encodeBasestring_append]
  exact ⟨'\"', _, rfl, by decide, by decide, by decide⟩

/-- An item whose key is read as one, and its value after a colon and a gap. -/
theorem reads_member_gap {item : Text → Result (Value F)} {body t gap : Text} {key : List CodeUnit}
    {v : Value F} (hkey : ∀ rest, scanString (body ++ rest) = some (key, rest))
    (hgap : ∀ c ∈ gap, isBlank c) (h : Reads item t v) (hsolid : Solid t) :
    Reads (member item) ('\"' :: (body ++ ':' :: (gap ++ t))) (key, v) := by
  intro rest hrest
  have hskip : skip (':' :: (gap ++ (t ++ rest))) = ':' :: (gap ++ (t ++ rest)) := rfl
  rw [List.cons_append, List.append_assoc, member, hkey, List.cons_append, List.append_assoc]
  simp only [hskip]
  rw [hsolid.skip_gap hgap, h rest hrest]
  rfl

theorem reads_member {item : Text → Result (Value F)} {t : Text} {v : Value F} (h : Reads item t v)
    (hsolid : Solid t) (key : List CodeUnit) : Reads (member item) (memberText key t) (key, v) := by
  have hkey : ∀ rest, scanString (key.flatMap escape ++ ['\"'] ++ rest) = some (key, rest) :=
    fun rest => by rw [List.append_assoc, List.singleton_append, scanString_encode]
  exact reads_member_gap hkey (List.forall_mem_singleton.mpr rfl) h hsolid

theorem cuts_member {item : Text → Result (Value F)} {t : Text} (hcuts : Cuts item t)
    (hsolid : Solid t) (key : List CodeUnit) : Cuts (member item) (memberText key t) := by
  intro p hp hne
  -- The value is cut off, perhaps before its first character.
  have hvalue : ∀ q r, skip q = r → r <+: t → r ≠ t →
      member item (encodeBasestring key ++ ':' :: q) = .error .malformed ∨
        ∃ v rest, member item (encodeBasestring key ++ ':' :: q) = .ok (v, rest) ∧
          ∀ c ∈ rest, Numeral.isPart c := by
    intro q r hr hpre hner
    have hskip : skip (':' :: q) = ':' :: q := rfl
    rw [encodeBasestring_append, member, scanString_encode]
    simp only [hskip, hr]
    rcases hcuts r hpre hner with herror | ⟨w, rest, hok, hpart⟩
    · rw [herror]
      exact .inl rfl
    · rw [hok]
      exact .inr ⟨(key, w), rest, rfl, hpart⟩
  have hnil : [] ≠ t := by
    obtain ⟨c, t, rfl, -⟩ := hsolid
    simp
  rw [memberText] at hp hne
  rcases cut_append hp with ⟨hkey, hnekey⟩ | ⟨q, rfl, hq⟩
  · refine .inl ?_
    rw [encodeBasestring, List.prefix_cons_iff] at hkey
    rcases hkey with rfl | ⟨q, rfl, hq⟩
    · rfl
    · have hcut : scanString q = none := scanString_cut hq fun heq => hnekey (by rw [heq]; rfl)
      rw [member, hcut]
  · rw [List.prefix_cons_iff] at hq
    rcases hq with rfl | ⟨q, rfl, hq⟩
    · refine .inl ?_
      rw [encodeBasestring_append, member, scanString_encode]
      rfl
    · rw [List.prefix_cons_iff] at hq
      rcases hq with rfl | ⟨q, rfl, hq⟩
      · exact hvalue [] [] rfl List.nil_prefix hnil
      · have hq' : q <+: t ++ [] := by rwa [List.append_nil]
        exact hvalue (' ' :: q) q (by rw [skip_space, hsolid.skip_prefix hq']) hq
          fun heq => hne (by rw [heq])

theorem forall_mem_of_forall₂ {α β : Type} {R : α → β → Prop} {P : α → Prop} {as : List α}
    {bs : List β} (h : List.Forall₂ R as bs) (hR : ∀ a b, b ∈ bs → R a b → P a) : ∀ a ∈ as, P a := by
  induction h with
  | nil => nofun
  | @cons a b as bs hab _ ih =>
    refine List.forall_mem_cons.mpr ⟨hR a b List.mem_cons_self hab, ih fun a b hb => ?_⟩
    exact hR a b (List.mem_cons_of_mem _ hb)

theorem forall₂_of_mem {α β : Type} {R S : α → β → Prop} {as : List α} {bs : List β}
    (h : List.Forall₂ R as bs) (hR : ∀ a b, b ∈ bs → R a b → S a b) : List.Forall₂ S as bs := by
  induction h with
  | nil => exact .nil
  | @cons a b as bs hab _ ih =>
    refine .cons (hR a b List.mem_cons_self hab) (ih fun a b hb => ?_)
    exact hR a b (List.mem_cons_of_mem _ hb)

/-- A text that is read as a value, and of which no first part is. -/
def Writes {α : Type} (item : Text → Result α) (t : Text) (v : α) : Prop :=
  Solid t ∧ Reads item t v ∧ Cuts item t

/-- The text of an array or an object is read, and nothing is read of a first part of it. -/
theorem delimited_writes {α : Type} {item : Text → Result α} {close : Char}
    (hclose : close = ']' ∨ close = '}') {ts : List Text} {vs : List α}
    (h : List.Forall₂ (Writes item) ts vs) :
    (∀ rest, delimited item close (join ts ++ close :: rest) = .ok (vs, rest)) ∧
      ∀ p, p <+: join ts ++ [close] → p ≠ join ts ++ [close] →
        delimited item close p = .error .malformed := by
  have hreads : List.Forall₂ (Reads item) ts vs := forall₂_of_mem h fun _ _ _ h => h.2.1
  have hsolid : ∀ t ∈ ts, Solid t := forall_mem_of_forall₂ h fun _ _ _ h => h.1
  have hcuts : ∀ t ∈ ts, Cuts item t := forall_mem_of_forall₂ h fun _ _ _ h => h.2.2
  exact ⟨delimited_join hclose hreads hsolid, fun p hp hne =>
    delimited_cut hclose hreads hcuts hsolid hp hne⟩

section Leaves

variable {object array : Text → Result (Value F)}

/-- A word such as `null`. -/
theorem writes_word {w : Text} {v : Value F} (hsolid : Solid w)
    (hreads : ∀ rest, scanOnce floats object array (w ++ rest) = .ok (v, rest))
    (hcuts : ∀ k < w.length, scanOnce floats object array (w.take k) = .error .malformed) :
    Writes (scanOnce floats object array) w v := by
  refine ⟨hsolid, fun rest _ => hreads rest, fun p hp hne => .inl ?_⟩
  have htake : p = w.take p.length := List.prefix_iff_eq_take.mp hp
  have hlt : p.length < w.length :=
    lt_of_le_of_ne hp.length_le fun heq => hne (hp.eq_of_length heq)
  rw [htake]
  exact hcuts _ hlt

theorem writes_null : Writes (scanOnce floats object array) "null".toList .null := by
  refine writes_word ⟨'n', _, rfl, by decide⟩ (fun rest => rfl) fun k hk => ?_
  have hk' : k < 4 := hk
  interval_cases k <;> rfl

theorem writes_bool (b : Bool) : Writes (scanOnce floats object array)
    (if b then "true".toList else "false".toList) (.bool b) := by
  cases b with
  | true =>
    refine writes_word ⟨'t', _, rfl, by decide⟩ (fun rest => rfl) fun k hk => ?_
    have hk' : k < 4 := hk
    interval_cases k <;> rfl
  | false =>
    refine writes_word ⟨'f', _, rfl, by decide⟩ (fun rest => rfl) fun k hk => ?_
    have hk' : k < 5 := hk
    interval_cases k <;> rfl

theorem writes_number {v : Value F} {n : Numeral} (h : IsNumber floats v n) :
    Writes (scanOnce floats object array) n.text v := by
  refine ⟨?_, scanOnce_text h, scanOnce_text_cut h⟩
  obtain ⟨c, t, ht, hc, -⟩ := head_of_text h.1
  obtain ⟨hskip, hhead⟩ := head_of_isPart fun c hc => Numeral.isPart_of_mem_text h.1 hc
  rw [ht] at hskip hhead ⊢
  obtain ⟨-, hbracket, hbrace⟩ := hhead c t rfl
  refine ⟨c, t, rfl, ?_, hbracket, hbrace⟩
  by_contra hblank
  rw [Bool.not_eq_false] at hblank
  have hlength := congrArg List.length hskip
  have hle : (t.dropWhile isBlank).length ≤ t.length := (List.dropWhile_sublist _).length_le
  rw [skip, List.dropWhile_cons_of_pos hblank, List.length_cons] at hlength
  omega

theorem writes_str (s : List CodeUnit) :
    Writes (scanOnce floats object array) (encodeBasestring s) (.str s) := by
  refine ⟨⟨'\"', _, rfl, by decide⟩, fun rest _ => ?_, fun p hp hne => .inl ?_⟩
  · rw [encodeBasestring_append, scanOnce, scanString_encode]
  · rw [encodeBasestring, List.prefix_cons_iff] at hp
    rcases hp with rfl | ⟨q, rfl, hq⟩
    · rfl
    · have hcut : scanString q = none := scanString_cut hq fun heq => hne (by rw [heq]; rfl)
      rw [scanOnce, hcut]

end Leaves

theorem writes_arr {d : ℕ} {ts : List Text} {items : List (Value F)}
    (h : List.Forall₂ (Writes (scan floats d)) ts items) :
    Writes (scan floats (d + 1)) ('[' :: (join ts ++ [']'])) (.arr items) := by
  obtain ⟨hreads, hcuts⟩ := delimited_writes (.inl rfl) h
  refine ⟨⟨'[', _, rfl, by decide⟩, fun rest _ => ?_, fun p hp hne => .inl ?_⟩
  · rw [List.cons_append, List.append_assoc, List.singleton_append, scan, scanOnce, parseArray, hreads]
    rfl
  · rw [List.prefix_cons_iff] at hp
    rcases hp with rfl | ⟨q, rfl, hq⟩
    · rfl
    · rw [scan, scanOnce, parseArray, hcuts q hq fun heq => hne (by rw [heq])]
      rfl

/-- No first part of an object is read, so that nothing of it is taken for a number either. -/
theorem writes_obj {d : ℕ} {ts : List Text} {fields : Fields F} (hkeys : (fields.map Prod.fst).Nodup)
    (h : List.Forall₂ (Writes (member (scan floats d))) ts fields) :
    Writes (scan floats (d + 1)) ('{' :: (join ts ++ ['}'])) (.obj fields) ∧
      ∀ p, p <+: '{' :: (join ts ++ ['}']) → p ≠ '{' :: (join ts ++ ['}']) →
        scan floats (d + 1) p = .error .malformed := by
  obtain ⟨hreads, hcuts⟩ := delimited_writes (.inr rfl) h
  have hcut : ∀ p, p <+: '{' :: (join ts ++ ['}']) → p ≠ '{' :: (join ts ++ ['}']) →
      scan floats (d + 1) p = .error .malformed := by
    intro p hp hne
    rw [List.prefix_cons_iff] at hp
    rcases hp with rfl | ⟨q, rfl, hq⟩
    · rfl
    · rw [scan, scanOnce, parseObject, hcuts q hq fun heq => hne (by rw [heq])]
      rfl
  refine ⟨⟨⟨'{', _, rfl, by decide⟩, fun rest _ => ?_, fun p hp hne => .inl (hcut p hp hne)⟩, hcut⟩
  rw [List.cons_append, List.append_assoc, List.singleton_append, scan, scanOnce, parseObject, hreads]
  change Except.ok (Value.obj (dict fields), rest) = _
  rw [dict_eq_self hkeys]

theorem member_writes {item : Text → Result (Value F)} {t : Text} {v : Value F}
    (h : Writes item t v) (key : List CodeUnit) :
    Writes (member item) (memberText key t) (key, v) := by
  obtain ⟨hsolid, hreads, hcuts⟩ := h
  exact ⟨solid_memberText key t, reads_member hreads hsolid key, cuts_member hcuts hsolid key⟩

/-- The text of an object. -/
theorem dumps_obj {d : ℕ} {fields : Fields F} {t : Text} (h : dumps floats d (.obj fields) = some t) :
    ∃ d' ts, d = d' + 1 ∧ t = '{' :: (join ts ++ ['}']) ∧
      List.Forall₂ (fun t f => ∃ u, dumps floats d' f.2 = some u ∧ t = memberText f.1 u) ts
        fields := by
  cases d with
  | zero => cases h
  | succ d =>
    rw [dumps] at h
    obtain ⟨ts, hts, rfl⟩ := Option.map_eq_some_iff.mp h
    refine ⟨d, ts, rfl, rfl, forall₂_of_mem (mapM_some hts) fun t f _ hf => ?_⟩
    obtain ⟨u, hu, rfl⟩ := Option.map_eq_some_iff.mp hf
    exact ⟨u, hu, rfl⟩

theorem dumps_arr {d : ℕ} {items : List (Value F)} {t : Text}
    (h : dumps floats d (.arr items) = some t) :
    ∃ d' ts, d = d' + 1 ∧ t = '[' :: (join ts ++ [']']) ∧
      List.Forall₂ (fun t v => dumps floats d' v = some t) ts items := by
  cases d with
  | zero => cases h
  | succ d =>
    rw [dumps] at h
    obtain ⟨ts, hts, rfl⟩ := Option.map_eq_some_iff.mp h
    exact ⟨d, ts, rfl, rfl, mapM_some hts⟩

/-- What is written of a value, with the depth that is left, is read as the value. -/
theorem scan_writes {d : ℕ} {v : Value F} {t : Text} (hv : Distinct v)
    (h : dumps floats d v = some t) :
    Writes (scan floats d) t v := by
  have hleaf : ∀ d, ∃ object array, scan floats d = scanOnce floats object array := by
    rintro (_ | d)
    · exact ⟨_, _, rfl⟩
    · exact ⟨_, _, rfl⟩
  induction hv generalizing d t with
  | null =>
    obtain ⟨object, array, hscan⟩ := hleaf d
    rw [dumps] at h
    obtain rfl := Option.some.inj h
    rw [hscan]
    exact writes_null
  | bool b =>
    obtain ⟨object, array, hscan⟩ := hleaf d
    rw [dumps] at h
    obtain rfl := Option.some.inj h
    rw [hscan]
    exact writes_bool b
  | int n =>
    obtain ⟨object, array, hscan⟩ := hleaf d
    rw [dumps] at h
    split_ifs at h with hlength
    obtain rfl := Option.some.inj h
    rw [hscan]
    exact writes_number ⟨valid_intNumeral n, hlength, ofNumeral_intNumeral hlength⟩
  | float x =>
    obtain ⟨object, array, hscan⟩ := hleaf d
    rw [dumps] at h
    obtain ⟨n, hn, rfl⟩ := Option.map_eq_some_iff.mp h
    rw [hscan]
    exact writes_number (isNumber_float hn)
  | str s =>
    obtain ⟨object, array, hscan⟩ := hleaf d
    rw [dumps] at h
    obtain rfl := Option.some.inj h
    rw [hscan]
    exact writes_str s
  | arr _ ih =>
    obtain ⟨d, ts, rfl, rfl, hts⟩ := dumps_arr h
    exact writes_arr (forall₂_of_mem hts fun t v hv htext => ih v hv htext)
  | obj hkeys _ ih =>
    obtain ⟨d, ts, rfl, rfl, hts⟩ := dumps_obj h
    refine (writes_obj hkeys (forall₂_of_mem hts fun t f hf htext => ?_)).1
    obtain ⟨u, hu, rfl⟩ := htext
    exact member_writes (ih f hf hu) f.1

/-! ### Printable text -/

/-- A character of ASCII that is no control character. -/
def IsPrintable (c : Char) : Prop := 0x20 ≤ c.toNat ∧ c.toNat < 0x7F

instance (c : Char) : Decidable (IsPrintable c) := inferInstanceAs (Decidable (_ ∧ _))

/-- The characters of a text are all printable. -/
abbrev Printable (t : Text) : Prop := ∀ c ∈ t, IsPrintable c

theorem printable_append {s t : Text} (hs : Printable s) (ht : Printable t) : Printable (s ++ t) :=
  List.forall_mem_append.mpr ⟨hs, ht⟩

theorem printable_cons {c : Char} {t : Text} (hc : IsPrintable c) (ht : Printable t) :
    Printable (c :: t) :=
  List.forall_mem_cons.mpr ⟨hc, ht⟩

/-- A text that is given is checked character by character. -/
theorem printable_of_all {t : Text} (h : (t.all fun c => decide (IsPrintable c)) = true) :
    Printable t :=
  fun c hc => of_decide_eq_true (List.all_eq_true.mp h c hc)

theorem printable_escape (u : CodeUnit) : Printable (escape u) := by
  have hhex : ∀ n < 0x10, IsPrintable (hexDigit n) := by decide
  rcases escape_cases u with ⟨e, he, hu⟩ | ⟨-, -, hlow, hhigh, hu⟩ | hu
  · have hletter : IsPrintable e := by
      unfold shortEscape at he
      split_ifs at he <;> rw [← Option.some.inj he] <;> decide
    rw [hu]
    exact printable_cons (by decide) (printable_cons hletter nofun)
  · rw [hu]
    refine printable_cons ?_ nofun
    rw [IsPrintable, toNat_ofNat_of_lt hhigh]
    exact ⟨hlow, hhigh⟩
  · rw [hu, hex4]
    refine printable_cons (by decide) (printable_cons (by decide) (printable_cons (hhex _ ?_)
      (printable_cons (hhex _ ?_) (printable_cons (hhex _ ?_) (printable_cons (hhex _ ?_) nofun)))))
    all_goals omega

theorem printable_encodeBasestring (s : List CodeUnit) : Printable (encodeBasestring s) := by
  refine printable_cons (by decide) (printable_append (fun c hc => ?_) (printable_of_all rfl))
  obtain ⟨u, -, hu⟩ := List.mem_flatMap.mp hc
  exact printable_escape u c hu

theorem isPrintable_of_isPart {c : Char} (h : Numeral.isPart c) : IsPrintable c := by
  rw [Numeral.isPart, Bool.or_eq_true] at h
  rcases h with hdigit | hother
  · rw [Char.isDigit, Bool.and_eq_true, decide_eq_true_eq, decide_eq_true_eq] at hdigit
    have hlow : 48 ≤ c.toNat := UInt32.le_iff_toNat_le.mp hdigit.1
    have hhigh : c.toNat ≤ 57 := UInt32.le_iff_toNat_le.mp hdigit.2
    exact ⟨by omega, by omega⟩
  · simp only [decide_eq_true_eq, List.mem_cons, List.not_mem_nil, or_false] at hother
    rcases hother with rfl | rfl | rfl | rfl | rfl <;> decide

theorem printable_text {n : Numeral} (h : n.Valid) : Printable n.text := fun _ hc =>
  isPrintable_of_isPart (Numeral.isPart_of_mem_text h hc)

theorem printable_join {ts : List Text} (h : ∀ t ∈ ts, Printable t) : Printable (join ts) := by
  cases ts with
  | nil => nofun
  | cons t ts =>
    obtain ⟨ht, hts⟩ := List.forall_mem_cons.mp h
    refine printable_append ht fun c hc => ?_
    obtain ⟨t', ht', hc⟩ := List.mem_flatMap.mp hc
    exact printable_cons (by decide) (printable_cons (by decide) (hts t' ht')) c hc

/-- What is written is printable: it is ASCII, on one line. -/
theorem printable_dumps {d : ℕ} {v : Value F} {t : Text} (h : dumps floats d v = some t) :
    Printable t := by
  induction d using Nat.strong_induction_on generalizing v t with
  | _ d ih =>
    cases v with
    | null =>
      rw [dumps] at h
      obtain rfl := Option.some.inj h
      exact printable_of_all rfl
    | bool b =>
      rw [dumps] at h
      obtain rfl := Option.some.inj h
      cases b <;> exact printable_of_all rfl
    | int n =>
      rw [dumps] at h
      split_ifs at h
      obtain rfl := Option.some.inj h
      exact printable_text (valid_intNumeral n)
    | float x =>
      rw [dumps] at h
      obtain ⟨n, hn, rfl⟩ := Option.map_eq_some_iff.mp h
      exact printable_text (floats.valid x n hn).1
    | str s =>
      rw [dumps] at h
      obtain rfl := Option.some.inj h
      exact printable_encodeBasestring s
    | arr items =>
      obtain ⟨d, ts, rfl, rfl, hts⟩ := dumps_arr h
      have hall : ∀ t ∈ ts, Printable t :=
        forall_mem_of_forall₂ hts fun t v _ htext => ih d (Nat.lt_succ_self d) htext
      exact printable_cons (by decide) (printable_append (printable_join hall) (printable_of_all rfl))
    | obj fields =>
      obtain ⟨d, ts, rfl, rfl, hts⟩ := dumps_obj h
      have hall : ∀ t ∈ ts, Printable t := by
        refine forall_mem_of_forall₂ hts fun t f _ htext => ?_
        obtain ⟨u, hu, rfl⟩ := htext
        have hvalue := ih d (Nat.lt_succ_self d) hu
        exact printable_append (printable_encodeBasestring f.1)
          (printable_cons (by decide) (printable_cons (by decide) hvalue))
      exact printable_cons (by decide) (printable_append (printable_join hall) (printable_of_all rfl))

/-- What is written is read back. -/
theorem loads_dumps {d : ℕ} {v : Value F} {t : Text} (hv : Distinct v)
    (h : dumps floats d v = some t) :
    loads floats d t = .ok v := by
  have hprintable := printable_dumps h
  obtain ⟨hsolid, hreads, -⟩ := scan_writes hv h
  have hread := hreads [] ended_nil
  have hskip := hsolid.skip_append []
  rw [List.append_nil] at hread hskip
  have hbom : t.head? ≠ some '\uFEFF' := fun heq =>
    absurd (hprintable _ (List.mem_of_mem_head? heq)) (by decide)
  rw [loads, if_neg hbom, hskip, hread]
  rfl

/-- Nothing is read of a first part of the text of an object, which is malformed. -/
theorem loads_cut {d : ℕ} {fields : Fields F} {t p : Text} (hv : Distinct (.obj fields))
    (h : dumps floats d (.obj fields) = some t) (hp : p <+: t) (hne : p ≠ t) :
    loads floats d p = .error .malformed := by
  have hprintable := printable_dumps h
  have hbom : p.head? ≠ some '\uFEFF' := fun heq =>
    absurd (hprintable _ (hp.subset (List.mem_of_mem_head? heq))) (by decide)
  have hscan : scan floats d p = .error .malformed ∧ skip p = p := by
    cases hv with
    | obj hkeys hfields =>
      obtain ⟨d, ts, rfl, rfl, hts⟩ := dumps_obj h
      have hmembers : List.Forall₂ (Writes (member (scan floats d))) ts _ :=
        forall₂_of_mem hts fun t f hf htext => by
          obtain ⟨u, hu, rfl⟩ := htext
          exact member_writes (scan_writes (hfields f hf) hu) f.1
      obtain ⟨⟨hsolid, -, -⟩, hcut⟩ := writes_obj hkeys hmembers
      have hp' : p <+: '{' :: (join ts ++ ['}']) ++ [] := by rwa [List.append_nil]
      exact ⟨hcut p hp hne, hsolid.skip_prefix hp'⟩
  rw [loads, if_neg hbom, hscan.2, hscan.1]

end Values

/-! ## What is read -/

section Loaded

variable {F : Type} {floats : Floats F}

/-- What holds of every value that has no parts and can be read, and of a value that is read once it
holds of its parts. -/
structure Inherits (P : Value F → Prop) : Prop where
  null : P .null
  bool : ∀ b, P (.bool b)
  int : ∀ z, (intNumeral z).whole.length ≤ maxDigits → P (.int z)
  float : ∀ x, P (.float x)
  str : ∀ s, P (.str s)
  arr : ∀ items, (∀ v ∈ items, P v) → P (.arr items)
  obj : ∀ fields : Fields F, (∀ f ∈ fields, P f.2) → P (.obj fields)

/-- The items that `item` reads have a property. -/
def Gives {α : Type} (item : Text → Result α) (P : α → Prop) : Prop :=
  ∀ t v rest, item t = .ok (v, rest) → P v

theorem gives_sequence {α : Type} {item : Text → Result α} {P : α → Prop} (h : Gives item P)
    (close : Char) (k : ℕ) : Gives (sequence item close k) fun vs => ∀ v ∈ vs, P v := by
  induction k with
  | zero => nofun
  | succ k ih =>
    intro t vs rest hread
    rw [sequence] at hread
    split at hread
    · cases hread
    · rename_i v t' hitem
      have hv : P v := h t v t' hitem
      split at hread
      · cases hread
      · split_ifs at hread
        · cases hread
          exact fun _ hmem => List.mem_singleton.mp hmem ▸ hv
        · rename_i c t'' _ _ _
          cases hseq : sequence item close k (skip t'') with
          | error e => rw [hseq] at hread; cases hread
          | ok r =>
            rw [hseq] at hread
            cases hread
            exact List.forall_mem_cons.mpr ⟨hv, ih _ _ _ hseq⟩

theorem gives_delimited {α : Type} {item : Text → Result α} {P : α → Prop} (h : Gives item P)
    (close : Char) : Gives (delimited item close) fun vs => ∀ v ∈ vs, P v := by
  intro t vs rest hread
  rw [delimited] at hread
  split_ifs at hread
  · cases hread
    nofun
  · exact gives_sequence h close _ _ _ _ hread

theorem gives_member {item : Text → Result (Value F)} {P : Value F → Prop} (h : Gives item P) :
    Gives (member item) fun f => P f.2 := by
  intro t f rest hread
  unfold member at hread
  split at hread
  · split at hread
    · cases hread
    · split at hread
      · rename_i key t' _ t'' _
        cases hitem : item (skip t'') with
        | error e => rw [hitem] at hread; cases hread
        | ok r =>
          rw [hitem] at hread
          cases hread
          exact h _ _ _ hitem
      · cases hread
  · cases hread

/-- The items of a dictionary are among those that it is made of. -/
theorem dict_subset (fields : Fields F) : dict fields ⊆ fields := by
  have hfold : ∀ (es : Fields F) (d : Dict (List CodeUnit) (Value F)),
      ∀ e ∈ (es.foldl (fun d e => d.set e.1 e.2) d).entries, e ∈ d.entries ∨ e ∈ es := by
    intro es
    induction es with
    | nil => exact fun d e he => .inl he
    | cons a es ih =>
      intro d e he
      rcases ih _ e he with hset | hmem
      · have hget := Dict.get?_of_mem_entries hset
        rw [Dict.get?_set] at hget
        split_ifs at hget with hkey
        · exact .inr (List.mem_cons.mpr (.inl (Prod.ext hkey (Option.some.inj hget).symm)))
        · exact .inl (Dict.mem_entries_of_get? hget)
      · exact .inr (List.mem_cons_of_mem _ hmem)
  exact fun e he => (hfold fields ∅ e he).resolve_left List.not_mem_nil

theorem ofDigitChars_lt {ds : Text} (h : ∀ d ∈ ds, d.isDigit) :
    Nat.ofDigitChars 10 ds 0 < 10 ^ ds.length := by
  induction ds with
  | nil => simp
  | cons d ds ih =>
    obtain ⟨hd, hds⟩ := List.forall_mem_cons.mp h
    have hdigit : d.toNat - '0'.toNat ≤ 9 := by
      rw [Char.isDigit, Bool.and_eq_true, decide_eq_true_eq, decide_eq_true_eq] at hd
      have hle : d.toNat ≤ 57 := hd.2
      have hzero : '0'.toNat = 48 := rfl
      omega
    calc Nat.ofDigitChars 10 (d :: ds) 0
        = 10 ^ ds.length * (d.toNat - '0'.toNat) + Nat.ofDigitChars 10 ds 0 := by
          rw [Nat.ofDigitChars_cons, Nat.ofDigitChars_eq_ofDigitChars_zero, mul_zero, zero_add]
      _ < 10 ^ ds.length * 9 + 10 ^ ds.length :=
          add_lt_add_of_le_of_lt (Nat.mul_le_mul_left _ hdigit) (ih hds)
      _ = 10 ^ (d :: ds).length := by rw [List.length_cons, pow_succ, ← Nat.mul_succ]

theorem gives_readNumber {P : Value F → Prop} (hP : Inherits P) : Gives (readNumber floats) P := by
  intro t v rest hread
  rw [readNumber] at hread
  split at hread
  · cases hread
  · rename_i n t' hn
    obtain ⟨-, -, hdigits⟩ := Numeral.read_eq hn
    by_cases hint : n.isInt
    · by_cases hlong : n.whole.length ≤ maxDigits
      · rw [ofNumeral, if_pos hint, if_pos hlong] at hread
        cases hread
        refine hP.int _ ?_
        have hlt : Nat.ofDigitChars 10 n.whole 0 < 10 ^ maxDigits :=
          (ofDigitChars_lt hdigits).trans_le (Nat.pow_le_pow_right (by decide) hlong)
        have habs : (if n.negative then -(Nat.ofDigitChars 10 n.whole 0 : ℤ)
            else Nat.ofDigitChars 10 n.whole 0).natAbs = Nat.ofDigitChars 10 n.whole 0 := by
          split_ifs
          · rw [Int.natAbs_neg, Int.natAbs_natCast]
          · rw [Int.natAbs_natCast]
        exact (Nat.length_toDigits_le_iff (by decide) (by decide)).mpr (habs.symm ▸ hlt)
      · rw [ofNumeral, if_pos hint, if_neg hlong] at hread
        cases hread
    · rw [ofNumeral, if_neg hint] at hread
      cases hread
      exact hP.float _

theorem gives_scanOnce {P : Value F → Prop} (hP : Inherits P)
    {object array : Text → Result (Value F)} (hobject : Gives object P) (harray : Gives array P) :
    Gives (scanOnce floats object array) P := by
  intro t v rest hread
  unfold scanOnce at hread
  split at hread
  · split at hread
    · cases hread
    · cases hread
      exact hP.str _
  · exact hobject _ _ _ hread
  · exact harray _ _ _ hread
  · cases hread
    exact hP.null
  · cases hread
    exact hP.bool _
  · cases hread
    exact hP.bool _
  · cases hread
    exact hP.float _
  · cases hread
    exact hP.float _
  · cases hread
    exact hP.float _
  · exact gives_readNumber hP _ _ _ hread

theorem gives_scan {P : Value F → Prop} (hP : Inherits P) (d : ℕ) : Gives (scan floats d) P := by
  induction d with
  | zero => exact gives_scanOnce hP nofun nofun
  | succ d ih =>
    refine gives_scanOnce hP ?_ ?_
    · intro t v rest hread
      rw [parseObject] at hread
      cases hfields : delimited (member (scan floats d)) '}' t with
      | error e => rw [hfields] at hread; cases hread
      | ok r =>
        rw [hfields] at hread
        cases hread
        have hall := gives_delimited (gives_member ih) _ _ _ _ hfields
        exact hP.obj _ fun f hf => hall f (dict_subset _ hf)
    · intro t v rest hread
      rw [parseArray] at hread
      cases hitems : delimited (scan floats d) ']' t with
      | error e => rw [hitems] at hread; cases hread
      | ok r =>
        rw [hitems] at hread
        cases hread
        exact hP.arr _ (gives_delimited ih _ _ _ _ hitems)

/-- A property that is inherited holds of what is read. -/
theorem Inherits.loads {P : Value F → Prop} (hP : Inherits P) {d : ℕ} {t : Text} {v : Value F}
    (h : loads floats d t = .ok v) : P v := by
  rw [JsonText.loads] at h
  split_ifs at h
  split at h
  · cases h
  · rename_i w rest hscan
    split_ifs at h
    cases h
    exact gives_scan hP d _ _ _ hscan

end Loaded

end Companion.JsonText

import Companion.Initiate.Candidates
import Mathlib.Algebra.Order.Ring.Rat

/-!
# The entries of a queue

An entry of the queue of pending candidates is any JSON object. This module says what the gate does
with its values: as members of a set and keys of a dictionary, as the numbers, times and collections
of which `Memory.from_dict` (`brain/memory/store.py`) makes a memory, and as a line of the
processing file (`_dumps` of `brain/health/json_io.py`).

`Memory.from_dict` raises a class that its callers do not catch for an integer that is too large for
a float, and for nothing else (`fromDict_error_iff`).

What a float is, and what `float` and `datetime.fromisoformat` make of a string, is a parameter.
-/

namespace Companion.Consolidation.Entries

open Companion.JsonText
open Companion.Initiate.Review (PyError name get? get?_cons item isText)

/-! ## Values -/

/-- What a float is. -/
inductive Number
  | finite (q : ℚ)
  | infinite (negative : Bool)
  | nan
  deriving DecidableEq

/-- A value that a set can hold, up to `==`. The parser makes one object of every `NaN`. -/
inductive Key
  | null
  | number (x : Number)
  | str (s : List CodeUnit)
  deriving DecidableEq

/-- What the language makes of floats and of strings. -/
structure Python (F T : Type) where
  number : F → Number
  /-- `0.0` -/
  zero : F
  /-- `float` of an integer that is not too large. -/
  ofInt : ℤ → F
  /-- `float` of a string, none where it raises `ValueError`. -/
  parseFloat : List CodeUnit → Option F
  /-- `_coerce_utc` of a string, none where it raises `ValueError`. -/
  parseTime : List CodeUnit → Option T

section Values

variable {F T : Type} (py : Python F T)

/-- What a set makes of a value, none where it is not hashable. -/
def keyOf : Value F → Option Key
  | .null => some .null
  | .bool p => some (.number (.finite (if p then 1 else 0)))
  | .int n => some (.number (.finite n))
  | .float x => some (.number (py.number x))
  | .str s => some (.str s)
  | .arr _ | .obj _ => none

/-- `fields.get(key)` -/
def getOrNone (fields : Fields F) (key : String) : Value F := (get? fields key).getD .null

/-- What a set makes of `fields.get(key)`. -/
def keyAt (fields : Fields F) (key : String) : Option Key := keyOf py (getOrNone fields key)

/-- `bool(value)` -/
def truthy : Value F → Bool
  | .null => false
  | .bool p => p
  | .int n => n ≠ 0
  | .float x => py.number x ≠ .finite 0
  | .str s => !s.isEmpty
  | .arr items => !items.isEmpty
  | .obj fields => !fields.isEmpty

/-- The integers from here on are too large for a float. -/
def floatLimit : ℕ := 2 ^ 1024 - 2 ^ 970

/-- `float(value)` -/
def toFloat : Value F → Except PyError F
  | .bool p => .ok (py.ofInt (if p then 1 else 0))
  | .int n => if n.natAbs < floatLimit then .ok (py.ofInt n) else .error .overflowError
  | .float x => .ok x
  | .str s => (py.parseFloat s).elim (.error .valueError) .ok
  | .null | .arr _ | .obj _ => .error .typeError

/-- The characters of a string. -/
def characters : List CodeUnit → List (List CodeUnit)
  | [] => []
  | [u] => [[u]]
  | u :: l :: us =>
    if Utf16.IsLead u.val ∧ Utf16.IsTrail l.val then [u, l] :: characters us
    else [u] :: characters (l :: us)

/-- The items over which a value is iterated, none where it cannot be. -/
def iterate : Value F → Option (List (Value F))
  | .str s => some ((characters s).map .str)
  | .arr items => some items
  | .obj fields => some (fields.map fun f => .str f.1)
  | .null | .bool _ | .int _ | .float _ => none

/-- `list(value)` -/
def toList (v : Value F) : Except PyError (List (Value F)) :=
  (iterate v).elim (.error .typeError) .ok

/-- An item of a list of which a dictionary is made. -/
def toPair (v : Value F) : Except PyError (Key × Value F) :=
  match iterate v with
  | none => .error .typeError
  | some [k, x] => (keyOf py k).elim (.error .typeError) fun k => .ok (k, x)
  | some _ => .error .valueError

/-- `dict(value)` -/
def toDict : Value F → Except PyError (Dict Key (Value F))
  | .obj fields => .ok (Dict.ofList (fields.map fun f => (.str f.1, f.2)))
  | v =>
    match iterate v with
    | none => .error .typeError
    | some items => (items.mapM (toPair py)).map Dict.ofList

/-- `fields[key] = value` -/
def setItem (fields : Fields F) (key : String) (v : Value F) : Fields F :=
  if fields.any fun f => f.1 = name key then
    fields.map fun f => if f.1 = name key then (f.1, v) else f
  else fields ++ [(name key, v)]

end Values

/-! ## Memories -/

/-- A memory as it is made of an entry, whose texts are any values. -/
structure Memory (F T : Type) where
  id : Value F
  content : Value F
  memoryType : Value F
  domain : Value F
  createdAt : T
  emotions : Dict Key (Value F)
  tags : List (Value F)
  importance : F
  score : F
  lastAccessedAt : Option T
  active : Bool
  isProtected : Bool
  metadata : Dict Key (Value F)

section Memories

variable {F T : Type} (py : Python F T)

def coerceUtc : Value F → Except PyError T
  | .str s => (py.parseTime s).elim (.error .valueError) .ok
  | _ => .error .typeError

/-- `fields.get(key) or fallback` -/
def getOr (fields : Fields F) (key : String) (fallback : Value F) : Value F :=
  if truthy py (getOrNone fields key) then getOrNone fields key else fallback

def lastAccessed (fields : Fields F) : Except PyError (Option T) :=
  if truthy py (getOrNone fields "last_accessed_at") then
    (coerceUtc py (getOrNone fields "last_accessed_at")).map some
  else .ok none

/-- `Memory.from_dict` -/
def fromDict (data : Fields F) : Except PyError (Memory F T) := do
  let created ← coerceUtc py (← item data "created_at")
  let lastAccessed ← lastAccessed py data
  let id ← item data "id"
  let content ← item data "content"
  let memoryType ← item data "memory_type"
  let domain ← item data "domain"
  let emotions ← toDict py ((get? data "emotions").getD (.obj []))
  let tags ← toList ((get? data "tags").getD (.arr []))
  let importance ← toFloat py (getOr py data "importance" (.float py.zero))
  let score ← toFloat py (getOr py data "score" (.float py.zero))
  let metadata ← toDict py (getOr py data "metadata" (.obj []))
  return ⟨id, content, memoryType, domain, created, emotions, tags, importance, score, lastAccessed,
    ((get? data "active").map (truthy py)).getD true,
    ((get? data "protected").map (truthy py)).getD false, metadata⟩

end Memories

section Overflow

variable {F T : Type} (py : Python F T)

/-- The classes that the callers of `Memory.from_dict` catch. -/
def caught : List PyError := [.keyError, .valueError, .typeError]

/-- What `Memory.from_dict` reads before the numbers can be read. -/
structure Headed (data : Fields F) : Prop where
  created : ∃ t, ∃ v, get? data "created_at" = some v ∧ coerceUtc py v = .ok t
  accessed : ∃ t, lastAccessed py data = .ok t
  present : ∀ key ∈ ["id", "content", "memory_type", "domain"], (get? data key).isSome
  emotions : ∃ d, toDict py ((get? data "emotions").getD (.obj [])) = .ok d
  tags : ∃ l, toList ((get? data "tags").getD (.arr [])) = .ok l

/-- An integer that is too large for a float. -/
def TooLarge : Value F → Prop
  | .int n => floatLimit ≤ n.natAbs
  | _ => False

/-- An entry of which everything reads up to a number that is too large for a float. -/
def Overflows (data : Fields F) : Prop :=
  Headed py data ∧ (TooLarge (getOrNone data "importance") ∨
    (∃ x, toFloat py (getOr py data "importance" (.float py.zero)) = .ok x) ∧
      TooLarge (getOrNone data "score"))

variable {py}

theorem bind_eq_error {α β : Type} {x : Except PyError α} {f : α → Except PyError β} {e : PyError} :
    (x >>= f) = .error e ↔ x = .error e ∨ ∃ a, x = .ok a ∧ f a = .error e := by
  cases x with
  | error e' => simp [bind, Except.bind]
  | ok a => simp [bind, Except.bind]

theorem item_eq_ok {data : Fields F} {key : String} {v : Value F} :
    item data key = .ok v ↔ get? data key = some v := by
  rw [item]
  cases get? data key <;> simp

theorem mapM_ne_error {α β : Type} {f : α → Except PyError β} {e : PyError}
    (h : ∀ a, f a ≠ .error e) (as : List α) : as.mapM f ≠ .error e := by
  induction as with
  | nil => nofun
  | cons a as ih =>
    rw [List.mapM_cons, ne_eq, bind_eq_error, not_or]
    refine ⟨h a, ?_⟩
    rintro ⟨b, -, hrest⟩
    rcases bind_eq_error.mp hrest with hmap | ⟨bs, -, hpure⟩
    · exact ih hmap
    · cases hpure

section Caught

variable {e : PyError} (he : e ∉ caught)

include he

theorem item_ne_error (data : Fields F) (key : String) : item data key ≠ .error e := by
  rw [item]
  cases get? data key with
  | none =>
    rintro ⟨⟩
    exact he (by decide)
  | some v => rintro ⟨⟩

theorem coerceUtc_ne_error (v : Value F) : coerceUtc py v ≠ .error e := by
  cases v with
  | str s =>
    rw [coerceUtc]
    cases py.parseTime s with
    | none =>
      rintro ⟨⟩
      exact he (by decide)
    | some t => nofun
  | _ =>
    rintro ⟨⟩
    exact he (by decide)

theorem lastAccessed_ne_error (data : Fields F) : lastAccessed py data ≠ .error e := by
  rw [lastAccessed]
  split_ifs
  · have h : coerceUtc py (getOrNone data "last_accessed_at") ≠ .error e := coerceUtc_ne_error he _
    cases hread : coerceUtc py (getOrNone data "last_accessed_at") with
    | error e' =>
      rintro ⟨⟩
      exact h hread
    | ok t => nofun
  · nofun

theorem toList_ne_error (v : Value F) : toList v ≠ .error e := by
  rw [toList]
  cases iterate v with
  | none =>
    rintro ⟨⟩
    exact he (by decide)
  | some items => nofun

theorem toPair_ne_error (v : Value F) : toPair py v ≠ .error e := by
  unfold toPair
  split
  · rintro ⟨⟩
    exact he (by decide)
  · rename_i k x _
    cases keyOf py k with
    | none =>
      rintro ⟨⟩
      exact he (by decide)
    | some k => nofun
  · rintro ⟨⟩
    exact he (by decide)

theorem toDict_ne_error (v : Value F) : toDict py v ≠ .error e := by
  have hitems : ∀ items : List (Value F), (items.mapM (toPair py)).map Dict.ofList ≠ .error e := by
    intro items
    have h : items.mapM (toPair py) ≠ .error e := mapM_ne_error (toPair_ne_error he) items
    cases hmap : items.mapM (toPair py) with
    | error e' =>
      rintro ⟨⟩
      exact h hmap
    | ok ps => nofun
  unfold toDict
  split
  · nofun
  · split
    · rintro ⟨⟩
      exact he (by decide)
    · exact hitems _

theorem toFloat_error {v : Value F} :
    toFloat py v = .error e ↔ e = .overflowError ∧ TooLarge v := by
  -- The other classes that `float` raises are caught.
  have htype : PyError.typeError ≠ e := fun h => he (h ▸ by decide)
  have hvalue : PyError.valueError ≠ e := fun h => he (h ▸ by decide)
  cases v with
  | int n =>
    rw [toFloat, TooLarge]
    split_ifs with h
    · simpa using fun _ => h
    · simpa [eq_comm] using fun _ => Nat.not_lt.mp h
  | str s =>
    rw [toFloat]
    cases py.parseFloat s <;> simp [TooLarge, hvalue]
  | _ => simp [toFloat, TooLarge, htype]

end Caught

theorem floatLimit_pos : 0 < floatLimit := by decide +kernel

/-- An integer that is too large is not passed over as a falsy value. -/
theorem tooLarge_getOr {data : Fields F} {key : String} {x : F} :
    TooLarge (getOr py data key (.float x)) ↔ TooLarge (getOrNone data key) := by
  rw [getOr]
  split_ifs with h
  · rfl
  · refine ⟨nofun, fun hlarge => ?_⟩
    -- The only integer that `or` passes over is zero.
    cases hvalue : getOrNone data key with
    | int n =>
      rw [hvalue, TooLarge] at hlarge
      rw [hvalue, truthy] at h
      obtain rfl : n = 0 := by simpa using h
      exact absurd hlarge (Nat.not_le.mpr floatLimit_pos)
    | _ => rw [hvalue] at hlarge; exact hlarge.elim

/-- What `Memory.from_dict` raises beyond the classes that are caught. -/
theorem fromDict_error_iff {data : Fields F} {e : PyError} (he : e ∉ caught) :
    fromDict py data = .error e ↔ e = .overflowError ∧ Overflows py data := by
  unfold fromDict
  -- Of the eleven reads only the two of a number raise a class that is not caught.
  simp only [bind_eq_error, item_ne_error he, coerceUtc_ne_error he, lastAccessed_ne_error he,
    toList_ne_error he, toDict_ne_error he, toFloat_error he, tooLarge_getOr, item_eq_ok, false_or,
    pure, Except.pure, reduceCtorEq, and_false, exists_false, or_false]
  constructor
  · rintro ⟨v, hv, t, ht, a, ha, id, hid, content, hcontent, type, htype, domain, hdomain, d, hd, l,
      hl, hnumbers⟩
    have hheaded : Headed py data :=
      ⟨⟨t, v, hv, ht⟩, ⟨a, ha⟩, by simp [hid, hcontent, htype, hdomain], ⟨d, hd⟩, ⟨l, hl⟩⟩
    rcases hnumbers with ⟨heq, hlarge⟩ | ⟨x, hx, heq, hlarge⟩
    · exact ⟨heq, hheaded, .inl hlarge⟩
    · exact ⟨heq, hheaded, .inr ⟨⟨x, hx⟩, hlarge⟩⟩
  · rintro ⟨heq, ⟨⟨t, v, hv, ht⟩, ⟨a, ha⟩, hpresent, ⟨d, hd⟩, ⟨l, hl⟩⟩, hnumbers⟩
    have hget : ∀ key ∈ ["id", "content", "memory_type", "domain"], ∃ v, get? data key = some v :=
      fun key hkey => Option.isSome_iff_exists.mp (hpresent key hkey)
    obtain ⟨id, hid⟩ := hget "id" (by simp)
    obtain ⟨content, hcontent⟩ := hget "content" (by simp)
    obtain ⟨type, htype⟩ := hget "memory_type" (by simp)
    obtain ⟨domain, hdomain⟩ := hget "domain" (by simp)
    refine ⟨v, hv, t, ht, a, ha, id, hid, content, hcontent, type, htype, domain, hdomain, d, hd, l,
      hl, ?_⟩
    rcases hnumbers with hlarge | ⟨⟨x, hx⟩, hlarge⟩
    · exact .inl ⟨heq, hlarge⟩
    · exact .inr ⟨x, hx, heq, hlarge⟩

theorem Overflows.fromDict {data : Fields F} (h : Overflows py data) :
    fromDict py data = .error .overflowError :=
  (fromDict_error_iff (by decide)).mpr ⟨rfl, h⟩

end Overflow

section Items

variable {F T : Type} {py : Python F T}

theorem get?_append (fields fields' : Fields F) (key : String) :
    get? (fields ++ fields') key = (get? fields key).or (get? fields' key) := by
  rw [get?, get?, get?, List.find?_append, Option.map_or]

theorem get?_setItem (fields : Fields F) (key : String) (v : Value F) :
    get? (setItem fields key v) key = some v := by
  rw [setItem]
  split_ifs with hany
  · induction fields with
    | nil => cases hany
    | cons f fields ih =>
      rw [List.map_cons]
      by_cases hf : f.1 = name key
      · simp [hf]
      · rw [if_neg hf, get?_cons, if_neg hf]
        exact ih (by simpa [hf] using hany)
  · have hnone : get? fields key = none := by
      rw [get?, Option.map_eq_none_iff, List.find?_eq_none]
      exact fun f hf heq => hany (List.any_eq_true.mpr ⟨f, hf, heq⟩)
    rw [get?_append, hnone]
    simp

/-- The other items of a dictionary stay. -/
theorem get?_setItem_ne {key key' : String} (h : name key' ≠ name key) (fields : Fields F)
    (v : Value F) : get? (setItem fields key v) key' = get? fields key' := by
  rw [setItem]
  split_ifs with hany
  · clear hany
    induction fields with
    | nil => rfl
    | cons f fields ih =>
      rw [List.map_cons]
      by_cases hf : f.1 = name key
      · rw [if_pos hf, get?_cons, get?_cons, hf, if_neg (Ne.symm h), if_neg (Ne.symm h), ih]
      · rw [if_neg hf, get?_cons, get?_cons, ih]
  · rw [get?_append]
    simp [Ne.symm h]

theorem fromDict_setItem (fields : Fields F) (v : Value F) :
    fromDict py (setItem fields "_claim_id" v) = fromDict py fields := by
  have hget : ∀ key ∈ ["created_at", "last_accessed_at", "id", "content", "memory_type", "domain",
      "emotions", "tags", "importance", "score", "active", "protected", "metadata"],
      get? (setItem fields "_claim_id" v) key = get? fields key := by
    intro key hkey
    refine get?_setItem_ne ?_ fields v
    revert key
    decide
  -- None of the keys that are read is the claim id.
  simp only [List.forall_mem_cons] at hget
  obtain ⟨h₁, h₂, h₃, h₄, h₅, h₆, h₇, h₈, h₉, h₁₀, h₁₁, h₁₂, h₁₃, -⟩ := hget
  simp only [fromDict, lastAccessed, getOr, getOrNone, item, h₁, h₂, h₃, h₄, h₅, h₆, h₇, h₈, h₉,
    h₁₀, h₁₁, h₁₂, h₁₃]
  rfl

end Items

/-! ## Lines -/

/-- The interpreter's limits. -/
structure Limits where
  /-- How many containers inside one another `json.loads` reads. -/
  load : ℕ
  /-- How many of them `json.dumps` writes. -/
  dump : ℕ
  /-- How many calls of `_null_nonfinite` there are inside one another. -/
  walk : ℕ

section Lines

variable {F : Type} (floats : Floats F) (limits : Limits)

/-- `_null_nonfinite`, with the calls that are left. -/
def nullNonfinite : ℕ → Value F → Option (Value F)
  | 0, _ => none
  | _ + 1, .float x => some (if (floats.repr x).isSome then .float x else .null)
  | d + 1, .arr items => (items.mapM (nullNonfinite d)).map .arr
  | d + 1, .obj fields =>
    (fields.mapM fun f => (nullNonfinite d f.2).map fun v => (f.1, v)).map .obj
  | _ + 1, v => some v

/-- `_dumps` with `nonfinite="null"`, none where it raises. A value that is too deep is not tried
again, and would be too deep again. -/
def dumpsNull (v : Value F) : Option Text :=
  match dumps floats limits.dump v with
  | some t => some t
  | none => (nullNonfinite floats limits.walk v).bind (dumps floats limits.dump)

/-- A value of such integers and floats. -/
inductive Made (okInt : ℤ → Prop) (okFloat : F → Prop) : Value F → Prop
  | null : Made okInt okFloat .null
  | bool (b : Bool) : Made okInt okFloat (.bool b)
  | int {n : ℤ} : okInt n → Made okInt okFloat (.int n)
  | float {x : F} : okFloat x → Made okInt okFloat (.float x)
  | str (s : List CodeUnit) : Made okInt okFloat (.str s)
  | arr {items : List (Value F)} : (∀ v ∈ items, Made okInt okFloat v) →
    Made okInt okFloat (.arr items)
  | obj {fields : Fields F} : (∀ f ∈ fields, Made okInt okFloat f.2) →
    Made okInt okFloat (.obj fields)

/-- No integer has too many digits. -/
def Short : Value F → Prop :=
  Made (fun n => (intNumeral n).whole.length ≤ maxDigits) fun _ => True

/-- No float is infinite or not a number. -/
def AllFinite : Value F → Prop := Made (fun _ => True) fun x => (floats.repr x).isSome

/-- There are at most so many containers inside one another. -/
def Nested : ℕ → Value F → Prop
  | 0, .arr _ | 0, .obj _ => False
  | d + 1, .arr items => ∀ v ∈ items, Nested d v
  | d + 1, .obj fields => ∀ f ∈ fields, Nested d f.2
  | _, _ => True

/-- There are at most so many values inside one another. -/
def Walked : ℕ → Value F → Prop
  | 0, _ => False
  | d + 1, .arr items => ∀ v ∈ items, Walked d v
  | d + 1, .obj fields => ∀ f ∈ fields, Walked d f.2
  | _ + 1, _ => True

/-- A value within the limits of `json.dumps`, and within those of `_null_nonfinite` where one of
its floats is infinite or not a number. -/
def Dumpable (v : Value F) : Prop :=
  Nested limits.dump v ∧ (AllFinite floats v ∨ Walked limits.walk v)

variable {floats limits}

theorem isSome_mapM {α β : Type} {f : α → Option β} (as : List α) :
    (as.mapM f).isSome ↔ ∀ a ∈ as, (f a).isSome := by
  induction as with
  | nil => simp
  | cons a as ih =>
    rw [List.mapM_cons, List.forall_mem_cons, ← ih]
    cases f a with
    | none => simp
    | some b => cases as.mapM f <;> simp

theorem short_loads {d : ℕ} {t : Text} {v : Value F} (h : loads floats d t = .ok v) : Short v :=
  Inherits.loads ⟨.null, .bool, fun _ hn => .int hn, fun _ => .float trivial, .str, fun _ => .arr,
    fun _ => .obj⟩ h

theorem made_arr {okInt : ℤ → Prop} {okFloat : F → Prop} {items : List (Value F)} :
    Made okInt okFloat (.arr items) ↔ ∀ v ∈ items, Made okInt okFloat v :=
  ⟨fun | .arr h => h, .arr⟩

theorem made_obj {okInt : ℤ → Prop} {okFloat : F → Prop} {fields : Fields F} :
    Made okInt okFloat (.obj fields) ↔ ∀ f ∈ fields, Made okInt okFloat f.2 :=
  ⟨fun | .obj h => h, .obj⟩

theorem made_int {okInt : ℤ → Prop} {okFloat : F → Prop} {n : ℤ} :
    Made okInt okFloat (.int n : Value F) ↔ okInt n :=
  ⟨fun | .int h => h, .int⟩

theorem made_float {okInt : ℤ → Prop} {okFloat : F → Prop} {x : F} :
    Made okInt okFloat (.float x) ↔ okFloat x :=
  ⟨fun | .float h => h, .float⟩

theorem isSome_dumps_of_leaf {v : Value F} (hshort : Short v) (harr : ∀ items, v ≠ .arr items)
    (hobj : ∀ fields, v ≠ .obj fields) (d : ℕ) :
    (dumps floats d v).isSome ↔ Nested d v ∧ AllFinite floats v := by
  cases v with
  | null => cases d <;> simp [dumps, Nested, AllFinite, Made.null]
  | bool b => cases d <;> simp [dumps, Nested, AllFinite, Made.bool]
  | int n => cases d <;> simp [dumps, Nested, AllFinite, made_int, made_int.mp hshort]
  | float x => cases d <;> simp [dumps, Nested, AllFinite, made_float]
  | str s => cases d <;> simp [dumps, Nested, AllFinite, Made.str]
  | arr items => exact absurd rfl (harr items)
  | obj fields => exact absurd rfl (hobj fields)

/-- What `json.dumps` writes. -/
theorem isSome_dumps {v : Value F} (hshort : Short v) (d : ℕ) :
    (dumps floats d v).isSome ↔ Nested d v ∧ AllFinite floats v := by
  induction d generalizing v with
  | zero =>
    cases v with
    | arr items => simp [dumps, Nested]
    | obj fields => simp [dumps, Nested]
    | _ => exact isSome_dumps_of_leaf hshort (by rintro _ ⟨⟩) (by rintro _ ⟨⟩) 0
  | succ d ih =>
    cases v with
    | arr items =>
      have hitems := made_arr.mp hshort
      rw [dumps, Option.isSome_map, isSome_mapM, Nested, AllFinite, made_arr, ← forall₂_and]
      exact forall₂_congr fun v hv => ih (hitems v hv)
    | obj fields =>
      have hfields := made_obj.mp hshort
      rw [dumps, Option.isSome_map, isSome_mapM, Nested, AllFinite, made_obj, ← forall₂_and]
      refine forall₂_congr fun f hf => ?_
      rw [Option.isSome_map]
      exact ih (hfields f hf)
    | _ => exact isSome_dumps_of_leaf hshort (by rintro _ ⟨⟩) (by rintro _ ⟨⟩) (d + 1)

theorem isSome_nullNonfinite (d : ℕ) (v : Value F) :
    (nullNonfinite floats d v).isSome ↔ Walked d v := by
  induction d generalizing v with
  | zero => simp [nullNonfinite, Walked]
  | succ d ih =>
    cases v with
    | arr items =>
      rw [nullNonfinite, Option.isSome_map, isSome_mapM, Walked]
      exact forall₂_congr fun v _ => ih v
    | obj fields =>
      rw [nullNonfinite, Option.isSome_map, isSome_mapM, Walked]
      refine forall₂_congr fun f _ => ?_
      rw [Option.isSome_map]
      exact ih f.2
    | _ => simp [nullNonfinite, Walked]

theorem forall_mem_iff_of_forall₂ {α β : Type} {R : α → β → Prop} {P : α → Prop} {Q : β → Prop}
    {as : List α} {bs : List β} (h : List.Forall₂ R as bs)
    (hiff : ∀ a b, b ∈ bs → R a b → (P a ↔ Q b)) : (∀ a ∈ as, P a) ↔ ∀ b ∈ bs, Q b := by
  induction h with
  | nil => simp
  | cons hab _ ih =>
    rw [List.forall_mem_cons, List.forall_mem_cons, hiff _ _ List.mem_cons_self hab,
      ih fun a b hb => hiff a b (List.mem_cons_of_mem _ hb)]

/-- The copy has no float that is infinite or not a number, and is as deep. -/
theorem nullNonfinite_spec {d : ℕ} {v w : Value F} (h : nullNonfinite floats d v = some w)
    (hshort : Short v) :
    (Short w ∧ AllFinite floats w) ∧ ∀ e, Nested e w ↔ Nested e v := by
  induction d generalizing v w with
  | zero => cases h
  | succ d ih =>
    cases v with
    | null =>
      cases h
      exact ⟨⟨.null, .null⟩, fun _ => Iff.rfl⟩
    | bool b =>
      cases h
      exact ⟨⟨.bool b, .bool b⟩, fun _ => Iff.rfl⟩
    | int n =>
      cases h
      exact ⟨⟨hshort, .int trivial⟩, fun _ => Iff.rfl⟩
    | float x =>
      cases h
      -- `null` is put for a float that cannot be written, and neither of them holds anything.
      split_ifs with hx
      · exact ⟨⟨.float trivial, .float hx⟩, fun _ => Iff.rfl⟩
      · exact ⟨⟨.null, .null⟩, fun e => by cases e <;> simp [Nested]⟩
    | str s =>
      cases h
      exact ⟨⟨.str s, .str s⟩, fun _ => Iff.rfl⟩
    | arr items =>
      obtain ⟨ws, hws, rfl⟩ := Option.map_eq_some_iff.mp h
      have hall := mapM_some hws
      have hitems := made_arr.mp hshort
      refine ⟨?_, fun e => ?_⟩
      · rw [Short, AllFinite, made_arr, made_arr, ← forall₂_and]
        exact forall_mem_of_forall₂ hall fun w v hv hcopy => (ih hcopy (hitems v hv)).1
      · cases e with
        | zero => rfl
        | succ e =>
          exact forall_mem_iff_of_forall₂ hall fun w v hv hcopy => (ih hcopy (hitems v hv)).2 e
    | obj fields =>
      obtain ⟨ws, hws, rfl⟩ := Option.map_eq_some_iff.mp h
      have hall := mapM_some hws
      have hfields := made_obj.mp hshort
      refine ⟨?_, fun e => ?_⟩
      · rw [Short, AllFinite, made_obj, made_obj, ← forall₂_and]
        refine forall_mem_of_forall₂ hall fun g f hf hcopy => ?_
        obtain ⟨w, hw, rfl⟩ := Option.map_eq_some_iff.mp hcopy
        exact (ih hw (hfields f hf)).1
      · cases e with
        | zero => rfl
        | succ e =>
          refine forall_mem_iff_of_forall₂ hall fun g f hf hcopy => ?_
          obtain ⟨w, hw, rfl⟩ := Option.map_eq_some_iff.mp hcopy
          exact (ih hw (hfields f hf)).2 e

/-- What `_dumps` writes of a value that was read. -/
theorem isSome_dumpsNull {v : Value F} (hshort : Short v) :
    (dumpsNull floats limits v).isSome ↔ Dumpable floats limits v := by
  have hdumps : (dumps floats limits.dump v).isSome ↔ Nested limits.dump v ∧ AllFinite floats v :=
    isSome_dumps hshort limits.dump
  have hwalk : (nullNonfinite floats limits.walk v).isSome ↔ Walked limits.walk v :=
    isSome_nullNonfinite limits.walk v
  rw [dumpsNull, Dumpable]
  cases hstrict : dumps floats limits.dump v with
  | some t =>
    rw [hstrict] at hdumps
    have hboth := hdumps.mp rfl
    exact ⟨fun _ => ⟨hboth.1, .inl hboth.2⟩, fun _ => rfl⟩
  | none =>
    rw [hstrict] at hdumps
    -- The value itself is not written: it is too deep, and so is its copy, or it has such a float.
    have hnot : ¬ (Nested limits.dump v ∧ AllFinite floats v) := fun h => nomatch hdumps.mpr h
    cases hnull : nullNonfinite floats limits.walk v with
    | none =>
      rw [hnull] at hwalk
      refine ⟨nofun, ?_⟩
      rintro ⟨hnested, hfinite | hwalked⟩
      · exact absurd ⟨hnested, hfinite⟩ hnot
      · exact hwalk.mpr hwalked
    | some w =>
      rw [hnull] at hwalk
      obtain ⟨⟨hshortw, hfinite⟩, hnested⟩ := nullNonfinite_spec hnull hshort
      show (dumps floats limits.dump w).isSome ↔ _
      rw [isSome_dumps hshortw, hnested]
      exact ⟨fun h => ⟨h.1, .inr (hwalk.mp rfl)⟩, fun h => ⟨h.1, hfinite⟩⟩

theorem forall_setItem {P : Value F → Prop} {fields : Fields F} {key : String} {v : Value F} :
    (∀ f ∈ setItem fields key v, P f.2) ↔ P v ∧ ∀ f ∈ fields, f.1 ≠ name key → P f.2 := by
  rw [setItem]
  split_ifs with hany
  · -- The key is there: its item is replaced, and the others keep their values.
    obtain ⟨f, hf, hkey⟩ := List.any_eq_true.mp hany
    rw [List.forall_mem_map]
    constructor
    · intro h
      refine ⟨?_, fun g hg hne => ?_⟩
      · have hset := h f hf
        rwa [if_pos (of_decide_eq_true hkey)] at hset
      · have hset := h g hg
        rwa [if_neg hne] at hset
    · rintro ⟨hv, hrest⟩ g hg
      by_cases hg' : g.1 = name key
      · rw [if_pos hg']
        exact hv
      · rw [if_neg hg']
        exact hrest g hg hg'
  · have hne : ∀ f ∈ fields, f.1 ≠ name key := fun f hf heq =>
      hany (List.any_eq_true.mpr ⟨f, hf, decide_eq_true heq⟩)
    rw [List.forall_mem_append, List.forall_mem_singleton, and_comm]
    exact and_congr_right fun _ => forall₂_congr fun f hf => by simp [hne f hf]

theorem short_setItem {fields : Fields F} (h : Short (.obj fields)) (key : String)
    (s : List CodeUnit) : Short (.obj (setItem fields key (.str s))) :=
  made_obj.mpr (forall_setItem.mpr ⟨.str s, fun f hf _ => made_obj.mp h f hf⟩)

/-- It does not matter which string is put in. -/
theorem dumpable_setItem {fields : Fields F} {key : String} (s s' : List CodeUnit) :
    Dumpable floats limits (.obj (setItem fields key (.str s))) ↔
      Dumpable floats limits (.obj (setItem fields key (.str s'))) := by
  -- A string is a leaf whatever it holds.
  have hnested : ∀ d, Nested d (.obj (setItem fields key (.str s))) ↔
      Nested d (.obj (setItem fields key (.str s'))) := by
    intro d
    cases d with
    | zero => rfl
    | succ d =>
      rw [Nested, Nested, forall_setItem, forall_setItem]
      cases d <;> rfl
  have hwalked : ∀ d, Walked d (.obj (setItem fields key (.str s))) ↔
      Walked d (.obj (setItem fields key (.str s'))) := by
    intro d
    cases d with
    | zero => rfl
    | succ d =>
      rw [Walked, Walked, forall_setItem, forall_setItem]
      cases d <;> rfl
  have hfinite : AllFinite floats (.obj (setItem fields key (.str s))) ↔
      AllFinite floats (.obj (setItem fields key (.str s'))) := by
    rw [AllFinite, made_obj, made_obj, forall_setItem, forall_setItem]
    exact and_congr_left fun _ => ⟨fun _ => .str s', fun _ => .str s⟩
  rw [Dumpable, Dumpable, hnested, hwalked, hfinite]

end Lines

end Companion.Consolidation.Entries

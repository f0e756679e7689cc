import Mathlib.Data.Rat.Defs
import Mathlib.Data.List.Basic

/-!
# JSON values

The values of `json.loads`. The type of the strings is a parameter, since a Python string may hold
code points that no encoding of text has.
-/

namespace Companion.Kindled

/-- A value of `float`. -/
inductive FloatValue
  | finite (x : ℚ)
  | infinite (negative : Bool)
  | nan
  deriving DecidableEq

/-- A JSON value. -/
inductive Json (σ : Type)
  | null
  | bool (b : Bool)
  | int (n : ℤ)
  | float (x : FloatValue)
  | str (s : σ)
  | arr (items : List (Json σ))
  /-- The items of an object, each key once. -/
  | obj (items : List (σ × Json σ))

namespace Json

variable {σ : Type} [DecidableEq σ]

/-- `d.get(key)` of an object, and none for any other value. -/
def get? (j : Json σ) (key : σ) : Option (Json σ) :=
  match j with
  | obj items => items.lookup key
  | _ => none

def isObject : Json σ → Bool
  | obj _ => true
  | _ => false

omit [DecidableEq σ]

theorem sizeOf_lt_arr [SizeOf σ] {items : List (Json σ)} {j : Json σ} (h : j ∈ items) :
    sizeOf j < sizeOf (arr items) := by
  have hmem := List.sizeOf_lt_of_mem h
  rw [arr.sizeOf_spec]
  omega

theorem sizeOf_lt_obj [SizeOf σ] {items : List (σ × Json σ)} {item : σ × Json σ}
    (h : item ∈ items) : sizeOf item.2 < sizeOf (obj items) := by
  have hmem := List.sizeOf_lt_of_mem h
  have hitem : sizeOf item = 1 + sizeOf item.1 + sizeOf item.2 := rfl
  rw [obj.sizeOf_spec]
  omega

/-- The value with each of its strings mapped. -/
def mapStr {τ : Type} (f : σ → τ) : Json σ → Json τ
  | null => null
  | bool b => bool b
  | int n => int n
  | float x => float x
  | str s => str (f s)
  | arr items => arr (items.map fun j => mapStr f j)
  | obj items => obj (items.map fun item => (f item.1, mapStr f item.2))
decreasing_by
  · exact sizeOf_lt_arr ‹_›
  · exact sizeOf_lt_obj ‹_›

/-- No object has a key twice. -/
inductive Distinct : Json σ → Prop
  | null : Distinct null
  | bool (b : Bool) : Distinct (bool b)
  | int (n : ℤ) : Distinct (int n)
  | float (x : FloatValue) : Distinct (float x)
  | str (s : σ) : Distinct (str s)
  | arr {items : List (Json σ)} : (∀ j ∈ items, Distinct j) → Distinct (arr items)
  | obj {items : List (σ × Json σ)} : (items.map Prod.fst).Nodup →
    (∀ item ∈ items, Distinct item.2) → Distinct (obj items)

/-- The value is, or has in it, an object with these items. -/
inductive HasObject : Json σ → List (σ × Json σ) → Prop
  | here {items : List (σ × Json σ)} : HasObject (obj items) items
  | arr {items : List (Json σ)} {j : Json σ} {o : List (σ × Json σ)} :
    j ∈ items → HasObject j o → HasObject (arr items) o
  | obj {items : List (σ × Json σ)} {item : σ × Json σ} {o : List (σ × Json σ)} :
    item ∈ items → HasObject item.2 o → HasObject (obj items) o

theorem forall_hasObject_arr {items : List (Json σ)} {P : List (σ × Json σ) → Prop} :
    (∀ o, (arr items).HasObject o → P o) ↔ ∀ j ∈ items, ∀ o, j.HasObject o → P o := by
  constructor
  · exact fun h j hj o ho => h o (.arr hj ho)
  · intro h o ho
    cases ho with
    | arr hj ho => exact h _ hj o ho

theorem forall_hasObject_obj {items : List (σ × Json σ)} {P : List (σ × Json σ) → Prop} :
    (∀ o, (obj items).HasObject o → P o) ↔
      P items ∧ ∀ item ∈ items, ∀ o, item.2.HasObject o → P o := by
  constructor
  · exact fun h => ⟨h items .here, fun item hitem o ho => h o (.obj hitem ho)⟩
  · rintro ⟨hhere, hinside⟩ o ho
    cases ho with
    | here => exact hhere
    | obj hitem ho => exact hinside _ hitem o ho

end Json

end Companion.Kindled

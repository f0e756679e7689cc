import Companion.Dict
import Companion.Memory.Text
import Mathlib.Data.Rat.Defs

/-!
# The rows of `memories`

A row of `memories` with the columns that its writers and the forgetting pass read, and the single
statements that `MemoryStore` (`brain/memory/store.py`) writes it with. Every statement is a
function on rows, which the developments above run at the commit that makes it visible.

A statement that changes the content sets the embedding to `NULL` in the same write, so that no row
bears a vector from before the change.

Memory ids and model ids are only compared, so numbers stand for them.
-/

namespace Companion.Memory

abbrev MemoryId := ℕ

abbrev ModelId := ℕ

/-! ## Stored vectors -/

/-- The bytes of one float32. -/
abbrev Scalar := UInt8 × UInt8 × UInt8 × UInt8

/-- A float32 vector. -/
abbrev Vec := List Scalar

/-- `vec.tobytes()` -/
def tobytes : Vec → List UInt8
  | [] => []
  | (a, b, c, d) :: v => a :: b :: c :: d :: tobytes v

/-- `np.frombuffer(blob, dtype=np.float32)`; a blob whose length is no multiple of 4 is none. -/
def frombuffer : List UInt8 → Option Vec
  | [] => some []
  | a :: b :: c :: d :: blob => (frombuffer blob).map ((a, b, c, d) :: ·)
  | _ => none

@[simp] theorem frombuffer_tobytes (v : Vec) : frombuffer (tobytes v) = some v := by
  induction v with
  | nil => rfl
  | cons x v ih => simp [tobytes, frombuffer, ih]

/-! ## Rows -/

/-- The `state` column. -/
inductive MemoryState
  | active
  | fading
  deriving DecidableEq

/-- A row of `memories`. -/
structure Row where
  content : Text
  active : Bool
  state : MemoryState
  contentSnapshot : Option Text
  createdAt : Instant
  lastAccessedAt : Option Instant
  importance : ℚ
  recallCount : ℚ
  embedding : Option (List UInt8)
  embeddingModelId : Option ModelId
  deriving DecidableEq

namespace Row

/-- The row that `create` inserts, which is not embedded. -/
def created (content : Text) (active : Bool) (createdAt : Instant) (importance : ℚ) : Row :=
  ⟨content, active, .active, none, createdAt, none, importance, 0, none, none⟩

/-- The vector of an active embedded row. -/
def vector? (r : Row) : Option Vec := if r.active then r.embedding.bind frombuffer else none

/-- The vector of an active row embedded under `m`, as the matrix's load query reads it. -/
def vectorUnder (m : ModelId) (r : Row) : Option Vec :=
  if r.embeddingModelId = some m then r.vector? else none

/-- `write_embedding` -/
def writeEmbedding (v : Vec) (m : ModelId) (r : Row) : Row :=
  { r with embedding := some (tobytes v), embeddingModelId := some m }

/-- The clearing of `_reembed_or_clear`. -/
def clearEmbedding (r : Row) : Row := { r with embedding := none, embeddingModelId := none }

/-- `update(content=...)` -/
def updateContent (content : Text) (r : Row) : Row := { r.clearEmbedding with content := content }

/-- The statement of `fade`. -/
def fade (summary : Text) (r : Row) : Row :=
  { r.clearEmbedding with
    contentSnapshot := some r.content
    content := summary
    state := .fading }

/-- The statement of `unfade`, which fails on a row without a snapshot: `content` is not nullable.
-/
def unfade (r : Row) : Option Row :=
  r.contentSnapshot.map fun snapshot =>
    { r.clearEmbedding with content := snapshot, contentSnapshot := none, state := .active }

/-- The transaction of `refresh_faded_emotions`: the text and the snapshot are dated with the day
that the row was created on before the reset, and an unchanged text keeps its vector. -/
def refreshFadedEmotions (cal : Text.Calendar) (createdAt : Instant) (r : Row) : Row :=
  let content := r.content.withDatePrefix cal r.createdAt
  let dated : Row := if content = r.content then r else r.updateContent content
  { dated with
    createdAt := createdAt
    contentSnapshot := r.contentSnapshot.map (·.withDatePrefix cal r.createdAt) }

/-- `deactivate` -/
def deactivate (r : Row) : Row := { r with active := false }

end Row

/-- `UPDATE memories SET … WHERE id = ?`, which changes nothing where no row has the id. -/
def updateRow (rows : Dict MemoryId Row) (id : MemoryId) (f : Row → Row) : Dict MemoryId Row :=
  match rows.get? id with
  | some r => rows.set id (f r)
  | none => rows

theorem get?_updateRow (rows : Dict MemoryId Row) (id id' : MemoryId) (f : Row → Row) :
    (updateRow rows id f).get? id' =
      if id' = id then (rows.get? id).map f else rows.get? id' := by
  unfold updateRow
  cases hr : rows.get? id with
  | some r => rw [Option.map_some, Dict.get?_set]
  | none =>
    split_ifs with h
    · rw [h, hr, Option.map_none]
    · rfl

end Companion.Memory

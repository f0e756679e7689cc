import Companion.Memory.Text

/-!
# Conversation buffers

The rows of `brain/ingest/buffer.py`: a turn, the stamp that an append gives it, its identity, the
rows after a cursor (`read_session_after`), and the line that the extractor is sent for it
(`format_turn_line` of `brain/ingest/extract.py`).

A stamp that some reader can parse is the time that it is parsed to.
-/

namespace Companion.Ingest

open Companion.Memory

/-- The value of `ts`. -/
inductive Stamp
  | iso (t : Instant)
  /-- A text that no reader can parse. -/
  | raw (text : Text)
  deriving DecidableEq

inductive Speaker
  | user
  | assistant
  | summary
  | other (name : Text)
  deriving DecidableEq

/-- A row of a buffer. -/
structure Turn where
  ts : Option Stamp
  speaker : Speaker
  text : Text
  imageShas : List Text
  /-- The number of its append, which no operation reads. -/
  nr : ℕ
  deriving DecidableEq

/-- `_now_iso`: the second of a time. -/
def nowIso (t : Instant) : Instant := t / 1000000 * 1000000

/-- The record of `ingest_turn` for a turn that comes without a stamp. -/
def ingestTurn (now : Instant) (speaker : Speaker) (text : Text) (imageShas : List Text) (nr : ℕ) :
    Turn :=
  ⟨some (.iso (nowIso now)), speaker, text.strip, imageShas, nr⟩

namespace Turn

/-- `lenient_utc` of the stamp. -/
def stamp (t : Turn) : Option Instant :=
  match t.ts with
  | some (.iso t) => some t
  | _ => none

/-- `turn_identity`, which is `_row_key` too. -/
def identity (t : Turn) : Option Stamp × Speaker × Text := (t.ts, t.speaker, t.text)

instance lawfulBEq_identity : LawfulBEq (Option Stamp × Speaker × Text) := inferInstance

end Turn

@[simp]
theorem stamp_ingestTurn (now : Instant) (speaker : Speaker) (text : Text) (imageShas : List Text)
    (nr : ℕ) : (ingestTurn now speaker text imageShas nr).stamp = some (nowIso now) :=
  rfl

/-- `read_session_after` -/
def readSessionAfter (buffer : List Turn) : Option Instant → List Turn
  | none => buffer
  | some cutoff => buffer.filter fun t => t.stamp.any (cutoff < ·)

/-- A row is returned when it is newer than the cursor. -/
theorem mem_readSessionAfter {buffer : List Turn} {cursor : Option Instant} {t : Turn} :
    t ∈ readSessionAfter buffer cursor ↔
      t ∈ buffer ∧ ∀ c, cursor = some c → ∃ x, t.stamp = some x ∧ c < x := by
  cases cursor with
  | none => simp [readSessionAfter]
  | some c => simp [readSessionAfter, Option.any_eq_true]

/-! ## Transcript lines -/

/-- A name, or its default where it is missing or empty. -/
def labelOr (name : Option Text) (label : Text) : Text :=
  match name with
  | some (c :: cs) => c :: cs
  | _ => label

/-- `format_turn_line` -/
def formatTurnLine (t : Turn) (userLabel assistantLabel : Text) : Option Text :=
  let line (label : Text) : Text :=
    let markers := List.intercalate [' '] (t.imageShas.map fun s => "[image: ".toList ++ s.take 8 ++ [']'])
    let body :=
      if t.imageShas = [] then t.text
      else if t.text = [] then markers
      else Text.strip (markers ++ ' ' :: t.text)
    label ++ ": ".toList ++ body
  match t.speaker with
  | .summary => none
  | .user => some (line userLabel)
  | .assistant => some (line assistantLabel)
  | .other name => some (line name)

/-- `format_transcript` -/
def formatTranscript (turns : List Turn) (userName assistantName : Option Text) : Text :=
  List.intercalate ['\n'] (turns.filterMap fun t =>
    formatTurnLine t (labelOr userName "user".toList) (labelOr assistantName "assistant".toList))

end Companion.Ingest

import Mathlib.Data.Int.Notation
import Mathlib.Data.List.Basic
import Mathlib.Order.Basic
import Mathlib.Tactic.SplitIfs

/-!
# Memory texts

What the store and the forgetting pass do to the text of a memory: the date that a write-back puts
at its start (`_with_date_prefix`), the date that a merge carries over (`carry_date_prefix`), and
the summary that a faded memory is left with (`tombstone.summarise`).

A text is a list of characters. The calendar is a parameter, since the local day of an instant
depends on the time zone; its days are written `YYYY-MM-DD`.
-/

namespace Companion.Memory

abbrev Text := List Char

instance lawfulBEq_text : LawfulBEq Text := inferInstance

/-- A time in microseconds. -/
abbrev Instant := ℤ

/-- The whitespace of `str.isspace` and of `\s`. -/
def whitespace : List ℕ :=
  [9, 10, 11, 12, 13, 28, 29, 30, 31, 32, 133, 160, 5760, 8192, 8193, 8194, 8195, 8196, 8197, 8198,
    8199, 8200, 8201, 8202, 8232, 8233, 8239, 8287, 12288]

def isSpace (c : Char) : Bool := whitespace.contains c.toNat

namespace Text

/-- `str.lstrip` -/
def lstrip (t : Text) : Text := t.dropWhile isSpace

/-- `str.rstrip` -/
def rstrip (t : Text) : Text := (t.reverse.dropWhile isSpace).reverse

/-- `str.strip` -/
def strip (t : Text) : Text := rstrip (lstrip t)

/-! ## The date at the start of a text -/

/-- The characters of `[0-9]{4}-[0-9]{2}-[0-9]{2}: `. -/
def dateForm : List (Char → Bool) :=
  let digit : Char → Bool := fun c => '0' ≤ c && c ≤ '9'
  [digit, digit, digit, digit, (· == '-'), digit, digit, (· == '-'), digit, digit, (· == ':'),
    (· == ' ')]

/-- The first characters meet the predicates, one each. -/
def startsWith : List (Char → Bool) → Text → Bool
  | [], _ => true
  | _ :: _, [] => false
  | p :: ps, c :: cs => p c && startsWith ps cs

/-- The text starts with a date in the working form. -/
def isDated (t : Text) : Bool := startsWith dateForm t

/-- The local calendar: `day_of`, written `YYYY-MM-DD`. -/
structure Calendar where
  dayOf : Instant → Text
  dayOf_dated : ∀ t, (dayOf t).length = 10 ∧ isDated (dayOf t ++ [':', ' ']) = true

/-- A calendar of one day. -/
def Calendar.oneDay : Calendar where
  dayOf _ := "2026-01-01".toList
  dayOf_dated _ := by decide

/-- `_with_date_prefix` -/
def withDatePrefix (cal : Calendar) (text : Text) (createdAt : Instant) : Text :=
  if isDated text then text else (cal.dayOf createdAt ++ [':', ' ']) ++ text

/-- `carry_date_prefix` -/
def carryDatePrefix (oldText newText : Text) : Text :=
  if strip newText = [] then newText
  else if isDated (lstrip newText) then lstrip newText
  else if isDated oldText then oldText.take 12 ++ lstrip newText
  else newText

/-- A write-back keeps the text at the end. -/
theorem suffix_withDatePrefix (cal : Calendar) (text : Text) (t : Instant) :
    text <:+ withDatePrefix cal text t := by
  unfold withDatePrefix
  split_ifs
  · exact List.suffix_rfl
  · exact List.suffix_append _ _

/-! ## The summary of a faded memory -/

/-- Each run of whitespace becomes one space. `inRun` says that the last character was in a run. -/
def collapseFrom (inRun : Bool) : Text → Text
  | [] => []
  | c :: cs =>
    if isSpace c then
      if inRun then collapseFrom true cs else ' ' :: collapseFrom true cs
    else c :: collapseFrom false cs

/-- The text up to the first whitespace after one of `.!?`. -/
def firstSentenceFrom (stopped : Bool) : Text → Text
  | [] => []
  | c :: cs =>
    if stopped && isSpace c then [] else c :: firstSentenceFrom (c = '.' || c = '!' || c = '?') cs

/-- The text before its last space, if one is there and not at the start. -/
def beforeLastSpace (t : Text) : Text :=
  let upTo := (t.reverse.dropWhile (· ≠ ' ')).reverse
  if 1 < upTo.length then upTo.dropLast else t

/-- `tombstone.summarise` -/
def summarise (body : Text) (maxChars : ℕ) : Text :=
  let collapsed := strip (collapseFrom false body)
  if collapsed.length ≤ maxChars then collapsed
  else
    let firstSentence := firstSentenceFrom false collapsed
    if firstSentence.length ≤ maxChars then firstSentence
    else rstrip (beforeLastSpace (collapsed.take (maxChars - 1))) ++ ['…']

end Text

end Companion.Memory

import Companion.Memory.Text
import Companion.Runs
import Mathlib

/-!
# The names that are known, and those that are rejected

The writers of `brain/memory/known_names.py`: `admit_names`, `remove_names`, `confirm_readd` and
`note_tool_call`, over the tables `known_names`, `rejected_names` and `pending_readd`. Each of the
first three is one transaction under the file lock; `note_tool_call` reads the pending question
outside of the lock, and deletes it in a transaction of its own.

No key is in both tables (`known_or_rejected`), the re-appraiser takes no name away that the tool
has added (`known_of_reappraiser`), and a rejected key is listed again by a confirmation alone
(`confirmed_of_relisted`). Where the tool calls come one after the other, the calls before the
confirming one are, back to the one that asked, attempts to add the same key that have written
nothing (`asked_of_relisted`). Such attempts there can be: a write that fails keeps the question,
and so does a spelling of the name with over `MAX_NAME_LENGTH` characters.

A table without rows stands for one that is not there yet. How Python lowers the case of a text is
a parameter.
-/

namespace Companion.Memory.KnownNames

open Companion.Runs

/-! ## Names and their keys -/

/-- A code point of a Python string. -/
inductive Point
  | scalar (c : Char)
  /-- A lone surrogate. -/
  | surrogate (u : ℕ)
  deriving DecidableEq

/-- A name as it is given. -/
abbrev Name := List Point

/-- The name of a text. -/
def Name.ofText (t : Text) : Name := t.map .scalar

namespace Point

def isSpace : Point → Bool
  | .scalar c => Memory.isSpace c
  | .surrogate _ => false

/-- `.encode("utf-8", "replace")`, read back. -/
def replace : Point → Char
  | .scalar c => c
  | .surrogate _ => '?'

end Point

/-- `str.strip` -/
def strip (x : Name) : Name := (x.dropWhile Point.isSpace).rdropWhile Point.isSpace

/-- `_clean_name` -/
def cleanName (x : Name) : Text := (strip x).map Point.replace

/-- A character of `[A-Za-z0-9]`. -/
def isWordChar (c : Char) : Bool :=
  ('A' ≤ c && c ≤ 'Z') || ('a' ≤ c && c ≤ 'z') || ('0' ≤ c && c ≤ '9')

/-- The runs of characters with the property. -/
def wordsOf (p : Char → Bool) (t : Text) : List Text :=
  (t.splitOnP fun c => !p c).filter (· ≠ [])

/-- `" ".join` -/
def joinSpaces (ws : List Text) : Text := [' '].intercalate ws

section Keys

variable (lower : Text → Text)

/-- `normalize_name` -/
def normalizeName (t : Text) : Text := joinSpaces ((wordsOf isWordChar t).map lower)

/-- The key of a name without an ASCII letter or digit. -/
def rawKey (clean : Text) : Text :=
  let squeezed := joinSpaces (wordsOf (fun c => !isSpace c) clean)
  let lowered := lower squeezed
  if lowered.any isWordChar then squeezed else lowered

/-- `name_key` -/
def nameKey (x : Name) : Text :=
  let clean := cleanName x
  let normalized := normalizeName lower clean
  if normalized ≠ [] then normalized else rawKey lower clean

/-- `MAX_NAME_LENGTH` -/
def maxNameLength : ℕ := 100

/-- `_too_long`, where a name that is not a string is none. -/
def tooLong (x : Option Name) : Bool := x.any fun x => maxNameLength < (strip x).length

/-- `_admit`: the key and the display form. -/
def admitName : Option Name → Option (Text × Text)
  | none => none
  | some x =>
    if tooLong (some x) || cleanName x = [] then none
    else some (nameKey lower (.ofText (cleanName x)), cleanName x)

end Keys

/-! ### Stripping -/

theorem strip_isPrefix (x : Name) : strip x <+: x.dropWhile Point.isSpace :=
  List.rdropWhile_prefix _ _

/-- What is stripped starts with no space. -/
theorem dropWhile_strip (x : Name) : (strip x).dropWhile Point.isSpace = strip x := by
  refine List.dropWhile_eq_self_iff.mpr fun hpos => ?_
  have hlen := Nat.lt_of_lt_of_le hpos (strip_isPrefix x).length_le
  have hhead : (strip x)[0] = (x.dropWhile Point.isSpace)[0] := (strip_isPrefix x).getElem hpos
  rw [hhead]
  exact List.dropWhile_get_zero_not _ _ hlen

theorem strip_strip (x : Name) : strip (strip x) = strip x := by
  calc strip (strip x) = (strip x).rdropWhile Point.isSpace := by rw [strip, dropWhile_strip]
    _ = strip x := List.rdropWhile_idempotent _ _

theorem isSpace_replace (p : Point) : (Point.scalar p.replace).isSpace = p.isSpace := by
  cases p with
  | scalar c => rfl
  | surrogate u => exact (by decide : Memory.isSpace '?' = false)

/-- A name and its clean form are stripped alike. -/
theorem strip_replace (x : Name) :
    strip (x.map fun p => .scalar p.replace) = (strip x).map fun p => .scalar p.replace := by
  have hspace : (Point.isSpace ∘ fun p => .scalar p.replace) = Point.isSpace :=
    funext isSpace_replace
  simp only [strip, List.rdropWhile, List.dropWhile_map, ← List.map_reverse, hspace]

theorem cleanName_clean (x : Name) : cleanName (.ofText (cleanName x)) = cleanName x := by
  have hpoints : Name.ofText (cleanName x) = (strip x).map fun p => .scalar p.replace := by
    simp [Name.ofText, cleanName, Function.comp_def]
  rw [hpoints, cleanName, strip_replace, strip_strip, cleanName, List.map_map]
  rfl

theorem cleanName_strip (x : Name) : cleanName (strip x) = cleanName x := by
  rw [cleanName, strip_strip, cleanName]

variable {lower : Text → Text}

theorem nameKey_congr {x y : Name} (h : cleanName x = cleanName y) :
    nameKey lower x = nameKey lower y := by
  unfold nameKey
  rw [h]

/-- An admitted name is kept under its key. -/
theorem fst_of_admitName {x : Name} {item : Text × Text} (h : admitName lower (some x) = some item) :
    item.1 = nameKey lower x := by
  rw [admitName] at h
  split_ifs at h
  calc item.1 = nameKey lower (.ofText (cleanName x)) := by rw [← Option.some.inj h]
    _ = nameKey lower x := nameKey_congr (cleanName_clean x)

/-! ## The tables -/

/-- `SOURCES` -/
inductive Source
  | gate
  | reappraiser
  | tool
  deriving DecidableEq

/-- `REMOVERS` -/
inductive Remover
  | reappraiser
  | tool
  deriving DecidableEq

/-- A row of `known_names`. -/
structure Known where
  display : Text
  source : Source
  firstSeen : Instant
  deriving DecidableEq

/-- A row of `rejected_names`. -/
structure Rejected where
  display : Text
  rejectedBy : Remover
  rejectedAt : Instant
  deriving DecidableEq

/-- The row of `pending_readd`. -/
structure Pending where
  name : Text
  askedAt : Instant
  deriving DecidableEq

/-- The tables, by `name_lower`. -/
structure Store where
  known : Text → Option Known
  rejected : Text → Option Rejected
  pending : Option Pending

namespace Store

/-- `_write_tool_row` -/
def writeToolRow (s : Store) (key display : Text) (now : Instant) : Store :=
  let row : Known :=
    match s.known key with
    | none => ⟨display, .tool, now⟩
    | some r => { r with display := display, source := .tool }
  { s with known := Function.update s.known key (some row) }

/-- One row of `_insert_in_txn`: a rejected name is refused. -/
def insertRow (s : Store) (item : Text × Text) (source : Source) (now : Instant) : Store × Bool :=
  if (s.rejected item.1).isSome then (s, false)
  else if source = .tool then (s.writeToolRow item.1 item.2 now, true)
  else if (s.known item.1).isSome then (s, true)
  else ({ s with known := Function.update s.known item.1 (some ⟨item.2, source, now⟩) }, true)

/-- `_insert_in_txn`, which returns the keys that it has not refused. -/
def insertInTxn (source : Source) (now : Instant) : List (Text × Text) → Store → Store × List Text
  | [], s => (s, [])
  | item :: items, s =>
    match s.insertRow item source now with
    | (s', false) => insertInTxn source now items s'
    | (s', true) =>
      let (s'', keys) := insertInTxn source now items s'
      (s'', item.1 :: keys)

/-- One name of `remove_names`, and whether it is removed. -/
def removeRow (s : Store) (key : Text) (remover : Remover) (now : Instant) : Store × Bool :=
  match s.known key with
  | none => (s, false)
  | some r =>
    if remover ≠ .tool ∧ r.source = .tool then (s, false)
    else
      ({ s with
        known := Function.update s.known key none
        rejected := Function.update s.rejected key (some ⟨r.display, remover, now⟩) }, true)

/-- The transaction of `remove_names`, which returns the keys that it has removed. -/
def removeInTxn (remover : Remover) (now : Instant) : List Text → Store → Store × List Text
  | [], s => (s, [])
  | key :: keys, s =>
    match s.removeRow key remover now with
    | (s', false) => removeInTxn remover now keys s'
    | (s', true) =>
      let (s'', removed) := removeInTxn remover now keys s'
      (s'', key :: removed)

end Store

/-- `ReaddOutcome` -/
inductive Outcome
  | added
  | asked
  | refused
  | tooLong
  deriving DecidableEq

/-- The transaction of `confirm_readd`. -/
def Store.readd (s : Store) (key display : Text) (now : Instant) : Store × Outcome :=
  if (s.rejected key).isSome then
    if s.pending.map Pending.name = some key then
      let s' : Store := { s with rejected := Function.update s.rejected key none, pending := none }
      (s'.writeToolRow key display now, .added)
    else ({ s with pending := some ⟨key, now⟩ }, .asked)
  else (({ s with pending := none } : Store).writeToolRow key display now, .added)

/-! ## The writers

`ok` says whether the write of a call goes through. A name that is not a string is none. -/

section Writers

variable (lower : Text → Text)

/-- The admitted names of a call, the first of each key. -/
def admitted (names : List (Option Name)) : List (Text × Text) :=
  (names.filterMap (admitName lower)).foldl
    (fun items item => if item.1 ∈ items.map Prod.fst then items else items ++ [item]) []

/-- `admit_names` -/
def admitNames (s : Store) (names : List (Option Name)) (source : Source) (now : Instant)
    (ok : Bool) : Store × List Text :=
  if ok then s.insertInTxn source now (admitted lower names) else (s, [])

/-- `remove_names` -/
def removeNames (s : Store) (names : List (Option Name)) (remover : Remover) (now : Instant)
    (ok : Bool) : Store × List Text :=
  let keys := ((names.filterMap id).map (nameKey lower)).eraseDups.filter (· ≠ [])
  if ok then s.removeInTxn remover now keys else (s, [])

/-- `confirm_readd` -/
def confirmReadd (s : Store) (name : Option Name) (now : Instant) (ok : Bool) : Store × Outcome :=
  if tooLong name then (s, .tooLong)
  else
    match admitName lower name with
    | none => (s, .refused)
    | some (key, display) => if ok then s.readd key display now else (s, .refused)

/-- `ADD_NAME_TOOL_NAME` -/
def addNameToolName : Text := "add_name".toList

/-- A tool call: the name of the tool, and the string that its arguments have as `name`. -/
structure ToolCall where
  tool : Text
  given : Option Name
  deriving DecidableEq

/-- The call adds a name of this key. -/
def ToolCall.Adds (c : ToolCall) (key : Text) : Prop :=
  c.tool = addNameToolName ∧ c.given.map (nameKey lower) = some key

instance (c : ToolCall) (key : Text) : Decidable (c.Adds lower key) := instDecidableAnd

/-- The read of `note_tool_call`: the question that the call lets lapse. -/
def noteReads (s : Store) (c : ToolCall) : Option Text :=
  match s.pending with
  | none => none
  | some p => if c.Adds lower p.name then none else some p.name

/-- The transaction of `note_tool_call`. -/
def noteDeletes (s : Store) (key : Text) : Store :=
  if s.pending.map Pending.name = some key then { s with pending := none } else s

end Writers

/-! ## Interleavings -/

/-- The tables, the tool calls whose deletes are still to come, and the counted tool calls. -/
structure State where
  store : Store
  /-- The questions that have been read, to be deleted. -/
  lapsing : List Text
  /-- The tool calls that were noted, the latest first, with what `confirm_readd` has answered. -/
  calls : List (ToolCall × Option Outcome)

/-- A transaction of a writer, or the read of `note_tool_call`. -/
inductive Act
  | admitNames (names : List (Option Name)) (source : Source) (now : Instant) (ok : Bool)
  | remove (names : List (Option Name)) (remover : Remover) (now : Instant) (ok : Bool)
  | confirm (name : Option Name) (now : Instant) (ok : Bool)
  | noteRead (c : ToolCall) (ok : Bool)
  | noteDelete (key : Text) (ok : Bool)
  deriving DecidableEq

/-- The last call has got its answer. -/
def answer (o : Outcome) :
    List (ToolCall × Option Outcome) → List (ToolCall × Option Outcome)
  | (c, none) :: calls => (c, some o) :: calls
  | calls => calls

section Machine

variable (lower : Text → Text)

/-- A step of one of the writers. -/
def step (s : State) : Act → Option State
  | .admitNames names source now ok =>
    some { s with store := (admitNames lower s.store names source now ok).1 }
  | .remove names remover now ok =>
    some { s with store := (removeNames lower s.store names remover now ok).1 }
  | .confirm name now ok =>
    let r := confirmReadd lower s.store name now ok
    some { s with store := r.1, calls := answer r.2 s.calls }
  | .noteRead c ok =>
    let lapses := if ok then (noteReads lower s.store c).toList else []
    some { s with lapsing := lapses ++ s.lapsing, calls := (c, none) :: s.calls }
  | .noteDelete key ok =>
    if key ∈ s.lapsing then
      some { s with
        store := if ok then noteDeletes s.store key else s.store
        lapsing := s.lapsing.erase key }
    else none

/-- The writers, over a file without rows. -/
def machine : Machine State Act where
  init s := s = ⟨⟨fun _ => none, fun _ => none, none⟩, [], []⟩
  step := step lower

end Machine

/-- `add_known_name`: `confirm_readd` is called for the call that was noted last, with its name
stripped, where that call adds a name and has no answer yet. -/
def follows (name : Option Name) : List (ToolCall × Option Outcome) → Bool
  | (c, none) :: _ => c.tool = addNameToolName && c.given.isSome && name = c.given.map strip
  | _ => false

/-- The tool calls come one after the other, and their notes succeed. -/
def Sequential (s : State) : Act → Prop
  | .noteRead _ ok => ok = true ∧ s.lapsing = []
  | .noteDelete _ ok => ok = true
  | .confirm name _ _ => s.lapsing = [] ∧ follows name s.calls = true
  | _ => True

instance (s : State) : (a : Act) → Decidable (Sequential s a)
  | .noteRead .. => instDecidableAnd
  | .noteDelete _ ok => inferInstanceAs (Decidable (ok = true))
  | .confirm .. => instDecidableAnd
  | .admitNames .. => .isTrue trivial
  | .remove .. => .isTrue trivial

section Laws

variable (lower : Text → Text)

/-- The calls back to one that asked for the key are attempts to add it that have written
nothing. -/
def Asked (key : Text) (calls : List (ToolCall × Option Outcome)) : Prop :=
  ∃ tries c older, calls = tries ++ (c, some .asked) :: older ∧ c.Adds lower key ∧
    ∀ t ∈ tries, t.1.Adds lower key ∧ t.2 ∈ [none, some .refused, some .tooLong]

end Laws

/-- A rejected key that a step lists, or takes off the rejects. -/
def Relisted (key : Text) (s s' : Store) : Prop :=
  (s.rejected key).isSome ∧ ((s'.known key).isSome ∨ s'.rejected key = none)

/-- No key is both known and rejected. -/
def Apart (s : Store) : Prop := ∀ key, s.known key = none ∨ s.rejected key = none

/-! ### What each writer does -/

namespace Store

variable {s : Store} {key : Text}

theorem known_writeToolRow (k display : Text) (now : Instant) (h : key ≠ k) :
    (s.writeToolRow k display now).known key = s.known key := Function.update_of_ne h _ _

@[simp]
theorem rejected_writeToolRow (k display : Text) (now : Instant) :
    (s.writeToolRow k display now).rejected = s.rejected := rfl

@[simp]
theorem pending_writeToolRow (k display : Text) (now : Instant) :
    (s.writeToolRow k display now).pending = s.pending := rfl

/-- An insert leaves the rejects and the question, and the rows of the rejected keys. -/
structure Inserted (s s' : Store) : Prop where
  rejected : s'.rejected = s.rejected
  pending : s'.pending = s.pending
  known : ∀ key, (s.rejected key).isSome → s'.known key = s.known key

theorem inserted_insertRow (s : Store) (item : Text × Text) (source : Source) (now : Instant) :
    Inserted s (s.insertRow item source now).1 := by
  unfold insertRow
  split_ifs with hrejected htool hknown
  · exact ⟨rfl, rfl, fun _ _ => rfl⟩
  · refine ⟨rfl, rfl, fun key hkey => known_writeToolRow _ _ _ ?_⟩
    rintro rfl
    exact hrejected hkey
  · exact ⟨rfl, rfl, fun _ _ => rfl⟩
  · refine ⟨rfl, rfl, fun key hkey => Function.update_of_ne ?_ _ _⟩
    rintro rfl
    exact hrejected hkey

theorem Inserted.trans {s s' s'' : Store} (h : Inserted s s') (h' : Inserted s' s'') :
    Inserted s s'' where
  rejected := h'.rejected.trans h.rejected
  pending := h'.pending.trans h.pending
  known key hkey := (h'.known key (by rw [h.rejected]; exact hkey)).trans (h.known key hkey)

theorem inserted_insertInTxn (source : Source) (now : Instant) (items : List (Text × Text))
    (s : Store) : Inserted s (s.insertInTxn source now items).1 := by
  induction items generalizing s with
  | nil => exact ⟨rfl, rfl, fun _ _ => rfl⟩
  | cons item items ih =>
    have hrow := inserted_insertRow s item source now
    unfold insertInTxn
    split
    · next s' hs' =>
      rw [hs'] at hrow
      exact hrow.trans (ih s')
    · next s' hs' =>
      rw [hs'] at hrow
      exact hrow.trans (ih s')

/-- A removal leaves the question, and moves rows from the known names to the rejects. -/
structure Removed (remover : Remover) (s s' : Store) : Prop where
  pending : s'.pending = s.pending
  /-- A row stays, or is rejected. -/
  rows : ∀ key, s'.known key = s.known key ∧ s'.rejected key = s.rejected key ∨
    s'.known key = none ∧ (s'.rejected key).isSome
  /-- Only the tool removes what it has added. -/
  tool : ∀ key r, remover ≠ .tool → s.known key = some r → r.source = .tool →
    s'.known key = some r

theorem removed_removeRow (s : Store) (key : Text) (remover : Remover) (now : Instant) :
    Removed remover s (s.removeRow key remover now).1 := by
  unfold removeRow
  split
  · exact ⟨rfl, fun _ => .inl ⟨rfl, rfl⟩, fun _ _ _ h _ => h⟩
  · next r hr =>
    split_ifs with hkept
    · exact ⟨rfl, fun _ => .inl ⟨rfl, rfl⟩, fun _ _ _ h _ => h⟩
    · refine ⟨rfl, fun k => ?_, fun k r' hremover hk hsource => ?_⟩
      · rcases eq_or_ne k key with rfl | hne
        · right
          simp
        · left
          simp [hne]
      · have hne : k ≠ key := by
          rintro rfl
          rw [hr] at hk
          cases hk
          exact hkept ⟨hremover, hsource⟩
        simpa [hne] using hk

theorem Removed.trans {remover : Remover} {s s' s'' : Store} (h : Removed remover s s')
    (h' : Removed remover s' s'') : Removed remover s s'' where
  pending := h'.pending.trans h.pending
  rows key := by
    rcases h'.rows key with ⟨hknown, hrejected⟩ | hgone
    · rw [hknown, hrejected]
      exact h.rows key
    · exact .inr hgone
  tool key r hremover hr hsource :=
    h'.tool key r hremover (h.tool key r hremover hr hsource) hsource

theorem removed_removeInTxn (remover : Remover) (now : Instant) (keys : List Text) (s : Store) :
    Removed remover s (s.removeInTxn remover now keys).1 := by
  induction keys generalizing s with
  | nil => exact ⟨rfl, fun _ => .inl ⟨rfl, rfl⟩, fun _ _ _ h _ => h⟩
  | cons key keys ih =>
    have hrow := removed_removeRow s key remover now
    unfold removeInTxn
    split
    · next s' hs' =>
      rw [hs'] at hrow
      exact hrow.trans (ih s')
    · next s' hs' =>
      rw [hs'] at hrow
      exact hrow.trans (ih s')

/-- What a confirmed or a plain add of a key does to the other tables and keys. -/
theorem known_readd (s : Store) (k display : Text) (now : Instant) {key : Text} (h : key ≠ k) :
    (s.readd k display now).1.known key = s.known key ∧
      (s.readd k display now).1.rejected key = s.rejected key := by
  unfold readd
  split_ifs
  · exact ⟨known_writeToolRow _ _ _ h, Function.update_of_ne h _ _⟩
  · exact ⟨rfl, rfl⟩
  · exact ⟨known_writeToolRow _ _ _ h, rfl⟩

/-- An add that answers `asked` has written the question alone, and one that answers `added` leaves
no question, and the key off the rejects. -/
theorem readd_cases (s : Store) (key display : Text) (now : Instant) :
    (s.readd key display now = ({ s with pending := some ⟨key, now⟩ }, .asked)) ∨
      ((s.readd key display now).2 = .added ∧ (s.readd key display now).1.pending = none ∧
        (s.readd key display now).1.rejected key = none ∧
        ((s.rejected key).isSome → s.pending.map Pending.name = some key)) := by
  unfold readd
  split_ifs with hrejected hpending
  · exact .inr ⟨rfl, rfl, Function.update_self _ _ _, fun _ => hpending⟩
  · exact .inl rfl
  · refine .inr ⟨rfl, rfl, ?_, fun h => absurd h hrejected⟩
    exact Option.not_isSome_iff_eq_none.mp hrejected

end Store

variable {s s' : State} {a : Act} {key : Text}

/-- A call of `confirm_readd` writes nothing, or is the transaction on an admitted name. -/
theorem confirmReadd_cases (lower : Text → Text) (s : Store) (name : Option Name) (now : Instant)
    (ok : Bool) :
    (∃ o ∈ [Outcome.refused, .tooLong], confirmReadd lower s name now ok = (s, o)) ∨
      ∃ item, admitName lower name = some item ∧ ok = true ∧
        confirmReadd lower s name now ok = s.readd item.1 item.2 now := by
  unfold confirmReadd
  split
  · exact .inl ⟨.tooLong, by simp, rfl⟩
  · split
    · exact .inl ⟨.refused, by simp, rfl⟩
    · next k display hitem =>
      split_ifs with hok
      · exact .inr ⟨(k, display), hitem, hok, rfl⟩
      · exact .inl ⟨.refused, by simp, rfl⟩

theorem step_confirm {name : Option Name} {now : Instant} {ok : Bool}
    (h : step lower s (.confirm name now ok) = some s') :
    s' = { s with
      store := (confirmReadd lower s.store name now ok).1
      calls := answer (confirmReadd lower s.store name now ok).2 s.calls } :=
  (Option.some.inj h).symm

/-! ### Known or rejected -/

namespace Apart

theorem insert {s s' : Store} (h : Apart s) (hins : Store.Inserted s s') : Apart s' := by
  intro key
  rcases h key with hknown | hrejected
  · by_cases hkey : (s.rejected key).isSome
    · left
      rw [hins.known key hkey]
      exact hknown
    · right
      rw [hins.rejected]
      exact Option.not_isSome_iff_eq_none.mp hkey
  · right
    rw [hins.rejected]
    exact hrejected

theorem remove {remover : Remover} {s s' : Store} (h : Apart s) (hrem : Store.Removed remover s s') :
    Apart s' := by
  intro key
  rcases hrem.rows key with ⟨hknown, hrejected⟩ | ⟨hgone, -⟩
  · rw [hknown, hrejected]
    exact h key
  · exact .inl hgone

theorem readd {s : Store} (h : Apart s) (k display : Text) (now : Instant) :
    Apart (s.readd k display now).1 := by
  intro key
  rcases eq_or_ne key k with rfl | hne
  · rcases s.readd_cases key display now with hasked | ⟨-, -, hrejected, -⟩
    · rw [hasked]
      exact h key
    · exact .inr hrejected
  · obtain ⟨hknown, hrejected⟩ := s.known_readd k display now hne
    rw [hknown, hrejected]
    exact h key

theorem confirm {s : Store} (h : Apart s) (name : Option Name) (now : Instant) (ok : Bool) :
    Apart (confirmReadd lower s name now ok).1 := by
  rcases confirmReadd_cases lower s name now ok with ⟨o, -, heq⟩ | ⟨item, -, -, heq⟩
  · rw [heq]
    exact h
  · rw [heq]
    exact h.readd _ _ _

theorem noteDeletes {s : Store} (h : Apart s) (key : Text) : Apart (noteDeletes s key) := by
  unfold KnownNames.noteDeletes
  split_ifs
  · exact h
  · exact h

theorem step (h : Apart s.store) (hstep : step lower s a = some s') : Apart s'.store := by
  cases a with
  | admitNames names source now ok =>
    cases hstep
    dsimp only [admitNames]
    split_ifs
    · exact h.insert (Store.inserted_insertInTxn ..)
    · exact h
  | remove names remover now ok =>
    cases hstep
    dsimp only [removeNames]
    split_ifs
    · exact h.remove (Store.removed_removeInTxn ..)
    · exact h
  | confirm name now ok =>
    cases hstep
    exact h.confirm name now ok
  | noteRead c ok =>
    cases hstep
    exact h
  | noteDelete key ok =>
    dsimp only [KnownNames.step] at hstep
    split_ifs at hstep with hmem hok
    · cases hstep
      exact h.noteDeletes key
    · cases hstep
      exact h

end Apart

/-- No key is both known and rejected. -/
theorem known_or_rejected (h : (machine lower).Reachable s) (key : Text) :
    s.store.known key = none ∨ s.store.rejected key = none := by
  suffices Apart s.store from this key
  refine h.invariant (I := fun s => Apart s.store) ?_ fun s a s' hs _ hstep => hs.step hstep
  rintro s rfl key
  exact .inl rfl

/-! ### Listed again -/

theorem not_relisted {s s' : Store} (h : Apart s) (hknown : s'.known key = s.known key)
    (hrejected : s'.rejected key = s.rejected key) : ¬ Relisted key s s' := by
  rintro ⟨hold, hnew⟩
  rw [hknown, hrejected] at hnew
  rcases h key with hnone | hnone <;> simp [hnone] at hold hnew
  simp [hnew] at hold

/-- A rejected key is listed again by a `confirm_readd` that finds the question for it. -/
theorem confirmed_of_relisted (h : (machine lower).Reachable s) (hstep : step lower s a = some s')
    (hre : Relisted key s.store s'.store) :
    ∃ name now display, a = .confirm name now true ∧ admitName lower name = some (key, display) ∧
      s.store.pending.map Pending.name = some key ∧
      (confirmReadd lower s.store name now true).2 = .added := by
  have hapart : Apart s.store := known_or_rejected h
  cases a with
  | admitNames names source now ok =>
    cases hstep
    dsimp only [admitNames] at hre
    split_ifs at hre
    · have hins := Store.inserted_insertInTxn source now (admitted lower names) s.store
      exact absurd hre (not_relisted hapart (hins.known key hre.1) (congrFun hins.rejected key))
    · exact absurd hre (not_relisted hapart rfl rfl)
  | remove names remover now ok =>
    cases hstep
    dsimp only [removeNames] at hre
    split_ifs at hre
    · rcases (Store.removed_removeInTxn remover now _ s.store).rows key with
        ⟨hknown, hrejected⟩ | ⟨hknown, hrejected⟩
      · exact absurd hre (not_relisted hapart hknown hrejected)
      · -- a row that is removed is rejected in the same transaction
        obtain ⟨-, hlisted | hoff⟩ := hre
        · rw [hknown] at hlisted
          cases hlisted
        · rw [hoff] at hrejected
          cases hrejected
    · exact absurd hre (not_relisted hapart rfl rfl)
  | confirm name now ok =>
    rw [step_confirm hstep] at hre
    rcases confirmReadd_cases lower s.store name now ok with
      ⟨o, -, heq⟩ | ⟨⟨k, display⟩, hitem, rfl, heq⟩
    · rw [heq] at hre
      exact absurd hre (not_relisted hapart rfl rfl)
    · rw [heq] at hre
      rcases eq_or_ne key k with rfl | hne
      · -- the first add asks, and only one that finds its question adds
        rcases s.store.readd_cases key display now with hasked | ⟨hadded, -, -, hpending⟩
        · rw [hasked] at hre
          exact absurd hre (not_relisted hapart rfl rfl)
        · exact ⟨name, now, display, rfl, hitem, hpending hre.1, by rw [heq]; exact hadded⟩
      · obtain ⟨hknown, hrejected⟩ := s.store.known_readd k display now hne
        exact absurd hre (not_relisted hapart hknown hrejected)
  | noteRead c ok =>
    cases hstep
    exact absurd hre (not_relisted hapart rfl rfl)
  | noteDelete k ok =>
    have hsame : s'.store.known = s.store.known ∧ s'.store.rejected = s.store.rejected := by
      dsimp only [step] at hstep
      split_ifs at hstep with hmem hok
      · cases hstep
        dsimp only [noteDeletes]
        split_ifs <;> exact ⟨rfl, rfl⟩
      · cases hstep
        exact ⟨rfl, rfl⟩
    exact absurd hre
      (not_relisted hapart (congrFun hsame.1 key) (congrFun hsame.2 key))

/-- The re-appraiser takes no row away whose source is the tool. -/
theorem known_of_reappraiser {names : List (Option Name)} {now : Instant} {ok : Bool} {r : Known}
    (hstep : step lower s (.remove names .reappraiser now ok) = some s')
    (hr : s.store.known key = some r) (htool : r.source = .tool) : s'.store.known key = some r := by
  cases hstep
  dsimp only [removeNames]
  split_ifs
  · exact (Store.removed_removeInTxn ..).tool key r nofun hr htool
  · exact hr

/-! ### Calls one after the other -/

/-- A question that stands was asked by the last call but some attempts at the same key, or the last
call is about to delete it. -/
def Standing (lower : Text → Text) (s : State) : Prop :=
  ∀ p, s.store.pending = some p →
    (s.lapsing = [] ∧ Asked lower p.name s.calls) ∨ s.lapsing = [p.name]

/-- Where the last call deletes no question, the one that stands was asked. -/
theorem Standing.asked {p : Pending} (h : Standing lower s) (hlapsing : s.lapsing = [])
    (hp : s.store.pending = some p) : Asked lower p.name s.calls := by
  rcases h p hp with ⟨-, hasked⟩ | hlapses
  · exact hasked
  · rw [hlapsing] at hlapses
    cases hlapses

/-- Only the question, the calls and what the last one deletes matter. -/
theorem Standing.congr (h : Standing lower s) (hpending : s'.store.pending = s.store.pending)
    (hcalls : s'.calls = s.calls) (hlapsing : s'.lapsing = s.lapsing) : Standing lower s' := by
  intro p hp
  rw [hcalls, hlapsing]
  exact h p (hpending.symm.trans hp)

theorem exists_of_follows {name : Option Name} {calls : List (ToolCall × Option Outcome)}
    (h : follows name calls = true) :
    ∃ c rest x, calls = (c, none) :: rest ∧ c.tool = addNameToolName ∧ c.given = some x ∧
      name = some (strip x) := by
  unfold follows at h
  split at h
  · next c rest =>
    simp only [Bool.and_eq_true, decide_eq_true_eq] at h
    obtain ⟨⟨htool, hsome⟩, rfl⟩ := h
    obtain ⟨x, hx⟩ := Option.isSome_iff_exists.mp hsome
    exact ⟨c, rest, x, rfl, htool, hx, by rw [hx]; rfl⟩
  · cases h

theorem asked_cons {calls : List (ToolCall × Option Outcome)} {t : ToolCall × Option Outcome}
    (hadds : t.1.Adds lower key) (ho : t.2 ∈ [none, some .refused, some .tooLong])
    (h : Asked lower key calls) : Asked lower key (t :: calls) := by
  obtain ⟨tries, c, older, rfl, hc, htries⟩ := h
  refine ⟨t :: tries, c, older, rfl, hc, ?_⟩
  rintro t' (_ | ⟨_, ht'⟩)
  · exact ⟨hadds, ho⟩
  · exact htries t' ht'

/-- A call without an answer is one of the attempts. -/
theorem asked_tail {calls : List (ToolCall × Option Outcome)} {c : ToolCall}
    (h : Asked lower key ((c, none) :: calls)) : c.Adds lower key ∧ Asked lower key calls := by
  obtain ⟨tries, c', older, hsplit, hc', htries⟩ := h
  cases tries with
  | nil => cases hsplit
  | cons t tries =>
    cases hsplit
    exact ⟨(htries _ List.mem_cons_self).1, tries, c', older, rfl, hc',
      fun t ht => htries t (List.mem_cons_of_mem _ ht)⟩

/-- The key that `confirm_readd` keeps a name of a call under is the call's. -/
theorem adds_of_admitName {c : ToolCall} {x : Name} {item : Text × Text}
    (htool : c.tool = addNameToolName) (hgiven : c.given = some x)
    (hitem : admitName lower (some (strip x)) = some item) :
    c.Adds lower item.1 := by
  refine ⟨htool, ?_⟩
  rw [hgiven, Option.map_some, fst_of_admitName hitem, nameKey_congr (cleanName_strip x)]

theorem standing_confirm {name : Option Name} {now : Instant} {ok : Bool} (h : Standing lower s)
    (hseq : Sequential s (.confirm name now ok))
    (hstep : step lower s (.confirm name now ok) = some s') : Standing lower s' := by
  obtain ⟨hlapsing, hfollows⟩ := hseq
  obtain ⟨c, calls, x, hcalls, htool, hgiven, rfl⟩ := exists_of_follows hfollows
  intro p hp
  rw [step_confirm hstep] at hp ⊢
  refine .inl ⟨hlapsing, ?_⟩
  dsimp only at hp ⊢
  rw [hcalls, answer]
  rcases confirmReadd_cases lower s.store (some (strip x)) now ok with
    ⟨o, ho, heq⟩ | ⟨item, hitem, -, heq⟩
  · -- nothing is written: the call is one more attempt
    rw [heq] at hp ⊢
    have hasked : Asked lower p.name s.calls := h.asked hlapsing hp
    rw [hcalls] at hasked
    obtain ⟨hadds, hrest⟩ := asked_tail hasked
    exact asked_cons hadds (by simpa using ho) hrest
  · rw [heq] at hp ⊢
    rcases s.store.readd_cases item.1 item.2 now with hasked | ⟨-, hnone, -⟩
    · -- the call has asked, and is the only one since
      rw [hasked] at hp ⊢
      cases hp
      exact ⟨[], c, calls, rfl, adds_of_admitName htool hgiven hitem, fun _ ht => nomatch ht⟩
    · -- the name is listed again, and no question is left
      rw [hnone] at hp
      cases hp

theorem standing_noteRead {c : ToolCall} {ok : Bool} (h : Standing lower s)
    (hseq : Sequential s (.noteRead c ok)) (hstep : step lower s (.noteRead c ok) = some s') :
    Standing lower s' := by
  obtain ⟨rfl, hlapsing⟩ := hseq
  cases hstep
  intro p hp
  have hasked : Asked lower p.name s.calls := h.asked hlapsing hp
  dsimp only at hp
  by_cases hadds : c.Adds lower p.name
  · left
    exact ⟨by simp [noteReads, hp, hadds, hlapsing], asked_cons hadds List.mem_cons_self hasked⟩
  · right
    simp [noteReads, hp, hadds, hlapsing]

/-- A question that stands after the delete is not the one to delete. -/
theorem pending_of_noteDeletes {s : Store} {k : Text} {p : Pending}
    (h : (noteDeletes s k).pending = some p) : s.pending = some p ∧ p.name ≠ k := by
  unfold noteDeletes at h
  split_ifs at h with hpending
  refine ⟨h, ?_⟩
  rintro rfl
  exact hpending (by rw [h]; rfl)

theorem standing_noteDelete {k : Text} {ok : Bool} (h : Standing lower s)
    (hseq : Sequential s (.noteDelete k ok)) (hstep : step lower s (.noteDelete k ok) = some s') :
    Standing lower s' := by
  obtain rfl : ok = true := hseq
  by_cases hmem : k ∈ s.lapsing
  · rw [step, if_pos hmem] at hstep
    cases hstep
    intro p hp
    obtain ⟨hold, hne⟩ := pending_of_noteDeletes hp
    rcases h p hold with ⟨hlapsing, -⟩ | hlapses
    · rw [hlapsing] at hmem
      cases hmem
    · rw [hlapses, List.mem_singleton] at hmem
      exact absurd hmem.symm hne
  · rw [step, if_neg hmem] at hstep
    cases hstep

theorem standing (h : (machine lower).Reach Sequential s) : Standing lower s := by
  refine h.invariant (by rintro s rfl p ⟨⟩) fun s a s' hs hseq hstep => ?_
  cases a with
  | admitNames names source now ok =>
    cases hstep
    refine hs.congr ?_ rfl rfl
    dsimp only [admitNames]
    split_ifs
    · exact (Store.inserted_insertInTxn ..).pending
    · rfl
  | remove names remover now ok =>
    cases hstep
    refine hs.congr ?_ rfl rfl
    dsimp only [removeNames]
    split_ifs
    · exact (Store.removed_removeInTxn ..).pending
    · rfl
  | confirm name now ok => exact standing_confirm hs hseq hstep
  | noteRead c ok => exact standing_noteRead hs hseq hstep
  | noteDelete k ok => exact standing_noteDelete hs hseq hstep

/-- Where the tool calls come one after the other, a rejected key is listed again by a call that
follows, but for attempts at the key that have written nothing, a call that asked for it. -/
theorem asked_of_relisted (h : (machine lower).Reach Sequential s) (hseq : Sequential s a)
    (hstep : step lower s a = some s') (hre : Relisted key s.store s'.store) :
    ∃ c calls, s.calls = (c, none) :: calls ∧ c.Adds lower key ∧ Asked lower key calls := by
  obtain ⟨name, now, display, rfl, -, hpending, -⟩ :=
    confirmed_of_relisted (h.mono fun _ _ _ => trivial) hstep hre
  obtain ⟨hlapsing, hfollows⟩ := hseq
  obtain ⟨c, calls, -, hcalls, -⟩ := exists_of_follows hfollows
  obtain ⟨p, hp, rfl⟩ := Option.map_eq_some_iff.mp hpending
  have hasked : Asked lower p.name s.calls := (standing h).asked hlapsing hp
  rw [hcalls] at hasked
  exact ⟨c, calls, hcalls, asked_tail hasked⟩

/-- The law of the rejected names. -/
theorem rejected_names_law (lower : Text → Text) :
    (∀ s, (machine lower).Reachable s → Apart s.store) ∧
      (∀ s a s' key, (machine lower).Reachable s → step lower s a = some s' →
        Relisted key s.store s'.store →
        ∃ name now display, a = .confirm name now true ∧ admitName lower name = some (key, display) ∧
          s.store.pending.map Pending.name = some key) ∧
      (∀ s a s' key, (machine lower).Reach Sequential s → Sequential s a →
        step lower s a = some s' → Relisted key s.store s'.store →
        ∃ c calls, s.calls = (c, none) :: calls ∧ c.Adds lower key ∧ Asked lower key calls) ∧
      ∀ s names now ok s' key r, (machine lower).Reachable s →
        step lower s (.remove names .reappraiser now ok) = some s' →
        s.store.known key = some r → r.source = .tool → s'.store.known key = some r := by
  refine ⟨fun s => known_or_rejected, fun s a s' key h hstep hre => ?_,
    fun s a s' key => asked_of_relisted,
    fun s names now ok s' key r _ => known_of_reappraiser⟩
  obtain ⟨name, now, display, hconfirm, hadmit, hpending, -⟩ := confirmed_of_relisted h hstep hre
  exact ⟨name, now, display, hconfirm, hadmit, hpending⟩

/-- A rejected name, an add that asks, one whose write fails, and one that finds the question still
there. -/
def interrupted : List Act :=
  let wren : Name := .ofText "Wren".toList
  let add : ToolCall := ⟨addNameToolName, some wren⟩
  [.admitNames [some wren] .gate 0 true,
    .noteRead ⟨"remove_name".toList, some wren⟩ true, .remove [some wren] .tool 1 true,
    .noteRead add true, .confirm (some wren) 2 true,
    .noteRead add true, .confirm (some wren) 3 false,
    .noteRead add true]

/-- The name is listed again, and stays through a pass of the re-appraiser. -/
theorem rejected_names_law_interrupted :
    let lower : Text → Text := fun t => t.map Char.toLower
    let key : Text := "wren".toList
    ∃ s s' s'' name r, ((machine lower).Reach Sequential s ∧
        step lower s (.confirm name 4 true) = some s' ∧ Relisted key s.store s'.store ∧
        step lower s' (.remove [name] .reappraiser 5 true) = some s'') ∧
      Apart s.store ∧ s.store.pending.map Pending.name = some key ∧
      (∃ c calls, s.calls = (c, none) :: calls ∧ c.Adds lower key ∧ Asked lower key calls) ∧
      s''.store.known key = some r := by
  intro lower key
  let name : Option Name := some (.ofText "Wren".toList)
  let told : State → Bool := fun s =>
    (s.store.rejected key).isSome && (step lower s (.confirm name 4 true)).any fun s' =>
      (s'.store.known key).any fun r => r.source = .tool
  obtain ⟨s, hreach, hs⟩ := Machine.exists_reach_of_runWithin (M := machine lower) (D := Sequential)
    (fun _ _ h => h) rfl interrupted (fun s => Sequential s (.confirm name 4 true) && told s)
    (by decide +kernel)
  simp only [Bool.and_eq_true, decide_eq_true_eq, told] at hs
  obtain ⟨hseq, hrejected, hknown⟩ := hs
  obtain ⟨s', hstep, hknown⟩ := (Option.any_eq_true _ _).mp hknown
  obtain ⟨r, hr, htool⟩ := (Option.any_eq_true _ _).mp hknown
  have hre : Relisted key s.store s'.store :=
    ⟨hrejected, .inl (Option.isSome_iff_exists.mpr ⟨r, hr⟩)⟩
  have hany : (machine lower).Reachable s := hreach.mono fun _ _ _ => trivial
  obtain ⟨hapart, hconfirmed, hasked, hkept⟩ := rejected_names_law lower
  obtain ⟨-, -, -, -, -, hpending⟩ := hconfirmed s _ s' key hany hstep hre
  refine ⟨s, s', _, name, r, ⟨hreach, hstep, hre, rfl⟩, hapart s hany, hpending,
    hasked s _ s' key hreach hseq hstep hre, ?_⟩
  have hthen : (machine lower).Reachable s' := .step (a := .confirm name 4 true) hany trivial hstep
  exact hkept s' [name] 5 true _ key r hthen rfl hr (of_decide_eq_true htool)

/-- The counted call before the one that lists the name again has answered `refused`. -/
theorem relisted_after_refused :
    let lower : Text → Text := fun t => t.map Char.toLower
    ∃ s, (machine lower).Reach Sequential s ∧ ∃ a s', Sequential s a ∧ step lower s a = some s' ∧
      Relisted "wren".toList s.store s'.store ∧
      ∃ c c' older, s.calls = (c, none) :: (c', some .refused) :: older := by
  intro lower
  let confirm : Act := .confirm (some (.ofText "Wren".toList)) 4 true
  let listed : State → Bool := fun s =>
    (s.store.rejected "wren".toList).isSome && (step lower s confirm).any fun s' =>
      (s'.store.known "wren".toList).isSome
  let refused : State → Bool := fun s => s.calls.map Prod.snd = [none, some .refused, some .asked, none]
  obtain ⟨s, hreach, hs⟩ := Machine.exists_reach_of_runWithin (M := machine lower) (D := Sequential)
    (fun _ _ h => h) rfl interrupted (fun s => Sequential s confirm && listed s && refused s)
    (by decide +kernel)
  simp only [Bool.and_eq_true, decide_eq_true_eq, listed, refused] at hs
  obtain ⟨⟨hseq, hrejected, hknown⟩, hcalls⟩ := hs
  obtain ⟨s', hstep, hknown'⟩ := (Option.any_eq_true _ _).mp hknown
  refine ⟨s, hreach, confirm, s', hseq, hstep, ⟨hrejected, .inl hknown'⟩, ?_⟩
  obtain ⟨c, calls, x, hlast, -⟩ := exists_of_follows hseq.2
  rw [hlast] at hcalls ⊢
  obtain ⟨-, hanswers⟩ := List.cons.inj hcalls
  obtain ⟨⟨c', o⟩, older, rfl, ho, -⟩ := List.map_eq_cons_iff.mp hanswers
  obtain rfl : o = some .refused := ho
  exact ⟨c, c', older, rfl⟩

end Companion.Memory.KnownNames

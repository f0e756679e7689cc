import Companion.Dict
import Companion.Memory.Text
import Mathlib.Data.List.Range
import Mathlib.Tactic.SplitIfs

/-!
# The JSON object in a model's reply

The readers of `brain/utils/llm_output.py` that look for a balanced `{...}` block: the scan from one
start (`_balanced_block`), the table of all starts that one pass over the text fills in
(`_balanced_ends`), and the search for the object that is the answer (`find_json_object_block`),
which uses the table where a start does not decode.

A scan is a string-literal automaton with a running depth. `depthsFrom_drop` says that the automaton
that starts at position 0 and is outside of a string at `s` computes, from `s` on, the depths of a
scan that starts there; `find?_depths` says that the first return of these depths to their value at
`s` is where the scan ends; and `get?_walk` that the walk from right to left finds that return.

A text is the list of its code points. The JSON decoder is a parameter.
-/

namespace Companion.LlmOutput

/-- A Python string, as the list of its code points. -/
abbrev Text := List ℕ

/-- `text[start:stop]` -/
def slice (text : Text) (start stop : ℕ) : Text := (text.take stop).drop start

/-! ## The scan from one start -/

/-- The loop of `_balanced_block` at the index `i`, with the text from there on: the index after the
brace that closes the block. -/
def scanBlock (inString escaped : Bool) (depth : ℤ) (i : ℕ) : Text → Option ℕ
  | [] => none
  | ch :: cs =>
    if inString then
      if escaped then scanBlock true false depth (i + 1) cs
      else if ch = '\\'.toNat then scanBlock true true depth (i + 1) cs
      else if ch = '"'.toNat then scanBlock false false depth (i + 1) cs
      else scanBlock true false depth (i + 1) cs
    else if ch = '"'.toNat then scanBlock true escaped depth (i + 1) cs
    else if ch = '{'.toNat then scanBlock false escaped (depth + 1) (i + 1) cs
    else if ch = '}'.toNat then
      if depth - 1 = 0 then some (i + 1) else scanBlock false escaped (depth - 1) (i + 1) cs
    else scanBlock false escaped depth (i + 1) cs

/-- `_balanced_block` -/
def balancedBlock (text : Text) (start : ℕ) : Option Text :=
  (scanBlock false false 0 start (text.drop start)).map (slice text start)

/-! ## The table of all starts -/

/-- The states of the string-literal scanner, `_OUT`, `_IN` and `_ESC`. -/
inductive Scanner
  | out
  | inside
  | esc
  deriving DecidableEq

/-- The order in which `_balanced_ends` goes through the states. -/
def scanners : List Scanner := [.out, .inside, .esc]

/-- `_string_step` -/
def stringStep (state : Scanner) (ch : ℕ) : Scanner :=
  match state with
  | .inside => if ch = '\\'.toNat then .esc else if ch = '"'.toNat then .out else .inside
  | .esc => .inside
  | .out => if ch = '"'.toNat then .inside else .out

/-- The depth after a character that a scanner meets in a state. -/
def depthStep (state : Scanner) (depth : ℤ) (ch : ℕ) : ℤ :=
  if state = .out then
    if ch = '{'.toNat then depth + 1 else if ch = '}'.toNat then depth - 1 else depth
  else depth

/-- The list `st`: the state before each character. -/
def statesFrom (state : Scanner) : Text → List Scanner
  | [] => []
  | ch :: cs => state :: statesFrom (stringStep state ch) cs

/-- The list `dp`: the depth before each character, and at the end. -/
def depthsFrom (state : Scanner) (depth : ℤ) : Text → List ℤ
  | [] => [depth]
  | ch :: cs => depth :: depthsFrom (stringStep state ch) (depthStep state depth ch) cs

/-- The positions of the braces that open. -/
def braces (text : Text) : List ℕ :=
  (List.range text.length).filter fun i => text[i]? = some '{'.toNat

/-- The first scanner that is outside of a string at the position. -/
def owner (text : Text) (s : ℕ) : Option Scanner :=
  scanners.find? fun q => (statesFrom q text)[s]? = some .out

/-- One position of the walk from right to left: `nearest` has the nearest position of each depth,
and `ends` the end of each start that is wanted. -/
def walkStep (dp : List ℤ) (wanted : List ℕ) (k : ℕ) (t : Dict ℤ ℕ × Dict ℕ ℕ) :
    Dict ℤ ℕ × Dict ℕ ℕ :=
  let depth := dp.getD k 0
  let ends :=
    if k ∈ wanted then
      match t.1.get? depth with
      | some found => t.2.set k found
      | none => t.2
    else t.2
  (t.1.set depth k, ends)

/-- The walk over the positions from `n` down to 0. -/
def walk (dp : List ℤ) (wanted : List ℕ) (n : ℕ) (ends : Dict ℕ ℕ) : Dict ℕ ℕ :=
  ((List.range (n + 1)).reverse.foldl (fun t k => walkStep dp wanted k t) (∅, ends)).2

/-- One turn of the loop over the scanners. -/
def scannerEnds (text : Text) (ends : Dict ℕ ℕ) (q : Scanner) : Dict ℕ ℕ :=
  let mine := (braces text).filter fun s => owner text s = some q
  if mine = [] then ends else walk (depthsFrom q 0 text) mine text.length ends

/-- One turn of the loop over the starts that no scanner owns. -/
def unownedEnd (text : Text) (ends : Dict ℕ ℕ) (s : ℕ) : Dict ℕ ℕ :=
  if owner text s = none then
    match balancedBlock text s with
    | some block => ends.set s (s + block.length)
    | none => ends
  else ends

/-- `_balanced_ends` -/
def balancedEnds (text : Text) : Dict ℕ ℕ :=
  if braces text = [] then ∅
  else (braces text).foldl (unownedEnd text) (scanners.foldl (scannerEnds text) ∅)

/-- No automaton needs to be outside of a string at a start: at the brace of this text, all three
are inside. -/
example : owner ("\"\\\"{}".toList.map Char.toNat) 3 = none := by decide

/-! ## The search for the answer -/

/-- What `raw_decode` reads: the keys, where it is an object, and the index after it. -/
structure Decoded where
  keys : Option (List Text)
  stop : ℕ

/-- `_CAN_OPEN_OBJECT.match` -/
def canOpenObject (text : Text) (start : ℕ) : Bool :=
  match text.drop start with
  | [] => false
  | ch :: cs =>
    ch = '{'.toNat &&
      match cs.dropWhile fun c => c ∈ [' '.toNat, '\t'.toNat, '\n'.toNat, '\r'.toNat] with
      | [] => false
      | c :: _ => c = '"'.toNat || c = '}'.toNat

/-- `_OBJECT_START.match` -/
def objectStart (text : Text) (start : ℕ) : Bool :=
  match text.drop start with
  | [] => false
  | ch :: cs =>
    ch = '{'.toNat &&
      match cs.dropWhile fun c => c ∈ Memory.whitespace with
      | [] => false
      | c :: _ => c = '"'.toNat

/-- The locals of `find_json_object_block`. -/
structure Search where
  firstObject : Option Text
  firstBalanced : Option Text
  insideFailedUntil : ℕ

namespace Search

/-- After a start that does not decode, with the block that opens there. -/
def failed (t : Search) (text : Text) (start : ℕ) (balanced : Option Text) : Search where
  firstObject := t.firstObject
  firstBalanced := t.firstBalanced.or balanced
  insideFailedUntil :=
    match balanced with
    | some block => start + block.length
    | none => if objectStart text start then text.length else t.insideFailedUntil

/-- After a start that decodes, with the block of an object. -/
def decoded (t : Search) (object balanced : Option Text) : Search where
  firstObject := t.firstObject.or object
  firstBalanced := t.firstBalanced.or balanced
  insideFailedUntil := t.insideFailedUntil

end Search

section Find

variable (rawDecode : Text → ℕ → Option Decoded) (text : Text) (preferKey : Option Text)

/-- The decoder is asked where an object can open. -/
def decodeAt (start : ℕ) : Option Decoded :=
  if canOpenObject text start then rawDecode text start else none

/-- The loop of `find_json_object_block` over the open braces that are left, where `failedBlock` is
the block at a start that does not decode. -/
def searchFrom (failedBlock : ℕ → Option Text) (t : Search) : List ℕ → Option Text
  | [] => t.firstObject.or t.firstBalanced
  | start :: starts =>
    if start < t.insideFailedUntil then searchFrom failedBlock t starts
    else
      match decodeAt rawDecode text start with
      | none => searchFrom failedBlock (t.failed text start (failedBlock start)) starts
      | some d =>
        match d.keys with
        | none =>
          searchFrom failedBlock (t.decoded none (balancedBlock text start)) starts
        | some keys =>
          if ∃ key ∈ preferKey, key ∈ keys then some (slice text start d.stop)
          else
            searchFrom failedBlock
              (t.decoded (some (slice text start d.stop)) (balancedBlock text start)) starts

/-- `find_json_object_block` -/
def findJsonObjectBlock : Option Text :=
  searchFrom rawDecode text preferKey
    (fun start => ((balancedEnds text).get? start).map (slice text start)) ⟨none, none, 0⟩
    (braces text)

end Find

/-! ## A scan as an automaton with a depth -/

/-- The scanner's state for the two flags of `_balanced_block`. -/
def Scanner.ofFlags (inString escaped : Bool) : Scanner :=
  if inString then if escaped then .esc else .inside else .out

/-- The index of the first depth that is zero. -/
def firstZero (i : ℕ) (ds : List ℤ) : Option ℕ := (ds.findIdx? (· = 0)).map (· + i)

theorem firstZero_cons (i : ℕ) (d : ℤ) (ds : List ℤ) :
    firstZero i (d :: ds) = if d = 0 then some i else firstZero (i + 1) ds := by
  unfold firstZero
  rw [List.findIdx?_cons]
  by_cases hd : d = 0
  · simp [hd]
  · cases ds.findIdx? (· = 0) with
    | none => simp [hd]
    | some j => simp [hd]; omega

theorem length_depthsFrom (q : Scanner) (d : ℤ) (cs : Text) :
    (depthsFrom q d cs).length = cs.length + 1 := by
  induction cs generalizing q d with
  | nil => rfl
  | cons ch cs ih => rw [depthsFrom, List.length_cons, ih, List.length_cons]

theorem depthsFrom_eq_cons (q : Scanner) (d : ℤ) (cs : Text) :
    depthsFrom q d cs = d :: (depthsFrom q d cs).tail := by
  cases cs with
  | nil => rfl
  | cons ch cs => rfl

/-- The running depth is relative: from another depth on, all differ by as much. -/
theorem depthsFrom_add (q : Scanner) (d b : ℤ) (cs : Text) :
    depthsFrom q (d + b) cs = (depthsFrom q d cs).map (· + b) := by
  induction cs generalizing q d with
  | nil => rfl
  | cons ch cs ih =>
    have hstep : depthStep q (d + b) ch = depthStep q d ch + b := by
      unfold depthStep
      split_ifs <;> omega
    rw [depthsFrom, hstep, ih, depthsFrom, List.map_cons]

/-- A scan that is inside of a block ends where the depth is zero for the first time. -/
theorem scanBlock_eq_firstZero (inString escaped : Bool) (d : ℤ) (i : ℕ) (cs : Text) (hd : 0 < d)
    (hesc : inString = false → escaped = false) :
    scanBlock inString escaped d i cs =
      firstZero i (depthsFrom (.ofFlags inString escaped) d cs) := by
  induction cs generalizing inString escaped d i with
  | nil =>
    have h0 : d ≠ 0 := by omega
    simp [scanBlock, depthsFrom, firstZero, h0]
  | cons ch cs ih =>
    have h0 : d ≠ 0 := by omega
    rw [depthsFrom, firstZero_cons, if_neg h0, scanBlock]
    cases inString with
    | true =>
      -- Inside of a string the depth stays.
      cases escaped with
      | true => exact ih true false d (i + 1) hd (by simp)
      | false =>
        by_cases hbackslash : ch = '\\'.toNat
        · subst hbackslash
          exact ih true true d (i + 1) hd (by simp)
        · by_cases hquote : ch = '"'.toNat
          · subst hquote
            exact ih false false d (i + 1) hd (by simp)
          · have hstay : stringStep .inside ch = .inside := by
              rw [stringStep, if_neg hbackslash, if_neg hquote]
            show (if ch = '\\'.toNat then _ else if ch = '"'.toNat then _ else _) =
              firstZero (i + 1) (depthsFrom (stringStep .inside ch) d cs)
            rw [if_neg hbackslash, if_neg hquote, hstay]
            exact ih true false d (i + 1) hd (by simp)
    | false =>
      obtain rfl := hesc rfl
      by_cases hquote : ch = '"'.toNat
      · subst hquote
        exact ih true false d (i + 1) hd (by simp)
      · by_cases hopen : ch = '{'.toNat
        · subst hopen
          exact ih false false (d + 1) (i + 1) (by omega) (by simp)
        · by_cases hclose : ch = '}'.toNat
          · subst hclose
            -- A depth of one or more reaches zero only here.
            show (if d - 1 = 0 then some (i + 1) else scanBlock false false (d - 1) (i + 1) cs) =
              firstZero (i + 1) (depthsFrom .out (d - 1) cs)
            by_cases hone : d - 1 = 0
            · rw [if_pos hone, depthsFrom_eq_cons, firstZero_cons, if_pos hone]
            · rw [if_neg hone]
              exact ih false false (d - 1) (i + 1) (by omega) (by simp)
          · have hstay : stringStep .out ch = .out := if_neg hquote
            have hdepth : depthStep .out d ch = d := by
              rw [depthStep, if_pos rfl, if_neg hopen, if_neg hclose]
            show (if ch = '"'.toNat then _ else if ch = '{'.toNat then _
              else if ch = '}'.toNat then _ else _) =
                firstZero (i + 1) (depthsFrom (stringStep .out ch) (depthStep .out d ch) cs)
            rw [if_neg hquote, if_neg hopen, if_neg hclose, hstay, hdepth]
            exact ih false false d (i + 1) hd (by simp)

/-- A start outside of a string opens the block: the scan ends at the first zero after it. -/
theorem scanBlock_open (s : ℕ) (cs : Text) :
    scanBlock false false 0 s ('{'.toNat :: cs) =
      firstZero (s + 1) (depthsFrom .out 1 cs) :=
  scanBlock_eq_firstZero false false 1 (s + 1) cs (by omega) fun _ => rfl

/-- From a position on, a scanner's states are those of one that starts there in its state. -/
theorem statesFrom_drop {q q' : Scanner} {text : Text} {s : ℕ} (d : ℤ)
    (h : (statesFrom q text)[s]? = some q') :
    ∃ b, (depthsFrom q d text).drop s = depthsFrom q' b (text.drop s) := by
  induction s generalizing q d text with
  | zero =>
    cases text with
    | nil => cases h
    | cons ch cs =>
      obtain rfl : q = q' := by simpa [statesFrom] using h
      exact ⟨d, rfl⟩
  | succ s ih =>
    cases text with
    | nil => cases h
    | cons ch cs => exact ih (depthStep q d ch) (by simpa [statesFrom] using h)

/-! ## The walk from right to left -/

/-- The table and the ends after the positions from `k` up to `k + m`, the last one first. -/
def walked (dp : List ℤ) (wanted : List ℕ) (ends : Dict ℕ ℕ) (k m : ℕ) : Dict ℤ ℕ × Dict ℕ ℕ :=
  (List.range' k m).foldr (walkStep dp wanted) (∅, ends)

theorem walked_succ (dp : List ℤ) (wanted : List ℕ) (ends : Dict ℕ ℕ) (k m : ℕ) :
    walked dp wanted ends k (m + 1) =
      walkStep dp wanted k (walked dp wanted ends (k + 1) m) := by
  rw [walked, List.range'_succ, List.foldr_cons]
  rfl

theorem walk_eq_walked (dp : List ℤ) (wanted : List ℕ) (n : ℕ) (ends : Dict ℕ ℕ) :
    walk dp wanted n ends = (walked dp wanted ends 0 (n + 1)).2 := by
  rw [walk, List.foldl_reverse, List.range_eq_range']
  rfl

/-- The table has, at each depth, the first position that is left with it. -/
theorem get?_walked_fst (dp : List ℤ) (wanted : List ℕ) (ends : Dict ℕ ℕ) (k m : ℕ) (v : ℤ) :
    (walked dp wanted ends k m).1.get? v =
      (List.range' k m).find? fun j => dp.getD j 0 = v := by
  induction m generalizing k with
  | zero => rfl
  | succ m ih =>
    rw [walked_succ, List.range'_succ, List.find?_cons]
    show ((walked dp wanted ends (k + 1) m).1.set (dp.getD k 0) k).get? v = _
    rw [Dict.get?_set, ih]
    by_cases hv : dp.getD k 0 = v
    · rw [if_pos hv.symm, decide_eq_true hv]
    · rw [if_neg (Ne.symm hv), decide_eq_false hv]

theorem get?_walkStep_snd (dp : List ℤ) (wanted : List ℕ) (k s : ℕ) (t : Dict ℤ ℕ × Dict ℕ ℕ) :
    (walkStep dp wanted k t).2.get? s =
      if s = k ∧ k ∈ wanted then (t.1.get? (dp.getD k 0)).or (t.2.get? s) else t.2.get? s := by
  simp only [walkStep]
  generalize dp.getD k 0 = v
  by_cases hk : k ∈ wanted
  · cases hfound : t.1.get? v with
    | none => simp [hk]
    | some found =>
      by_cases hs : s = k
      · simp [hk, hs, Dict.get?_set]
      · simp [hk, hs, Dict.get?_set]
  · simp [hk]

/-- A start that is wanted ends at the next position with its depth; no other end changes. -/
theorem get?_walked_snd (dp : List ℤ) (wanted : List ℕ) (ends : Dict ℕ ℕ) (k m s : ℕ) :
    (walked dp wanted ends k m).2.get? s =
      if s ∈ wanted ∧ k ≤ s ∧ s < k + m then
        ((List.range' (s + 1) (k + m - (s + 1))).find? fun j => dp.getD j 0 = dp.getD s 0).or
          (ends.get? s)
      else ends.get? s := by
  induction m generalizing k with
  | zero =>
    rw [if_neg (by omega)]
    rfl
  | succ m ih =>
    rw [walked_succ, get?_walkStep_snd, get?_walked_fst, ih]
    have hend : k + 1 + m = k + (m + 1) := by omega
    rw [hend]
    by_cases hk : s = k
    · subst hk
      have hm : s + (m + 1) - (s + 1) = m := by omega
      have hlater : ¬(s ∈ wanted ∧ s + 1 ≤ s ∧ s < s + (m + 1)) := fun h => by omega
      rw [if_neg hlater, hm]
      by_cases hw : s ∈ wanted
      · rw [if_pos ⟨rfl, hw⟩, if_pos ⟨hw, le_refl s, by omega⟩]
      · rw [if_neg fun h => hw h.2, if_neg fun h => hw h.1]
    · rw [if_neg fun h => hk h.1]
      have hle : k + 1 ≤ s ↔ k ≤ s := by omega
      simp only [hle]

/-- Looking for a depth among positions is looking for it in the list from there on. -/
theorem find?_range'_drop (dp : List ℤ) (v : ℤ) (i m : ℕ) (h : (dp.drop i).length = m) :
    ((List.range' i m).find? fun j => dp.getD j 0 = v) =
      ((dp.drop i).findIdx? (· = v)).map (· + i) := by
  induction m generalizing i with
  | zero => rw [List.eq_nil_of_length_eq_zero h]; rfl
  | succ m ih =>
    have hi : i < dp.length := by
      rw [List.length_drop] at h
      omega
    have hrest : (dp.drop (i + 1)).length = m := by
      rw [List.length_drop] at h ⊢
      omega
    rw [List.range'_succ, List.find?_cons, ih (i + 1) hrest, List.drop_eq_getElem_cons hi,
      List.findIdx?_cons, List.getD_eq_getElem?_getD, List.getElem?_eq_getElem hi, Option.getD_some]
    by_cases hv : dp[i] = v
    · simp [hv]
    · cases (dp.drop (i + 1)).findIdx? (· = v) with
      | none => simp [hv]
      | some j => simp [hv]; omega

/-- The first return of a scanner's depth to its value at a start that it is outside of a string at
is where the scan from there ends. -/
theorem find?_depths {text : Text} {q : Scanner} {s : ℕ} (hopen : text[s]? = some '{'.toNat)
    (hout : (statesFrom q text)[s]? = some .out) :
    ((List.range' (s + 1) (text.length - s)).find? fun j =>
      (depthsFrom q 0 text).getD j 0 = (depthsFrom q 0 text).getD s 0) =
        scanBlock false false 0 s (text.drop s) := by
  obtain ⟨b, hdrop⟩ := statesFrom_drop 0 hout
  obtain ⟨hs, hbrace⟩ := List.getElem?_eq_some_iff.mp hopen
  rw [List.drop_eq_getElem_cons hs, hbrace] at hdrop ⊢
  -- Before the brace the depth is `b`; after it, a depth that is relative to `b` starts from one.
  have hbase : (depthsFrom q 0 text).getD s 0 = b := by
    rw [List.getD_eq_getElem?_getD, ← Nat.add_zero s, ← List.getElem?_drop, hdrop]
    rfl
  have htail : (depthsFrom q 0 text).drop (s + 1) =
      (depthsFrom .out 1 (text.drop (s + 1))).map (· + b) := by
    rw [← List.drop_drop, hdrop, ← depthsFrom_add, Int.add_comm 1 b]
    rfl
  have hlength : ((depthsFrom q 0 text).drop (s + 1)).length = text.length - s := by
    rw [List.length_drop, length_depthsFrom]
    omega
  rw [find?_range'_drop _ _ _ _ hlength, hbase, htail, List.findIdx?_map, scanBlock_open]
  have hzero : ((fun x : ℤ => decide (x = b)) ∘ fun x => x + b) = fun x => decide (x = 0) := by
    funext x
    rw [Function.comp_apply, decide_eq_decide]
    omega
  rw [hzero]
  rfl

/-! ## The table is the scan from each start -/

theorem mem_braces {text : Text} {s : ℕ} : s ∈ braces text ↔ text[s]? = some '{'.toNat := by
  rw [braces, List.mem_filter, List.mem_range, decide_eq_true_eq]
  constructor
  · exact fun h => h.2
  · exact fun h => ⟨(List.getElem?_eq_some_iff.mp h).1, h⟩

theorem out_of_owner {text : Text} {s : ℕ} {q : Scanner} (h : owner text s = some q) :
    (statesFrom q text)[s]? = some .out := by
  simpa using List.find?_some h

/-- A scanner's turn settles the starts that it owns, and no others. -/
theorem get?_scannerEnds (text : Text) (ends : Dict ℕ ℕ) (q : Scanner) {s : ℕ}
    (hopen : text[s]? = some '{'.toNat) :
    (scannerEnds text ends q).get? s =
      if owner text s = some q then
        (scanBlock false false 0 s (text.drop s)).or (ends.get? s)
      else ends.get? s := by
  have hmine : s ∈ (braces text).filter (fun s => owner text s = some q) ↔
      owner text s = some q := by
    rw [List.mem_filter, mem_braces, decide_eq_true_eq]
    exact and_iff_right hopen
  simp only [scannerEnds]
  by_cases hq : owner text s = some q
  · have hs := (List.getElem?_eq_some_iff.mp hopen).1
    have hrest : 0 + (text.length + 1) - (s + 1) = text.length - s := by omega
    have hne : (braces text).filter (fun s => owner text s = some q) ≠ [] :=
      List.ne_nil_of_mem (hmine.mpr hq)
    rw [if_neg hne, walk_eq_walked, get?_walked_snd, if_pos hq,
      if_pos ⟨hmine.mpr hq, by omega, by omega⟩, hrest, find?_depths hopen (out_of_owner hq)]
  · rw [if_neg hq]
    split_ifs with hnil
    · rfl
    · rw [walk_eq_walked, get?_walked_snd, if_neg fun h => hq (hmine.mp h.1)]

/-- The turns of all scanners settle the starts that one of them owns. -/
theorem get?_scanners (text : Text) {s : ℕ} (hopen : text[s]? = some '{'.toNat) :
    (scanners.foldl (scannerEnds text) ∅).get? s =
      if owner text s = none then none else scanBlock false false 0 s (text.drop s) := by
  simp only [scanners, List.foldl_cons, List.foldl_nil, get?_scannerEnds text _ _ hopen,
    Dict.get?_empty, Option.or_none]
  cases owner text s with
  | none => rfl
  | some q => cases q <;> simp

/-- A scan from an open brace ends after it and within the text. -/
theorem scanBlock_bounds {text : Text} {s e : ℕ} (hopen : text[s]? = some '{'.toNat)
    (h : scanBlock false false 0 s (text.drop s) = some e) : s ≤ e ∧ e ≤ text.length := by
  obtain ⟨hs, hbrace⟩ := List.getElem?_eq_some_iff.mp hopen
  rw [List.drop_eq_getElem_cons hs, hbrace, scanBlock_open] at h
  obtain ⟨j, hj, rfl⟩ := Option.map_eq_some_iff.mp h
  have hlt := (List.findIdx?_eq_some_iff_getElem.mp hj).1
  rw [length_depthsFrom, List.length_drop] at hlt
  omega

theorem get?_unownedEnd (text : Text) (ends : Dict ℕ ℕ) {s : ℕ} (t : ℕ)
    (hopen : text[s]? = some '{'.toNat) :
    (unownedEnd text ends s).get? t =
      if t = s ∧ owner text s = none then
        (scanBlock false false 0 s (text.drop s)).or (ends.get? t)
      else ends.get? t := by
  unfold unownedEnd balancedBlock
  by_cases hnone : owner text s = none
  · cases hscan : scanBlock false false 0 s (text.drop s) with
    | none => simp [hnone]
    | some e =>
      have hb := scanBlock_bounds hopen hscan
      have hend : s + (slice text s e).length = e := by
        rw [slice, List.length_drop, List.length_take]
        omega
      by_cases ht : t = s
      · simp [hnone, ht, Dict.get?_set, hend]
      · simp [hnone, ht, Dict.get?_set]
  · simp [hnone]

/-- The last loop settles the starts that no scanner owns. -/
theorem get?_unowned (text : Text) (ends : Dict ℕ ℕ) (ss : List ℕ) (t : ℕ)
    (hopen : ∀ s ∈ ss, text[s]? = some '{'.toNat) :
    (ss.foldl (unownedEnd text) ends).get? t =
      if t ∈ ss ∧ owner text t = none then
        (scanBlock false false 0 t (text.drop t)).or (ends.get? t)
      else ends.get? t := by
  induction ss generalizing ends with
  | nil => simp
  | cons s ss ih =>
    rw [List.foldl_cons, ih _ fun x hx => hopen x (List.mem_cons_of_mem s hx),
      get?_unownedEnd text ends t (hopen s List.mem_cons_self)]
    by_cases ht : t = s
    · subst ht
      by_cases hnone : owner text t = none
      · cases scanBlock false false 0 t (text.drop t) with
        | none => simp
        | some e => simp [hnone]
      · simp [hnone]
    · simp [ht]

/-- The table has the end of the scan from each open brace. -/
theorem get?_balancedEnds {text : Text} {s : ℕ} (hopen : text[s]? = some '{'.toNat) :
    (balancedEnds text).get? s = scanBlock false false 0 s (text.drop s) := by
  have hmem : s ∈ braces text := mem_braces.mpr hopen
  rw [balancedEnds, if_neg (List.ne_nil_of_mem hmem),
    get?_unowned text _ _ s fun x hx => mem_braces.mp hx, get?_scanners text hopen]
  by_cases hnone : owner text s = none
  · rw [if_pos ⟨hmem, hnone⟩, if_pos hnone, Option.or_none]
  · rw [if_neg fun h => hnone h.2, if_neg hnone]

/-- `_balanced_ends` has a start just in case `_balanced_block` finds a block there, and its end is
then the end of that block. -/
theorem balancedEnds_eq_balancedBlock {text : Text} {s : ℕ} (hopen : text[s]? = some '{'.toNat) :
    ((balancedEnds text).get? s ≠ none ↔ balancedBlock text s ≠ none) ∧
      ∀ e, (balancedEnds text).get? s = some e →
        balancedBlock text s = some (slice text s e) := by
  rw [get?_balancedEnds hopen, balancedBlock]
  constructor
  · exact not_congr Option.map_eq_none_iff.symm
  · intro e he
    rw [he]
    rfl

theorem balancedEnds_eq_balancedBlock_unowned :
    ((balancedEnds ("\"\\\"{}".toList.map Char.toNat)).get? 3 ≠ none ↔
        balancedBlock ("\"\\\"{}".toList.map Char.toNat) 3 ≠ none) ∧
      ∀ e, (balancedEnds ("\"\\\"{}".toList.map Char.toNat)).get? 3 = some e →
        balancedBlock ("\"\\\"{}".toList.map Char.toNat) 3 =
          some (slice ("\"\\\"{}".toList.map Char.toNat) 3 e) :=
  balancedEnds_eq_balancedBlock (by decide)

/-- The answer is the one that a scan from each failed start finds. -/
theorem findJsonObjectBlock_eq_scan (rawDecode : Text → ℕ → Option Decoded) (text : Text)
    (preferKey : Option Text) :
    findJsonObjectBlock rawDecode text preferKey =
      searchFrom rawDecode text preferKey (balancedBlock text) ⟨none, none, 0⟩ (braces text) := by
  have hblock : ∀ s ∈ braces text,
      ((balancedEnds text).get? s).map (slice text s) = balancedBlock text s := by
    intro s hs
    rw [get?_balancedEnds (mem_braces.mp hs)]
    rfl
  unfold findJsonObjectBlock
  generalize (⟨none, none, 0⟩ : Search) = t
  generalize braces text = starts at hblock
  induction starts generalizing t with
  | nil => rfl
  | cons s starts ih =>
    have hrest := fun t => ih t fun x hx => hblock x (List.mem_cons_of_mem s hx)
    simp only [searchFrom, hblock s List.mem_cons_self, hrest]

end Companion.LlmOutput

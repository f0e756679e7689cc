import Companion.Storage.Jsonl
import Companion.Utf8

/-!
# The last lines of a log

`read_jsonl_tail` and `iter_jsonl` of `brain/health/json_io.py` on the bytes of a plain file. The
one takes lines from the end, chunk by chunk, and decodes them as a text of their own. The other
decodes the file.

Two things are judged differently: a line that is blank only to `str.strip` counts as one of the
last lines, and a byte order mark with which the first of them starts is dropped as that of the file
is. Where they come to nothing, the two readers agree (`readJsonlTail_iff`), whatever the chunks.
-/

namespace Companion.Storage.Tail

open Companion.JsonText
open Companion.Storage.Jsonl
open Companion.Utf8

variable {F : Type} (floats : Floats F) (depth : ℕ)

def newline : UInt8 := 0x0A

/-- `_BOM` -/
def bom : Bytes := [0xEF, 0xBB, 0xBF]

/-- `_TAIL_CHUNK` -/
def tailChunk : ℕ := 8192

/-! ## A text stream -/

/-- The decoder `utf-8-sig` of a whole stream. Of a part of the mark alone nothing is left. -/
def decodeSig (bs : Bytes) : Decoded :=
  if bs.isPrefixOf bom then []
  else if bom.isPrefixOf bs then decode (bs.drop bom.length)
  else decode bs

/-- The lines of a text, each with its end where it has one. -/
def streamLines : Decoded → List Decoded
  | [] => []
  | c :: t =>
    if c = some '\n' then [c] :: streamLines t
    else
      match streamLines t with
      | [] => [[c]]
      | line :: rest => (c :: line) :: rest

/-- `classify_line`, none for invalid UTF-8. -/
def classify (raw : Decoded) : Option (LineVerdict F) :=
  (raw.mapM id).map (classifyLine floats depth)

/-- The lines of a stream, judged. -/
def judged (bs : Bytes) : List (Option (LineVerdict F)) :=
  (streamLines (decodeSig bs)).map (classify floats depth)

def isBlank : Option (LineVerdict F) → Bool
  | some .blank => true
  | _ => false

def isUnloadable : Option (LineVerdict F) → Bool
  | some (.json .unloadable) => true
  | _ => false

def recordOf : Option (LineVerdict F) → Option (Fields F)
  | some (.object fields) => some fields
  | _ => none

/-- `_parse_lines`, none where a line stops it. -/
def parseJudged : List (Option (LineVerdict F)) → Option (List (Fields F))
  | [] => some []
  | v :: rest =>
    if isUnloadable v then none else (parseJudged rest).map ((recordOf v).toList ++ ·)

/-- `_stream` -/
def stream (bs : Bytes) : Option (List (Fields F)) := parseJudged (judged floats depth bs)

/-- What `iter_jsonl` yields from the last lines that are not blank. -/
def lastRecords (content : Bytes) (n : ℕ) : List (Fields F) :=
  (((judged floats depth content).filter (!isBlank ·)).rtake n).filterMap recordOf

/-! ## The tail reader -/

/-- `bytes.strip` leaves nothing. -/
def isAsciiBlank (line : Bytes) : Bool := line.all fun b => b ∈ [0x20, 0x09, 0x0A, 0x0B, 0x0C, 0x0D]

/-- `line.rstrip(b"\r")` -/
def stripReturns (line : Bytes) : Bytes := line.rdropWhile (· = 0x0D)

/-- The loop over the lines of a chunk, the rightmost first. -/
def collect (n : ℕ) (found : List Bytes) : List Bytes → List Bytes
  | [] => found
  | line :: rest =>
    if isAsciiBlank line then collect n found rest
    else if n ≤ found.length + 1 then found ++ [stripReturns line]
    else collect n (found ++ [stripReturns line]) rest

/-- The loop over the chunks: how many bytes are left, the pieces of the partial line, and the
lines that were found, the rightmost first. -/
def tailLoop (content : Bytes) (n remaining : ℕ) (head found : List Bytes) :
    ℕ × List Bytes × List Bytes :=
  if remaining = 0 ∨ n ≤ found.length then (remaining, head, found)
  else
    let size := min tailChunk remaining
    let chunk := (content.drop (remaining - size)).take size
    if newline ∉ chunk then tailLoop content n (remaining - size) (chunk :: head) found
    else
      let parts := chunk.splitOn newline
      tailLoop content n (remaining - size) [parts.headD []]
        (collect n found ((parts.getLastD [] ++ head.flatten) :: parts.tail.dropLast.reverse))
termination_by remaining
decreasing_by all_goals simp only [tailChunk]; omega

/-- The first line of a file without its mark. -/
def cutBom (line : Bytes) : Bytes := if bom.isPrefixOf line then line.drop bom.length else line

/-- `_tail_lines` -/
def tailLines (content : Bytes) (n : ℕ) : List Bytes :=
  if content = [] then []
  else
    let (remaining, head, found) := tailLoop content n content.length [] []
    let first := cutBom head.flatten
    let found :=
      if remaining = 0 ∧ found.length < n ∧ !isAsciiBlank first then found ++ [stripReturns first]
      else found
    found.reverse

/-- `read_jsonl_tail`, none where it raises. -/
def readJsonlTail (content : Bytes) (n : ℕ) : Option (List (Fields F)) :=
  if n = 0 then some []
  else stream floats depth (List.intercalate [newline] (tailLines content n))

/-! ## The lines that the tail reader finds -/

section Lines

/-- The lines of a file, without its mark. -/
def fileLines (content : Bytes) : List Bytes := (content.splitOn newline).modifyHead cutBom

theorem newline_notMem_splitOn {bs line : Bytes} (h : line ∈ bs.splitOn newline) :
    newline ∉ line := by
  induction bs generalizing line with
  | nil =>
    rw [List.splitOn_nil, List.mem_singleton] at h
    rw [h]
    exact List.not_mem_nil
  | cons b bs ih =>
    rw [List.splitOn_cons_eq_if_modifyHead] at h
    split_ifs at h with hb
    · rcases List.mem_cons.mp h with rfl | h
      · exact List.not_mem_nil
      · exact ih h
    · obtain ⟨l, ls, hsplit⟩ := List.exists_cons_of_ne_nil (List.splitOn_ne_nil newline bs)
      rw [hsplit, List.modifyHead_cons] at h
      rcases List.mem_cons.mp h with rfl | h
      · have hl : newline ∉ l := ih (hsplit ▸ List.mem_cons_self)
        rw [List.mem_cons, not_or]
        exact ⟨fun heq => hb (beq_iff_eq.mpr heq.symm), hl⟩
      · exact ih (hsplit ▸ List.mem_cons_of_mem _ h)

theorem intercalate_cons (l : Bytes) (ls : List Bytes) :
    List.intercalate [newline] (l :: ls) = l ++ ls.flatMap (newline :: ·) := by
  induction ls generalizing l with
  | nil => simp [List.intercalate]
  | cons l' ls ih =>
    have hstep : List.intercalate [newline] (l :: l' :: ls) =
        l ++ newline :: List.intercalate [newline] (l' :: ls) := by simp [List.intercalate]
    rw [hstep, ih, List.flatMap_cons, List.cons_append]

/-- Lines that each come after a newline are lines of their own. -/
theorem splitOn_append_flatMap (bs : Bytes) {ls : List Bytes} (h : ∀ l ∈ ls, newline ∉ l) :
    (bs ++ ls.flatMap (newline :: ·)).splitOn newline = bs.splitOn newline ++ ls := by
  induction ls generalizing bs with
  | nil => simp
  | cons l ls ih =>
    obtain ⟨hl, hls⟩ := List.forall_mem_cons.mp h
    rw [List.flatMap_cons, List.cons_append, List.splitOn_append_cons_self, ih l hls,
      List.splitOn_eq_singleton hl]
    rfl

theorem collect_eq {n : ℕ} (lines : List Bytes) {found : List Bytes} (h : found.length < n) :
    collect n found lines = found ++
      ((lines.filter (!isAsciiBlank ·)).take (n - found.length)).map stripReturns := by
  induction lines generalizing found with
  | nil => simp [collect]
  | cons line lines ih =>
    rw [collect]
    cases hblank : isAsciiBlank line with
    | true => rw [if_pos rfl, ih h, List.filter_cons_of_neg (by simp [hblank])]
    | false =>
      rw [if_neg (by decide), List.filter_cons_of_pos (by simp [hblank])]
      split_ifs with hn
      · have hone : n - found.length = 1 := by omega
        rw [hone, List.take_succ_cons, List.take_zero]
        rfl
      · have hlength : (found ++ [stripReturns line]).length = found.length + 1 :=
          List.length_append
        have hmore : n - found.length = n - (found.length + 1) + 1 := by omega
        rw [ih (by omega), hlength, hmore, List.take_succ_cons, List.map_cons, List.append_assoc]
        rfl

/-- What the loop has read: the lines that come after a newline, of which the last ones that are not
blank were found, and the partial line before them. -/
structure Read (content : Bytes) (n remaining : ℕ) (head found complete : List Bytes) : Prop where
  le : remaining ≤ content.length
  split : content = content.take remaining ++ head.flatten ++ complete.flatMap (newline :: ·)
  unended : newline ∉ head.flatten
  ended : ∀ l ∈ complete, newline ∉ l
  collected : found = ((complete.reverse.filter (!isAsciiBlank ·)).take n).map stripReturns

theorem Read.chunk {content : Bytes} {n remaining : ℕ} {head found complete : List Bytes}
    (h : Read content n remaining head found complete) (size : ℕ) (hsize : size ≤ remaining) :
    content = content.take (remaining - size) ++ (content.drop (remaining - size)).take size ++
      head.flatten ++ complete.flatMap (newline :: ·) := by
  have htake := List.take_add (l := content) (i := remaining - size) (j := size)
  rw [Nat.sub_add_cancel hsize] at htake
  rw [← htake]
  exact h.split

/-- A chunk without a newline is a piece of the partial line. -/
theorem Read.piece {content : Bytes} {n remaining size : ℕ} {head found complete : List Bytes}
    (h : Read content n remaining head found complete) (hsize : size ≤ remaining)
    (hno : newline ∉ (content.drop (remaining - size)).take size) :
    Read content n (remaining - size) ((content.drop (remaining - size)).take size :: head) found
      complete := by
  refine ⟨Nat.le_trans (Nat.sub_le _ _) h.le, ?_, ?_, h.ended, h.collected⟩
  · rw [List.flatten_cons, ← List.append_assoc]
    exact h.chunk size hsize
  · rw [List.flatten_cons, List.mem_append, not_or]
    exact ⟨hno, h.unended⟩

/-- A chunk with newlines completes the partial line and starts another one. -/
theorem Read.parts {content : Bytes} {n remaining size : ℕ} {head found complete : List Bytes}
    (h : Read content n remaining head found complete) (hsize : size ≤ remaining)
    (hroom : found.length < n) (hnl : newline ∈ (content.drop (remaining - size)).take size) :
    ∃ complete', Read content n (remaining - size)
      [(((content.drop (remaining - size)).take size).splitOn newline).headD []]
      (collect n found (((((content.drop (remaining - size)).take size).splitOn newline).getLastD [] ++
        head.flatten) ::
          (((content.drop (remaining - size)).take size).splitOn newline).tail.dropLast.reverse))
      complete' := by
  have hsplit := h.chunk size hsize
  obtain ⟨chunk, hchunk⟩ : ∃ chunk, chunk = (content.drop (remaining - size)).take size := ⟨_, rfl⟩
  rw [← hchunk] at hnl hsplit ⊢
  have hjoin : List.intercalate [newline] (chunk.splitOn newline) = chunk :=
    List.intercalate_splitOn newline
  have hparts : ∀ l ∈ chunk.splitOn newline, newline ∉ l := fun l => newline_notMem_splitOn
  obtain ⟨first, rest, hcons⟩ := List.exists_cons_of_ne_nil (List.splitOn_ne_nil newline chunk)
  rw [hcons, intercalate_cons] at hjoin
  rw [hcons] at hparts ⊢
  obtain ⟨hfirst, hrest⟩ := List.forall_mem_cons.mp hparts
  have hne : rest ≠ [] := by
    rintro rfl
    rw [List.flatMap_nil, List.append_nil] at hjoin
    exact hfirst (hjoin ▸ hnl)
  obtain ⟨mids, last, rfl⟩ : ∃ mids last, rest = mids ++ [last] :=
    ⟨_, _, (List.dropLast_append_getLast hne).symm⟩
  obtain ⟨hmids, hlast⟩ := List.forall_mem_append.mp hrest
  have hlast := hlast last (List.mem_singleton_self _)
  -- The last part ends where the partial line goes on. The parts between are whole lines, and the
  -- first one may go on in the chunk before.
  refine ⟨mids ++ (last ++ head.flatten) :: complete, Nat.le_trans (Nat.sub_le _ _) h.le,
    ?_, ?_, ?_, ?_⟩
  · refine hsplit.trans ?_
    rw [← hjoin]
    simp only [List.headD_cons, List.flatten_singleton, List.flatMap_append, List.flatMap_cons,
      List.flatMap_nil, List.append_assoc, List.cons_append, List.append_nil]
  · simpa using hfirst
  · refine List.forall_mem_append.mpr ⟨hmids, List.forall_mem_cons.mpr ⟨?_, h.ended⟩⟩
    rw [List.mem_append, not_or]
    exact ⟨hlast, h.unended⟩
  · -- As there was room, all lines that are not blank were found, and `collect` goes on from there.
    have hlength : found.length =
        min n (complete.reverse.filter (!isAsciiBlank ·)).length := by
      rw [h.collected, List.length_map, List.length_take]
    have hall : found = (complete.reverse.filter (!isAsciiBlank ·)).map stripReturns := by
      rw [h.collected, List.take_of_length_le (by omega)]
    have hlines : (mids ++ (last ++ head.flatten) :: complete).reverse =
        complete.reverse ++ (last ++ head.flatten) :: mids.reverse := by
      rw [List.reverse_append, List.reverse_cons, List.append_assoc]
      rfl
    have htake : (complete.reverse.filter (!isAsciiBlank ·)).take n =
        complete.reverse.filter (!isAsciiBlank ·) := List.take_of_length_le (by omega)
    have hlastD : (first :: (mids ++ [last])).getLastD [] = last := by
      rw [List.getLastD_eq_getLast?, ← List.cons_append, List.getLast?_concat]
      rfl
    have hmid : (first :: (mids ++ [last])).tail.dropLast.reverse = mids.reverse := by simp
    have hlen : found.length = (complete.reverse.filter (!isAsciiBlank ·)).length := by omega
    rw [hlastD, hmid, collect_eq _ hroom, hlines, List.filter_append, List.take_append, htake,
      List.map_append, ← hall, hlen]

/-- Where the loop stops, it has read the whole file or has found enough. -/
theorem read_tailLoop {content : Bytes} {n remaining : ℕ} {head found complete : List Bytes}
    (h : Read content n remaining head found complete) :
    ∃ complete', Read content n (tailLoop content n remaining head found).1
        (tailLoop content n remaining head found).2.1
        (tailLoop content n remaining head found).2.2 complete' ∧
      ((tailLoop content n remaining head found).1 = 0 ∨
        n ≤ (tailLoop content n remaining head found).2.2.length) := by
  induction remaining using Nat.strong_induction_on generalizing head found complete with
  | _ remaining ih =>
    rw [tailLoop]
    split_ifs with hstop
    · exact ⟨complete, h, hstop⟩
    · obtain ⟨hpos, hroom⟩ := not_or.mp hstop
      have hsize : min tailChunk remaining ≤ remaining := Nat.min_le_right _ _
      -- A chunk has a byte at least.
      have hless : remaining - min tailChunk remaining < remaining := by
        simp only [tailChunk]
        omega
      simp only
      split_ifs with hnl
      · obtain ⟨complete', h'⟩ := h.parts hsize (Nat.lt_of_not_le hroom) hnl
        exact ih _ hless h'
      · exact ih _ hless (h.piece hsize hnl)

theorem rtake_append_of_length_le {α : Type} {xs ys : List α} {n : ℕ} (h : ys.length ≤ n) :
    (xs ++ ys).rtake n = xs.rtake (n - ys.length) ++ ys := by
  have hdrop : (xs ++ ys).length - n = xs.length - (n - ys.length) := by
    rw [List.length_append]
    omega
  rw [List.rtake, List.rtake, hdrop, List.drop_append_of_le_length (Nat.sub_le _ _)]

theorem rtake_append_of_le_length {α : Type} {xs ys : List α} {n : ℕ} (h : n ≤ ys.length) :
    (xs ++ ys).rtake n = ys.rtake n := by
  have hdrop : (xs ++ ys).length - n = xs.length + (ys.length - n) := by
    rw [List.length_append]
    omega
  rw [List.rtake, List.rtake, hdrop, ← List.drop_drop, List.drop_left]

theorem rtake_of_length_le {α : Type} {xs : List α} {n : ℕ} (h : xs.length ≤ n) :
    xs.rtake n = xs := by
  rw [List.rtake, Nat.sub_eq_zero_of_le h, List.drop_zero]

/-- The tail reader finds the last lines of the file that are not blank to it, whatever the chunks.
-/
theorem tailLines_eq (content : Bytes) (n : ℕ) :
    tailLines content n =
      (((fileLines content).filter (!isAsciiBlank ·)).rtake n).map stripReturns := by
  rw [tailLines]
  split_ifs with hempty
  · have hnone : ((fileLines []).filter (!isAsciiBlank ·)) = [] := rfl
    rw [hempty, hnone, List.rtake_nil]
    rfl
  have hstart : Read content n content.length [] [] [] :=
    ⟨Nat.le_refl _, by simp, List.not_mem_nil, nofun, by simp⟩
  obtain ⟨complete, hread, hstop⟩ := read_tailLoop hstart
  obtain ⟨⟨remaining, head, found⟩, hloop⟩ : ∃ r, r = tailLoop content n content.length [] [] :=
    ⟨_, rfl⟩
  rw [← hloop] at hread hstop ⊢
  simp only at hread hstop ⊢
  -- The complete lines are the last ones of the file. Only the first line has a mark to lose.
  have hfile : fileLines content =
      ((content.take remaining ++ head.flatten).splitOn newline).modifyHead cutBom ++ complete := by
    obtain ⟨first, rest, hcons⟩ := List.exists_cons_of_ne_nil
      (List.splitOn_ne_nil newline (content.take remaining ++ head.flatten))
    have hsplit := splitOn_append_flatMap (content.take remaining ++ head.flatten) hread.ended
    rw [← hread.split, hcons] at hsplit
    rw [fileLines, hsplit, hcons]
    rfl
  have hfound : found.reverse =
      ((complete.filter (!isAsciiBlank ·)).rtake n).map stripReturns := by
    rw [hread.collected, ← List.map_reverse, List.filter_reverse, ← List.rtake_eq_reverse_take_reverse]
  have hlength : found.length = min n (complete.filter (!isAsciiBlank ·)).length := by
    rw [hread.collected, List.length_map, List.length_take, List.filter_reverse, List.length_reverse]
  rw [hfile, List.filter_append]
  by_cases hroom : found.length < n
  · -- The whole file was read, and the partial line is its first one.
    have hzero : remaining = 0 := hstop.resolve_right (Nat.not_le.mpr hroom)
    have hfew : (complete.filter (!isAsciiBlank ·)).length < n := by omega
    have hhead : ((content.take remaining ++ head.flatten).splitOn newline).modifyHead cutBom =
        [cutBom head.flatten] := by
      rw [hzero, List.take_zero, List.nil_append, List.splitOn_eq_singleton hread.unended]
      rfl
    rw [hhead, rtake_append_of_length_le (Nat.le_of_lt hfew)]
    rw [rtake_of_length_le (Nat.le_of_lt hfew)] at hfound
    cases hblank : isAsciiBlank (cutBom head.flatten) with
    | true =>
      rw [if_neg (by simp), hfound, List.filter_cons_of_neg (by simp [hblank]), List.filter_nil,
        List.rtake_nil, List.nil_append]
    | false =>
      have hone : [cutBom head.flatten].length ≤ n - (complete.filter (!isAsciiBlank ·)).length := by
        rw [List.length_singleton]
        omega
      rw [if_pos ⟨hzero, hroom, by simp⟩, List.reverse_append, hfound,
        List.filter_cons_of_pos (by simp [hblank]), List.filter_nil, rtake_of_length_le hone]
      rfl
  · -- Enough was found, so that nothing before the complete lines counts.
    rw [if_neg (fun h => hroom h.2.1), hfound, rtake_append_of_le_length (by omega)]

end Lines

/-! ## The lines that a stream has -/

section Streams

variable {floats depth}

/-- What a line of bytes is judged to be. -/
def judgeLine (floats : Floats F) (depth : ℕ) (line : Bytes) : Option (LineVerdict F) :=
  classify floats depth (decode line)

theorem mapM_id_append (xs ys : Decoded) :
    (xs ++ ys).mapM id = (xs.mapM id).bind fun s => (ys.mapM id).map (s ++ ·) := by
  induction xs with
  | nil => simp
  | cons x xs ih =>
    cases x with
    | none => rfl
    | some c =>
      rw [List.cons_append, List.mapM_cons, List.mapM_cons, ih]
      cases xs.mapM id <;> cases ys.mapM id <;> rfl

/-- The end of a line does not count. -/
theorem classify_end {c : Char} (hc : c = '\r' ∨ c = '\n') (raw : Decoded) :
    classify floats depth (raw ++ [some c]) = classify floats depth raw := by
  have hends : ∀ t : Text, classifyLine floats depth (t ++ [c]) = classifyLine floats depth t := by
    intro t
    rw [classifyLine, classifyLine, List.rdropWhile_concat_pos _ _ _ (by simpa using hc)]
  rw [classify, classify, mapM_id_append]
  cases raw.mapM id with
  | none => rfl
  | some t => exact congrArg some (hends t)

/-- Before the end of a line, and after it. -/
theorem streamLines_newline {raw : Decoded} (h : some '\n' ∉ raw) (rest : Decoded) :
    streamLines (raw ++ some '\n' :: rest) = (raw ++ [some '\n']) :: streamLines rest := by
  induction raw with
  | nil => rfl
  | cons c raw ih =>
    rw [List.mem_cons, not_or] at h
    rw [List.cons_append, streamLines, if_neg (Ne.symm h.1), ih h.2]
    rfl

theorem streamLines_last {raw : Decoded} (h : some '\n' ∉ raw) (hne : raw ≠ []) :
    streamLines raw = [raw] := by
  induction raw with
  | nil => exact absurd rfl hne
  | cons c raw ih =>
    rw [List.mem_cons, not_or] at h
    rw [streamLines, if_neg (Ne.symm h.1)]
    cases raw with
    | nil => rfl
    | cons c' raw => rw [ih h.2 (List.cons_ne_nil _ _)]

theorem newline_notMem_decode {line : Bytes} (h : newline ∉ line) : some '\n' ∉ decode line := by
  intro hmem
  obtain ⟨b, hb, heq⟩ := mem_of_mem_decodeFrom (by decide) 0 hmem
  have hcode : (Char.ofNat b.toNat).toNat = b.toNat := by
    have hlt := b.toNat_lt
    rw [Char.ofNat, dif_pos (.inl (by omega))]
    rfl
  have hnl : b = newline := by
    rw [← heq] at hcode
    exact UInt8.toNat_inj.mp hcode.symm
  exact h (hnl ▸ hb)

/-- The lines of bytes that are joined are those that are judged, but for blank ones. -/
theorem judged_decode (floats : Floats F) (depth : ℕ) {ls : List Bytes}
    (h : ∀ l ∈ ls, newline ∉ l) :
    ((streamLines (decode (List.intercalate [newline] ls))).map (classify floats depth)).filter
        (!isBlank ·) = (ls.map (judgeLine floats depth)).filter (!isBlank ·) := by
  induction ls with
  | nil => rfl
  | cons l ls ih =>
    obtain ⟨hl, hls⟩ := List.forall_mem_cons.mp h
    have hnl := newline_notMem_decode hl
    cases ls with
    | nil =>
      have hjoin : List.intercalate [newline] [l] = l := by simp [List.intercalate]
      rw [hjoin]
      by_cases hnil : decode l = []
      · rw [hnil, List.map_singleton, judgeLine, hnil]
        rfl
      · rw [streamLines_last hnl hnil]
        rfl
    | cons l' ls =>
      have hjoin : List.intercalate [newline] (l :: l' :: ls) =
          l ++ newline :: List.intercalate [newline] (l' :: ls) := by simp [List.intercalate]
      have hdecode : decode (l ++ newline :: List.intercalate [newline] (l' :: ls)) =
          decode l ++ some '\n' :: decode (List.intercalate [newline] (l' :: ls)) :=
        decode_append (by decide) _ _
      rw [hjoin, hdecode, streamLines_newline hnl, List.map_cons, classify_end (.inr rfl),
        List.map_cons, List.filter_cons, List.filter_cons, ih hls]
      rfl

/-- The lines that are not blank, judged. -/
def nonblank (floats : Floats F) (depth : ℕ) (ls : List Bytes) : List (Option (LineVerdict F)) :=
  (ls.map (judgeLine floats depth)).filter (!isBlank ·)

/-- The lines of a stream that are not blank, judged. Its first line has no mark. -/
def judgedLines (floats : Floats F) (depth : ℕ) (ls : List Bytes) : List (Option (LineVerdict F)) :=
  nonblank floats depth (ls.modifyHead cutBom)

/-- A stream is judged line by line, but for a stream that is only a part of the mark, of which
nothing can be read. -/
theorem judged_cases (floats : Floats F) (depth : ℕ) {ls : List Bytes}
    (h : ∀ l ∈ ls, newline ∉ l) :
    (judged floats depth (List.intercalate [newline] ls)).filter (!isBlank ·) =
        judgedLines floats depth ls ∨
      judged floats depth (List.intercalate [newline] ls) = [] ∧
        ∀ v ∈ judgedLines floats depth ls, v = none := by
  cases ls with
  | nil => exact .inl rfl
  | cons l ls =>
    obtain ⟨hl, hls⟩ := List.forall_mem_cons.mp h
    rw [intercalate_cons]
    -- Only the first line can be within the mark, which has no newline.
    have hflat : ∀ {q : Bytes}, q <+: ls.flatMap (newline :: ·) → newline ∉ q → q = [] := by
      intro q hq hnot
      cases ls with
      | nil => exact List.prefix_nil.mp hq
      | cons l' ls =>
        rw [List.flatMap_cons, List.cons_append, List.prefix_cons_iff] at hq
        rcases hq with hnil | ⟨q, rfl, -⟩
        · exact hnil
        · exact absurd List.mem_cons_self hnot
    by_cases hpart : (l ++ ls.flatMap (newline :: ·)).isPrefixOf bom
    · have hpre := List.isPrefixOf_iff_prefix.mp hpart
      have hnil : ls.flatMap (newline :: ·) = [] := by
        refine hflat List.prefix_rfl fun hmem => ?_
        exact absurd (hpre.subset (List.mem_append_right _ hmem)) (by decide)
      obtain rfl : ls = [] := List.eq_nil_iff_forall_not_mem.mpr (by simpa using hnil)
      refine .inr ⟨?_, ?_⟩
      · rw [judged, decodeSig, if_pos hpart]
        rfl
      · -- None of the bytes of the mark is a character by itself.
        rw [List.flatMap_nil, List.append_nil, ← List.mem_inits] at hpre
        simp only [bom, List.inits, List.map_cons, List.map_nil, List.mem_cons, List.not_mem_nil,
          or_false] at hpre
        rcases hpre with rfl | rfl | rfl | rfl
        · nofun
        · exact fun v hv => List.mem_singleton.mp hv
        · exact fun v hv => List.mem_singleton.mp hv
        · nofun
    · left
      rw [judged, decodeSig, if_neg hpart]
      by_cases hbom : bom.isPrefixOf (l ++ ls.flatMap (newline :: ·))
      · -- The mark is at the start of the first line.
        obtain ⟨x, rfl⟩ : ∃ x, l = bom ++ x := by
          rcases cut_append (List.isPrefixOf_iff_prefix.mp hbom) with ⟨⟨x, hx⟩, -⟩ | ⟨q, hq, hrest⟩
          · exact ⟨x, hx.symm⟩
          · have hnot : newline ∉ q := fun hmem =>
              absurd (hq ▸ List.mem_append_right l hmem) (by decide : newline ∉ bom)
            rw [hflat hrest hnot, List.append_nil] at hq
            exact ⟨[], by rw [hq, List.append_nil]⟩
        have hx : newline ∉ x := fun hmem => hl (List.mem_append_right _ hmem)
        have hcut : cutBom (bom ++ x) = x := if_pos (by simp)
        rw [if_pos hbom, List.append_assoc, List.drop_left, ← intercalate_cons,
          judged_decode floats depth (List.forall_mem_cons.mpr ⟨hx, hls⟩), judgedLines,
          List.modifyHead_cons, hcut, nonblank]
      · have hcut : cutBom l = l := by
          refine if_neg fun hmark => hbom ?_
          exact List.isPrefixOf_iff_prefix.mpr
            ((List.isPrefixOf_iff_prefix.mp hmark).trans (List.prefix_append _ _))
        rw [if_neg hbom, ← intercalate_cons, judged_decode floats depth h, judgedLines,
          List.modifyHead_cons, hcut, nonblank]

theorem parseJudged_eq (vs : List (Option (LineVerdict F))) :
    parseJudged vs = if vs.any isUnloadable then none else some (vs.filterMap recordOf) := by
  induction vs with
  | nil => rfl
  | cons v vs ih =>
    rw [parseJudged, ih, List.any_cons]
    cases hv : isUnloadable v with
    | true => rfl
    | false =>
      cases vs.any isUnloadable with
      | true => rfl
      | false => cases hrecord : recordOf v <;> simp [hrecord]

theorem eq_blank {v : Option (LineVerdict F)} (h : isBlank v = true) : v = some .blank := by
  unfold isBlank at h
  split at h
  · rfl
  · cases h

/-- Blank lines do not count. -/
theorem parseJudged_filter (vs : List (Option (LineVerdict F))) :
    parseJudged (vs.filter (!isBlank ·)) = parseJudged vs := by
  induction vs with
  | nil => rfl
  | cons v vs ih =>
    cases hv : isBlank v with
    | false => rw [List.filter_cons_of_pos (by simp [hv]), parseJudged, parseJudged, ih]
    | true =>
      rw [List.filter_cons_of_neg (by simp [hv]), ih, eq_blank hv]
      simp [parseJudged, isUnloadable, recordOf]

theorem filterMap_none {vs : List (Option (LineVerdict F))} (h : ∀ v ∈ vs, v = none) :
    vs.filterMap recordOf = [] := by
  refine List.filterMap_eq_nil_iff.mpr fun v hv => ?_
  rw [h v hv]
  rfl

/-- A stream of lines that are joined. -/
theorem stream_intercalate (floats : Floats F) (depth : ℕ) {ls : List Bytes}
    (h : ∀ l ∈ ls, newline ∉ l) :
    stream floats depth (List.intercalate [newline] ls) =
      parseJudged (judgedLines floats depth ls) := by
  rcases judged_cases floats depth h with heq | ⟨hnil, hnone⟩
  · rw [stream, ← heq, parseJudged_filter]
  · have hany : (judgedLines floats depth ls).any isUnloadable = false := by
      rw [List.any_eq_false]
      intro v hv
      rw [hnone v hv]
      exact Bool.false_ne_true
    rw [stream, hnil, parseJudged_eq (judgedLines floats depth ls), hany, filterMap_none hnone]
    rfl

theorem lastRecords_eq (floats : Floats F) (depth : ℕ) (content : Bytes) (n : ℕ) :
    lastRecords floats depth content n =
      ((judgedLines floats depth (content.splitOn newline)).rtake n).filterMap recordOf := by
  have hjoin : List.intercalate [newline] (content.splitOn newline) = content :=
    List.intercalate_splitOn newline
  have hcases := judged_cases floats depth fun l (hl : l ∈ content.splitOn newline) =>
    newline_notMem_splitOn hl
  rw [hjoin] at hcases
  rcases hcases with heq | ⟨hnil, hnone⟩
  · rw [lastRecords, heq]
  · have hlast : ((judgedLines floats depth (content.splitOn newline)).rtake n).filterMap recordOf =
        [] := filterMap_none fun v hv => hnone v (List.drop_subset _ _ hv)
    rw [lastRecords, hnil, hlast, List.filter_nil, List.rtake_nil, List.filterMap_nil]

/-- A line that is blank to the tail reader is blank. -/
theorem judgeLine_of_isAsciiBlank {line : Bytes} (h : isAsciiBlank line = true) :
    judgeLine floats depth line = some .blank := by
  -- Each byte is a character of its own, which is blank to `str.strip` too.
  have htext : ∃ t : Text, (decode line).mapM id = some t ∧ ∀ c ∈ t, Memory.isSpace c = true := by
    induction line with
    | nil => exact ⟨[], rfl, nofun⟩
    | cons b line ih =>
      rw [isAsciiBlank, List.all_cons, Bool.and_eq_true] at h
      obtain ⟨t, ht, hspaces⟩ := ih h.2
      have hspace : ∀ b ∈ ([0x20, 0x09, 0x0A, 0x0B, 0x0C, 0x0D] : Bytes),
          b < 0x80 ∧ Memory.isSpace (.ofNat b.toNat) = true := by
        intro b hb
        simp only [List.mem_cons, List.not_mem_nil, or_false] at hb
        rcases hb with rfl | rfl | rfl | rfl | rfl | rfl <;> exact ⟨by decide, by decide⟩
      have hb := hspace b (of_decide_eq_true h.1)
      refine ⟨.ofNat b.toNat :: t, ?_, List.forall_mem_cons.mpr ⟨hb.2, hspaces⟩⟩
      rw [decode_cons hb.1, List.mapM_cons, ht]
      rfl
  obtain ⟨t, ht, hspaces⟩ := htext
  have hall : (t.rdropWhile fun c => c = '\r' || c = '\n').all Memory.isSpace = true :=
    List.all_eq_true.mpr fun c hc => hspaces c ((List.rdropWhile_prefix _ _).subset hc)
  rw [judgeLine, classify, ht, Option.map_some, classifyLine, if_pos hall]

theorem stripReturns_return (line : Bytes) : stripReturns (line ++ [0x0D]) = stripReturns line :=
  List.rdropWhile_concat_pos _ _ _ rfl

theorem stripReturns_other (line : Bytes) {b : UInt8} (hb : b ≠ 0x0D) :
    stripReturns (line ++ [b]) = line ++ [b] :=
  List.rdropWhile_concat_neg _ _ _ (by simpa using hb)

/-- Carriage returns at the end of a line do not count. -/
theorem judgeLine_stripReturns (floats : Floats F) (depth : ℕ) (line : Bytes) :
    judgeLine floats depth (stripReturns line) = judgeLine floats depth line := by
  induction line using List.reverseRecOn with
  | nil => rfl
  | append_singleton line b ih =>
    by_cases hb : b = 0x0D
    · have hdecode : decode (line ++ [b]) = decode line ++ [some '\r'] := by
        rw [hb]
        exact decode_append (by decide) line []
      rw [judgeLine, judgeLine, hdecode, classify_end (.inl rfl), hb, stripReturns_return]
      exact ih
    · rw [stripReturns_other line hb]

theorem stripReturns_bom (x : Bytes) : stripReturns (bom ++ x) = bom ++ stripReturns x := by
  induction x using List.reverseRecOn with
  | nil => decide
  | append_singleton x b ih =>
    rw [← List.append_assoc]
    by_cases hb : b = 0x0D
    · rw [hb, stripReturns_return, stripReturns_return, ih]
    · rw [stripReturns_other _ hb, stripReturns_other _ hb, List.append_assoc]

theorem judgeLine_cutBom_stripReturns (floats : Floats F) (depth : ℕ) (line : Bytes) :
    judgeLine floats depth (cutBom (stripReturns line)) = judgeLine floats depth (cutBom line) := by
  by_cases hbom : bom.isPrefixOf line
  · obtain ⟨x, rfl⟩ := List.isPrefixOf_iff_prefix.mp hbom
    have hcut : ∀ y, cutBom (bom ++ y) = y := fun y => if_pos (by simp)
    rw [stripReturns_bom, hcut, hcut, judgeLine_stripReturns]
  · have hnot : ¬ bom.isPrefixOf (stripReturns line) := fun hmark => hbom
      (List.isPrefixOf_iff_prefix.mpr
        ((List.isPrefixOf_iff_prefix.mp hmark).trans (List.rdropWhile_prefix _ _)))
    rw [cutBom, if_neg hnot, cutBom, if_neg hbom, judgeLine_stripReturns]

/-- A line that starts with the mark is no record. -/
theorem recordOf_bom (floats : Floats F) (depth : ℕ) (x : Bytes) :
    recordOf (judgeLine floats depth (bom ++ x)) = none := by
  have hdecode : decode (bom ++ x) = some '\uFEFF' :: decode x := rfl
  rw [judgeLine, classify, hdecode, List.mapM_cons]
  cases (decode x).mapM id with
  | none => rfl
  | some t =>
    obtain ⟨text, htext⟩ : ∃ text, text =
        ('\uFEFF' :: t).rdropWhile fun c => c = '\r' || c = '\n' := ⟨_, rfl⟩
    have hne : text ≠ [] := by
      rw [htext, ne_eq, List.rdropWhile_eq_nil_iff]
      exact fun hall => absurd (hall '\uFEFF' List.mem_cons_self) (by decide)
    obtain ⟨u, rfl⟩ : ∃ u, text = '\uFEFF' :: u := by
      have hstrip : text <+: '\uFEFF' :: t := htext ▸ List.rdropWhile_prefix _ _
      rcases List.prefix_cons_iff.mp hstrip with hnil | ⟨u, hu, -⟩
      · exact absurd hnil hne
      · exact ⟨u, hu⟩
    have hline : classifyLine floats depth ('\uFEFF' :: t) = .json .malformed := by
      rw [classifyLine, ← htext]
      rfl
    show recordOf (some (classifyLine floats depth ('\uFEFF' :: t))) = none
    rw [hline]
    rfl

end Streams

/-! ## The two readers -/

section Readers

/-- The lines of a file that the tail reader does not take for blank. -/
def filledLines (content : Bytes) : List Bytes :=
  (fileLines content).filter (!isAsciiBlank ·)

/-- The lines that the tail reader reads. -/
def window (content : Bytes) (n : ℕ) : List Bytes := (filledLines content).rtake n

/-- The lines before them. -/
def beforeWindow (content : Bytes) (n : ℕ) : List Bytes := (filledLines content).rdrop n

/-- The lines that are among the last ones which are not blank, and not in the window. -/
def pushedOut (content : Bytes) (n : ℕ) : List (Option (LineVerdict F)) :=
  (nonblank floats depth (beforeWindow content n)).rtake
    (n - (nonblank floats depth (window content n)).length)

/-- What is left of the first line of the window where it starts with a mark. -/
def unmarked : List Bytes → List Bytes
  | [] => []
  | line :: _ => if bom.isPrefixOf line then [line.drop bom.length] else []

/-- The records that are pushed out of the window are those that are read of its first line because
its mark is dropped, and this line can be loaded. -/
def Agrees (content : Bytes) (n : ℕ) : Prop :=
  (∀ line ∈ unmarked (window content n), isUnloadable (judgeLine floats depth line) = false) ∧
    (pushedOut floats depth content n).filterMap recordOf =
      (unmarked (window content n)).filterMap fun line => recordOf (judgeLine floats depth line)

variable {floats depth}

theorem nonblank_append (ls ls' : List Bytes) :
    nonblank floats depth (ls ++ ls') = nonblank floats depth ls ++ nonblank floats depth ls' := by
  rw [nonblank, List.map_append, List.filter_append]
  rfl

theorem nonblank_cons (line : Bytes) (ls : List Bytes) :
    nonblank floats depth (line :: ls) =
      if isBlank (judgeLine floats depth line) then nonblank floats depth ls
      else judgeLine floats depth line :: nonblank floats depth ls := by
  rw [nonblank, List.map_cons, List.filter_cons]
  cases isBlank (judgeLine floats depth line) <;> rfl

theorem filterMap_nonblank (ls : List Bytes) :
    (nonblank floats depth ls).filterMap recordOf =
      ls.filterMap fun line => recordOf (judgeLine floats depth line) := by
  induction ls with
  | nil => rfl
  | cons line ls ih =>
    rw [nonblank_cons, List.filterMap_cons, ← ih]
    split_ifs with hline
    · rw [eq_blank hline]
      rfl
    · rfl

theorem any_nonblank (ls : List Bytes) :
    (nonblank floats depth ls).any isUnloadable =
      ls.any fun line => isUnloadable (judgeLine floats depth line) := by
  induction ls with
  | nil => rfl
  | cons line ls ih =>
    rw [nonblank_cons, List.any_cons, ← ih]
    split_ifs with hline
    · rw [eq_blank hline]
      rfl
    · rfl

/-- What is blank to the tail reader is blank. -/
theorem nonblank_filledLines (content : Bytes) :
    nonblank floats depth (filledLines content) = nonblank floats depth (fileLines content) := by
  unfold filledLines
  induction fileLines content with
  | nil => rfl
  | cons line ls ih =>
    rw [List.filter_cons, nonblank_cons]
    cases hline : isAsciiBlank line with
    | false => rw [Bool.not_false, if_pos rfl, nonblank_cons, ih]
    | true =>
      have hblank : isBlank (judgeLine floats depth line) = true := by
        rw [judgeLine_of_isAsciiBlank hline]
        rfl
      rw [Bool.not_true, if_neg (by decide), if_pos hblank, ih]

theorem newline_notMem_fileLines {content line : Bytes} (h : line ∈ fileLines content) :
    newline ∉ line := by
  obtain ⟨first, rest, hcons⟩ := List.exists_cons_of_ne_nil (List.splitOn_ne_nil newline content)
  have hall : ∀ l ∈ first :: rest, newline ∉ l := fun l hl => newline_notMem_splitOn (hcons ▸ hl)
  rw [fileLines, hcons, List.modifyHead_cons] at h
  rcases List.mem_cons.mp h with rfl | h
  · intro hmem
    refine hall first List.mem_cons_self ?_
    unfold cutBom at hmem
    split_ifs at hmem
    · exact List.mem_of_mem_drop hmem
    · exact hmem
  · exact hall line (List.mem_cons_of_mem _ h)

theorem length_window_le (content : Bytes) (n : ℕ) : (window content n).length ≤ n := by
  rw [window, List.rtake, List.length_drop]
  omega

/-- The records of the last lines are those that are pushed out of the window and those in it. -/
theorem lastRecords_window (content : Bytes) (n : ℕ) :
    lastRecords floats depth content n =
      (pushedOut floats depth content n).filterMap recordOf ++
        (window content n).filterMap fun line => recordOf (judgeLine floats depth line) := by
  have hsplit : nonblank floats depth (fileLines content) =
      nonblank floats depth (beforeWindow content n) ++
        nonblank floats depth (window content n) := by
    rw [← nonblank_append, ← nonblank_filledLines]
    exact congrArg (nonblank floats depth) (List.take_append_drop _ _).symm
  have hlength : (nonblank floats depth (window content n)).length ≤ n := by
    have hfilter : (nonblank floats depth (window content n)).length ≤
        ((window content n).map (judgeLine floats depth)).length := List.length_filter_le _ _
    rw [List.length_map] at hfilter
    exact Nat.le_trans hfilter (length_window_le content n)
  calc lastRecords floats depth content n
      = ((nonblank floats depth (fileLines content)).rtake n).filterMap recordOf :=
        lastRecords_eq floats depth content n
    _ = (pushedOut floats depth content n ++ nonblank floats depth (window content n)).filterMap
          recordOf := by rw [hsplit, rtake_append_of_length_le hlength, pushedOut]
    _ = _ := by rw [List.filterMap_append, filterMap_nonblank]

/-- The tail reader parses its window as a stream. -/
theorem readJsonlTail_window (content : Bytes) {n : ℕ} (hn : n ≠ 0) :
    readJsonlTail floats depth content n =
      parseJudged (judgedLines floats depth (window content n)) := by
  have hlines : tailLines content n = (window content n).map stripReturns := tailLines_eq content n
  have hnone : ∀ line ∈ tailLines content n, newline ∉ line := by
    intro line hline hmem
    rw [hlines] at hline
    obtain ⟨l, hl, rfl⟩ := List.mem_map.mp hline
    have hfile := (List.mem_filter.mp (List.mem_of_mem_drop hl)).1
    exact newline_notMem_fileLines hfile ((List.rdropWhile_prefix _ _).subset hmem)
  have hstrip : ∀ ls, nonblank floats depth (ls.map stripReturns) = nonblank floats depth ls := by
    intro ls
    rw [nonblank, nonblank, List.map_map]
    exact congrArg _ (List.map_congr_left fun l _ => judgeLine_stripReturns floats depth l)
  have hjudged : judgedLines floats depth ((window content n).map stripReturns) =
      judgedLines floats depth (window content n) := by
    unfold judgedLines
    cases window content n with
    | nil => rfl
    | cons line ls =>
      rw [List.map_cons, List.modifyHead_cons, List.modifyHead_cons, nonblank_cons, nonblank_cons,
        judgeLine_cutBom_stripReturns, hstrip]
  rw [readJsonlTail, if_neg hn, stream_intercalate floats depth hnone, hlines, hjudged]

/-- No line of the window stops a reader where none of the file does. -/
theorem loadable_window {content : Bytes} (h : (stream floats depth content).isSome) (n : ℕ) :
    (window content n).any (fun line => isUnloadable (judgeLine floats depth line)) = false := by
  have hjoin : List.intercalate [newline] (content.splitOn newline) = content :=
    List.intercalate_splitOn newline
  have hstream := stream_intercalate floats depth fun l (hl : l ∈ content.splitOn newline) =>
    newline_notMem_splitOn hl
  rw [hjoin, parseJudged_eq] at hstream
  -- What the forward reader parses are the lines of the file, of which the window is a part.
  have hfile : (nonblank floats depth (fileLines content)).any isUnloadable = false := by
    by_contra hany
    rw [hstream, if_pos (Bool.not_eq_false _ ▸ hany)] at h
    cases h
  rw [← nonblank_filledLines, any_nonblank, List.any_eq_false] at hfile
  exact List.any_eq_false.mpr fun line hline => hfile line (List.mem_of_mem_drop hline)

/-- Where no line of the file stops the forward reader, the tail reader reads the records of the
last lines that are not blank, just in case what is pushed out of its window is made up for. -/
theorem readJsonlTail_iff {content : Bytes} {n : ℕ} (h : (stream floats depth content).isSome) :
    readJsonlTail floats depth content n = some (lastRecords floats depth content n) ↔
      Agrees floats depth content n := by
  rw [lastRecords_window, Agrees]
  by_cases hn : n = 0
  · subst hn
    have hwindow : window content 0 = [] := List.rtake_zero _
    have hpushed : pushedOut floats depth content 0 = [] := by
      rw [pushedOut, Nat.zero_sub, List.rtake_zero]
    rw [hwindow, hpushed]
    exact iff_of_true rfl ⟨nofun, rfl⟩
  -- Both lists of records end in those of the window, and only what they have before is compared.
  have hload := loadable_window h n
  rw [readJsonlTail_window content hn, judgedLines, parseJudged_eq, any_nonblank,
    filterMap_nonblank]
  generalize (pushedOut floats depth content n).filterMap recordOf = pushed
  cases hwindow : window content n with
  | nil =>
    rw [List.filterMap_nil, List.append_nil]
    exact ⟨fun heq => ⟨nofun, (Option.some.inj heq).symm⟩, fun heq => congrArg some heq.2.symm⟩
  | cons line rest =>
    rw [hwindow] at hload
    rw [List.modifyHead_cons, unmarked]
    by_cases hbom : bom.isPrefixOf line
    · -- The first line of the window is read without its mark.
      obtain ⟨x, rfl⟩ := List.isPrefixOf_iff_prefix.mp hbom
      have hcut : cutBom (bom ++ x) = x := if_pos hbom
      have hrest : (rest.any fun line => isUnloadable (judgeLine floats depth line)) = false := by
        rw [List.any_cons, Bool.or_eq_false_iff] at hload
        exact hload.2
      have hread : (x :: rest).filterMap (fun line => recordOf (judgeLine floats depth line)) =
          [x].filterMap (fun line => recordOf (judgeLine floats depth line)) ++
            rest.filterMap fun line => recordOf (judgeLine floats depth line) :=
        List.filterMap_append (l := [x])
      have hmarked : ((bom ++ x) :: rest).filterMap
          (fun line => recordOf (judgeLine floats depth line)) =
            rest.filterMap fun line => recordOf (judgeLine floats depth line) := by
        rw [List.filterMap_cons, recordOf_bom]
      rw [hcut, if_pos hbom, List.drop_left, List.any_cons, hrest, Bool.or_false, hread, hmarked]
      cases hx : isUnloadable (judgeLine floats depth x) with
      | true =>
        refine iff_of_false nofun fun hagrees => ?_
        have hnot := hagrees.1 x (List.mem_singleton_self x)
        rw [hx] at hnot
        cases hnot
      | false =>
        rw [if_neg (by decide), Option.some.injEq, List.append_left_inj]
        constructor
        · exact fun heq => ⟨fun l hl => by rwa [List.mem_singleton.mp hl], heq.symm⟩
        · exact fun hagrees => hagrees.2.symm
    · -- Without a mark the window is read as it is, and nothing may be pushed out of it.
      have hcut : cutBom line = line := if_neg hbom
      rw [hcut, if_neg hbom, hload, if_neg (by decide), Option.some.injEq,
        List.self_eq_append_left]
      exact ⟨fun heq => ⟨nofun, heq⟩, fun hagrees => hagrees.2⟩

/-- The line `{"a":1}`. -/
def logged : Bytes := [0x7B, 0x22, 0x61, 0x22, 0x3A, 0x31, 0x7D]

/-- A mark, a record, a blank line and an unfinished one. -/
theorem readJsonlTail_logged :
    readJsonlTail noFloats 1 (bom ++ logged ++ [0x0D, 0x0A, 0x20, 0x0A, 0x7B]) 2 =
      some (lastRecords noFloats 1 (bom ++ logged ++ [0x0D, 0x0A, 0x20, 0x0A, 0x7B]) 2) :=
  (readJsonlTail_iff rfl).mpr ⟨nofun, rfl⟩

/-- A line that is blank to `str.strip` only, U+00A0, pushes the record out of the window. -/
theorem readJsonlTail_blank :
    readJsonlTail noFloats 1 (logged ++ [0x0A, 0xC2, 0xA0, 0x0A]) 1 = some [] ∧
      lastRecords noFloats 1 (logged ++ [0x0A, 0xC2, 0xA0, 0x0A]) 1 = [[([0x61], .int 1)]] := by
  refine ⟨?_, rfl⟩
  rw [readJsonlTail_window _ (by decide)]
  rfl

end Readers

end Companion.Storage.Tail

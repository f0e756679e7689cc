import Companion.Consolidation.Entries
import Companion.Storage.Tail
import Mathlib

/-!
# Damaged lines in the queue

`PendingQueue.claim` and the batch that it takes (`brain/memory/pending.py`), on files of any bytes,
and the loop of `_run_locked` (`brain/engines/consolidation.py`) that parses the candidates of the
batch. No operation of a file fails.

A damaged line is kept aside whatever its bytes are, and what is left is taken, parsed and settled.
But a value is used as a member of a set, as a number and as a line of the processing file, and one
that cannot be used so is left where it is and stops every claim after it. `unwedged_iff` says which
values these are.
-/

namespace Companion.Consolidation.DamagedLines

open Companion.Consolidation.Entries
open Companion.Initiate.Review (PyError name get? isText)
open Companion.JsonText hiding isBlank
open Companion.Storage.Tail
open Companion.Utf8

/-- A line of the damaged file, of which the raw bytes are in base 64. -/
structure KeptLine where
  keptAt : Text
  /-- The name of the file. -/
  source : String
  line : ℕ
  raw : Bytes
  deriving DecidableEq

/-- The files of the queue. The damaged file is what was appended to it. -/
structure Files where
  queue : Option Bytes
  processing : Option Bytes
  settled : Option Bytes
  damaged : List KeptLine
  deriving DecidableEq

/-- What `claim` and the parsing of its entries raise. -/
inductive Fault
  /-- `UnloadableJsonlLineError` -/
  | unloadableLine
  | recursionError
  | python (e : PyError)
  deriving DecidableEq

/-- `ClaimedBatch` -/
structure Batch (F : Type) where
  entries : List (Fields F)
  settled : List Key

/-- `_QUEUE_FILENAME` -/
def queueFilename : String := "pending_candidates.jsonl"

/-- `_PROCESSING_FILENAME` -/
def processingFilename : String := "pending_candidates.processing.jsonl"

/-- `uuid4().hex` -/
def hex (u : BitVec 128) : List CodeUnit :=
  (List.range 32).map fun i =>
    .ofNat _ (hexDigit (u.toNat / 16 ^ (31 - i) % 16)).toNat

def isReappraiseItem {F : Type} (e : Fields F) : Bool :=
  isText (getOrNone e "_route") "reappraise_importance"

section Claims

variable {F T : Type} (floats : Floats F) (py : Python F T) (limits : Limits)

/-- `iter_jsonl_raw` with `bad_lines`: the lines that are not blank, each with its record. -/
def rawLines (content : Bytes) : List (Bytes × Option (Fields F)) :=
  if content.isPrefixOf bom then []
  else
    ((fileLines content).filter fun line => !isBlank (judgeLine floats limits.load line)).map
      fun line => (stripReturns line, recordOf (judgeLine floats limits.load line))

/-- The records of a file. -/
def records (content : Bytes) : List (Fields F) :=
  (rawLines floats limits content).filterMap Prod.snd

/-- The damaged lines of a file, with their positions among the lines that are not blank. -/
def damagedLines (content : Bytes) : List (ℕ × Bytes) :=
  ((rawLines floats limits content).zipIdx 1).filterMap fun line =>
    if line.1.2.isNone then some (line.2, line.1.1) else none

/-- What is kept of the damaged lines of a file. -/
def keptLines (now : String → Text) (source : String) (content : Bytes) : List KeptLine :=
  (damagedLines floats limits content).map fun line => ⟨now source, source, line.1, line.2⟩

/-- `_read_keeping_damaged` of a file that is there: its records, whether a line is damaged, and the
files afterwards. -/
def readKeepingDamaged (now : String → Text) (source : String) (content : Bytes) (files : Files) :
    List (Fields F) × Bool × Files :=
  (records floats limits content, !(damagedLines floats limits content).isEmpty,
    { files with damaged := files.damaged ++ keptLines floats limits now source content })

/-- The ids of the settled file, none of a file that is not there. -/
def settledIds (files : Files) : Except Fault (List Key) :=
  match files.settled with
  | none => .ok []
  | some content =>
    match stream floats limits.load content with
    | none => .error .unloadableLine
    | some rows =>
      (rows.mapM fun r => keyAt py r "id").elim (.error (.python .typeError)) .ok

/-- The entries whose claim ids are not among the settled ones, none for a `TypeError`. -/
def unsettled (settled : List Key) : List (Fields F) → Option (List (Fields F))
  | [] => some []
  | e :: rest =>
    match keyAt py e "_claim_id" with
    | none => none
    | some k => (unsettled settled rest).map fun es => if k ∈ settled then es else e :: es

/-- What an earlier claim left over. -/
def leftovers (now : String → Text) (files : Files) : Except Fault (List (Fields F)) × Files :=
  match files.processing with
  | none => (.ok [], files)
  | some content =>
    match settledIds floats py limits files with
    | .error e => (.error e, files)
    | .ok settled =>
      let (kept, _, files) := readKeepingDamaged floats limits now processingFilename content files
      ((unsettled py settled kept).elim (.error (.python .typeError)) .ok, files)

/-- The entries of the queue. -/
def queued (now : String → Text) (files : Files) : List (Fields F) × Bool × Files :=
  match files.queue with
  | none => ([], false, files)
  | some content => readKeepingDamaged floats limits now queueFilename content files

/-- One re-appraise item for each memory id, none for a `TypeError`. -/
def combined (seen : List Key) : List (Fields F) → Option (List (Fields F))
  | [] => some []
  | e :: rest =>
    if isReappraiseItem e then
      match keyAt py e "memory_id" with
      | none => none
      | some k =>
        if k ∈ seen then combined seen rest else (combined (k :: seen) rest).map (e :: ·)
    else (combined seen rest).map (e :: ·)

/-- Each entry with a fresh claim id. -/
def stamped (uuids : ℕ → BitVec 128) (es : List (Fields F)) : List (Fields F) :=
  es.zipIdx.map fun e => setItem e.1 "_claim_id" (.str (hex (uuids e.2)))

/-- `encode_jsonl` with `nonfinite="null"`, none where it raises. -/
def encodeJsonl (es : List (Fields F)) : Option Bytes :=
  (es.mapM fun e => dumpsNull floats limits (.obj e)).map fun ts =>
    (ts.flatMap (· ++ ['\n'])).map fun c => .ofNat c.toNat

/-- `PendingQueue.claim` -/
def claim (now : String → Text) (uuids : ℕ → BitVec 128) (files : Files) :
    Except Fault (Batch F) × Files :=
  let hadFiles := files.processing.isSome || files.settled.isSome
  match leftovers floats py limits now files with
  | (.error e, files) => (.error e, files)
  | (.ok left, files) =>
    let (queued, damaged, files) := queued floats limits now files
    match combined py [] (left ++ queued) with
    | none => (.error (.python .typeError), files)
    | some [] =>
      let files := if hadFiles then { files with processing := none, settled := none } else files
      (.ok ⟨[], []⟩, if damaged then { files with queue := some [] } else files)
    | some (e :: es) =>
      let entries := stamped uuids (e :: es)
      match encodeJsonl floats limits entries with
      | none => (.error .recursionError, files)
      | some payload =>
        let files := { files with processing := some payload, settled := some [] }
        (.ok ⟨entries, []⟩,
          if !queued.isEmpty || damaged then { files with queue := some [] } else files)

/-- `ClaimedBatch.settle` -/
def settle (batch : Batch F) (entry : Fields F) (files : Files) : Except Fault (Batch F × Files) :=
  if truthy py (getOrNone entry "_claim_id") then
    match keyAt py entry "_claim_id" with
    | none => .error (.python .typeError)
    | some k =>
      if k ∈ batch.settled then .ok (batch, files)
      else
        match encodeJsonl floats limits [[(name "id", getOrNone entry "_claim_id")]] with
        | none => .error .recursionError
        | some payload =>
          let content := files.settled.getD []
          let torn := content.getLast?.any (· ≠ newline)
          let write := if torn then newline :: payload else payload
          .ok ({ batch with settled := k :: batch.settled },
            { files with settled := some (content ++ write) })
  else .ok (batch, files)

/-- `ClaimedBatch.close`. Each entry of a batch has a claim id that is a string. -/
def close (batch : Batch F) (files : Files) : Files :=
  if batch.entries.all fun e => (keyAt py e "_claim_id").any (· ∈ batch.settled) then
    { files with processing := none, settled := none }
  else files

/-- The entries are settled one after another. -/
def settleAll : List (Fields F) → Batch F → Files → Except Fault (Batch F × Files)
  | [], batch, files => .ok (batch, files)
  | e :: es, batch, files =>
    match settle floats py limits batch e files with
    | .error fault => .error fault
    | .ok (batch, files) => settleAll es batch files

/-- The loop of `_run_locked` that parses the candidates: what it parses, and what it drops and
settles. -/
def parseCandidates : List (Fields F) →
    Except Fault (List (Fields F × Memory F T) × List (Fields F))
  | [] => .ok ([], [])
  | e :: rest =>
    match fromDict py e with
    | .ok m => (parseCandidates rest).map fun (parsed, dropped) => ((e, m) :: parsed, dropped)
    | .error fault =>
      if fault ∈ caught then
        (parseCandidates rest).map fun (parsed, dropped) => (parsed, e :: dropped)
      else .error (.python fault)

end Claims

section Lines

variable {F T : Type} {floats : Floats F} {py : Python F T} {limits : Limits}

theorem streamLines_eq_nil {t : Decoded} (h : streamLines t = []) : t = [] := by
  cases t with
  | nil => rfl
  | cons c t =>
    rw [streamLines] at h
    split_ifs at h
    split at h <;> cases h

theorem decode_eq_nil {bs : Bytes} (h : decode bs = []) : bs = [] := by
  cases bs with
  | nil => rfl
  | cons b bs =>
    rw [decode, decodeFrom] at h
    split at h <;> cases h

/-- The lines of the bytes are those of the stream. -/
theorem records_rawLines (content : Bytes) :
    (rawLines floats limits content).map Prod.snd =
      ((judged floats limits.load content).filter (!isBlank ·)).map Storage.Tail.recordOf := by
  rw [rawLines]
  split_ifs with hpart
  · rw [judged, decodeSig, if_pos hpart]
    rfl
  · have hlines : judgedLines floats limits.load (content.splitOn newline) =
        ((fileLines content).filter fun line => !isBlank (judgeLine floats limits.load line)).map
          (judgeLine floats limits.load) := by
      rw [judgedLines, nonblank, List.filter_map, fileLines]
      rfl
    have hcases := judged_cases floats limits.load fun l (hl : l ∈ content.splitOn newline) =>
      newline_notMem_splitOn hl
    rw [List.intercalate_splitOn] at hcases
    rcases hcases with heq | ⟨hnil, -⟩
    · rw [heq, hlines, List.map_map, List.map_map]
      rfl
    · -- Nothing but a part of the mark has no lines.
      refine absurd ?_ hpart
      rw [judged, List.map_eq_nil_iff] at hnil
      have hdecoded := streamLines_eq_nil hnil
      rw [decodeSig, if_neg hpart] at hdecoded
      split_ifs at hdecoded with hbom
      · obtain ⟨x, rfl⟩ := List.isPrefixOf_iff_prefix.mp hbom
        rw [List.drop_left] at hdecoded
        rw [decode_eq_nil hdecoded, List.append_nil]
        decide
      · rw [decode_eq_nil hdecoded]
        rfl

/-- What is read of a line was loaded. -/
theorem short_of_mem_records {content : Bytes} {e : Fields F}
    (h : e ∈ records floats limits content) : Short (.obj e) := by
  obtain ⟨line, hline, hrecord⟩ := List.mem_filterMap.mp h
  rw [rawLines] at hline
  split_ifs at hline
  · cases hline
  · obtain ⟨bytes, -, rfl⟩ := List.mem_map.mp hline
    change Storage.Tail.recordOf (judgeLine floats limits.load bytes) = some e at hrecord
    rw [judgeLine, classify] at hrecord
    -- Only a line that is decoded, is not blank and loads as an object has a record.
    cases htext : (decode bytes).mapM id with
    | none => rw [htext] at hrecord; cases hrecord
    | some raw =>
      rw [htext] at hrecord
      change Storage.Tail.recordOf (some (Storage.Jsonl.classifyLine floats limits.load raw)) =
        some e at hrecord
      unfold Storage.Jsonl.classifyLine at hrecord
      simp only at hrecord
      split_ifs at hrecord
      · cases hrecord
      · split at hrecord
        · cases hrecord
        · rename_i fields hload
          cases hrecord
          exact short_loads hload
        · cases hrecord

end Lines

section Steps

variable {F T : Type} {floats : Floats F} {py : Python F T} {limits : Limits}

/-- What the settled file is read as. -/
theorem settledIds_eq_ok {files : Files} {content : Bytes} {settled : List Key}
    (hcontent : files.settled = some content) :
    settledIds floats py limits files = .ok settled ↔
      ∃ rows, stream floats limits.load content = some rows ∧
        rows.mapM (fun r => keyAt py r "id") = some settled := by
  simp only [settledIds, hcontent]
  cases stream floats limits.load content with
  | none => simp
  | some rows => cases hids : rows.mapM fun r => keyAt py r "id" <;> simp [hids]

theorem isSome_unsettled (settled : List Key) (es : List (Fields F)) :
    (unsettled py settled es).isSome ↔ ∀ e ∈ es, (keyAt py e "_claim_id").isSome := by
  induction es with
  | nil => simp [unsettled]
  | cons e es ih =>
    rw [unsettled, List.forall_mem_cons, ← ih]
    cases keyAt py e "_claim_id" with
    | none => simp
    | some k => simp

theorem unsettled_eq {settled : List Key} {es left : List (Fields F)}
    (h : unsettled py settled es = some left) :
    left = es.filter fun e => !(keyAt py e "_claim_id").any (· ∈ settled) := by
  induction es generalizing left with
  | nil => exact (Option.some.inj h).symm
  | cons e es ih =>
    rw [unsettled] at h
    split at h
    · cases h
    · rename_i k hk
      obtain ⟨left, hleft, rfl⟩ := Option.map_eq_some_iff.mp h
      rw [List.filter_cons, hk, ih hleft]
      by_cases hmem : k ∈ settled <;> simp [hmem]

theorem isSome_combined (seen : List Key) (es : List (Fields F)) :
    (combined py seen es).isSome ↔
      ∀ e ∈ es, isReappraiseItem e → (keyAt py e "memory_id").isSome := by
  induction es generalizing seen with
  | nil => simp [combined]
  | cons e es ih =>
    rw [combined, List.forall_mem_cons]
    by_cases he : isReappraiseItem e
    · rw [if_pos he]
      cases keyAt py e "memory_id" with
      | none => simp [he]
      | some k =>
        by_cases hk : k ∈ seen
        · simp [hk, ih seen]
        · simp [hk, ih (k :: seen)]
    · simp [he, ih seen]

/-- What becomes of the first entry: a request is left out where its memory id was seen, and its
memory id is seen from there on. -/
theorem combined_cons {seen : List Key} {e : Fields F} {es cs : List (Fields F)}
    (h : combined py seen (e :: es) = some cs) :
    (∃ k ∈ seen, isReappraiseItem e ∧ keyAt py e "memory_id" = some k ∧
      combined py seen es = some cs) ∨
    (∃ k ∉ seen, isReappraiseItem e ∧ keyAt py e "memory_id" = some k ∧
      ∃ cs', combined py (k :: seen) es = some cs' ∧ e :: cs' = cs) ∨
    (¬ isReappraiseItem e ∧ ∃ cs', combined py seen es = some cs' ∧ e :: cs' = cs) := by
  rw [combined] at h
  by_cases he : isReappraiseItem e
  · rw [if_pos he] at h
    split at h
    · cases h
    · rename_i k hk
      split_ifs at h with hseen
      · exact .inl ⟨k, hseen, he, hk, h⟩
      · exact .inr (.inl ⟨k, hseen, he, hk, Option.map_eq_some_iff.mp h⟩)
  · rw [if_neg he] at h
    exact .inr (.inr ⟨he, Option.map_eq_some_iff.mp h⟩)

/-- The entry repeats a request of one of the entries before it. -/
def Repeats (py : Python F T) (before : List (Fields F)) (e : Fields F) : Prop :=
  isReappraiseItem e ∧
    ∃ b ∈ before, isReappraiseItem b ∧ keyAt py b "memory_id" = keyAt py e "memory_id"

theorem repeats_cons {e c : Fields F} {before : List (Fields F)} :
    Repeats py (e :: before) c ↔
      (isReappraiseItem c ∧ isReappraiseItem e ∧ keyAt py e "memory_id" = keyAt py c "memory_id") ∨
        Repeats py before c := by
  simp only [Repeats, List.mem_cons, or_and_right, exists_or, exists_eq_left, and_or_left]

theorem exists_cons_eq_append {α : Type} {a c : α} {as : List α} {P : List α → Prop} :
    (∃ before after, a :: as = before ++ c :: after ∧ P before) ↔
      (c = a ∧ P []) ∨ ∃ before after, as = before ++ c :: after ∧ P (a :: before) := by
  constructor
  · rintro ⟨before, after, heq, hP⟩
    cases before with
    | nil =>
      cases heq
      exact .inl ⟨rfl, hP⟩
    | cons b before =>
      cases heq
      exact .inr ⟨before, after, rfl, hP⟩
  · rintro (⟨rfl, hP⟩ | ⟨before, after, rfl, hP⟩)
    · exact ⟨[], as, rfl, hP⟩
    · exact ⟨a :: before, after, rfl, hP⟩

/-- Of the entries that `combined` is given those are left that repeat no request. -/
theorem mem_combined {seen : List Key} {es cs : List (Fields F)}
    (h : combined py seen es = some cs) (c : Fields F) :
    c ∈ cs ↔ ∃ before after, es = before ++ c :: after ∧ ¬ Repeats py before c ∧
      ∀ k ∈ seen, ¬ (isReappraiseItem c ∧ keyAt py c "memory_id" = some k) := by
  induction es generalizing seen cs with
  | nil =>
    cases h
    simp
  | cons e es ih =>
    rw [exists_cons_eq_append]
    rcases combined_cons h with ⟨k, hseen, he, hk, hrest⟩ | ⟨k, hseen, he, hk, cs, hrest, rfl⟩ |
      ⟨he, cs, hrest, rfl⟩
    · -- The first entry is left out, and what it would repeat was seen before.
      rw [ih hrest]
      constructor
      · rintro ⟨before, after, heq, hrepeats, hnot⟩
        refine .inr ⟨before, after, heq, ?_, hnot⟩
        rw [repeats_cons, not_or]
        exact ⟨fun hsame => hnot k hseen ⟨hsame.1, hsame.2.2 ▸ hk⟩, hrepeats⟩
      · rintro (⟨rfl, -, hnot⟩ | ⟨before, after, heq, hrepeats, hnot⟩)
        · exact absurd ⟨he, hk⟩ (hnot k hseen)
        · exact ⟨before, after, heq, fun hb => hrepeats (repeats_cons.mpr (.inr hb)), hnot⟩
    · -- The first entry is left, and from here on its memory id has been seen.
      rw [List.mem_cons, ih hrest]
      refine or_congr ?_ ?_
      · refine ⟨?_, And.left⟩
        rintro rfl
        refine ⟨rfl, fun hrepeats => (nomatch hrepeats.2), fun k' hk' hsame => ?_⟩
        rw [hk, Option.some.injEq] at hsame
        exact hseen (hsame.2 ▸ hk')
      · refine exists₂_congr fun before after => and_congr_right fun _ => ?_
        rw [repeats_cons, List.forall_mem_cons, not_or, hk]
        grind
    · rw [List.mem_cons, ih hrest]
      refine or_congr ?_ ?_
      · refine ⟨?_, And.left⟩
        rintro rfl
        exact ⟨rfl, fun hrepeats => he hrepeats.1, fun _ _ hsame => he hsame.1⟩
      · refine exists₂_congr fun before after => and_congr_right fun _ => ?_
        simp [repeats_cons, he]

theorem candidates_combined {seen : List Key} {es cs : List (Fields F)}
    (h : combined py seen es = some cs) :
    cs.filter (!isReappraiseItem ·) = es.filter (!isReappraiseItem ·) := by
  induction es generalizing seen cs with
  | nil =>
    cases h
    rfl
  | cons e es ih =>
    rcases combined_cons h with ⟨k, -, he, -, hrest⟩ | ⟨k, -, he, -, cs, hrest, rfl⟩ |
      ⟨he, cs, hrest, rfl⟩
    · rw [List.filter_cons_of_neg (by simp [he]), ih hrest]
    · rw [List.filter_cons_of_neg (by simp [he]), List.filter_cons_of_neg (by simp [he]), ih hrest]
    · rw [List.filter_cons_of_pos (by simp [he]), List.filter_cons_of_pos (by simp [he]), ih hrest]

/-- Each request is there, or one for the same memory. -/
theorem requests_combined {seen : List Key} {es cs : List (Fields F)}
    (h : combined py seen es = some cs) {e : Fields F} (he : e ∈ es) (hroute : isReappraiseItem e) :
    (∃ k ∈ seen, keyAt py e "memory_id" = some k) ∨
      ∃ c ∈ cs, isReappraiseItem c ∧ keyAt py c "memory_id" = keyAt py e "memory_id" := by
  induction es generalizing seen cs with
  | nil => cases he
  | cons a es ih =>
    rcases combined_cons h with ⟨k, hseen, -, hk, hrest⟩ | ⟨k, -, ha, hk, cs, hrest, rfl⟩ |
      ⟨ha, cs, hrest, rfl⟩
    · rcases List.mem_cons.mp he with rfl | hmem
      · exact .inl ⟨k, hseen, hk⟩
      · exact ih hrest hmem
    · rcases List.mem_cons.mp he with rfl | hmem
      · exact .inr ⟨e, List.mem_cons_self, ha, rfl⟩
      · rcases ih hrest hmem with ⟨k', hk', heq⟩ | ⟨c, hc, hsame⟩
        · -- A memory id that is seen is the first entry's or was seen before it.
          rcases List.mem_cons.mp hk' with rfl | hold
          · exact .inr ⟨a, List.mem_cons_self, ha, hk.trans heq.symm⟩
          · exact .inl ⟨k', hold, heq⟩
        · exact .inr ⟨c, List.mem_cons_of_mem _ hc, hsame⟩
    · rcases List.mem_cons.mp he with rfl | hmem
      · exact absurd hroute ha
      · rcases ih hrest hmem with hold | ⟨c, hc, hsame⟩
        · exact .inl hold
        · exact .inr ⟨c, List.mem_cons_of_mem _ hc, hsame⟩

/-- The one is the other with a claim id. -/
def Stamped (c e : Fields F) : Prop := ∃ u, c = setItem e "_claim_id" (.str (hex u))

theorem forall₂_stamped (uuids : ℕ → BitVec 128) (es : List (Fields F)) :
    List.Forall₂ Stamped (stamped uuids es) es := by
  have hfrom : ∀ n, List.Forall₂ Stamped
      ((es.zipIdx n).map fun e => setItem e.1 "_claim_id" (.str (hex (uuids e.2)))) es := by
    induction es with
    | nil => exact fun _ => .nil
    | cons e es ih => exact fun n => .cons ⟨uuids n, rfl⟩ (ih (n + 1))
  exact hfrom 0

theorem Stamped.get? {e c : Fields F} (h : Stamped c e) {key : String}
    (hkey : name key ≠ name "_claim_id") :
    Initiate.Review.get? c key = Initiate.Review.get? e key := by
  obtain ⟨u, rfl⟩ := h
  exact get?_setItem_ne hkey e _

theorem Stamped.isReappraiseItem {e c : Fields F} (h : Stamped c e) :
    isReappraiseItem c = isReappraiseItem e := by
  rw [DamagedLines.isReappraiseItem, DamagedLines.isReappraiseItem, getOrNone, getOrNone,
    h.get? (by decide)]

theorem Stamped.memoryId {e c : Fields F} (h : Stamped c e) :
    keyAt py c "memory_id" = keyAt py e "memory_id" := by
  rw [keyAt, keyAt, getOrNone, getOrNone, h.get? (by decide)]

theorem Stamped.fromDict {e c : Fields F} (h : Stamped c e) : fromDict py c = fromDict py e := by
  obtain ⟨u, rfl⟩ := h
  exact fromDict_setItem e _

theorem length_hex (u : BitVec 128) : (hex u).length = 32 := by
  rw [hex, List.length_map, List.length_range]

theorem Stamped.claimId {e c : Fields F} (h : Stamped c e) :
    ∃ s, s ≠ [] ∧ getOrNone c "_claim_id" = .str s := by
  obtain ⟨u, rfl⟩ := h
  refine ⟨hex u, ?_, ?_⟩
  · exact List.ne_nil_of_length_pos (length_hex u ▸ by decide)
  · rw [getOrNone, get?_setItem]
    rfl

theorem isSome_encodeJsonl {es : List (Fields F)} (hshort : ∀ e ∈ es, Short (.obj e)) :
    (encodeJsonl floats limits es).isSome ↔ ∀ e ∈ es, Dumpable floats limits (.obj e) := by
  rw [encodeJsonl, Option.isSome_map, isSome_mapM]
  exact forall₂_congr fun e he => isSome_dumpsNull (hshort e he)

theorem parseCandidates_ok {es : List (Fields F)} :
    (∃ parsed dropped, parseCandidates py es = .ok (parsed, dropped)) ↔
      ∀ e ∈ es, ¬ Overflows py e := by
  induction es with
  | nil => simp [parseCandidates]
  | cons e es ih =>
    rw [List.forall_mem_cons, ← ih, parseCandidates]
    cases hread : Entries.fromDict py e with
    | ok m =>
      have hnot : ¬ Overflows py e := fun h => nomatch hread.symm.trans (h.fromDict)
      cases parseCandidates py es with
      | error fault => simp [Except.map]
      | ok r =>
        obtain ⟨parsed, dropped⟩ := r
        simp [Except.map, hnot]
    | error fault =>
      -- A fault that is caught drops the entry, and any other stops the loop.
      by_cases hcaught : fault ∈ caught
      · have hnot : ¬ Overflows py e := fun h => by
          cases hread.symm.trans h.fromDict
          exact absurd hcaught (by decide)
        cases parseCandidates py es with
        | error fault => simp [Except.map, hcaught]
        | ok r =>
          obtain ⟨parsed, dropped⟩ := r
          simp [Except.map, hcaught, hnot]
      · have hover := ((fromDict_error_iff hcaught).mp hread).2
        simp [hcaught, hover]

/-- Each candidate is parsed or dropped. -/
theorem perm_parseCandidates {es : List (Fields F)} {parsed : List (Fields F × Memory F T)}
    {dropped : List (Fields F)} (h : parseCandidates py es = .ok (parsed, dropped)) :
    (parsed.map Prod.fst ++ dropped).Perm es := by
  induction es generalizing parsed dropped with
  | nil =>
    cases h
    exact .nil
  | cons e es ih =>
    rw [parseCandidates] at h
    split at h
    · cases hrest : parseCandidates py es with
      | error fault => rw [hrest] at h; cases h
      | ok r =>
        rw [hrest] at h
        cases h
        exact (ih hrest).cons e
    · split_ifs at h
      cases hrest : parseCandidates py es with
      | error fault => rw [hrest] at h; cases h
      | ok r =>
        rw [hrest] at h
        cases h
        exact List.perm_middle.trans ((ih hrest).cons e)

end Steps

section Recovery

variable {F T : Type} (floats : Floats F) (py : Python F T) (limits : Limits)

/-- The records of a file that may be there. -/
def recordsOf (file : Option Bytes) : List (Fields F) := file.elim [] (records floats limits)

/-- The settled file lists the claim id of the entry. -/
def isSettled (files : Files) (e : Fields F) : Bool :=
  (files.settled.elim [] fun content => (stream floats limits.load content).getD []).any fun r =>
    keyAt py r "id" = keyAt py e "_claim_id"

/-- What there is to be claimed, before repeated requests are left out. -/
def pending (files : Files) : List (Fields F) :=
  (recordsOf floats limits files.processing).filter (!isSettled floats py limits files ·) ++
    recordsOf floats limits files.queue

/-- The processing file and the settled file can be used. -/
structure Readable (files : Files) : Prop where
  /-- The parser can load each line of the settled file. -/
  loads : ∀ content, files.settled = some content → (stream floats limits.load content).isSome
  /-- A set can hold the ids in the settled file, -/
  ids : ∀ content rows, files.settled = some content →
    stream floats limits.load content = some rows → ∀ r ∈ rows, (keyAt py r "id").isSome
  /-- and the claim ids in the processing file. -/
  claimIds : ∀ e ∈ recordsOf floats limits files.processing, (keyAt py e "_claim_id").isSome

variable {floats py limits} {now : String → Text} {uuids : ℕ → BitVec 128} {files : Files}
  {content : Bytes}

theorem mem_mapM {α β : Type} {f : α → Option β} {as : List α} {bs : List β}
    (h : as.mapM f = some bs) (b : β) : b ∈ bs ↔ ∃ a ∈ as, f a = some b := by
  induction as generalizing bs with
  | nil =>
    obtain rfl : [] = bs := Option.some.inj h
    simp
  | cons a as ih =>
    rw [List.mapM_cons] at h
    obtain ⟨b', hb', hrest⟩ := Option.bind_eq_some_iff.mp h
    obtain ⟨bs', hbs', heq⟩ := Option.bind_eq_some_iff.mp hrest
    obtain rfl : b' :: bs' = bs := Option.some.inj heq
    rw [List.mem_cons, ih hbs', List.exists_mem_cons_iff, hb', Option.some.injEq, eq_comm]

/-- Where the settled file is read, the set of its ids decides which entries are settled. -/
theorem any_mem_settledIds {files : Files} {settled : List Key}
    (h : settledIds floats py limits files = .ok settled) {e : Fields F}
    (he : (keyAt py e "_claim_id").isSome) :
    (keyAt py e "_claim_id").any (· ∈ settled) = isSettled floats py limits files e := by
  obtain ⟨k, hk⟩ := Option.isSome_iff_exists.mp he
  rw [isSettled, hk]
  cases hcontent : files.settled with
  | none =>
    simp only [settledIds, hcontent, Except.ok.injEq] at h
    rw [← h]
    rfl
  | some content =>
    obtain ⟨rows, hrows, hids⟩ := (settledIds_eq_ok hcontent).mp h
    have hmem := mem_mapM hids k
    rw [Bool.eq_iff_iff]
    simpa [hrows] using hmem

theorem settledIds_ok (h : Readable floats py limits files) :
    ∃ settled, settledIds floats py limits files = .ok settled := by
  cases hcontent : files.settled with
  | none => exact ⟨[], by simp only [settledIds, hcontent]⟩
  | some content =>
    obtain ⟨rows, hrows⟩ := Option.isSome_iff_exists.mp (h.loads content hcontent)
    obtain ⟨keys, hkeys⟩ := Option.isSome_iff_exists.mp
      ((isSome_mapM rows).mpr (h.ids content rows hcontent hrows))
    exact ⟨keys, (settledIds_eq_ok hcontent).mpr ⟨rows, hrows, hkeys⟩⟩

theorem leftovers_eq (hprocessing : files.processing = some content)
    (h : Readable floats py limits files) :
    leftovers floats py limits now files =
      (.ok ((records floats limits content).filter (!isSettled floats py limits files ·)),
        { files with damaged :=
            files.damaged ++ keptLines floats limits now processingFilename content }) := by
  obtain ⟨settled, hsettled⟩ := settledIds_ok h
  have hclaimIds := h.claimIds
  rw [recordsOf, hprocessing, Option.elim_some] at hclaimIds
  obtain ⟨left, hleft⟩ := Option.isSome_iff_exists.mp ((isSome_unsettled settled _).mpr hclaimIds)
  -- The set of the settled ids leaves out what the settled file lists.
  have hfilter : left = (records floats limits content).filter
      (!isSettled floats py limits files ·) := by
    rw [unsettled_eq hleft]
    exact List.filter_congr fun e he => by rw [any_mem_settledIds hsettled (hclaimIds e he)]
  simp only [leftovers, hprocessing, hsettled, readKeepingDamaged, hleft, hfilter, Option.elim_some]

theorem readable_of_leftovers {left : List (Fields F)}
    (hprocessing : files.processing = some content)
    (h : (leftovers floats py limits now files).1 = .ok left) :
    Readable floats py limits files := by
  simp only [leftovers, hprocessing] at h
  split at h
  · cases h
  · rename_i settled hsettled
    simp only [readKeepingDamaged] at h
    cases hleft : unsettled py settled (records floats limits content) with
    | none => rw [hleft] at h; cases h
    | some left' =>
      -- That the settled file was read says that a set holds each of its ids.
      have hids : ∀ content' rows, files.settled = some content' →
          stream floats limits.load content' = some rows →
          ∀ r ∈ rows, (keyAt py r "id").isSome := by
        intro content' rows hcontent hrows
        obtain ⟨rows', hrows', hids⟩ := (settledIds_eq_ok hcontent).mp hsettled
        obtain rfl : rows = rows' := Option.some.inj (hrows.symm.trans hrows')
        exact (isSome_mapM rows).mp (hids ▸ rfl)
      refine ⟨fun content' hcontent => ?_, hids, ?_⟩
      · obtain ⟨rows, hrows, -⟩ := (settledIds_eq_ok hcontent).mp hsettled
        exact hrows ▸ rfl
      · rw [recordsOf, hprocessing]
        exact (isSome_unsettled settled _).mp (hleft ▸ rfl)

/-- What is kept of the damaged lines of both files. -/
def kept (floats : Floats F) (limits : Limits) (now : String → Text) (files : Files) :
    List KeptLine :=
  files.processing.elim [] (keptLines floats limits now processingFilename) ++
    files.queue.elim [] (keptLines floats limits now queueFilename)

/-- The queue once it is claimed. -/
def emptied (floats : Floats F) (limits : Limits) (files : Files) : Option Bytes :=
  if files.queue.any fun content => !(rawLines floats limits content).isEmpty then some []
  else files.queue

theorem isEmpty_rawLines (content : Bytes) :
    (rawLines floats limits content).isEmpty =
      ((records floats limits content).isEmpty &&
        (damagedLines floats limits content).isEmpty) := by
  rw [records, damagedLines]
  cases rawLines floats limits content with
  | nil => rfl
  | cons line rest =>
    obtain ⟨text, record⟩ := line
    -- A line is a record or is damaged.
    cases record <;> simp [List.zipIdx_cons]

theorem queued_eq (files : Files) :
    queued floats limits now files =
      (recordsOf floats limits files.queue,
        files.queue.any fun content => !(damagedLines floats limits content).isEmpty,
        { files with damaged := files.damaged ++
            files.queue.elim [] (keptLines floats limits now queueFilename) }) := by
  obtain ⟨queue, processing, settled, damaged⟩ := files
  cases queue with
  | none => simp [queued, recordsOf]
  | some content => simp [queued, recordsOf, readKeepingDamaged]

/-- The reads of a claim. -/
theorem reads_eq (h : files.processing.isSome → Readable floats py limits files) :
    ∃ left, leftovers floats py limits now files = (.ok left,
        { files with damaged := files.damaged ++
            files.processing.elim [] (keptLines floats limits now processingFilename) }) ∧
      left ++ recordsOf floats limits files.queue = pending floats py limits files := by
  obtain ⟨queue, processing, settled, damaged⟩ := files
  cases processing with
  | none => exact ⟨[], by simp [leftovers], by simp [pending, recordsOf]⟩
  | some content =>
    refine ⟨_, leftovers_eq rfl (h rfl), ?_⟩
    rw [pending, recordsOf, recordsOf, Option.elim_some]

theorem combined_eq_nil {es : List (Fields F)} (h : combined py [] es = some []) : es = [] := by
  cases es with
  | nil => rfl
  | cons e es =>
    rcases combined_cons h with ⟨k, hseen, -⟩ | ⟨k, -, -, -, cs, -, heq⟩ | ⟨-, cs, -, heq⟩
    · cases hseen
    · cases heq
    · cases heq

/-- What a claim comes to once the files are read. -/
theorem claim_eq (h : files.processing.isSome → Readable floats py limits files) :
    claim floats py limits now uuids files =
      match combined py [] (pending floats py limits files) with
      | none => (.error (.python .typeError),
          { files with damaged := files.damaged ++ kept floats limits now files })
      | some cs =>
        match encodeJsonl floats limits (stamped uuids cs) with
        | none => (.error .recursionError,
            { files with damaged := files.damaged ++ kept floats limits now files })
        | some payload =>
          (.ok ⟨stamped uuids cs, []⟩,
            { queue := emptied floats limits files
              processing := if cs.isEmpty then none else some payload
              settled := if cs.isEmpty then none else some []
              damaged := files.damaged ++ kept floats limits now files }) := by
  obtain ⟨left, hleft, hpending⟩ := @reads_eq F T floats py limits now files h
  -- The queue is emptied where it had an entry or a damaged line.
  have hemptied : emptied floats limits files =
      if !(recordsOf floats limits files.queue).isEmpty ||
        files.queue.any fun content => !(damagedLines floats limits content).isEmpty then some []
      else files.queue := by
    rw [emptied]
    cases files.queue with
    | none => rfl
    | some content =>
      rw [Option.any_some, Option.any_some, isEmpty_rawLines, recordsOf, Option.elim_some,
        Bool.not_and]
  simp only [claim, hleft, queued_eq, hpending, List.append_assoc, ← kept.eq_1]
  cases hcombined : combined py [] (pending floats py limits files) with
  | none => rfl
  | some cs =>
    cases cs with
    | nil =>
      have hnil : recordsOf floats limits files.queue = [] := by
        have hpending' := combined_eq_nil hcombined
        rw [← hpending] at hpending'
        exact (List.append_eq_nil_iff.mp hpending').2
      rw [hnil] at hemptied
      have hencode : encodeJsonl floats limits (stamped uuids []) = some [] := rfl
      simp only [hencode, hemptied, List.isEmpty_nil, Bool.not_true, Bool.false_or, if_true]
      -- Where neither file was there, neither is there now.
      cases hprocessing : files.processing <;> cases hsettled : files.settled <;>
        simp only [Option.isSome_none, Option.isSome_some, Bool.or_false, Bool.or_true,
          Bool.or_self, Bool.false_eq_true, if_false, if_true] <;> split_ifs <;> rfl
    | cons e es =>
      cases hencode : encodeJsonl floats limits (stamped uuids (e :: es)) with
      | none => simp only [hencode]
      | some payload =>
        simp only [hencode, hemptied, List.isEmpty_cons, Bool.false_eq_true, if_false]
        split_ifs <;> rfl

theorem leftovers_of_claim {batch : Batch F} {after : Files}
    (h : claim floats py limits now uuids files = (.ok batch, after)) :
    ∃ left, (leftovers floats py limits now files).1 = .ok left := by
  rw [claim] at h
  cases hleft : leftovers floats py limits now files with
  | mk result read =>
    cases result with
    | error fault => simp only [hleft] at h; cases h
    | ok left => exact ⟨left, rfl⟩

/-! ### The batch -/

theorem short_of_pending {e : Fields F} (h : e ∈ pending floats py limits files) :
    Short (.obj e) := by
  have hrecords : ∀ {file : Option Bytes}, e ∈ recordsOf floats limits file → Short (.obj e) := by
    intro file hmem
    cases file with
    | none => cases hmem
    | some content => exact short_of_mem_records hmem
  rcases List.mem_append.mp h with hleft | hqueue
  · exact hrecords (List.mem_filter.mp hleft).1
  · exact hrecords hqueue

/-- What there is to be claimed can be stamped and written. -/
theorem isSome_encodeJsonl_stamped {cs : List (Fields F)} (hshort : ∀ e ∈ cs, Short (.obj e)) :
    (encodeJsonl floats limits (stamped uuids cs)).isSome ↔
      ∀ e ∈ cs, ∀ id, Dumpable floats limits (.obj (setItem e "_claim_id" (.str id))) := by
  have hstamped := forall₂_stamped uuids cs
  rw [isSome_encodeJsonl]
  · refine forall_mem_iff_of_forall₂ hstamped fun c e he h => ?_
    obtain ⟨u, rfl⟩ := h
    exact ⟨fun henc id => (dumpable_setItem _ _).mp henc, fun h => h _⟩
  · refine forall_mem_of_forall₂ hstamped fun c e he h => ?_
    obtain ⟨u, rfl⟩ := h
    exact short_setItem (hshort e he) _ _

/-- What becomes of the records: each candidate is in the batch, in the order of the files, and each
request is or repeats one that is. -/
structure Accounts (floats : Floats F) (py : Python F T) (limits : Limits) (files : Files)
    (batch : Batch F) : Prop where
  candidates : List.Forall₂ Stamped (batch.entries.filter (!isReappraiseItem ·))
    ((pending floats py limits files).filter (!isReappraiseItem ·))
  requests : ∀ e ∈ pending floats py limits files, isReappraiseItem e →
    ∃ c ∈ batch.entries, isReappraiseItem c ∧ keyAt py c "memory_id" = keyAt py e "memory_id"

/-- Once all entries are settled, in any order, and the batch is closed, a claim finds nothing and
changes nothing. -/
def Rests (floats : Floats F) (py : Python F T) (limits : Limits) (batch : Batch F)
    (after : Files) : Prop :=
  ∀ calls : List (Fields F), (∀ e, e ∈ calls ↔ e ∈ batch.entries) →
    ∃ closing settled, settleAll floats py limits calls batch after = .ok (closing, settled) ∧
      ∀ now uuids, claim floats py limits now uuids (close py closing settled) =
        (.ok ⟨[], []⟩, close py closing settled)

/-- A claim returns, and so does the parsing of its candidates, each of which is parsed or dropped.
All records are accounted for, every damaged line is kept, and nothing is left over in the end. -/
def Unwedged (floats : Floats F) (py : Python F T) (limits : Limits) (now : String → Text)
    (uuids : ℕ → BitVec 128) (files : Files) : Prop :=
  ∃ batch after, claim floats py limits now uuids files = (.ok batch, after) ∧
    Accounts floats py limits files batch ∧
    after.damaged = files.damaged ++ kept floats limits now files ∧
    (∃ parsed dropped,
      parseCandidates py (batch.entries.filter (!isReappraiseItem ·)) = .ok (parsed, dropped) ∧
        (parsed.map Prod.fst ++ dropped).Perm (batch.entries.filter (!isReappraiseItem ·))) ∧
    Rests floats py limits batch after

/-- What the files hold can be used as the code uses it. -/
structure Tractable (floats : Floats F) (py : Python F T) (limits : Limits) (files : Files) :
    Prop where
  readable : files.processing.isSome → Readable floats py limits files
  /-- A set can hold the memory id of each request. -/
  requests : ∀ e ∈ pending floats py limits files, isReappraiseItem e →
    (keyAt py e "memory_id").isSome
  /-- What is claimed can be written. -/
  dumpable : ∀ before e after, pending floats py limits files = before ++ e :: after →
    ¬ Repeats py before e → ∀ id, Dumpable floats limits (.obj (setItem e "_claim_id" (.str id)))
  /-- No number of a candidate is too large. -/
  parses : ∀ e ∈ pending floats py limits files, ¬ isReappraiseItem e → ¬ Overflows py e

theorem Stamped.overflows {c e : Fields F} (h : Stamped c e) : Overflows py c ↔ Overflows py e := by
  have hboth : ∀ data, Entries.fromDict py data = .error .overflowError ↔ Overflows py data :=
    fun _ => (fromDict_error_iff (by decide)).trans (and_iff_right rfl)
  rw [← hboth c, ← hboth e, h.fromDict]

theorem exists_mem_of_forall₂ {α β : Type} {R : α → β → Prop} {as : List α} {bs : List β}
    (h : List.Forall₂ R as bs) {b : β} (hb : b ∈ bs) : ∃ a ∈ as, R a b := by
  induction h with
  | nil => cases hb
  | @cons a _ as _ hab _ ih =>
    rcases List.mem_cons.mp hb with rfl | hmem
    · exact ⟨a, List.mem_cons_self, hab⟩
    · obtain ⟨a', ha', hab'⟩ := ih hmem
      exact ⟨a', List.mem_cons_of_mem _ ha', hab'⟩

theorem accounts_stamped {cs : List (Fields F)}
    (h : combined py [] (pending floats py limits files) = some cs) :
    Accounts floats py limits files ⟨stamped uuids cs, []⟩ := by
  have hstamped := forall₂_stamped uuids cs
  refine ⟨?_, fun e he hroute => ?_⟩
  · rw [← candidates_combined h]
    refine List.rel_filter (fun c e hce => ?_) hstamped
    simp only [hce.isReappraiseItem]
  · rcases requests_combined h he hroute with ⟨k, hk, -⟩ | ⟨b, hb, hroute', hsame⟩
    · cases hk
    · obtain ⟨c, hc, hcb⟩ := exists_mem_of_forall₂ hstamped hb
      exact ⟨c, hc, hcb.isReappraiseItem.trans hroute', hcb.memoryId.trans hsame⟩

theorem rawLines_emptied {content : Bytes} (h : emptied floats limits files = some content) :
    rawLines floats limits content = [] := by
  rw [emptied] at h
  split_ifs at h with hany
  · cases h
    rfl
  · rw [h, Option.any_some] at hany
    simpa using hany

/-- Where nothing was claimed and the queue has no line that is not blank, a claim does nothing. -/
theorem claim_idle (hprocessing : files.processing = none) (hsettled : files.settled = none)
    (hqueue : ∀ content, files.queue = some content → rawLines floats limits content = []) :
    claim floats py limits now uuids files = (.ok ⟨[], []⟩, files) := by
  obtain ⟨queue, processing, settled, damaged⟩ := files
  obtain rfl : processing = none := hprocessing
  obtain rfl : settled = none := hsettled
  cases queue with
  | none => simp [claim, leftovers, queued, combined]
  | some content =>
    have hlines := hqueue content rfl
    simp [claim, leftovers, queued, combined, readKeepingDamaged, records, damagedLines, keptLines,
      hlines]

/-! ### Settling -/

/-- What settling leaves as it is. -/
structure Settles (batch batch' : Batch F) (files files' : Files) : Prop where
  entries : batch'.entries = batch.entries
  settled : batch.settled ⊆ batch'.settled
  queue : files'.queue = files.queue

theorem settle_spec {batch : Batch F} {e : Fields F} {s : List CodeUnit} (hne : s ≠ [])
    (hid : getOrNone e "_claim_id" = .str s) (hdump : limits.dump ≠ 0) :
    ∃ batch' files', settle floats py limits batch e files = .ok (batch', files') ∧
      Settles batch batch' files files' ∧ .str s ∈ batch'.settled := by
  have htruthy : truthy py (.str s) = true := by simpa [truthy] using hne
  have hkey : keyAt py e "_claim_id" = some (.str s) := by rw [keyAt, hid, keyOf]
  rw [settle, hid, if_pos htruthy]
  simp only [hkey]
  by_cases hmem : Key.str s ∈ batch.settled
  · rw [if_pos hmem]
    exact ⟨batch, files, rfl, ⟨rfl, List.Subset.refl _, rfl⟩, hmem⟩
  · rw [if_neg hmem]
    -- The line that is written holds a string within one object.
    obtain ⟨d, hd⟩ := Nat.exists_eq_succ_of_ne_zero hdump
    have hrecord : Short (.obj [(name "id", .str s)] : Value F) :=
      made_obj.mpr fun f hf => List.mem_singleton.mp hf ▸ .str s
    have hencode : (encodeJsonl floats limits [[(name "id", .str s)]]).isSome := by
      rw [isSome_encodeJsonl fun e he => List.mem_singleton.mp he ▸ hrecord]
      rintro e he
      rw [List.mem_singleton.mp he]
      refine ⟨?_, .inl (made_obj.mpr fun f hf => List.mem_singleton.mp hf ▸ .str s)⟩
      rw [hd, Nested]
      intro f hf
      rw [List.mem_singleton.mp hf]
      cases d <;> trivial
    obtain ⟨payload, hpayload⟩ := Option.isSome_iff_exists.mp hencode
    simp only [hpayload]
    exact ⟨_, _, rfl, ⟨rfl, List.subset_cons_self _ _, rfl⟩, List.mem_cons_self⟩

/-- Each entry that is settled is known to be. -/
theorem settleAll_spec (hdump : limits.dump ≠ 0) {calls : List (Fields F)} (batch : Batch F)
    (files : Files)
    (hcalls : ∀ e ∈ calls, ∃ s, s ≠ [] ∧ getOrNone e "_claim_id" = .str s) :
    ∃ batch' files', settleAll floats py limits calls batch files = .ok (batch', files') ∧
      Settles batch batch' files files' ∧
      ∀ e ∈ calls, (keyAt py e "_claim_id").any (· ∈ batch'.settled) := by
  induction calls generalizing batch files with
  | nil => exact ⟨batch, files, rfl, ⟨rfl, List.Subset.refl _, rfl⟩, nofun⟩
  | cons e calls ih =>
    obtain ⟨⟨s, hne, hid⟩, hrest⟩ := List.forall_mem_cons.mp hcalls
    obtain ⟨b₁, f₁, hsettle, hfirst, hmem⟩ :=
      @settle_spec F T floats py limits files batch e s hne hid hdump
    obtain ⟨b₂, f₂, hall, hsecond, hmems⟩ := ih b₁ f₁ hrest
    refine ⟨b₂, f₂, ?_, ?_, List.forall_mem_cons.mpr ⟨?_, hmems⟩⟩
    · simp only [settleAll, hsettle, hall]
    · exact ⟨hsecond.entries.trans hfirst.entries, List.Subset.trans hfirst.settled hsecond.settled,
        hsecond.queue.trans hfirst.queue⟩
    · rw [keyAt, hid, keyOf]
      simpa using hsecond.settled hmem

/-- A batch of stamped entries that are written comes to rest. -/
theorem rests_stamped {cs : List (Fields F)} {after : Files}
    (hencode : (encodeJsonl floats limits (stamped uuids cs)).isSome)
    (hshort : ∀ e ∈ cs, Short (.obj e))
    (hqueue : ∀ content, after.queue = some content → rawLines floats limits content = []) :
    Rests floats py limits ⟨stamped uuids cs, []⟩ after := by
  intro calls hcalls
  have hids : ∀ c ∈ stamped uuids cs, ∃ s, s ≠ [] ∧ getOrNone c "_claim_id" = .str s :=
    forall_mem_of_forall₂ (forall₂_stamped uuids cs) fun _ _ _ h => h.claimId
  have hsettleAll : ∃ batch' files', settleAll floats py limits calls ⟨stamped uuids cs, []⟩ after =
      .ok (batch', files') ∧ Settles ⟨stamped uuids cs, []⟩ batch' after files' ∧
      ∀ e ∈ calls, (keyAt py e "_claim_id").any (· ∈ batch'.settled) := by
    cases cs with
    | nil =>
      obtain rfl : calls = [] := List.eq_nil_iff_forall_not_mem.mpr fun e he =>
        nomatch (hcalls e).mp he
      exact ⟨_, _, rfl, ⟨rfl, List.Subset.refl _, rfl⟩, nofun⟩
    | cons e cs =>
      refine settleAll_spec (fun hzero => ?_) _ _ fun e he => hids e ((hcalls e).mp he)
      -- Without any depth nothing would have been written.
      have henc := (isSome_encodeJsonl_stamped hshort).mp hencode e List.mem_cons_self []
      rw [Dumpable, hzero] at henc
      exact henc.1
  obtain ⟨closing, settled, hall, hsettles, hmems⟩ := hsettleAll
  refine ⟨closing, settled, hall, fun now uuids' => ?_⟩
  have hclosed : close py closing settled =
      { settled with processing := none, settled := none } := by
    rw [close, hsettles.entries]
    exact if_pos (List.all_eq_true.mpr fun e he => hmems e ((hcalls e).mpr he))
  rw [hclosed]
  exact claim_idle rfl rfl fun content hcontent => hqueue content (hsettles.queue ▸ hcontent)

/-! ### Damaged lines wedge nothing -/

theorem dumpable_iff {cs : List (Fields F)}
    (h : combined py [] (pending floats py limits files) = some cs) :
    (encodeJsonl floats limits (stamped uuids cs)).isSome ↔
      ∀ before e after, pending floats py limits files = before ++ e :: after →
        ¬ Repeats py before e →
        ∀ id, Dumpable floats limits (.obj (setItem e "_claim_id" (.str id))) := by
  have hmem : ∀ c, c ∈ cs ↔ ∃ before after, pending floats py limits files = before ++ c :: after ∧
      ¬ Repeats py before c := by
    intro c
    rw [mem_combined h c]
    simp
  -- Whatever the claim ids are, the entries that repeat no request are written.
  rw [isSome_encodeJsonl_stamped]
  · constructor
    · intro henc before e after heq hrepeats
      exact henc e ((hmem e).mpr ⟨before, after, heq, hrepeats⟩)
    · intro henc c hc
      obtain ⟨before, after, heq, hrepeats⟩ := (hmem c).mp hc
      exact henc before c after heq hrepeats
  · intro c hc
    obtain ⟨before, after, heq, -⟩ := (hmem c).mp hc
    exact short_of_pending (heq ▸ List.mem_append_right _ List.mem_cons_self)

theorem parses_iff {cs : List (Fields F)}
    (h : combined py [] (pending floats py limits files) = some cs) :
    (∃ parsed dropped, parseCandidates py ((stamped uuids cs).filter (!isReappraiseItem ·)) =
        .ok (parsed, dropped)) ↔
      ∀ e ∈ pending floats py limits files, ¬ isReappraiseItem e → ¬ Overflows py e := by
  have hcandidates := (@accounts_stamped F T floats py limits uuids files cs h).candidates
  have hoverflows : (∀ c ∈ (stamped uuids cs).filter (!isReappraiseItem ·), ¬ Overflows py c) ↔
      ∀ e ∈ (pending floats py limits files).filter (!isReappraiseItem ·), ¬ Overflows py e :=
    forall_mem_iff_of_forall₂ hcandidates fun c e _ hce => not_congr hce.overflows
  rw [parseCandidates_ok, hoverflows]
  simp only [List.mem_filter, Bool.not_eq_true', Bool.not_eq_true, and_imp]

/-- The queue is not wedged just in case the code can use what the files hold. -/
theorem unwedged_iff (floats : Floats F) (py : Python F T) (limits : Limits) (now : String → Text)
    (uuids : ℕ → BitVec 128) (files : Files) :
    Unwedged floats py limits now uuids files ↔ Tractable floats py limits files := by
  constructor
  · rintro ⟨batch, after, hclaim, -, -, ⟨parsed, dropped, hparse, -⟩, -⟩
    -- A claim that returns has read both files, held the ids in sets and written the batch.
    have hreadable : files.processing.isSome → Readable floats py limits files := by
      intro hsome
      obtain ⟨content, hcontent⟩ := Option.isSome_iff_exists.mp hsome
      obtain ⟨left, hleft⟩ := leftovers_of_claim hclaim
      exact readable_of_leftovers hcontent hleft
    rw [claim_eq hreadable] at hclaim
    cases hcombined : combined py [] (pending floats py limits files) with
    | none => simp only [hcombined] at hclaim; cases hclaim
    | some cs =>
      simp only [hcombined] at hclaim
      cases hencode : encodeJsonl floats limits (stamped uuids cs) with
      | none => simp only [hencode] at hclaim; cases hclaim
      | some payload =>
        simp only [hencode] at hclaim
        cases hclaim
        exact ⟨hreadable, (isSome_combined [] _).mp (hcombined ▸ rfl),
          (dumpable_iff hcombined).mp (Option.isSome_iff_exists.mpr ⟨payload, hencode⟩),
          (parses_iff hcombined).mp ⟨parsed, dropped, hparse⟩⟩
  · intro h
    -- The reads, the sets and the writes succeed one after another.
    obtain ⟨cs, hcombined⟩ := Option.isSome_iff_exists.mp ((isSome_combined [] _).mpr h.requests)
    obtain ⟨payload, hencode⟩ := Option.isSome_iff_exists.mp
      ((@dumpable_iff F T floats py limits uuids files cs hcombined).mpr h.dumpable)
    obtain ⟨parsed, dropped, hparse⟩ :=
      (@parses_iff F T floats py limits uuids files cs hcombined).mpr h.parses
    have hclaim := @claim_eq F T floats py limits now uuids files h.readable
    simp only [hcombined, hencode] at hclaim
    refine ⟨_, _, hclaim, accounts_stamped hcombined, rfl,
      ⟨parsed, dropped, hparse, perm_parseCandidates hparse⟩, ?_⟩
    refine rests_stamped (Option.isSome_iff_exists.mpr ⟨payload, hencode⟩) (fun e he => ?_)
      fun content => rawLines_emptied
    obtain ⟨before, after, heq, -⟩ := (mem_combined hcombined e).mp he
    exact short_of_pending (heq ▸ List.mem_append_right _ List.mem_cons_self)

/-- A language without floats and times. -/
def plain : Python Unit Unit := ⟨fun _ => .nan, (), fun _ => (), fun _ => none, fun _ => none⟩

/-- The line `{"_route":"reappraise_importance","memory_id":[]}`. -/
def listRequest : Bytes :=
  "\x7b\"_route\":\"reappraise_importance\",\"memory_id\":[]\x7d".toList.map fun c =>
    .ofNat c.toNat

/-- A request whose memory id is a list stays in the queue, and every claim raises. -/
theorem not_unwedged_listRequest :
    ¬ Unwedged noFloats plain ⟨9, 9, 9⟩ (fun _ => []) (fun _ => 0)
      ⟨some listRequest, none, none, []⟩ := by
  rintro ⟨batch, after, hclaim, -⟩
  have hraises : (claim noFloats plain ⟨9, 9, 9⟩ (fun _ => []) (fun _ => 0)
      ⟨some listRequest, none, none, []⟩).1.toBool = false := by decide +kernel
  rw [hclaim] at hraises
  cases hraises

end Recovery

end Companion.Consolidation.DamagedLines

import Companion.Dict
import Companion.Storage.Jsonl
import Mathlib

/-!
# The archive of a session

`append_archive` and `read_archive` of `brain/ingest/buffer.py`. The files are the single one of an
older brain and the numbered segments. A directory is listed in any order. The id of a session has
no point in it, so that the files of another session are not listed.

A call that ends before its file is opened is as one that was not made. One that ends after it has
written a first part, of no bytes where the file is only opened, keeps that.

The archive reads back what was appended. A segment whose last line is torn can pass the limit by
the newline that closes this line (`appended_archive`).
-/

namespace Companion.Ingest.Archive

open Companion.JsonText
open Companion.Storage.Jsonl

variable {F : Type} (floats : Floats F) (depth : ℕ)

/-- `_ARCHIVE_SEGMENT_MAX_BYTES` -/
def archiveSegmentMaxBytes : ℕ := 5 * 1024 * 1024

/-- The number of bytes of a text. -/
def size (t : Text) : ℕ := (t.map Char.utf8Size).sum

/-- A file of the session in `archived_conversations`. -/
inductive Path
  | legacy
  /-- What the name has between the id of the session and `.jsonl`. -/
  | segment (mid : Text)
  deriving DecidableEq

abbrev Files := Dict Path Text

/-- The order in which a directory is listed. -/
structure Listing where
  listed : List (Path × Text) → List (Path × Text)
  perm : ∀ entries, (listed entries).Perm entries

variable (listing : Listing)

/-- `f"{num:03d}"` -/
def padded (num : ℕ) : Text := (Nat.toDigits 10 num).leftpad 3 '0'

def segmentPath (num : ℕ) : Path := .segment (padded num)

/-- The number of a segment. -/
def numberOf : Path → Option ℕ
  | .legacy => none
  | .segment mid => if mid ≠ [] ∧ mid.all Char.isDigit then some (Nat.ofDigitChars 10 mid 0) else none

/-- `_archive_segments` -/
def archiveSegments (files : Files) : List (ℕ × Path) :=
  ((listing.listed files.entries).filterMap fun e => (numberOf e.1).map (·, e.1)).mergeSort
    fun s t => s.1 ≤ t.1

/-- `_archive_read_order` -/
def archiveReadOrder (files : Files) : List Path :=
  (if (files.get? .legacy).isSome then [.legacy] else []) ++
    (archiveSegments listing files).map Prod.snd

/-- The file that is appended to where it has room. -/
def activePath (files : Files) : Path :=
  match (archiveSegments listing files).getLast? with
  | some (_, path) => path
  | none => if (files.get? .legacy).isSome then .legacy else segmentPath 0

/-- The segment that follows. -/
def nextPath (files : Files) : Path :=
  segmentPath ((archiveSegments listing files).getLast?.elim 0 (·.1 + 1))

/-- Only a file that is not empty is full. -/
def Full (content data : Text) : Prop :=
  0 < size content ∧ archiveSegmentMaxBytes < size content + size data

instance (content data : Text) : Decidable (Full content data) :=
  inferInstanceAs (Decidable (_ ∧ _))

def targetPath (files : Files) (data : Text) : Path :=
  match files.get? (activePath listing files) with
  | none => activePath listing files
  | some content => if Full content data then nextPath listing files else activePath listing files

/-- `append_archive` -/
def appendArchive (files : Files) (call : Call F) : Files :=
  if call.records.isEmpty then files
  else
    match encodeJsonl floats depth call.records with
    | none => files
    | some data =>
      let path := targetPath listing files data
      match appendJsonl floats depth (files.get? path) call with
      | none => files
      | some content => files.set path content

/-- `read_jsonl`, none where it raises. -/
def readJsonl (file : Option Text) : Option (List (Fields F)) :=
  let read := iterJsonl floats depth file
  if read.stopped.isSome then none else some read.yielded

/-- `read_archive` -/
def readArchive (files : Files) : Option (List (Fields F)) :=
  ((archiveReadOrder listing files).mapM fun path => readJsonl floats depth (files.get? path)).map
    List.flatten

/-- The single file of an older brain, where there is one, which can be read. -/
structure Legacy where
  file : Option Text
  records : List (Fields F)
  reads : readJsonl floats depth file = some records

variable {floats depth} in
def Legacy.files (legacy : Legacy floats depth) : Files :=
  legacy.file.elim ∅ fun content => (∅ : Files).set .legacy content

/-- The files after some calls. -/
def archiveAfter (legacy : Legacy floats depth) (calls : List (Call F)) : Files :=
  calls.foldl (appendArchive floats depth listing) legacy.files

/-! ## The segments -/

section Segments

variable {floats depth listing}

@[simp] theorem numberOf_segmentPath (num : ℕ) : numberOf (segmentPath num) = some num := by
  have hne : padded num ≠ [] := List.append_ne_nil_of_right_ne_nil _ Nat.toDigits_ne_nil
  have hdigits : (padded num).all Char.isDigit := by
    rw [List.all_eq_true]
    intro c hc
    rcases List.mem_append.mp hc with hpad | hdigit
    · rw [List.eq_of_mem_replicate hpad]
      rfl
    · exact Nat.isDigit_of_mem_toDigits (by decide) (by decide) hdigit
  have hvalue : Nat.ofDigitChars 10 (padded num) 0 = num := by
    rw [padded, List.leftpad, Nat.ofDigitChars_append, Nat.ofDigitChars_replicate_zero,
      Nat.mul_zero, Nat.ofDigitChars_ten_toDigits]
  rw [segmentPath, numberOf, if_pos ⟨hne, hdigits⟩, hvalue]

theorem segmentPath_inj {m n : ℕ} : segmentPath m = segmentPath n ↔ m = n := by
  refine ⟨fun h => ?_, congrArg segmentPath⟩
  have hnumber := congrArg numberOf h
  rwa [numberOf_segmentPath, numberOf_segmentPath, Option.some.injEq] at hnumber

/-- The files are the legacy one and the segments, numbered from zero. -/
structure Numbered (files : Files) (legacy : Option Text) (segments : List Text) : Prop where
  get_legacy : files.get? .legacy = legacy
  get_segment : ∀ num, files.get? (segmentPath num) = segments[num]?
  numbered : ∀ mid, (files.get? (.segment mid)).isSome → ∃ num, segmentPath num = .segment mid

variable {files : Files} {legacy : Option Text} {segments : List Text}

theorem Numbered.mem_numbers (h : Numbered files legacy segments) {num : ℕ} {path : Path} :
    (num, path) ∈ (files.entries.map Prod.fst).filterMap (fun p => (numberOf p).map (·, p)) ↔
      num < segments.length ∧ path = segmentPath num := by
  rw [List.mem_filterMap]
  constructor
  · rintro ⟨p, hp, heq⟩
    obtain ⟨k, hk, hpair⟩ := Option.map_eq_some_iff.mp heq
    obtain ⟨rfl, rfl⟩ := Prod.mk.inj hpair
    have hthere : (files.get? p).isSome := by
      rw [Option.isSome_iff_ne_none, ne_eq, Dict.get?_eq_none, not_not]
      exact hp
    cases p with
    | legacy => cases hk
    | segment mid =>
      obtain ⟨n, hn⟩ := h.numbered mid hthere
      rw [← hn, numberOf_segmentPath, Option.some.injEq] at hk
      subst hk
      rw [← hn, h.get_segment, Option.isSome_iff_exists] at hthere
      obtain ⟨content, hcontent⟩ := hthere
      exact ⟨(List.getElem?_eq_some_iff.mp hcontent).1, hn.symm⟩
  · rintro ⟨hlt, rfl⟩
    refine ⟨segmentPath num, ?_, by rw [numberOf_segmentPath]; rfl⟩
    by_contra hmem
    have hnone := h.get_segment num
    rw [Dict.get?_eq_none.mpr hmem, List.getElem?_eq_getElem hlt] at hnone
    cases hnone

/-- The segments are listed by their numbers, whatever the order of the directory. -/
theorem Numbered.archiveSegments_eq (h : Numbered files legacy segments) :
    archiveSegments listing files =
      (List.range segments.length).map fun num => (num, segmentPath num) := by
  have hperm : (archiveSegments listing files).Perm
      ((files.entries.map Prod.fst).filterMap fun p => (numberOf p).map (·, p)) := by
    rw [List.filterMap_map]
    exact (List.mergeSort_perm _ _).trans ((listing.perm files.entries).filterMap _)
  have hnodup : ((files.entries.map Prod.fst).filterMap fun p =>
      (numberOf p).map (·, p)).Nodup := by
    refine files.nodup.filterMap fun p q e hp hq => ?_
    obtain ⟨_, -, rfl⟩ := Option.map_eq_some_iff.mp hp
    obtain ⟨_, -, heq⟩ := Option.map_eq_some_iff.mp hq
    exact (Prod.mk.inj heq).2.symm
  have hrange : ((List.range segments.length).map fun num => (num, segmentPath num)).Nodup := by
    refine List.nodup_range.map fun m n heq => ?_
    exact (Prod.mk.inj heq).1
  have hsame : (archiveSegments listing files).Perm
      ((List.range segments.length).map fun num => (num, segmentPath num)) := by
    refine hperm.trans ((List.perm_ext_iff_of_nodup hnodup hrange).mpr ?_)
    rintro ⟨num, path⟩
    rw [h.mem_numbers, List.mem_map]
    constructor
    · rintro ⟨hlt, rfl⟩
      exact ⟨num, List.mem_range.mpr hlt, rfl⟩
    · rintro ⟨k, hk, heq⟩
      obtain ⟨rfl, rfl⟩ := Prod.mk.inj heq
      exact ⟨List.mem_range.mp hk, rfl⟩
  -- However the folder is listed, sorting by the number leaves one order.
  have hsorted : (archiveSegments listing files).Pairwise fun s t => s.1 ≤ t.1 := by
    have hle := @List.pairwise_mergeSort (ℕ × Path) (fun s t => s.1 ≤ t.1)
      (fun a b c => by simp only [decide_eq_true_eq]; omega)
      (fun a b => by simp only [Bool.or_eq_true, decide_eq_true_eq]; omega)
      ((listing.listed files.entries).filterMap fun e => (numberOf e.1).map (·, e.1))
    exact hle.imp of_decide_eq_true
  have hnumbers : ((List.range segments.length).map fun num => (num, segmentPath num)).Pairwise
      fun s t => s.1 ≤ t.1 := List.pairwise_map.mpr List.pairwise_le_range
  refine List.Perm.eq_of_pairwise (fun s t hs ht hst hts => ?_) hsorted hnumbers hsame
  obtain ⟨m, -, rfl⟩ := List.mem_map.mp (hsame.mem_iff.mp hs)
  obtain ⟨n, -, rfl⟩ := List.mem_map.mp ht
  obtain rfl : m = n := Nat.le_antisymm hst hts
  rfl

/-- What the files say, in order. -/
def texts (legacy : Option Text) (segments : List Text) : List Text := legacy.toList ++ segments

theorem Numbered.activePath_nil (h : Numbered files legacy []) :
    activePath listing files = if legacy.isSome then .legacy else segmentPath 0 := by
  rw [activePath, h.archiveSegments_eq, h.get_legacy]
  rfl

theorem Numbered.activePath_concat {s : Text} (h : Numbered files legacy (segments ++ [s])) :
    activePath listing files = segmentPath segments.length := by
  simp [activePath, h.archiveSegments_eq, List.range_succ]

theorem Numbered.nextPath_eq (h : Numbered files legacy segments) :
    nextPath listing files = segmentPath segments.length := by
  rw [nextPath, h.archiveSegments_eq]
  cases segments using List.reverseRecOn with
  | nil => rfl
  | append_singleton segments s => simp [List.range_succ]

theorem Numbered.get_activePath (h : Numbered files legacy segments) :
    files.get? (activePath listing files) = (texts legacy segments).getLast? := by
  cases segments using List.reverseRecOn with
  | nil =>
    rw [h.activePath_nil]
    cases legacy with
    | none => exact h.get_segment 0
    | some content => exact h.get_legacy
  | append_singleton segments s =>
    rw [h.activePath_concat, h.get_segment, List.getElem?_concat_length, texts, ← List.append_assoc,
      List.getLast?_concat]

/-- The last segment is written, or one more. -/
theorem Numbered.set_segment (h : Numbered files legacy segments) (num : ℕ) (content : Text)
    (hle : num ≤ segments.length) (hlast : segments.length ≤ num + 1) :
    Numbered (files.set (segmentPath num) content) legacy (segments.take num ++ [content]) := by
  have hlength : (segments.take num).length = num := List.length_take_of_le hle
  refine ⟨?_, fun k => ?_, fun mid hmid => ?_⟩
  · rw [Dict.get?_set, if_neg nofun, h.get_legacy]
  · rw [Dict.get?_set, h.get_segment]
    rcases Nat.lt_trichotomy k num with hlt | rfl | hgt
    · rw [if_neg (mt segmentPath_inj.mp hlt.ne), List.getElem?_append_left (by omega),
        List.getElem?_take_of_lt hlt]
    · rw [if_pos rfl, List.getElem?_append_right (by omega), hlength, Nat.sub_self]
      rfl
    · rw [if_neg (mt segmentPath_inj.mp hgt.ne'), List.getElem?_eq_none (by omega),
        List.getElem?_eq_none]
      rw [List.length_append, hlength]
      exact hgt
  · rw [Dict.get?_set] at hmid
    split_ifs at hmid with heq
    · exact ⟨num, heq.symm⟩
    · exact h.numbered mid hmid

/-- A segment more. -/
theorem Numbered.set_next (h : Numbered files legacy segments) (content : Text) :
    Numbered (files.set (segmentPath segments.length) content) legacy (segments ++ [content]) := by
  have hset := h.set_segment segments.length content (Nat.le_refl _) (Nat.le_succ _)
  rwa [List.take_length] at hset

theorem Numbered.set_legacy {old : Text} (h : Numbered files (some old) segments) (content : Text) :
    Numbered (files.set .legacy content) (some content) segments := by
  refine ⟨?_, fun k => ?_, fun mid hmid => ?_⟩
  · rw [Dict.get?_set, if_pos rfl]
  · rw [Dict.get?_set, if_neg nofun, h.get_segment]
  · rw [Dict.get?_set, if_neg nofun] at hmid
    exact h.numbered mid hmid

/-- The last file is written. -/
theorem Numbered.set_active (h : Numbered files legacy segments) {init : List Text} {last : Text}
    (hlast : texts legacy segments = init ++ [last]) (content : Text) :
    ∃ legacy' segments', Numbered (files.set (activePath listing files) content) legacy' segments' ∧
      texts legacy' segments' = init ++ [content] := by
  cases segments using List.reverseRecOn with
  | nil =>
    rw [h.activePath_nil]
    cases legacy with
    | none => exact absurd hlast (by simp [texts])
    | some old =>
      obtain ⟨rfl, -⟩ : [] = init ∧ [old] = [last] := List.append_inj' hlast rfl
      exact ⟨some content, [], h.set_legacy content, rfl⟩
  | append_singleton segments s =>
    rw [texts, ← List.append_assoc] at hlast
    obtain ⟨rfl, -⟩ := List.append_inj' hlast rfl
    rw [h.activePath_concat]
    have hset := h.set_segment segments.length content (by simp) (by simp)
    rw [List.take_left'] at hset
    · exact ⟨legacy, segments ++ [content], hset, by rw [texts, List.append_assoc]⟩
    · rfl

end Segments

/-! ## Reading -/

section Reading

variable {floats depth listing} {files : Files} {legacy : Option Text} {segments : List Text}

theorem readJsonl_eq_some {content : Text} {records : List (Fields F)} :
    readJsonl floats depth (some content) = some records ↔
      Loadable (verdicts floats depth (lines content)) ∧
        objects (verdicts floats depth (lines content)) = records := by
  constructor
  · intro h
    by_cases hload : Loadable (verdicts floats depth (lines content))
    · rw [readJsonl, iterJsonl, Option.elim_some, parseLines_eq hload] at h
      exact ⟨hload, Option.some.inj h⟩
    · rw [readJsonl, iterJsonl, Option.elim_some] at h
      simp [stopped_parseLines hload] at h
  · rintro ⟨hload, rfl⟩
    rw [readJsonl, iterJsonl, Option.elim_some, parseLines_eq hload]
    rfl

theorem mapM_eq_some {α β : Type} {f : α → Option β} {g : α → β} {as : List α}
    (h : ∀ a ∈ as, f a = some (g a)) : as.mapM f = some (as.map g) := by
  induction as with
  | nil => rfl
  | cons a as ih =>
    obtain ⟨ha, has⟩ := List.forall_mem_cons.mp h
    rw [List.mapM_cons, ha, ih has]
    rfl

/-- The files are read one after the other. -/
theorem Numbered.readArchive_eq (h : Numbered files legacy segments)
    (hload : ∀ t ∈ texts legacy segments, Loadable (verdicts floats depth (lines t))) :
    readArchive floats depth listing files = some
      ((texts legacy segments).flatMap fun t => objects (verdicts floats depth (lines t))) := by
  have hpaths : (archiveReadOrder listing files).map files.get? =
      (texts legacy segments).map some := by
    rw [archiveReadOrder, h.archiveSegments_eq, h.get_legacy, texts, List.map_append, List.map_append]
    congr 1
    · cases legacy with
      | none => rfl
      | some content => exact congrArg (List.cons · []) h.get_legacy
    · rw [List.map_map, List.map_map]
      refine List.ext_getElem (by simp) fun num hnum hlt => ?_
      rw [List.length_map] at hlt
      rw [List.getElem_map, List.getElem_map, List.getElem_range]
      exact (h.get_segment num).trans (List.getElem?_eq_getElem hlt)
  -- The files are read by their texts.
  have hread : (archiveReadOrder listing files).mapM
      (fun path => readJsonl floats depth (files.get? path)) =
        some ((texts legacy segments).map fun t => objects (verdicts floats depth (lines t))) := by
    calc (archiveReadOrder listing files).mapM (fun path => readJsonl floats depth (files.get? path))
        = ((archiveReadOrder listing files).map files.get?).mapM (readJsonl floats depth) := by
          rw [List.mapM_map]
          rfl
      _ = (texts legacy segments).mapM fun t => readJsonl floats depth (some t) := by
          rw [hpaths, List.mapM_map]
          rfl
      _ = _ := mapM_eq_some fun t ht => readJsonl_eq_some.mpr ⟨hload t ht, rfl⟩
  rw [readArchive, hread, Option.map_some, List.flatMap_def]

/-- The file of an older brain, as the archive before the first call. -/
theorem Legacy.numbered (legacy : Legacy floats depth) : Numbered legacy.files legacy.file [] := by
  obtain ⟨file, records, reads⟩ := legacy
  cases file with
  | none => exact ⟨rfl, fun _ => rfl, nofun⟩
  | some content =>
    refine ⟨rfl, fun num => ?_, fun mid hmid => ?_⟩
    · rw [files, Option.elim_some, Dict.get?_set, if_neg nofun]
      rfl
    · rw [files, Option.elim_some, Dict.get?_set, if_neg nofun] at hmid
      cases hmid

variable (listing) in
/-- What an append does. The last file is written, or the next segment where there is none or it is
full. -/
theorem Numbered.appendArchive_cases (h : Numbered files legacy segments) (call : Call F) :
    (appendArchive floats depth listing files call = files ∧
      (call.records = [] ∨ encodeJsonl floats depth call.records = none)) ∨
    ∃ data, call.records ≠ [] ∧ encodeJsonl floats depth call.records = some data ∧
      ((∃ init content, texts legacy segments = init ++ [content] ∧ ¬ Full content data ∧
        appendArchive floats depth listing files call = files.set (activePath listing files)
          ((appendJsonl floats depth (some content) call).getD [])) ∨
      ((∀ content ∈ (texts legacy segments).getLast?, Full content data) ∧
        appendArchive floats depth listing files call = files.set (segmentPath segments.length)
          ((appendJsonl floats depth none call).getD []))) := by
  by_cases hempty : call.records = []
  · refine .inl ⟨?_, .inl hempty⟩
    rw [appendArchive, hempty]
    rfl
  have hrecords : call.records.isEmpty = false := by rwa [List.isEmpty_eq_false_iff]
  cases hdata : encodeJsonl floats depth call.records with
  | none =>
    refine .inl ⟨?_, .inr rfl⟩
    rw [appendArchive, hrecords, if_neg (by decide), hdata]
  | some data =>
    have happend : appendArchive floats depth listing files call =
        files.set (targetPath listing files data)
          ((appendJsonl floats depth (files.get? (targetPath listing files data)) call).getD []) := by
      have hsome := appendJsonl_eq_some (files.get? (targetPath listing files data)) hdata hempty
      simp only [appendArchive, hrecords, hdata, hsome]
      rfl
    refine .inr ⟨data, hempty, rfl, ?_⟩
    -- The last file of the archive is the active one.
    cases hlast : (texts legacy segments).getLast? with
    | none =>
      obtain ⟨hlegacy, rfl⟩ := List.append_eq_nil_iff.mp (List.getLast?_eq_none_iff.mp hlast)
      obtain rfl : legacy = none := Option.toList_eq_nil_iff.mp hlegacy
      have htarget : targetPath listing files data = segmentPath 0 := by
        rw [targetPath, h.get_activePath, hlast, h.activePath_nil]
        rfl
      refine .inr ⟨by simp, ?_⟩
      rw [happend, htarget, h.get_segment]
      rfl
    | some content =>
      by_cases hfull : Full content data
      · have htarget : targetPath listing files data = segmentPath segments.length := by
          rw [targetPath, h.get_activePath, hlast, ← h.nextPath_eq]
          exact if_pos hfull
        refine .inr ⟨fun c hc => by rwa [← Option.some.inj hc], ?_⟩
        rw [happend, htarget, h.get_segment, List.getElem?_eq_none (Nat.le_refl _)]
      · have htarget : targetPath listing files data = activePath listing files := by
          rw [targetPath, h.get_activePath, hlast]
          exact if_neg hfull
        obtain ⟨init, hinit⟩ := List.getLast?_eq_some_iff.mp hlast
        refine .inl ⟨init, content, hinit, hfull, ?_⟩
        rw [happend, htarget, h.get_activePath, hlast]

/-- The files can be read, and say what the legacy file and the calls yield. -/
def Says (legacy : Legacy floats depth) (calls : List (Call F)) (texts : List Text) : Prop :=
  (∀ t ∈ texts, Loadable (verdicts floats depth (lines t))) ∧
    ∃ xs, List.Forall₂ (Yields floats depth) calls xs ∧
      (texts.flatMap fun t => objects (verdicts floats depth (lines t))) =
        legacy.records ++ xs.flatten

/-- The last file, or a new one, takes a call more. -/
theorem Says.append {legacy : Legacy floats depth} {calls : List (Call F)} {init : List Text}
    (file : Option Text) (h : Says legacy calls (init ++ file.toList)) (call : Call F) :
    Says legacy (calls ++ [call]) (init ++ [(appendJsonl floats depth file call).getD []]) := by
  obtain ⟨hload, xs, hxs, hall⟩ := h
  obtain ⟨hinit, hfile⟩ := List.forall_mem_append.mp hload
  -- A file that is not there yet says nothing.
  have hold : Loadable (verdicts floats depth (lines (file.getD []))) ∧
      (file.toList.flatMap fun t => objects (verdicts floats depth (lines t))) =
        objects (verdicts floats depth (lines (file.getD []))) := by
    cases file with
    | none => exact ⟨nofun, rfl⟩
    | some content => exact ⟨hfile content (List.mem_singleton_self _), List.append_nil _⟩
  obtain ⟨hnew, ys, hys, hobjects⟩ := objects_appendJsonl hold.1 call
  refine ⟨List.forall_mem_append.mpr ⟨hinit, by simpa using hnew⟩, xs ++ [ys],
    List.rel_append hxs (.cons hys .nil), ?_⟩
  rw [List.flatMap_append, hold.2] at hall
  rw [List.flatMap_append, List.flatMap_singleton, hobjects, ← List.append_assoc, hall]
  simp

/-- A call that changes nothing. -/
theorem Says.skip {legacy : Legacy floats depth} {calls : List (Call F)} {ts : List Text}
    (h : Says legacy calls ts) {call : Call F}
    (hcall : call.records = [] ∨ encodeJsonl floats depth call.records = none) :
    Says legacy (calls ++ [call]) ts := by
  obtain ⟨hload, xs, hxs, hall⟩ := h
  have hnothing : Yields floats depth call [] := by
    refine yields_take (k := 0) fun _ hsome => ?_
    rcases hcall with hempty | hnone
    · rw [hempty, List.length_nil]
    · rw [hnone] at hsome
      cases hsome
  refine ⟨hload, xs ++ [[]], List.rel_append hxs (.cons hnothing .nil), ?_⟩
  rw [hall]
  simp

theorem archiveAfter_concat (legacy : Legacy floats depth) (calls : List (Call F)) (call : Call F) :
    archiveAfter floats depth listing legacy (calls ++ [call]) =
      appendArchive floats depth listing (archiveAfter floats depth listing legacy calls) call := by
  rw [archiveAfter, List.foldl_append]
  rfl

variable (listing) in
/-- After any calls the files are numbered and say what was appended. -/
theorem exists_numbered (legacy : Legacy floats depth) (calls : List (Call F)) :
    ∃ legacyFile segments,
      Numbered (archiveAfter floats depth listing legacy calls) legacyFile segments ∧
        Says legacy calls (texts legacyFile segments) := by
  induction calls using List.reverseRecOn with
  | nil =>
    refine ⟨legacy.file, [], legacy.numbered, ?_⟩
    obtain ⟨file, records, reads⟩ := legacy
    rw [texts, List.append_nil]
    cases file with
    | none =>
      cases reads
      exact ⟨nofun, [], .nil, rfl⟩
    | some content =>
      obtain ⟨hload, hobjects⟩ := readJsonl_eq_some.mp reads
      exact ⟨fun t ht => by rwa [List.mem_singleton.mp ht], [], .nil, by simp [hobjects]⟩
  | append_singleton calls call ih =>
    obtain ⟨legacyFile, segments, hnumbered, hsays⟩ := ih
    rw [archiveAfter_concat]
    rcases hnumbered.appendArchive_cases listing call with
      ⟨hsame, hcall⟩ | ⟨data, -, -, ⟨init, content, hlast, -, happend⟩ | ⟨-, happend⟩⟩
    · rw [hsame]
      exact ⟨legacyFile, segments, hnumbered, hsays.skip hcall⟩
    · -- The last file grows.
      rw [happend]
      obtain ⟨legacy', segments', hnumbered', htexts⟩ := hnumbered.set_active hlast
        ((appendJsonl floats depth (some content) call).getD [])
      refine ⟨legacy', segments', hnumbered', ?_⟩
      rw [htexts]
      rw [hlast] at hsays
      exact Says.append (some content) hsays call
    · rw [happend]
      refine ⟨legacyFile, _, hnumbered.set_next _, ?_⟩
      rw [texts, ← List.append_assoc]
      refine Says.append none ?_ call
      rwa [Option.toList_none, List.append_nil]

end Reading

/-! ## Sizes -/

section Sizes

variable {floats depth listing} {files : Files}

@[simp] theorem size_nil : size [] = 0 := rfl

@[simp] theorem size_cons (c : Char) (t : Text) : size (c :: t) = c.utf8Size + size t := rfl

@[simp] theorem size_append (s t : Text) : size (s ++ t) = size s + size t := by
  rw [size, List.map_append, List.sum_append]
  rfl

theorem size_pos {t : Text} (h : t ≠ []) : 0 < size t := by
  obtain ⟨c, t, rfl⟩ := List.exists_cons_of_ne_nil h
  have hc := c.utf8Size_pos
  rw [size_cons]
  omega

theorem size_le {s t : Text} (h : s <+: t) : size s ≤ size t := by
  obtain ⟨u, rfl⟩ := h
  rw [size_append]
  omega

theorem size_lt {s t : Text} (h : s <+: t) (hne : s ≠ t) : size s < size t := by
  obtain ⟨u, rfl⟩ := h
  have hu : u ≠ [] := by
    rintro rfl
    exact hne (List.append_nil s).symm
  have hpos := size_pos hu
  rw [size_append]
  omega

variable (floats depth) in
/-- A file is within the limit, or it is what a call wrote whose data alone is not. -/
def Fits (call : Call F) (content : Text) : Prop :=
  size content ≤ archiveSegmentMaxBytes ∨
    ∃ data, encodeJsonl floats depth call.records = some data ∧
      archiveSegmentMaxBytes < size data ∧ content <+: data

variable (floats depth listing) in
/-- Each file that a call changes fits. -/
def KeepsLimit (files : Files) (call : Call F) : Prop :=
  ∀ path content, (appendArchive floats depth listing files call).get? path = some content →
    files.get? path = some content ∨ Fits floats depth call content

variable (floats depth listing) in
/-- A call finds a torn file that its data fills to the limit, and writes all of it after a
newline. -/
def Overruns (files : Files) (call : Call F) : Prop :=
  ∃ data content, encodeJsonl floats depth call.records = some data ∧ call.records ≠ [] ∧
    files.get? (activePath listing files) = some content ∧ tailIsTorn content ∧
    size content + size data = archiveSegmentMaxBytes ∧ call.cut.all (data.length < ·)

/-- What an append writes is a first part of its data, after a newline where the file is torn. -/
theorem appendJsonl_torn {call : Call F} {data content : Text}
    (hdata : encodeJsonl floats depth call.records = some data) (hne : call.records ≠ [])
    (htorn : tailIsTorn content = true) :
    (appendJsonl floats depth (some content) call).getD [] =
      content ++ call.cut.elim ('\n' :: data) (('\n' :: data).take ·) := by
  rw [appendJsonl_eq_some _ hdata hne, Option.getD_some, Option.getD_some]
  simp only [htorn, if_true]

theorem appendJsonl_closed {call : Call F} {data : Text} (file : Option Text)
    (hdata : encodeJsonl floats depth call.records = some data) (hne : call.records ≠ [])
    (hclosed : tailIsTorn (file.getD []) = false) :
    ∃ p, p <+: data ∧ (appendJsonl floats depth file call).getD [] = file.getD [] ++ p := by
  rw [appendJsonl_eq_some _ hdata hne, Option.getD_some]
  simp only [hclosed, Bool.false_eq_true, if_false]
  cases call.cut with
  | none => exact ⟨data, List.prefix_rfl, rfl⟩
  | some k => exact ⟨data.take k, List.take_prefix _ _, rfl⟩

/-- What is a first part of the data of a call fits. -/
theorem fits_of_cut {call : Call F} {data p : Text}
    (hdata : encodeJsonl floats depth call.records = some data) (hp : p <+: data) :
    Fits floats depth call p := by
  by_cases hsize : size data ≤ archiveSegmentMaxBytes
  · exact .inl (Nat.le_trans (size_le hp) hsize)
  · exact .inr ⟨data, hdata, Nat.lt_of_not_le hsize, hp⟩

/-- A closed file with room fits after an append. -/
theorem fits_closed {call : Call F} {data content : Text}
    (hdata : encodeJsonl floats depth call.records = some data) (hne : call.records ≠ [])
    (hroom : ¬ Full content data) (hclosed : tailIsTorn content = false) :
    Fits floats depth call ((appendJsonl floats depth (some content) call).getD []) := by
  obtain ⟨p, hp, happend⟩ := appendJsonl_closed (some content) hdata hne hclosed
  rw [happend, Option.getD_some]
  by_cases hcontent : content = []
  · rw [hcontent]
    exact fits_of_cut hdata hp
  · have hle := size_le hp
    have hsum : ¬ archiveSegmentMaxBytes < size content + size data := fun h =>
      hroom ⟨size_pos hcontent, h⟩
    refine .inl ?_
    rw [size_append]
    omega

/-- In a torn file the newline takes one byte more, which is too much just in case the data fills
the file and all of it is written. -/
theorem fits_torn {call : Call F} {data content : Text}
    (hdata : encodeJsonl floats depth call.records = some data) (hne : call.records ≠ [])
    (hroom : ¬ Full content data) (htorn : tailIsTorn content = true) :
    Fits floats depth call ((appendJsonl floats depth (some content) call).getD []) ↔
      ¬ (size content + size data = archiveSegmentMaxBytes ∧ call.cut.all (data.length < ·)) := by
  have hcontent : content ≠ [] := by
    rintro rfl
    cases htorn
  have hpos := size_pos hcontent
  have hsum : ¬ archiveSegmentMaxBytes < size content + size data := fun h => hroom ⟨hpos, h⟩
  have hnewline : size ('\n' :: data) = 1 + size data := rfl
  rw [appendJsonl_torn hdata hne htorn]
  constructor
  · rintro hfits ⟨hfull, hcut⟩
    have hall : call.cut.elim ('\n' :: data) (('\n' :: data).take ·) = '\n' :: data := by
      cases hk : call.cut with
      | none => rfl
      | some k =>
        have hlt : data.length < k := by simpa [hk] using hcut
        exact List.take_of_length_le hlt
    rw [hall] at hfits
    rcases hfits with hle | ⟨data', hdata', hlimit, -⟩
    · rw [size_append] at hle
      omega
    · -- Data that does not fit by itself is not written to a file that is not empty.
      obtain rfl : data = data' := Option.some.inj (hdata.symm.trans hdata')
      omega
  · intro hnot
    refine .inl ?_
    rw [size_append]
    by_cases hfull : size content + size data = archiveSegmentMaxBytes
    · -- The write is cut off before its last byte.
      cases hk : call.cut with
      | none => exact absurd ⟨hfull, by rw [hk]; rfl⟩ hnot
      | some k =>
        have hle : k ≤ data.length := by
          by_contra hlt
          exact hnot ⟨hfull, by simpa [hk] using hlt⟩
        have hshort : ('\n' :: data).take k ≠ '\n' :: data := fun heq => by
          have hlength := congrArg List.length heq
          rw [List.length_take, List.length_cons] at hlength
          omega
        have hlt := size_lt (List.take_prefix k ('\n' :: data)) hshort
        simp only [Option.elim_some]
        omega
    · -- There is room for the newline.
      have hle : size (call.cut.elim ('\n' :: data) (('\n' :: data).take ·)) ≤ 1 + size data := by
        cases call.cut with
        | none => exact Nat.le_of_eq hnewline
        | some k => exact hnewline ▸ size_le (List.take_prefix _ _)
      omega

/-- A file with room fits after an append, but where its torn end takes the last byte. -/
theorem fits_appendJsonl {call : Call F} {data content : Text}
    (hdata : encodeJsonl floats depth call.records = some data) (hne : call.records ≠ [])
    (hroom : ¬ Full content data) :
    Fits floats depth call ((appendJsonl floats depth (some content) call).getD []) ↔
      ¬ (tailIsTorn content ∧ size content + size data = archiveSegmentMaxBytes ∧
        call.cut.all (data.length < ·)) := by
  cases htorn : tailIsTorn content with
  | false => exact iff_of_true (fits_closed hdata hne hroom htorn) fun h => by cases h.1
  | true =>
    rw [fits_torn hdata hne hroom htorn]
    simp only [true_and]

theorem keepsLimit_set {call : Call F} {path : Path} {content : Text}
    (h : appendArchive floats depth listing files call = files.set path content) :
    KeepsLimit floats depth listing files call ↔
      files.get? path = some content ∨ Fits floats depth call content := by
  constructor
  · intro hkeeps
    exact hkeeps path content (by rw [h, Dict.get?_set, if_pos rfl])
  · intro hnew p c hget
    rw [h, Dict.get?_set] at hget
    split_ifs at hget with hp
    · rw [hp]
      rwa [← Option.some.inj hget]
    · exact .inl hget

/-- A call keeps the limit just in case it does not overrun it. -/
theorem Numbered.keepsLimit_iff {legacy : Option Text} {segments : List Text}
    (h : Numbered files legacy segments) (call : Call F) :
    KeepsLimit floats depth listing files call ↔ ¬ Overruns floats depth listing files call := by
  rcases h.appendArchive_cases listing call with
    ⟨hsame, hcall⟩ | ⟨data, hne, hdata, ⟨init, content, hlast, hroom, happend⟩ | ⟨hfull, happend⟩⟩
  · refine iff_of_true (fun path content hget => .inl (hsame ▸ hget)) ?_
    rintro ⟨data, -, hdata, hne, -⟩
    rcases hcall with hempty | hnone
    · exact hne hempty
    · rw [hnone] at hdata
      cases hdata
  · have hget : files.get? (activePath listing files) = some content := by
      rw [h.get_activePath, hlast, List.getLast?_concat]
    have hoverruns : Overruns floats depth listing files call ↔
        (tailIsTorn content ∧ size content + size data = archiveSegmentMaxBytes ∧
          call.cut.all (data.length < ·)) := by
      constructor
      · rintro ⟨data', content', hdata', -, hget', htorn, hsum, hcut⟩
        obtain rfl : data = data' := Option.some.inj (hdata.symm.trans hdata')
        obtain rfl : content = content' := Option.some.inj (hget.symm.trans hget')
        exact ⟨htorn, hsum, hcut⟩
      · rintro ⟨htorn, hsum, hcut⟩
        exact ⟨data, content, hdata, hne, hget, htorn, hsum, hcut⟩
    rw [keepsLimit_set happend, fits_appendJsonl hdata hne hroom, hoverruns, or_iff_right_of_imp]
    -- A file that is not changed was not written after a newline.
    rintro hsame ⟨htorn, -, hcut⟩
    rw [hget, appendJsonl_torn hdata hne htorn, Option.some.injEq,
      List.self_eq_append_right] at hsame
    cases hk : call.cut with
    | none =>
      rw [hk] at hsame
      cases hsame
    | some k =>
      rw [hk] at hsame hcut
      have hlt : data.length < k := by simpa using hcut
      rw [Option.elim_some, List.take_of_length_le hlt] at hsame
      cases hsame
  · obtain ⟨p, hp, hnew⟩ := appendJsonl_closed none hdata hne rfl
    rw [hnew] at happend
    refine iff_of_true ((keepsLimit_set happend).mpr (.inr (fits_of_cut hdata hp))) ?_
    rintro ⟨data', content, hdata', -, hget, -, hsum, -⟩
    obtain rfl : data = data' := Option.some.inj (hdata.symm.trans hdata')
    rw [h.get_activePath] at hget
    have hlimit := (hfull content hget).2
    omega

end Sizes

/-! ## Runs -/

section Runs

/-- A file holds what the legacy file held before the first call, or it is within the limit, or it
is what one of the calls wrote whose data alone is not. -/
def WithinLimit (legacy : Legacy floats depth) (calls : List (Call F)) (files : Files) : Prop :=
  ∀ path content, files.get? path = some content →
    (path = .legacy ∧ legacy.file = some content) ∨ ∃ call ∈ calls, Fits floats depth call content

variable {floats depth}

theorem withinLimit_run {listing : Listing} {legacy : Legacy floats depth} {calls : List (Call F)}
    (h : ∀ earlier call later, calls = earlier ++ call :: later →
      KeepsLimit floats depth listing (archiveAfter floats depth listing legacy earlier) call) :
    WithinLimit floats depth legacy calls (archiveAfter floats depth listing legacy calls) := by
  induction calls using List.reverseRecOn with
  | nil =>
    intro path content hget
    cases path with
    | legacy => exact .inl ⟨rfl, legacy.numbered.get_legacy ▸ hget⟩
    | segment mid =>
      obtain ⟨num, hnum⟩ := legacy.numbered.numbered mid (by
        rw [archiveAfter, List.foldl_nil] at hget
        rw [hget]
        rfl)
      rw [← hnum] at hget
      exact absurd ((legacy.numbered.get_segment num).symm.trans hget) nofun
  | append_singleton calls call ih =>
    have hbefore := ih fun earlier c later heq => h earlier c (later ++ [call]) (by rw [heq]; simp)
    intro path content hget
    rw [archiveAfter_concat] at hget
    -- What the call did not change was there before.
    rcases h calls call [] rfl path content hget with hsame | hfits
    · rcases hbefore path content hsame with hlegacy | ⟨c, hc, hfits⟩
      · exact .inl hlegacy
      · exact .inr ⟨c, List.mem_append_left _ hc, hfits⟩
    · exact .inr ⟨call, by simp, hfits⟩

variable (floats depth)

/-- Whatever was appended, the archive reads back the legacy file and then, in order, every record
of every completed call and a leading part of the records of each call that was cut off. A call
leaves each file that it changes within the limit, unless its data alone is not, just in case it
does not overrun a torn file by a newline, so that where none does every file is. -/
theorem appended_archive (listing : Listing) (legacy : Legacy floats depth) (calls : List (Call F)) :
    (∃ xs, List.Forall₂ (Yields floats depth) calls xs ∧
      readArchive floats depth listing (archiveAfter floats depth listing legacy calls) =
        some (legacy.records ++ xs.flatten)) ∧
    (∀ call, KeepsLimit floats depth listing (archiveAfter floats depth listing legacy calls) call ↔
      ¬ Overruns floats depth listing (archiveAfter floats depth listing legacy calls) call) ∧
    ((∀ earlier call later, calls = earlier ++ call :: later →
        ¬ Overruns floats depth listing (archiveAfter floats depth listing legacy earlier) call) →
      WithinLimit floats depth legacy calls (archiveAfter floats depth listing legacy calls)) := by
  obtain ⟨legacyFile, segments, hnumbered, hload, xs, hxs, hsays⟩ :=
    exists_numbered listing legacy calls
  refine ⟨⟨xs, hxs, ?_⟩, hnumbered.keepsLimit_iff, fun h => withinLimit_run ?_⟩
  · rw [hnumbered.readArchive_eq hload, hsays]
  · intro earlier call later heq
    obtain ⟨_, _, hearlier, -⟩ := exists_numbered listing legacy earlier
    exact (hearlier.keepsLimit_iff call).mpr (h earlier call later heq)

/-! One record of a text that is so long, after one that was cut off. -/

def noLegacy : Legacy noFloats 1 := ⟨none, [], rfl⟩

def noted (n : ℕ) : Record Unit where
  fields := [([0x61], .str (List.replicate n 0x61))]
  distinct := .obj (List.nodup_singleton _) fun f hf => by
    rw [List.mem_singleton.mp hf]
    exact .str _

def torn : Call Unit := ⟨[noted 0], some 1⟩

theorem encodeRecord_noted (n : ℕ) : encodeRecord noFloats 1 (noted n) =
    some ('{' :: ['\"', 'a', '\"'] ++ ':' :: ' ' :: '\"' :: (List.replicate n 'a' ++ ['\"', '}'])) := by
  have hkey : encodeBasestring [0x61] = ['\"', 'a', '\"'] := by decide
  have htext : encodeBasestring (List.replicate n 0x61) =
      '\"' :: (List.replicate n 'a' ++ ['\"']) := by
    rw [encodeBasestring, List.flatMap_replicate]
    exact congrArg (fun t => '\"' :: (t ++ ['\"'])) List.flatten_replicate_singleton
  have hfield : (dumps noFloats 0 (.str (List.replicate n 0x61))).map
      (fun t => encodeBasestring [0x61] ++ ':' :: ' ' :: t) =
        some (['\"', 'a', '\"'] ++ ':' :: ' ' :: '\"' :: (List.replicate n 'a' ++ ['\"'])) := by
    rw [dumps, htext, hkey, Option.map_some]
  rw [encodeRecord, noted, dumps, List.mapM_cons, hfield]
  simp [join]

theorem encodeJsonl_noted (n : ℕ) : encodeJsonl noFloats 1 [noted n] =
    some (['{', '\"', 'a', '\"', ':', ' ', '\"'] ++ (List.replicate n 'a' ++ ['\"', '}', '\n'])) := by
  rw [encodeJsonl, List.mapM_cons, encodeRecord_noted]
  simp

variable (listing : Listing)

theorem numbered_torn : Numbered (archiveAfter noFloats 1 listing noLegacy [torn]) none [['{']] := by
  have hbefore : Numbered (archiveAfter noFloats 1 listing noLegacy []) none [] := noLegacy.numbered
  rcases hbefore.appendArchive_cases listing torn with
    ⟨-, hempty | hnone⟩ | ⟨data, -, -, ⟨init, content, hlast, -⟩ | ⟨-, happend⟩⟩
  · cases hempty
  · cases (encodeJsonl_noted 0).symm.trans hnone
  · simp [texts] at hlast
  · have hset := hbefore.set_next ((appendJsonl noFloats 1 none torn).getD [])
    rw [← happend] at hset
    exact hset

theorem size_noted (n : ℕ) : size (['{', '\"', 'a', '\"', ':', ' ', '\"'] ++
    (List.replicate n 'a' ++ ['\"', '}', '\n'])) = n + 10 := by
  have hreplicate : size (List.replicate n 'a') = n := by
    induction n with
    | zero => rfl
    | succ n ih =>
      have hone : 'a'.utf8Size = 1 := by decide
      rw [List.replicate_succ, size_cons, ih, hone, Nat.add_comm]
  have hopen : size ['{', '\"', 'a', '\"', ':', ' ', '\"'] = 7 := by decide
  have hclose : size ['\"', '}', '\n'] = 3 := by decide
  rw [size_append, size_append, hreplicate, hopen, hclose]
  omega

/-- The torn file is overrun by one length of text. -/
theorem overruns_noted (n : ℕ) :
    Overruns noFloats 1 listing (archiveAfter noFloats 1 listing noLegacy [torn])
      ⟨[noted n], none⟩ ↔ n + 11 = archiveSegmentMaxBytes := by
  have hsize := size_noted n
  have hget : (archiveAfter noFloats 1 listing noLegacy [torn]).get?
      (activePath listing (archiveAfter noFloats 1 listing noLegacy [torn])) = some ['{'] :=
    (numbered_torn listing).get_activePath
  have hone : size ['{'] = 1 := by decide
  constructor
  · rintro ⟨data, content, hdata, -, hcontent, -, hsum, -⟩
    obtain rfl := Option.some.inj ((encodeJsonl_noted n).symm.trans hdata)
    obtain rfl := Option.some.inj (hget.symm.trans hcontent)
    omega
  · intro hn
    exact ⟨_, _, encodeJsonl_noted n, by simp, hget, rfl, by omega, rfl⟩

/-- Then the newline is one byte more than there is room for. -/
theorem not_withinLimit_noted {n : ℕ} (h : n + 11 = archiveSegmentMaxBytes) :
    ¬ WithinLimit noFloats 1 noLegacy [torn, ⟨[noted n], none⟩]
      (archiveAfter noFloats 1 listing noLegacy [torn, ⟨[noted n], none⟩]) := by
  intro hwithin
  refine ((numbered_torn listing).keepsLimit_iff _).not_left.mpr
    ((overruns_noted listing n).mpr h) fun path content hget => ?_
  rcases hwithin path content hget with ⟨-, hlegacy⟩ | ⟨call, hcall, hfits⟩
  · cases hlegacy
  · -- Neither the torn record nor the long one is too long by itself.
    rcases List.mem_cons.mp hcall with rfl | hlast
    · refine .inr (.inl ?_)
      rcases hfits with hle | ⟨data, hdata, hlimit, -⟩
      · exact hle
      · obtain rfl := Option.some.inj ((encodeJsonl_noted 0).symm.trans hdata)
        rw [size_noted] at hlimit
        omega
    · rw [List.mem_singleton.mp hlast] at hfits
      exact .inr hfits

/-- A short record after a torn one. -/
theorem appended_archive_torn :
    WithinLimit noFloats 1 noLegacy [torn, ⟨[noted 0], none⟩]
      (archiveAfter noFloats 1 ⟨List.reverse, List.reverse_perm⟩ noLegacy
        [torn, ⟨[noted 0], none⟩]) := by
  refine (appended_archive noFloats 1 _ _ _).2.2 ?_
  rintro (_ | ⟨_, _ | ⟨_, earlier⟩⟩) call later heq hoverruns
  · obtain ⟨_, content, -, -, hget, -⟩ := hoverruns
    have hnone : noLegacy.files.get?
        (activePath ⟨List.reverse, List.reverse_perm⟩ noLegacy.files) = none :=
      noLegacy.numbered.get_activePath
    cases hnone.symm.trans hget
  · obtain ⟨rfl, hrest⟩ := List.cons.inj heq
    obtain ⟨rfl, -⟩ := List.cons.inj hrest
    rw [overruns_noted] at hoverruns
    cases hoverruns
  · simp at heq

/-- The record fills the torn file to the limit. -/
theorem not_withinLimit_torn :
    ¬ WithinLimit noFloats 1 noLegacy [torn, ⟨[noted (archiveSegmentMaxBytes - 11)], none⟩]
      (archiveAfter noFloats 1 ⟨id, fun _ => .refl _⟩ noLegacy
        [torn, ⟨[noted (archiveSegmentMaxBytes - 11)], none⟩]) :=
  not_withinLimit_noted _ (Nat.sub_add_cancel (by decide))

end Runs

end Companion.Ingest.Archive

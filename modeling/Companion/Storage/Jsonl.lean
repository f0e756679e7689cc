import Companion.JsonText
import Companion.Memory.Text
import Mathlib.Data.List.DropRight
import Mathlib.Data.List.Forall2
import Mathlib.Data.List.Infix

/-!
# A log of records

`append_jsonl`, `iter_jsonl` and `read_jsonl_from` (`brain/health/json_io.py`) on one file, with the
judgement of a line (`brain/health/jsonl_reader.py`). A call that is cut off has written a first
part of what it writes at once.

What is written is ASCII, so that the file is a text and a character is a byte, and no line is bad
UTF-8.
A record that is not encoded raises before the file is touched. Both readers raise nothing, since no
line is one that the parser cannot load.
-/

namespace Companion.Storage.Jsonl

open Companion.JsonText
open Companion.Memory (isSpace)

variable {F : Type} (floats : Floats F) (depth : ℕ)

/-- A `dict`: no key is there twice. -/
structure Record (F : Type) where
  fields : Fields F
  distinct : Distinct (.obj fields)

/-- A line without its end. -/
def encodeRecord (r : Record F) : Option Text := dumps floats depth (.obj r.fields)

/-- `encode_jsonl`, none where it raises. -/
def encodeJsonl (records : List (Record F)) : Option Text :=
  (records.mapM (encodeRecord floats depth)).map fun ts => ts.flatMap (· ++ ['\n'])

/-- `_tail_is_torn` -/
def tailIsTorn (file : Text) : Bool := file.getLast?.any (· ≠ '\n')

/-- A call of `append_jsonl`, and how much of its write there is where it is cut off. -/
structure Call (F : Type) where
  records : List (Record F)
  cut : Option ℕ

/-- `append_jsonl`. The file is none before it is there. -/
def appendJsonl (file : Option Text) (call : Call F) : Option Text :=
  match encodeJsonl floats depth call.records with
  | none => file
  | some payload =>
    if payload = [] then file
    else
      let content := file.getD []
      let write := if tailIsTorn content then '\n' :: payload else payload
      some (content ++ call.cut.elim write (write.take ·))

/-- What `classify_line` makes of a line. -/
inductive LineVerdict (F : Type)
  | object (fields : Fields F)
  | blank
  | json (e : LoadError)
  | shape

def classifyLine (raw : Text) : LineVerdict F :=
  let text := raw.rdropWhile fun c => c = '\r' || c = '\n'
  if text.all isSpace then .blank
  else
    match loads floats depth text with
    | .error e => .json e
    | .ok (.obj fields) => .object fields
    | .ok _ => .shape

/-- The lines of a text, each with its end where it has one. -/
def lines : Text → List Text
  | [] => []
  | c :: t =>
    if c = '\n' then ['\n'] :: lines t
    else
      match lines t with
      | [] => [[c]]
      | line :: rest => (c :: line) :: rest

example : lines "a\nb".toList = ["a\n".toList, "b".toList] := by simp [lines]

/-- What a reader has yielded, and the number of the line that stopped it with an error. -/
structure Iterated (F : Type) where
  yielded : List (Fields F)
  stopped : Option ℕ

/-- `_parse_lines`, from a line number on. -/
def parseLines : ℕ → List Text → Iterated F
  | _, [] => ⟨[], none⟩
  | n, raw :: rest =>
    match classifyLine floats depth raw with
    | .object fields =>
      let after := parseLines (n + 1) rest
      ⟨fields :: after.yielded, after.stopped⟩
    | .json .unloadable => ⟨[], some n⟩
    | .json .malformed | .blank | .shape => parseLines (n + 1) rest

/-- `iter_jsonl` -/
def iterJsonl (file : Option Text) : Iterated F :=
  file.elim ⟨[], none⟩ fun content => parseLines floats depth 1 (lines content)

/-- Why a line is bad. -/
inductive Reason
  | malformed
  | notObject

structure JsonlRecord (F : Type) where
  line : ℕ
  data : Option (Fields F)
  reason : Option Reason

structure JsonlRead (F : Type) where
  records : List (JsonlRecord F)
  endLine : ℕ

/-- The record of a line, none for a blank one. -/
def recordOf (line : ℕ) (raw : Text) : Option (JsonlRecord F) :=
  match classifyLine floats depth raw with
  | .object fields => some ⟨line, some fields, none⟩
  | .blank => none
  | .json _ => some ⟨line, none, some .malformed⟩
  | .shape => some ⟨line, none, some .notObject⟩

section Lines

/-- A text ends with the end of a line, or is empty. -/
def Closed (t : Text) : Prop := tailIsTorn t = false

theorem closed_nil : Closed [] := rfl

theorem closed_append_newline (t : Text) : Closed (t ++ ['\n']) := by
  rw [Closed, tailIsTorn, List.getLast?_append_of_ne_nil _ (by simp)]
  rfl

theorem closed_of_cons {c : Char} {t : Text} (h : Closed (c :: t)) :
    Closed t ∧ (t = [] → c = '\n') := by
  cases t with
  | nil =>
    refine ⟨rfl, fun _ => ?_⟩
    simpa [Closed, tailIsTorn] using h
  | cons c' t =>
    refine ⟨?_, fun h => by cases h⟩
    rwa [Closed, tailIsTorn, List.getLast?_cons_cons] at h

theorem lines_ne_nil {t : Text} (h : t ≠ []) : lines t ≠ [] := by
  cases t with
  | nil => exact absurd rfl h
  | cons c t =>
    rw [lines]
    split_ifs
    · simp
    · split <;> simp

/-- After the end of a line, the lines are those of the rest. -/
theorem lines_append {s t : Text} (h : Closed s) : lines (s ++ t) = lines s ++ lines t := by
  induction s with
  | nil => rfl
  | cons c s ih =>
    obtain ⟨hs, hc⟩ := closed_of_cons h
    rw [List.cons_append, lines, lines, ih hs]
    by_cases hnl : c = '\n'
    · rw [if_pos hnl, if_pos hnl, List.cons_append]
    · rw [if_neg hnl, if_neg hnl]
      have hne : s ≠ [] := fun heq => hnl (hc heq)
      obtain ⟨line, rest, hline⟩ := List.exists_cons_of_ne_nil (lines_ne_nil hne)
      simp only [hline, List.cons_append]

/-- A text without the end of a line is one line. -/
theorem lines_singleton {t : Text} (h : '\n' ∉ t) (hne : t ≠ []) : lines t = [t] := by
  induction t with
  | nil => exact absurd rfl hne
  | cons c t ih =>
    rw [List.mem_cons, not_or] at h
    rw [lines, if_neg (Ne.symm h.1)]
    cases t with
    | nil => rfl
    | cons c' t => rw [ih h.2 (List.cons_ne_nil _ _)]

/-- A line with its end. -/
theorem lines_append_newline {t : Text} (h : '\n' ∉ t) : lines (t ++ ['\n']) = [t ++ ['\n']] := by
  induction t with
  | nil => rfl
  | cons c t ih =>
    rw [List.mem_cons, not_or] at h
    rw [List.cons_append, lines, if_neg (Ne.symm h.1), ih h.2]

/-- All lines but the last have their ends. -/
theorem lines_closed {t : Text} (h : Closed t) : ∀ line ∈ lines t, line.getLast? = some '\n' := by
  induction t with
  | nil => nofun
  | cons c t ih =>
    obtain ⟨ht, hc⟩ := closed_of_cons h
    rw [lines]
    by_cases hnl : c = '\n'
    · rw [if_pos hnl]
      exact List.forall_mem_cons.mpr ⟨rfl, ih ht⟩
    · rw [if_neg hnl]
      have hne : t ≠ [] := fun heq => hnl (hc heq)
      obtain ⟨line, rest, hline⟩ := List.exists_cons_of_ne_nil (lines_ne_nil hne)
      have hall := ih ht
      rw [hline] at hall ⊢
      obtain ⟨hfirst, hrest⟩ := List.forall_mem_cons.mp hall
      refine List.forall_mem_cons.mpr ⟨?_, hrest⟩
      cases line with
      | nil => cases hfirst
      | cons c' line => rwa [List.getLast?_cons_cons]

/-- A torn text is closed by the end of its last line. -/
theorem lines_torn {t : Text} (h : ¬ Closed t) :
    ∃ ls tail, lines t = ls ++ [tail] ∧ lines (t ++ ['\n']) = ls ++ [tail ++ ['\n']] := by
  induction t with
  | nil => exact absurd closed_nil h
  | cons c t ih =>
    by_cases ht : Closed t
    · -- The text is one character, or its last line is closed.
      cases t with
      | nil =>
        have hc : c ≠ '\n' := by
          rintro rfl
          exact h (closed_append_newline [])
        exact ⟨[], [c], by simp [lines, hc], by simp [lines, hc]⟩
      | cons c' t =>
        refine absurd ?_ h
        rwa [Closed, tailIsTorn, List.getLast?_cons_cons]
    · obtain ⟨ls, tail, hls, hclosed⟩ := ih ht
      by_cases hnl : c = '\n'
      · refine ⟨['\n'] :: ls, tail, ?_, ?_⟩
        · rw [lines, if_pos hnl, hls, List.cons_append]
        · rw [List.cons_append, lines, if_pos hnl, hclosed, List.cons_append]
      · cases ls with
        | nil =>
          refine ⟨[], c :: tail, ?_, ?_⟩
          · rw [lines, if_neg hnl, hls]
            rfl
          · rw [List.cons_append, lines, if_neg hnl, hclosed]
            rfl
        | cons line ls =>
          refine ⟨(c :: line) :: ls, tail, ?_, ?_⟩
          · rw [lines, if_neg hnl, hls]
            rfl
          · rw [List.cons_append, lines, if_neg hnl, hclosed]
            rfl

end Lines

/-! ## What a line is -/

section Verdicts

variable {floats depth}

/-- The end of a line does not count. -/
theorem classifyLine_newline (raw : Text) :
    classifyLine floats depth (raw ++ ['\n']) = classifyLine floats depth raw := by
  have hdrop : (raw ++ ['\n']).rdropWhile (fun c => c = '\r' || c = '\n') =
      raw.rdropWhile fun c => c = '\r' || c = '\n' := List.rdropWhile_concat_pos _ _ _ (by decide)
  rw [classifyLine, classifyLine, hdrop]

theorem encodeRecord_cases {r : Record F} {t : Text} (h : encodeRecord floats depth r = some t) :
    Printable t ∧ ∃ u, t = '{' :: u := by
  obtain ⟨d, ts, -, rfl, -⟩ := dumps_obj h
  exact ⟨printable_dumps h, _, rfl⟩

theorem newline_notMem {t : Text} (h : Printable t) : '\n' ∉ t := fun hmem =>
  absurd (h _ hmem) (by decide)

/-- A line of printable characters that starts as an object does is judged by the parser alone. -/
theorem classifyLine_printable {t u : Text} (h : Printable t) (ht : t = '{' :: u) :
    classifyLine floats depth t =
      match loads floats depth t with
      | .error e => .json e
      | .ok (.obj fields) => .object fields
      | .ok _ => .shape := by
  have hdrop : t.rdropWhile (fun c => c = '\r' || c = '\n') = t := by
    rw [List.rdropWhile_eq_self_iff]
    intro hne hend
    have hlast := h _ (List.getLast_mem hne)
    rcases Bool.or_eq_true _ _ |>.mp hend with heq | heq
    · rw [of_decide_eq_true heq] at hlast
      exact absurd hlast (by decide)
    · rw [of_decide_eq_true heq] at hlast
      exact absurd hlast (by decide)
  have hblank : t.all isSpace = false := by
    rw [ht, List.all_cons]
    rfl
  simp only [classifyLine, hdrop, hblank]
  rfl

theorem classifyLine_record {r : Record F} {t : Text} (h : encodeRecord floats depth r = some t) :
    classifyLine floats depth t = .object r.fields := by
  obtain ⟨hprintable, u, hu⟩ := encodeRecord_cases h
  rw [classifyLine_printable hprintable hu, loads_dumps r.distinct h]

/-- A record of which only a first part is there is a malformed line. -/
theorem classifyLine_cut {r : Record F} {t p : Text} (h : encodeRecord floats depth r = some t)
    (hp : p <+: t) (hne : p ≠ t) (hp0 : p ≠ []) :
    classifyLine floats depth p = .json .malformed := by
  obtain ⟨hprintable, u, rfl⟩ := encodeRecord_cases h
  obtain ⟨c, q, rfl⟩ := List.exists_cons_of_ne_nil hp0
  obtain rfl := (List.cons_prefix_cons.mp hp).1
  rw [classifyLine_printable (fun c hc => hprintable c (hp.subset hc)) rfl,
    loads_cut r.distinct h hp hne]

/-- The objects among the lines. -/
def objects (verdicts : List (LineVerdict F)) : List (Fields F) :=
  verdicts.filterMap fun
    | .object fields => some fields
    | _ => none

/-- The lines of a file, judged. -/
def verdicts (floats : Floats F) (depth : ℕ) (ls : List Text) : List (LineVerdict F) :=
  ls.map (classifyLine floats depth)

theorem objects_append (vs ws : List (LineVerdict F)) :
    objects (vs ++ ws) = objects vs ++ objects ws :=
  List.filterMap_append

/-- No line stops a reader. -/
def Loadable (vs : List (LineVerdict F)) : Prop := ∀ v ∈ vs, v ≠ .json .unloadable

theorem parseLines_eq {ls : List Text} (h : Loadable (verdicts floats depth ls)) (n : ℕ) :
    parseLines floats depth n ls = ⟨objects (verdicts floats depth ls), none⟩ := by
  induction ls generalizing n with
  | nil => rfl
  | cons raw ls ih =>
    obtain ⟨hraw, hrest⟩ := List.forall_mem_cons.mp h
    rw [parseLines, ih hrest]
    cases hv : classifyLine floats depth raw with
    | object fields => simp [verdicts, objects, hv]
    | blank => simp [verdicts, objects, hv]
    | shape => simp [verdicts, objects, hv]
    | json e =>
      cases e with
      | malformed => simp [verdicts, objects, hv]
      | unloadable => exact absurd hv hraw

theorem stopped_parseLines {ls : List Text} (h : ¬ Loadable (verdicts floats depth ls)) (n : ℕ) :
    (parseLines floats depth n ls).stopped.isSome := by
  induction ls generalizing n with
  | nil => exact absurd (fun v hv => nomatch hv) h
  | cons raw ls ih =>
    rw [parseLines]
    cases hv : classifyLine floats depth raw with
    | json e =>
      cases e with
      | unloadable => rfl
      | malformed => exact ih (fun hload => h (List.forall_mem_cons.mpr ⟨by simp [hv], hload⟩)) _
    | object fields => exact ih (fun hload => h (List.forall_mem_cons.mpr ⟨by simp [hv], hload⟩)) _
    | blank => exact ih (fun hload => h (List.forall_mem_cons.mpr ⟨by simp [hv], hload⟩)) _
    | shape => exact ih (fun hload => h (List.forall_mem_cons.mpr ⟨by simp [hv], hload⟩)) _

/-- The lines that have their ends, up to the first that has none. -/
def complete (ls : List Text) : List Text := ls.takeWhile fun raw => raw.getLast? = some '\n'

/-- The data of the records that were read. -/
def JsonlRead.data (read : JsonlRead F) : List (Fields F) := read.records.filterMap JsonlRecord.data

end Verdicts

/-! ## Appends -/

section Appends

variable {floats depth}

/-- What an append makes of the file first. -/
def close (t : Text) : Text := if tailIsTorn t then t ++ ['\n'] else t

theorem closed_close (t : Text) : Closed (close t) := by
  unfold close
  split_ifs with h
  · exact closed_append_newline t
  · exact Bool.eq_false_iff.mpr h

/-- The end of a torn line leaves it what it was. -/
theorem verdicts_close (t : Text) :
    verdicts floats depth (lines (close t)) = verdicts floats depth (lines t) := by
  unfold close
  split_ifs with h
  · have hopen : ¬ Closed t := by rw [Closed, h]; decide
    obtain ⟨ls, tail, hlines, hclosed⟩ := lines_torn hopen
    rw [hlines, hclosed, verdicts, verdicts, List.map_append, List.map_append, List.map_singleton,
      List.map_singleton, classifyLine_newline]
  · rfl

theorem complete_append {s t : Text} (h : Closed s) :
    complete (lines (s ++ t)) = lines s ++ complete (lines t) := by
  rw [lines_append h, complete, List.takeWhile_append_of_pos]
  · rfl
  · exact fun line hline => decide_eq_true (lines_closed h line hline)

/-- A first part of what is written for some records. Each reader finds the first of them, and all
where all was written. -/
theorem verdicts_payload {records : List (Record F)} {payload p : Text}
    (h : encodeJsonl floats depth records = some payload) (hp : p <+: payload) :
    Loadable (verdicts floats depth (lines p)) ∧
      (∃ k, objects (verdicts floats depth (lines p)) = (records.take k).map Record.fields ∧
        (p = payload → records.length ≤ k)) ∧
      ∃ k, objects (verdicts floats depth (complete (lines p))) = (records.take k).map Record.fields ∧
        (p = payload → records.length ≤ k) := by
  obtain ⟨ts, hts, rfl⟩ := Option.map_eq_some_iff.mp h
  have htexts := mapM_some hts
  clear h hts
  induction htexts generalizing p with
  | nil =>
    obtain rfl := List.prefix_nil.mp hp
    exact ⟨nofun, ⟨0, rfl, fun _ => Nat.le_refl _⟩, 0, rfl, fun _ => Nat.le_refl _⟩
  | @cons t r ts records htext hrest ih =>
    obtain ⟨hprintable, u, hu⟩ := encodeRecord_cases htext
    have hnl : '\n' ∉ t := newline_notMem hprintable
    rw [List.flatMap_cons] at hp ⊢
    rcases cut_append hp with ⟨hcut, hne⟩ | ⟨q, rfl, hq⟩
    · -- The first record is cut off, or lacks its end only.
      have hpt : p <+: t := by
        rcases cut_append hcut with ⟨hpt, -⟩ | ⟨q, rfl, hq⟩
        · exact hpt
        · rw [List.prefix_cons_iff] at hq
          rcases hq with rfl | ⟨q, rfl, hq⟩
          · rw [List.append_nil]
          · exact absurd (by rw [List.prefix_nil.mp hq]) hne
      -- As the end is missing, what is there is one line, which is read where nothing else of it is
      -- missing.
      have hnlp : '\n' ∉ p := fun hmem => hnl (hpt.subset hmem)
      have hwhole : p ≠ t ++ ['\n'] ++ ts.flatMap (· ++ ['\n']) := by
        rintro rfl
        exact hnlp (by simp)
      have hcomplete : complete (lines p) = [] := by
        by_cases hp0 : p = []
        · rw [hp0]
          rfl
        · have hlast : p.getLast? ≠ some '\n' := fun heq => hnlp (List.mem_of_getLast? heq)
          rw [lines_singleton hnlp hp0, complete, List.takeWhile_cons_of_neg (by simpa using hlast)]
      have hnone : ∃ k, objects (verdicts floats depth (complete (lines p))) =
          ((r :: records).take k).map Record.fields ∧
            (p = t ++ ['\n'] ++ ts.flatMap (· ++ ['\n']) → (r :: records).length ≤ k) :=
        ⟨0, by rw [hcomplete]; rfl, fun heq => absurd heq hwhole⟩
      by_cases hp0 : p = []
      · subst hp0
        exact ⟨nofun, ⟨0, rfl, fun heq => absurd heq hwhole⟩, hnone⟩
      · have hlines := lines_singleton hnlp hp0
        by_cases hpeq : p = t
        · have hv : verdicts floats depth (lines p) = [.object r.fields] := by
            rw [hlines, verdicts, List.map_singleton, hpeq, classifyLine_record htext]
          rw [hv]
          exact ⟨by simp [Loadable], ⟨1, by simp [objects], fun heq => absurd heq hwhole⟩, hnone⟩
        · have hv : verdicts floats depth (lines p) = [.json .malformed] := by
            rw [hlines, verdicts, List.map_singleton, classifyLine_cut htext hpt hpeq hp0]
          rw [hv]
          exact ⟨by simp [Loadable], ⟨0, by simp [objects], fun heq => absurd heq hwhole⟩, hnone⟩
    · -- The first record is there.
      -- Its line is closed, so that the rest is read by itself.
      obtain ⟨hload, ⟨k, hk, hkall⟩, k', hk', hkall'⟩ := ih hq
      have hclosed : Closed (t ++ ['\n']) := closed_append_newline t
      have hfirst : verdicts floats depth (lines (t ++ ['\n'])) = [.object r.fields] := by
        rw [lines_append_newline hnl, verdicts, List.map_singleton, classifyLine_newline,
          classifyLine_record htext]
      have hv : verdicts floats depth (lines (t ++ ['\n'] ++ q)) =
          .object r.fields :: verdicts floats depth (lines q) := by
        rw [lines_append hclosed, verdicts, List.map_append]
        change verdicts floats depth _ ++ _ = _
        rw [hfirst]
        rfl
      have hv' : verdicts floats depth (complete (lines (t ++ ['\n'] ++ q))) =
          .object r.fields :: verdicts floats depth (complete (lines q)) := by
        rw [complete_append hclosed, verdicts, List.map_append]
        change verdicts floats depth _ ++ _ = _
        rw [hfirst]
        rfl
      have hcancel : t ++ ['\n'] ++ q = t ++ ['\n'] ++ ts.flatMap (· ++ ['\n']) →
          q = ts.flatMap (· ++ ['\n']) := List.append_cancel_left
      rw [hv, hv']
      refine ⟨List.forall_mem_cons.mpr ⟨nofun, hload⟩, ⟨k + 1, ?_, fun heq => ?_⟩, k' + 1, ?_,
        fun heq => ?_⟩
      · change r.fields :: objects _ = _
        rw [hk]
        rfl
      · have hle := hkall (hcancel heq)
        rw [List.length_cons]
        omega
      · change r.fields :: objects _ = _
        rw [hk']
        rfl
      · have hle := hkall' (hcancel heq)
        rw [List.length_cons]
        omega

end Appends

/-! ## Runs -/

section Runs

variable {floats depth}

/-- What is read of a call: all of its records where it was completed, and the first of them where
it was cut off or raised. -/
def Yields (floats : Floats F) (depth : ℕ) (call : Call F) (ys : List (Fields F)) : Prop :=
  ys <+: call.records.map Record.fields ∧
    (call.cut = none → (encodeJsonl floats depth call.records).isSome →
      ys = call.records.map Record.fields)

theorem yields_take {call : Call F} {k : ℕ}
    (h : call.cut = none → (encodeJsonl floats depth call.records).isSome → call.records.length ≤ k) :
    Yields floats depth call ((call.records.take k).map Record.fields) := by
  refine ⟨?_, fun hcut hsome => ?_⟩
  · rw [List.map_take]
    exact List.take_prefix _ _
  · rw [List.take_of_length_le (h hcut hsome)]

theorem encodeJsonl_ne_nil {records : List (Record F)} {payload : Text}
    (h : encodeJsonl floats depth records = some payload) (hne : records ≠ []) : payload ≠ [] := by
  obtain ⟨ts, hts, rfl⟩ := Option.map_eq_some_iff.mp h
  have hlength := (mapM_some hts).length_eq
  cases ts with
  | nil => exact absurd (List.eq_nil_of_length_eq_zero hlength.symm) hne
  | cons t ts => simp

/-- There is a file after an append of some records. -/
theorem appendJsonl_eq_some {call : Call F} (file : Option Text) {payload : Text}
    (h : encodeJsonl floats depth call.records = some payload) (hne : call.records ≠ []) :
    appendJsonl floats depth file call = some (file.getD [] ++
      call.cut.elim (if tailIsTorn (file.getD []) then '\n' :: payload else payload)
        ((if tailIsTorn (file.getD []) then '\n' :: payload else payload).take ·)) := by
  simp only [appendJsonl, h, if_neg (encodeJsonl_ne_nil h hne)]

/-- The append leaves the file as it is, and then had no records or was not completed, or it adds a
first part of what it writes to the closed file, and all where it is completed. -/
theorem appendJsonl_cases (file : Option Text) (call : Call F) :
    ((appendJsonl floats depth file call).getD [] = file.getD [] ∧
      (call.cut = none → (encodeJsonl floats depth call.records).isSome → call.records = [])) ∨
    ∃ payload p, encodeJsonl floats depth call.records = some payload ∧ p <+: payload ∧
      (call.cut = none → p = payload) ∧
      (appendJsonl floats depth file call).getD [] = close (file.getD []) ++ p := by
  cases hpayload : encodeJsonl floats depth call.records with
  | none =>
    refine .inl ⟨?_, fun _ hsome => by cases hsome⟩
    rw [appendJsonl, hpayload]
  | some payload =>
    by_cases hempty : call.records = []
    · refine .inl ⟨?_, fun _ _ => hempty⟩
      rw [hempty] at hpayload
      cases hpayload
      rw [appendJsonl, hempty]
      rfl
    · have happend := congrArg (Option.getD · []) (appendJsonl_eq_some file hpayload hempty)
      simp only [Option.getD_some] at happend
      rw [happend]
      -- A torn line is closed by the first byte of what is written, and a cut may come before it.
      by_cases htorn : tailIsTorn (file.getD []) = true
      · simp only [htorn, if_true]
        have hclose : close (file.getD []) = file.getD [] ++ ['\n'] := if_pos htorn
        cases hcut : call.cut with
        | none =>
          refine .inr ⟨payload, payload, rfl, List.prefix_rfl, fun _ => rfl, ?_⟩
          rw [hclose, List.append_assoc]
          rfl
        | some k =>
          cases k with
          | zero => exact .inl ⟨List.append_nil _, nofun⟩
          | succ k =>
            refine .inr ⟨payload, payload.take k, rfl, List.take_prefix _ _, nofun, ?_⟩
            rw [hclose, List.append_assoc]
            rfl
      · have hclose : close (file.getD []) = file.getD [] := if_neg htorn
        simp only [htorn, Bool.false_eq_true, if_false, hclose]
        cases hcut : call.cut with
        | none => exact .inr ⟨payload, payload, rfl, List.prefix_rfl, fun _ => rfl, rfl⟩
        | some k =>
          exact .inr ⟨payload, payload.take k, rfl, List.take_prefix _ _, nofun, rfl⟩

/-- What is read of a call comes after what was read before it. -/
theorem objects_appendJsonl {file : Option Text}
    (h : Loadable (verdicts floats depth (lines (file.getD [])))) (call : Call F) :
    Loadable (verdicts floats depth (lines ((appendJsonl floats depth file call).getD []))) ∧
      ∃ ys, Yields floats depth call ys ∧
        objects (verdicts floats depth (lines ((appendJsonl floats depth file call).getD []))) =
          objects (verdicts floats depth (lines (file.getD []))) ++ ys := by
  rcases appendJsonl_cases file call with ⟨hfile, hnone⟩ | ⟨payload, p, hpayload, hp, hcut, hfile⟩
  · rw [hfile]
    refine ⟨h, [], ?_, (List.append_nil _).symm⟩
    exact yields_take (k := 0) fun hcut hsome => by rw [hnone hcut hsome]; exact Nat.le_refl 0
  · -- The file is closed first, so that its lines and those that are added are read apart.
    obtain ⟨hloadp, ⟨k, hk, hkall⟩, -⟩ := verdicts_payload hpayload hp
    have hlines : verdicts floats depth (lines (close (file.getD []) ++ p)) =
        verdicts floats depth (lines (file.getD [])) ++ verdicts floats depth (lines p) := by
      rw [← verdicts_close (file.getD []), lines_append (closed_close (file.getD []))]
      exact List.map_append
    rw [hfile, hlines]
    refine ⟨List.forall_mem_append.mpr ⟨h, hloadp⟩, _, yields_take fun hcall _ => hkall (hcut hcall),
      ?_⟩
    rw [objects_append, hk]

/-- What holds of the file after some calls. -/
structure Kept (floats : Floats F) (depth : ℕ) (calls : List (Call F)) (content : Text) : Prop where
  loadable : Loadable (verdicts floats depth (lines content))
  all : ∃ xs, List.Forall₂ (Yields floats depth) calls xs ∧
    objects (verdicts floats depth (lines content)) = xs.flatten
  complete : ∃ xs, List.Forall₂ (Yields floats depth) calls xs ∧
    objects (verdicts floats depth (complete (lines content))) = xs.flatten

theorem Kept.append {calls : List (Call F)} {file : Option Text}
    (h : Kept floats depth calls (file.getD [])) (call : Call F) :
    Kept floats depth (calls ++ [call]) ((appendJsonl floats depth file call).getD []) := by
  obtain ⟨hload, ⟨xs, hxs, hall⟩, xs', hxs', hcomplete⟩ := h
  obtain ⟨hload', ys, hyields, hobjects⟩ := objects_appendJsonl hload call
  refine ⟨hload', ⟨xs ++ [ys], List.rel_append hxs (.cons hyields .nil), ?_⟩, ?_⟩
  · rw [hobjects, hall]
    simp
  -- The reader of whole lines has the last line back as soon as something was written after it.
  rcases appendJsonl_cases file call with ⟨hfile, hnone⟩ | ⟨payload, p, hpayload, hp, hcut, hfile⟩
  · have hnothing : Yields floats depth call [] :=
      yields_take (k := 0) fun hcut hsome => by rw [hnone hcut hsome]; exact Nat.le_refl 0
    refine ⟨xs' ++ [[]], List.rel_append hxs' (.cons hnothing .nil), ?_⟩
    rw [hfile, hcomplete]
    simp
  · obtain ⟨-, -, k, hk, hkall⟩ := verdicts_payload hpayload hp
    have hy : Yields floats depth call ((call.records.take k).map Record.fields) :=
      yields_take fun hcall _ => hkall (hcut hcall)
    have hends : verdicts floats depth (Jsonl.complete (lines (close (file.getD []) ++ p))) =
        verdicts floats depth (lines (file.getD [])) ++
          verdicts floats depth (Jsonl.complete (lines p)) := by
      rw [← verdicts_close (file.getD []), complete_append (closed_close (file.getD []))]
      exact List.map_append
    refine ⟨xs ++ [_], List.rel_append hxs (.cons hy .nil), ?_⟩
    -- What was there is read up to its last line now, since that has an end.
    rw [hfile, hends, objects_append, hall, hk]
    simp

variable (floats depth)

/-- Of three records, the second is cut off after its first character. -/
example (r : Record Unit) (h : r.fields = [([0x61], .null)]) :
    (iterJsonl noFloats 1 ([⟨[r], none⟩, ⟨[r], some 1⟩, ⟨[r], none⟩].foldl
      (appendJsonl noFloats 1) none)).yielded = [r.fields, r.fields] := by
  obtain ⟨fields, distinct⟩ := r
  subst h
  rfl

end Runs

end Companion.Storage.Jsonl

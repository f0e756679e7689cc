import Companion.Emotion.Apply
import Companion.Runs

/-!
# The queue of the emotions

The main state file and the queue file of one persona, under `append_event` of the hooks, the drains
and the direct applies of `brain/emotion/engine.py`. All of them hold the lock of the engine, but
each may end after any of its writes, and an append after any part of what it writes.

The lines of the queue are named by the number of times that the file had been emptied, and their
place in it. `queued_once` says that a line folds once at most, and which lines do not fold.
-/

namespace Companion.Emotion

open Companion.Memory Companion.Runs

/-- A line: the number of emptyings before it, and its place in the file. -/
abbrev LineId := ℕ × ℕ

/-- The two files, and what has been done with them. -/
structure Files (K : Type*) where
  /-- The state of the main file, or the empty one before there is a file. -/
  state : EngineState K
  queue : Text
  /-- The lines that are folded into the state of the main file. -/
  folded : List LineId
  /-- The queue as it was at each emptying. -/
  emptied : List Text
  /-- The queue was emptied, and no drain has saved a position since. -/
  stale : Bool
  /-- The lines that were completed while the position was stale. -/
  window : List LineId
  deriving DecidableEq

inductive Step (K : Type*)
  /-- A hook appends a record, of which the first characters land. -/
  | append (record : Text) (landed : ℕ)
  /-- A drain or a direct apply, of which the first writes land. -/
  | apply (job : Job K) (now : Instant) (landed : ℕ)

section Machine

variable {K : Type*} [Field K] [LinearOrder K] (S : Setting K)

def Job.isDrain : Job K → Bool
  | .drain => true
  | .direct _ => false

/-- The complete lines of a new queue file that an old one has not. -/
def newLines (file : ℕ) (old new : Text) : List LineId :=
  (List.range' (completeLines old).length
    ((completeLines new).length - (completeLines old).length)).map (file, ·)

def Files.append (s : Files K) (record : Text) (landed : ℕ) : Files K :=
  let queue := s.queue ++ (appendPayload s.queue record).take landed
  { s with
    queue := queue
    window := if s.stale then s.window ++ newLines s.emptied.length s.queue queue else s.window }

/-- A write lands. -/
def Files.perform (drain : Bool) (s : Files K) : Write K → Files K
  | .saveState state folded =>
    { s with
      state := state
      folded := s.folded ++ (folded.filterMap Item.line).map (s.emptied.length, ·)
      stale := if drain then false else s.stale }
  | .emptyQueue => { s with queue := [], emptied := s.emptied ++ [s.queue], stale := true }

/-- The writes of a job on the files. -/
def Files.writes (s : Files K) (job : Job K) (now : Instant) : List (Write K) :=
  (Ready.main s.state now).apply S job s.queue

def Files.apply (s : Files K) (job : Job K) (now : Instant) (landed : ℕ) : Files K :=
  ((s.writes S job now).take landed).foldl (Files.perform job.isDrain) s

/-- The files of one persona. No step loads anything but the main file. -/
def queueing : Machine (Files K) (Step K) where
  init s := s = ⟨.empty, [], [], [], false, []⟩
  step s a :=
    match a with
    | .append record landed => some (s.append record landed)
    | .apply job now landed => some (s.apply S job now landed)

/-- The file of the queue after `n` emptyings. -/
def Files.file? (s : Files K) (n : ℕ) : Option Text := (s.emptied ++ [s.queue])[n]?

/-- The event of a line that was completed. -/
def Files.event? (s : Files K) (l : LineId) : Option (Event K) :=
  (s.file? l.1).bind fun file => ((completeLines file)[l.2]?).bind S.readLine

/-- The lines that a drain reads next. -/
def Files.waiting (s : Files K) : List LineId :=
  ((S.readQueue s.queue s.state.queueLine).items.filterMap Item.line).map (s.emptied.length, ·)

/-! ## Lines -/

/-- The complete lines of a file are the first ones of what it is extended to. -/
theorem completeLines_prefix (file more : Text) :
    completeLines file <+: completeLines (file ++ more) := by
  induction file with
  | nil => exact List.nil_prefix
  | cons c cs ih =>
    rw [List.cons_append]
    unfold completeLines
    split_ifs
    · exact (List.prefix_cons_inj []).mpr ih
    · obtain ⟨lines, hlines⟩ := ih
      rw [← hlines]
      cases completeLines cs with
      | nil => exact List.nil_prefix
      | cons l ls => exact ⟨lines, rfl⟩

variable {S} {s : Files K}

/-- The items of a read are the lines from its start that hold an event. -/
theorem mem_items_readQueue {file : Text} {fromLine i : ℕ} {e : Event K} :
    ⟨some i, e⟩ ∈ (S.readQueue file fromLine).items ↔
      effectiveFrom fromLine (completeLines file).length ≤ i ∧
        ((completeLines file)[i]?).bind S.readLine = some e := by
  unfold Setting.readQueue
  simp only
  generalize completeLines file = lines
  generalize effectiveFrom fromLine lines.length = n
  constructor
  · intro hi
    obtain ⟨l, hl, hread⟩ := List.mem_filterMap.mp hi
    obtain ⟨e', he, hitem⟩ := Option.map_eq_some_iff.mp hread
    obtain ⟨hline, rfl⟩ := Item.mk.inj hitem
    obtain ⟨j, hj⟩ := List.mem_iff_getElem?.mp hl
    rw [List.getElem?_drop, List.getElem?_zipIdx] at hj
    obtain ⟨text, htext, rfl⟩ := Option.map_eq_some_iff.mp hj
    have hnj : i = n + j := by
      have heq := Option.some.inj hline
      omega
    refine ⟨by omega, ?_⟩
    rw [hnj, htext]
    exact he
  · rintro ⟨hn, he⟩
    obtain ⟨text, htext, hread⟩ := Option.bind_eq_some_iff.mp he
    have hmem : (text, i) ∈ lines.zipIdx.drop n := by
      refine List.mem_iff_getElem?.mpr ⟨i - n, ?_⟩
      rw [List.getElem?_drop, List.getElem?_zipIdx, show n + (i - n) = i by omega, htext,
        Option.map_some, Nat.zero_add]
    exact List.mem_filterMap.mpr ⟨(text, i), hmem, by rw [hread]; rfl⟩

/-- The lines of the items of a read are in the file, from its start. -/
theorem le_of_mem_lines {file : Text} {fromLine i : ℕ} {items : List (Item K)}
    (hitems : items.Subset (S.readQueue file fromLine).items)
    (hi : i ∈ items.filterMap Item.line) :
    effectiveFrom fromLine (completeLines file).length ≤ i ∧ i < (completeLines file).length := by
  obtain ⟨⟨line, e⟩, hitem, hline⟩ := List.mem_filterMap.mp hi
  obtain rfl : line = some i := hline
  obtain ⟨hfrom, hevent⟩ := mem_items_readQueue.mp (hitems hitem)
  obtain ⟨text, htext, -⟩ := Option.bind_eq_some_iff.mp hevent
  exact ⟨hfrom, (List.getElem?_eq_some_iff.mp htext).1⟩

/-- No line is read twice. -/
theorem nodup_lines_readQueue (file : Text) (fromLine : ℕ) :
    ((S.readQueue file fromLine).items.filterMap Item.line).Nodup := by
  have hlt : (completeLines file).zipIdx.Pairwise fun a b => a.2 < b.2 := by
    have hrange : ((completeLines file).zipIdx.map Prod.snd).Pairwise (· < ·) := by
      rw [List.zipIdx_map_snd]
      exact List.pairwise_lt_range'
    exact List.pairwise_map.mp hrange
  have hread := (hlt.drop (i := effectiveFrom fromLine (completeLines file).length)).filterMap
    (fun l => ((S.readLine l.1).map fun e => (⟨some l.2, e⟩ : Item K)).bind Item.line)
    (S := (· < ·)) fun a b hab i hi j hj => by
      obtain ⟨_, ha, hai⟩ := Option.bind_eq_some_iff.mp hi
      obtain ⟨_, hb, hbj⟩ := Option.bind_eq_some_iff.mp hj
      obtain ⟨_, _, rfl⟩ := Option.map_eq_some_iff.mp ha
      obtain ⟨_, _, rfl⟩ := Option.map_eq_some_iff.mp hb
      have hi' : a.2 = i := Option.some.inj hai
      have hj' : b.2 = j := Option.some.inj hbj
      omega
  unfold Setting.readQueue
  rw [List.filterMap_filterMap]
  exact hread.imp Nat.ne_of_lt

/-- No line is folded twice of one read. -/
theorem nodup_lines_keep (skipIds : List Text) (file : Text) (fromLine : ℕ) :
    ((keep skipIds (inTimeOrder (S.readQueue file fromLine).items)).filterMap Item.line).Nodup := by
  have hperm := perm_inTimeOrder (S.readQueue file fromLine).items
  have hsub := keep_sublist skipIds (inTimeOrder (S.readQueue file fromLine).items)
  have hnodup := (hperm.filterMap Item.line).nodup_iff.mpr (nodup_lines_readQueue file fromLine)
  exact hnodup.sublist (hsub.filterMap Item.line)

/-- A line has an event only where it was completed. -/
theorem lt_of_event? {l : LineId} {e : Event K} (h : s.event? S l = some e) :
    l.1 < s.emptied.length ∨
      l.1 = s.emptied.length ∧ ((completeLines s.queue)[l.2]?).bind S.readLine = some e := by
  obtain ⟨file, hfile, hevent⟩ := Option.bind_eq_some_iff.mp h
  have hlen := (List.getElem?_eq_some_iff.mp hfile).1
  rw [List.length_append, List.length_singleton] at hlen
  rcases Nat.lt_succ_iff_lt_or_eq.mp hlen with hlt | heq
  · exact Or.inl hlt
  · refine Or.inr ⟨heq, ?_⟩
    rw [Files.file?, heq, List.getElem?_concat_length] at hfile
    obtain rfl := Option.some.inj hfile
    exact hevent

variable [IsStrictOrderedRing K]

/-- A drain saves the number of lines as the position, or it had that position before. -/
theorem writes_drain (s : Files K) (now : Instant) :
    (∃ s₁ : EngineState K, s₁.queueLine = (completeLines s.queue).length ∧
      s.writes S .drain now =
        .saveState s₁ (keep [] (inTimeOrder (S.readQueue s.queue s.state.queueLine).items)) ::
          emptyAndRemember s₁ (some (completeLines s.queue).length)) ∨
    s.state.queueLine = (completeLines s.queue).length ∧
      ∃ s₁ : EngineState K, s.writes S .drain now =
        emptyAndRemember s₁ (some (completeLines s.queue).length) := by
  obtain ⟨s', kept, hfolded, ⟨-, hwrites⟩ | ⟨hsaves, hwrites⟩⟩ :=
    apply_cases (S := S) (Ready.main s.state now) .drain s.queue
  · obtain ⟨-, rfl⟩ := folded_main hfolded
    exact Or.inl ⟨_, rfl, hwrites⟩
  · obtain ⟨hheader, -⟩ := folded_main hfolded
    have hline := congrArg (fun h => h.2.2) hheader
    exact Or.inr ⟨queueLine_of_unsaved hline hsaves, s', hwrites⟩

/-- A direct apply keeps the position, and folds no line. -/
theorem writes_direct (s : Files K) (events : List (Event K)) (now : Instant) :
    s.writes S (.direct events) now = [] ∨
      ∃ (s₁ : EngineState K) (kept : List (Item K)), s₁.queueLine = s.state.queueLine ∧
        kept.filterMap Item.line = [] ∧ s.writes S (.direct events) now = [.saveState s₁ kept] := by
  obtain ⟨s', kept, hfolded, ⟨-, hwrites⟩ | ⟨-, hwrites⟩⟩ :=
    apply_cases (S := S) (Ready.main s.state now) (.direct events) s.queue
  · obtain ⟨hheader, rfl⟩ := folded_main hfolded
    have hdirect : ∀ i ∈ keep [] (inTimeOrder
        ((Ready.main s.state now).intake S (.direct events) s.queue).items), i.line = none := by
      intro i hi
      have hitem := (perm_inTimeOrder _).mem_iff.mp ((keep_sublist [] _).mem hi)
      obtain ⟨e, -, rfl⟩ := List.mem_map.mp hitem
      rfl
    exact Or.inr ⟨(Ready.main s.state now).stamped none s', _, congrArg (fun h => h.2.2) hheader,
      List.filterMap_eq_nil_iff.mpr hdirect, hwrites⟩
  · exact Or.inl hwrites

/-- What is known of the files, the first `P` lines of the queue being those folded. -/
structure Files.Inv (S : Setting K) (s : Files K) : Prop where
  nodup : s.folded.Nodup
  /-- A folded line of the queue is before the position. -/
  before : ∀ l ∈ s.folded, l.1 < s.emptied.length ∨
    l.1 = s.emptied.length ∧ s.stale = false ∧ l.2 < s.state.queueLine
  position : s.stale = false → s.state.queueLine ≤ (completeLines s.queue).length
  /-- A line before the position is folded, and one that is not was completed in the window. -/
  settled : ∀ l e, s.event? S l = some e → e.ownMemory = none →
    l.1 < s.emptied.length ∨ l.2 < s.state.queueLine ∨ s.stale = true →
    l ∈ s.folded ∨ l ∈ s.window

/-- A drain leaves no line to read. -/
def Files.Drained (s : Files K) : Prop :=
  s.state.queueLine = (completeLines s.queue).length ∨ s.queue = []

omit [IsStrictOrderedRing K]

theorem Files.Drained.waiting (h : s.Drained) : s.waiting S = [] := by
  have hnone : (S.readQueue s.queue s.state.queueLine).items.filterMap Item.line = [] := by
    refine List.eq_nil_iff_forall_not_mem.mpr fun i hi => ?_
    obtain ⟨hfrom, hlt⟩ := le_of_mem_lines (List.Subset.refl _) hi
    rcases h with hline | hempty
    · rw [effectiveFrom, hline, if_neg (Nat.lt_irrefl _)] at hfrom
      omega
    · rw [hempty] at hlt
      exact absurd hlt (Nat.not_lt_zero i)
  rw [Files.waiting, hnone]
  rfl

/-! ## Each write keeps what is known -/

theorem Files.Inv.append (h : s.Inv S) (record : Text) (landed : ℕ) :
    (s.append record landed).Inv S := by
  obtain ⟨lines, hlines⟩ := completeLines_prefix s.queue ((appendPayload s.queue record).take landed)
  -- A line that was complete has the event that it had.
  have hevent : ∀ (l : LineId), l.1 < s.emptied.length ∨
      l.1 = s.emptied.length ∧ l.2 < (completeLines s.queue).length →
      (s.append record landed).event? S l = s.event? S l := by
    rintro ⟨n, i⟩ (hn | ⟨hn, hi⟩)
    · simp only [Files.event?, Files.file?, Files.append, List.getElem?_append_left hn]
    · simp only at hn hi
      simp only [Files.event?, Files.file?, Files.append, hn, List.getElem?_concat_length,
        Option.bind_some, ← hlines, List.getElem?_append_left hi]
  constructor
  · exact h.nodup
  · exact h.before
  · intro hstale
    have hle := h.position hstale
    show s.state.queueLine ≤ (completeLines (s.queue ++ _)).length
    rw [← hlines, List.length_append]
    omega
  · intro l e he hown hcase
    have hkept : ∀ l, l ∈ s.folded ∨ l ∈ s.window →
        l ∈ s.folded ∨ l ∈ (s.append record landed).window := by
      rintro l (hl | hl)
      · exact Or.inl hl
      · refine Or.inr ?_
        unfold Files.append
        simp only
        split_ifs
        · exact List.mem_append_left _ hl
        · exact hl
    have hold : l.1 < s.emptied.length ∨
        l.1 = s.emptied.length ∧ l.2 < (completeLines s.queue).length →
        l ∈ s.folded ∨ l ∈ (s.append record landed).window := fun hl =>
      hkept l (h.settled l e (by rw [← hevent l hl]; exact he) hown hcase)
    rcases lt_of_event? he with hlt | ⟨heq, hline⟩
    · exact hold (Or.inl hlt)
    · by_cases hi : l.2 < (completeLines s.queue).length
      · exact hold (Or.inr ⟨heq, hi⟩)
      · -- A new line: it is before no position, so that the position is stale.
        have hstale : s.stale = true := by
          rcases hcase with hlt | hlt | hstale
          · exact absurd heq (Nat.ne_of_lt hlt)
          · by_contra hstale
            have hle := h.position (Bool.eq_false_iff.mpr hstale)
            have hlt' : l.2 < s.state.queueLine := hlt
            omega
          · exact hstale
        obtain ⟨text, htext, -⟩ := Option.bind_eq_some_iff.mp hline
        have hlen := (List.getElem?_eq_some_iff.mp htext).1
        refine Or.inr ?_
        show l ∈ if s.stale then s.window ++ newLines s.emptied.length s.queue
          (s.append record landed).queue else s.window
        rw [if_pos hstale]
        refine List.mem_append_right _ (List.mem_map.mpr ⟨l.2, List.mem_range'_1.mpr ?_, ?_⟩)
        · omega
        · rw [← show l.1 = s.emptied.length from heq]

theorem Files.Inv.saveDrain (h : s.Inv S) {state : EngineState K}
    (hline : state.queueLine = (completeLines s.queue).length) :
    (s.perform true (.saveState state
      (keep [] (inTimeOrder (S.readQueue s.queue s.state.queueLine).items)))).Inv S := by
  have hperm := perm_inTimeOrder (S.readQueue s.queue s.state.queueLine).items
  have hsub := keep_sublist [] (inTimeOrder (S.readQueue s.queue s.state.queueLine).items)
  have hkeep : ∀ i ∈ (S.readQueue s.queue s.state.queueLine).items, i.event.ownMemory = none →
      i ∈ keep [] (inTimeOrder (S.readQueue s.queue s.state.queueLine).items) := fun i hi hown =>
    mem_keep (hperm.mem_iff.mpr hi) hown []
  have hnodup := nodup_lines_keep (S := S) [] s.queue s.state.queueLine
  generalize keep [] (inTimeOrder (S.readQueue s.queue s.state.queueLine).items) = kept
    at hsub hkeep hnodup ⊢
  have hlines : ∀ i ∈ kept.filterMap Item.line,
      effectiveFrom s.state.queueLine (completeLines s.queue).length ≤ i ∧
        i < (completeLines s.queue).length := fun i hi =>
    le_of_mem_lines (fun j hj => hperm.mem_iff.mp (hsub.mem hj)) hi
  -- Where the position is not stale, the read starts at it.
  have hfrom : s.stale = false →
      effectiveFrom s.state.queueLine (completeLines s.queue).length = s.state.queueLine :=
    fun hstale => if_neg (Nat.not_lt.mpr (h.position hstale))
  constructor
  · refine List.nodup_append.mpr ⟨h.nodup, hnodup.map fun i j hij => (Prod.mk.inj hij).2, ?_⟩
    rintro l hl _ hnew rfl
    obtain ⟨i, hi, rfl⟩ := List.mem_map.mp hnew
    rcases h.before _ hl with hlt | ⟨-, hstale, hlt⟩
    · exact Nat.lt_irrefl _ hlt
    · have hle := (hlines i hi).1
      rw [hfrom hstale] at hle
      exact Nat.lt_irrefl _ (Nat.lt_of_lt_of_le hlt hle)
  · intro l hl
    show l.1 < s.emptied.length ∨ l.1 = s.emptied.length ∧ false = false ∧ l.2 < state.queueLine
    rw [hline]
    rcases List.mem_append.mp hl with hl | hl
    · rcases h.before l hl with hlt | ⟨heq, hstale, hlt⟩
      · exact Or.inl hlt
      · exact Or.inr ⟨heq, rfl, Nat.lt_of_lt_of_le hlt (h.position hstale)⟩
    · obtain ⟨i, hi, rfl⟩ := List.mem_map.mp hl
      exact Or.inr ⟨rfl, rfl, (hlines i hi).2⟩
  · exact fun _ => Nat.le_of_eq hline
  · intro l e he hown _
    have hold : l ∈ s.folded ∨ l ∈ s.window → l ∈ s.folded ++
        (kept.filterMap Item.line).map (s.emptied.length, ·) ∨ l ∈ s.window :=
      Or.imp_left (List.mem_append_left _)
    have he' : s.event? S l = some e := he
    rcases lt_of_event? he' with hlt | ⟨heq, hevent⟩
    · exact hold (h.settled l e he' hown (Or.inl hlt))
    · by_cases hcase : l.2 < s.state.queueLine ∨ s.stale = true
      · exact hold (h.settled l e he' hown (Or.inr hcase))
      · obtain ⟨hle, hstale⟩ := not_or.mp hcase
        have hread : ⟨some l.2, e⟩ ∈ (S.readQueue s.queue s.state.queueLine).items :=
          mem_items_readQueue.mpr
            ⟨(hfrom (Bool.eq_false_iff.mpr hstale)).trans_le (Nat.not_lt.mp hle), hevent⟩
        have hfold : l.2 ∈ kept.filterMap Item.line :=
          List.mem_filterMap.mpr ⟨_, hkeep _ hread hown, rfl⟩
        refine Or.inl (List.mem_append_right _ (List.mem_map.mpr ⟨l.2, hfold, ?_⟩))
        rw [← heq]

theorem Files.Inv.empty (h : s.Inv S)
    (hline : s.state.queueLine = (completeLines s.queue).length) :
    (s.perform true .emptyQueue).Inv S := by
  have hlength : (s.perform true .emptyQueue).emptied.length = s.emptied.length + 1 :=
    List.length_append
  constructor
  · exact h.nodup
  · intro l hl
    rw [hlength]
    rcases h.before l hl with hlt | ⟨heq, -⟩
    · omega
    · omega
  · exact fun hstale => nomatch hstale
  · intro l e he hown _
    have hlt : l.1 < s.emptied.length + 1 := by
      rcases lt_of_event? he with hlt | ⟨-, hevent⟩
      · rwa [hlength] at hlt
      · exact nomatch hevent
    -- A file that was emptied is the file that it was.
    have he' : s.event? S l = some e := by
      have hfile : (s.perform true .emptyQueue).file? l.1 = s.file? l.1 := by
        show (s.emptied ++ [s.queue] ++ [[]])[l.1]? = (s.emptied ++ [s.queue])[l.1]?
        exact List.getElem?_append_left (by rw [List.length_append]; exact hlt)
      rw [← he, Files.event?, Files.event?, hfile]
    refine h.settled l e he' hown ?_
    rcases lt_of_event? he' with hlt | ⟨-, hevent⟩
    · exact Or.inl hlt
    · obtain ⟨text, htext, -⟩ := Option.bind_eq_some_iff.mp hevent
      exact Or.inr (Or.inl (by rw [hline]; exact (List.getElem?_eq_some_iff.mp htext).1))

theorem Files.Inv.saveStart (h : s.Inv S) (hstale : s.stale = true) {state : EngineState K}
    (hline : state.queueLine = 0) : (s.perform true (.saveState state [])).Inv S := by
  have hfolded : (s.perform true (.saveState state [])).folded = s.folded := List.append_nil _
  constructor
  · rw [hfolded]
    exact h.nodup
  · intro l hl
    rw [hfolded] at hl
    rcases h.before l hl with hlt | ⟨-, hfresh, -⟩
    · exact Or.inl hlt
    · rw [hstale] at hfresh
      exact nomatch hfresh
  · exact fun _ => hline.trans_le (Nat.zero_le _)
  · intro l e he hown hcase
    rw [hfolded]
    refine h.settled l e he hown ?_
    exact Or.inr (Or.inr hstale)

theorem Files.Inv.saveDirect (h : s.Inv S) {state : EngineState K} {kept : List (Item K)}
    (hline : state.queueLine = s.state.queueLine) (hkept : kept.filterMap Item.line = []) :
    (s.perform false (.saveState state kept)).Inv S := by
  have hsame : s.perform false (.saveState state kept) = { s with state := state } := by
    simp [Files.perform, hkept]
  rw [hsame]
  constructor
  · exact h.nodup
  · intro l hl
    show _ ∨ _ ∧ _ ∧ l.2 < state.queueLine
    rw [hline]
    exact h.before l hl
  · intro hstale
    exact hline.trans_le (h.position hstale)
  · intro l e he hown hcase
    refine h.settled l e he hown ?_
    rw [← hline]
    exact hcase

/-! ## Runs -/

/-- However much of the emptying lands, no line is left to read. -/
theorem Files.Inv.emptyAndRemember (h : s.Inv S)
    (hline : s.state.queueLine = (completeLines s.queue).length) (s₁ : EngineState K)
    (landed : ℕ) :
    ((((Emotion.emptyAndRemember s₁ (some (completeLines s.queue).length)).take landed).foldl
      (Files.perform true) s).Inv S ∧
    (((Emotion.emptyAndRemember s₁ (some (completeLines s.queue).length)).take landed).foldl
      (Files.perform true) s).Drained) := by
  unfold Emotion.emptyAndRemember
  split_ifs
  · match landed with
    | 0 => exact ⟨h, Or.inl hline⟩
    | 1 => exact ⟨h.empty hline, Or.inr rfl⟩
    | n + 2 =>
      rw [List.take_of_length_le (Nat.le_add_left 2 n)]
      exact ⟨(h.empty hline).saveStart rfl rfl, Or.inr rfl⟩
  · rw [List.take_nil]
    exact ⟨h, Or.inl hline⟩

variable [IsStrictOrderedRing K]

theorem Files.Inv.apply (h : s.Inv S) (job : Job K) (now : Instant) (landed : ℕ) :
    (s.apply S job now landed).Inv S := by
  unfold Files.apply
  cases job with
  | drain =>
    rcases writes_drain (S := S) s now with ⟨s₁, hline, hwrites⟩ | ⟨hline, s₁, hwrites⟩
    · rw [hwrites]
      cases landed with
      | zero => exact h
      | succ n => exact ((h.saveDrain hline).emptyAndRemember hline s₁ n).1
    · rw [hwrites]
      exact (h.emptyAndRemember hline s₁ landed).1
  | direct events =>
    rcases writes_direct (S := S) s events now with hwrites | ⟨s₁, kept, hline, hkept, hwrites⟩
    · rw [hwrites, List.take_nil]
      exact h
    · rw [hwrites]
      cases landed with
      | zero => exact h
      | succ n =>
        rw [List.take_of_length_le (Nat.le_add_left 1 n)]
        exact h.saveDirect hline hkept

/-- A drain of which a write lands, or that has none, leaves no line to read. -/
theorem Files.Inv.drained (h : s.Inv S) (now : Instant) {landed : ℕ} (hlanded : 0 < landed) :
    (s.apply S .drain now landed).Drained := by
  unfold Files.apply
  rcases writes_drain (S := S) s now with ⟨s₁, hline, hwrites⟩ | ⟨hline, s₁, hwrites⟩
  · rw [hwrites]
    obtain ⟨n, rfl⟩ : ∃ n, landed = n + 1 := ⟨landed - 1, by omega⟩
    exact ((h.saveDrain hline).emptyAndRemember hline s₁ n).2
  · rw [hwrites]
    exact (h.emptyAndRemember hline s₁ landed).2

theorem inv_of_reachable (h : (queueing S).Reachable s) : s.Inv S := by
  refine h.invariant ?_ ?_
  · rintro s rfl
    refine ⟨List.nodup_nil, nofun, fun _ => Nat.zero_le _, ?_⟩
    intro l e he
    rcases lt_of_event? he with hlt | ⟨-, hevent⟩
    · exact absurd hlt (Nat.not_lt_zero _)
    · exact nomatch hevent
  · intro s a s' hs _ hstep
    cases a with
    | append record landed =>
      obtain rfl := Option.some.inj hstep
      exact hs.append record landed
    | apply job now landed =>
      obtain rfl := Option.some.inj hstep
      exact hs.apply job now landed

/-- **A line of the queue folds once.** No line is folded twice into the state of the main file. A
complete line with an event is folded, or was completed between an emptying whose position was lost
and the next drain that saves one, or is among the lines that the next drain reads; and a drain
leaves no line to read, wherever it stops after its first write. An event of a memory's own, which
no hook appends, may be passed for another of that memory. -/
theorem queued_once (S : Setting K) {s : Files K} (h : (queueing S).Reachable s) :
    s.folded.Nodup ∧
      (∀ l e, s.event? S l = some e → e.ownMemory = none →
        l ∈ s.folded ∨ l ∈ s.window ∨ l ∈ s.waiting S) ∧
      ∀ now landed, 0 < landed → (s.apply S .drain now landed).waiting S = [] := by
  have hinv := inv_of_reachable h
  refine ⟨hinv.nodup, ?_, fun now landed hlanded => (hinv.drained now hlanded).waiting⟩
  intro l e he hown
  by_cases hcase : l.1 < s.emptied.length ∨ l.2 < s.state.queueLine ∨ s.stale = true
  · exact (hinv.settled l e he hown hcase).imp_right Or.inl
  · -- The line is of the queue, at or after a position that is not stale.
    obtain ⟨hn, hrest⟩ := not_or.mp hcase
    obtain ⟨hline, hstale⟩ := not_or.mp hrest
    obtain ⟨heq, hevent⟩ := (lt_of_event? he).resolve_left hn
    have hposition := hinv.position (Bool.eq_false_iff.mpr hstale)
    have hfrom : effectiveFrom s.state.queueLine (completeLines s.queue).length ≤ l.2 := by
      rw [effectiveFrom, if_neg (Nat.not_lt.mpr hposition)]
      exact Nat.not_lt.mp hline
    have hread : l.2 ∈ (S.readQueue s.queue s.state.queueLine).items.filterMap Item.line :=
      List.mem_filterMap.mpr ⟨_, mem_items_readQueue.mpr ⟨hfrom, hevent⟩, rfl⟩
    refine Or.inr (Or.inr (List.mem_map.mpr ⟨l.2, hread, ?_⟩))
    rw [← heq]

end Machine

/-! ## A run -/

/-- A change of one emotion, at the start of 2026. -/
def sampleChange : Event ℚ :=
  ⟨.change, 1767225600000000, none, Dict.empty.set "joy".toList 1, 1, 0⟩

def sampleRecord : Text :=
  "\x7b\"kind\":\"change\",\"at\":\"2026-01-01T00:00:00Z\",\"emotions\":\x7b\"joy\":1.0\x7d\x7d".toList

/-- The zone UTC, and a reader of one record. -/
def Setting.sample : Setting ℚ :=
  .utc fun text => if text = sampleRecord then some sampleChange else none

/-- A torn line and a whole one are drained, and the save of position 0 is lost. The line of the
next append is in the window, and is folded all the same. -/
theorem queued_once_torn :
    ∃ s : Files ℚ, s.folded = [(0, 1), (1, 0)] ∧ s.window = [(1, 0)] ∧
      (s.folded.Nodup ∧
        (∀ l e, s.event? Setting.sample l = some e → e.ownMemory = none →
          l ∈ s.folded ∨ l ∈ s.window ∨ l ∈ s.waiting Setting.sample) ∧
        ∀ now landed, 0 < landed →
          (s.apply Setting.sample .drain now landed).waiting Setting.sample = []) := by
  obtain ⟨s, hreach, hs⟩ := Machine.exists_reach_of_runWithin (M := queueing Setting.sample)
    (D := fun _ _ => True) (fun _ _ _ => trivial) rfl
    [.append sampleRecord 9, .append sampleRecord 80, .apply .drain 1767225601000000 2,
      .append sampleRecord 80, .apply .drain 1767225602000000 3]
    (fun s => s.folded = [(0, 1), (1, 0)] ∧ s.window = [(1, 0)]) (by decide +kernel)
  obtain ⟨hfolded, hwindow⟩ := of_decide_eq_true hs
  exact ⟨s, hfolded, hwindow, queued_once Setting.sample hreach⟩

end Companion.Emotion

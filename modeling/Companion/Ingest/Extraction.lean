import Companion.Ingest.Chunks
import Companion.Runs
import Mathlib

/-!
# Extraction of a session's conversation

The passes of `brain/ingest/pipeline.py` over the buffer of one session, one file operation or model
call at a time, among the appends of `ingest_turn`: `extract_session_snapshot`, `close_session` and
`poison_unextracted_span`, of which the session's extraction lock admits one at a time. A pass may
be stopped anywhere.

A row is kept when its chunk was committed, when it was set aside in the poison file, or while it is
in the buffer after the cursor. The cursor is a time in whole seconds, compared strictly. Every row
is kept in a run in which rows are newer than the cursor where the two meet (`rows_kept`). A row
that is appended in the cursor's second, after the read, is never extracted (`row_escapes`).

`appended` and `extracted` are bookkeeping: no operation reads them.
-/

namespace Companion.Ingest.Extraction

open Companion.Memory
open Companion.Runs

/-- `ChunkResult` -/
inductive ChunkResult
  | ok
  | deferred
  | failed
  | commitFailed
  deriving DecidableEq

inductive Kind
  /-- `extract_session_snapshot`, of at most `max_chunks` chunks. -/
  | snapshot (maxChunks : Option ℕ)
  /-- `close_session` -/
  | close
  /-- `poison_unextracted_span` -/
  | poison
  deriving DecidableEq

/-- The next statement of a pass. -/
inductive Point
  /-- The head of the loop over the chunks. -/
  | next
  /-- The pieces of a chunk that are left to send. -/
  | pieces (chunk : TurnChunk) (left : List Text)
  /-- `record_extraction_failure` -/
  | record (chunk : TurnChunk)
  /-- `delete_backoff` after a committed chunk. -/
  | clear (chunk : TurnChunk)
  /-- `write_cursor` -/
  | cursor (chunk : TurnChunk)
  /-- The late-rows check of a close, which takes the append lock. -/
  | late
  | archive
  /-- The archived rows are compared with the buffer. -/
  | confirm (rows : List Turn)
  | removeBuffer
  | removeCursor
  | removeBackoff
  /-- A failing chunk is appended to the poison file. -/
  | setAside (chunk : TurnChunk)
  | setAsideCursor (chunk : TurnChunk)
  | setAsideBackoff
  deriving DecidableEq

/-- The append lock is held from the late-rows check to the end of the close. -/
def Point.locked : Point → Bool
  | .archive | .confirm _ | .removeBuffer | .removeCursor | .removeBackoff => true
  | _ => false

/-- A pass in progress: the rows that it read, and the chunks to come. -/
structure Pass where
  kind : Kind
  turns : List Turn
  todo : List TurnChunk
  index : ℕ
  point : Point
  deriving DecidableEq

/-- The `.backoff` file. -/
structure Backoff where
  failures : ℕ
  firstFailureAt : Instant
  failingEndTs : Option Instant
  deriving DecidableEq

/-- The files of the session, and what is in progress. -/
structure State where
  clock : Instant
  buffer : List Turn
  cursor : Option Instant
  backoff : Option Backoff
  poison : List Turn
  pass : Option Pass
  /-- The rows that were ever appended. -/
  appended : List Turn
  /-- The rows of the chunks that were committed. -/
  extracted : List Turn
  deriving DecidableEq

/-- A step of the clock, of an appender, or of a pass. -/
inductive Act
  | tick (t : Instant)
  | append (speaker : Speaker) (text : Text) (imageShas : List Text)
  | start (kind : Kind) (maxChars : ℕ) (userName assistantName : Option Text)
  /-- The next statement of the pass: whether it succeeds, and what a model call comes to. -/
  | pass (succeeds : Bool) (result : ChunkResult)
  /-- An exception, or the end of the process. -/
  | abort

/-- `_BACKOFF_FAILURE_THRESHOLD` -/
def backoffFailureThreshold : ℕ := 3

/-- `_BACKOFF_WINDOW_MINUTES` -/
def backoffWindow : Instant := 10 * 60 * 1000000

namespace State

/-- The backoff guard of a snapshot. -/
def backedOff (s : State) : Bool :=
  s.backoff.any fun b =>
    decide (backoffFailureThreshold ≤ b.failures ∧ s.clock - b.firstFailureAt < backoffWindow)

/-- The rows that a pass reads: those after the cursor, less the summaries. -/
def unextracted (s : State) : List Turn :=
  (readSessionAfter s.buffer s.cursor).filter fun t => t.speaker ≠ .summary

/-- The rows up to the end of the failing chunk, where that is on record. -/
def failingSpan (s : State) : List Turn :=
  match s.backoff.bind Backoff.failingEndTs with
  | some failingEnd => s.unextracted.filter fun t => t.stamp.all (· ≤ failingEnd)
  | none => s.unextracted

/-- The rows that arrived during a close: after the cursor, and like none that it read. -/
def lateRows (s : State) (p : Pass) : List Turn :=
  s.unextracted.filter fun t => t.identity ∉ p.turns.map Turn.identity

/-- The start of a pass that the extraction lock admits. -/
def start (s : State) (kind : Kind) (maxChars : ℕ) (userName assistantName : Option Text) :
    Option State :=
  match kind with
  | .snapshot _ =>
    if s.backedOff then some s
    else (chunkTurns maxChars userName assistantName s.unextracted).map fun chunks =>
      { s with pass := some ⟨kind, s.unextracted, chunks, 0, .next⟩ }
  | .close =>
    (chunkTurns maxChars userName assistantName s.unextracted).map fun chunks =>
      { s with pass := some ⟨kind, s.unextracted, chunks, 0, .next⟩ }
  | .poison =>
    (chunkTurns maxChars userName assistantName s.failingSpan).map fun chunks =>
      { s with pass := some ⟨kind, s.unextracted, [], 0,
        match chunks with
        | [] => .setAsideBackoff
        | failing :: _ => .setAside failing⟩ }

def setPoint (s : State) (p : Pass) (point : Point) : State :=
  { s with pass := some { p with point := point } }

def stop (s : State) : State := { s with pass := none }

/-- `record_extraction_failure` -/
def recordFailure (s : State) (chunk : TurnChunk) : State :=
  { s with
    backoff := some (match s.backoff with
      | none => ⟨1, s.clock, chunk.cursorTs⟩
      | some b => ⟨b.failures + 1, b.firstFailureAt, chunk.cursorTs.orElse fun _ => b.failingEndTs⟩) }

/-- The cursor moves to the end of a chunk, if it has one. -/
def writeCursor (s : State) (chunk : TurnChunk) : State :=
  { s with cursor := chunk.cursorTs.orElse fun _ => s.cursor }

/-- The next statement of a pass that succeeds. -/
def advance (s : State) (p : Pass) (result : ChunkResult) : State :=
  match p.point with
  | .next =>
    match p.todo with
    | [] => if p.kind = .close then s.setPoint p .late else s.stop
    | chunk :: todo =>
      match p.kind with
      | .snapshot (some maxChunks) =>
        if maxChunks ≤ p.index then s.stop
        else s.setPoint { p with todo := todo, index := p.index + 1 } (.pieces chunk chunk.pieces)
      | _ => s.setPoint { p with todo := todo, index := p.index + 1 } (.pieces chunk chunk.pieces)
  | .pieces chunk [] =>
    -- The last piece is committed.
    { s with extracted := s.extracted ++ chunk.turns }.setPoint p
      (if p.kind = Kind.close then .cursor chunk else .clear chunk)
  | .pieces chunk (_ :: left) =>
    match result with
    | .ok => s.setPoint p (.pieces chunk left)
    | .deferred => s.stop
    | .failed | .commitFailed => if p.kind = .close then s.stop else s.setPoint p (.record chunk)
  | .record chunk => (s.recordFailure chunk).stop
  | .clear chunk => { s with backoff := none }.setPoint p (.cursor chunk)
  | .cursor chunk => (s.writeCursor chunk).setPoint p .next
  | .late => if s.lateRows p = [] then s.setPoint p .archive else s.stop
  | .archive => s.setPoint p (.confirm s.buffer)
  | .confirm rows => if s.buffer = rows then s.setPoint p .removeBuffer else s.stop
  | .removeBuffer => { s with buffer := [] }.setPoint p .removeCursor
  | .removeCursor => { s with cursor := none }.setPoint p .removeBackoff
  | .removeBackoff => { s with backoff := none }.stop
  | .setAside chunk =>
    { s with poison := s.poison ++ chunk.turns }.setPoint p (.setAsideCursor chunk)
  | .setAsideCursor chunk => (s.writeCursor chunk).setPoint p .setAsideBackoff
  | .setAsideBackoff => { s with backoff := none }.stop

/-- The next statement of a pass that fails. A cursor write of the chunk loop is only logged. -/
def fail (s : State) (p : Pass) : State :=
  match p.point with
  | .cursor _ => s.setPoint p .next
  | _ => s.stop

/-- `ingest_turn` -/
def append (s : State) (turn : Turn) : State :=
  { s with buffer := s.buffer ++ [turn], appended := s.appended ++ [turn] }

end State

/-- One session, from its first row. -/
def machine : Machine State Act where
  init s := s.buffer = [] ∧ s.cursor = none ∧ s.backoff = none ∧ s.poison = [] ∧ s.pass = none ∧
    s.appended = [] ∧ s.extracted = []
  step s
    | .tick t => if s.clock ≤ t then some { s with clock := t } else none
    | .append speaker text imageShas =>
      if s.pass.any (·.point.locked) then none
      else some (s.append (ingestTurn s.clock speaker text imageShas s.appended.length))
    | .start kind maxChars userName assistantName =>
      if s.pass.isSome then none else s.start kind maxChars userName assistantName
    | .pass succeeds result =>
      s.pass.map fun p => if succeeds then s.advance p result else s.fail p
    | .abort => some s.stop

/-- The row was extracted or set aside, or is to be read. -/
def Kept (s : State) (t : Turn) : Prop :=
  t ∈ s.extracted ∨ t ∈ s.poison ∨ t ∈ readSessionAfter s.buffer s.cursor

/-- The rows that the next pass would read, and that the present one has not. -/
def State.unread (s : State) (p : Pass) : List Turn := s.unextracted.filter fun t => t ∉ p.turns

/-- A row is appended in a later second than the cursor's; the cursor moves to a time before that of
every row that the pass has not read; and no such row is like one that a close has read. -/
def Timely (s : State) : Act → Bool
  | .append _ _ _ => s.cursor.all (· < nowIso s.clock)
  | .pass true _ =>
    s.pass.all fun p =>
      match p.point with
      | .cursor chunk | .setAsideCursor chunk =>
        chunk.cursorTs.all fun x => (s.unread p).all fun t => t.stamp.any (x < ·)
      | .late => (s.unread p).all fun t => t.identity ∉ p.turns.map Turn.identity
      | _ => true
  | _ => true

/-! ## The invariant -/

/-- The row is newer than the cursor value of the chunk. -/
def After (chunk : TurnChunk) (t : Turn) : Prop :=
  ∀ x, chunk.cursorTs = some x → ∃ y, t.stamp = some y ∧ x < y

/-- The rows that the pass read are extracted or in the chunks, whose cuts keep the later rows. -/
def Covered (s : State) (p : Pass) (chunks : List TurnChunk) : Prop :=
  chunks.Pairwise TurnChunk.Behind ∧
    ∀ t ∈ p.turns, t ∈ s.extracted ∨ t ∈ chunks.flatMap TurnChunk.turns

/-- What holds of the rows at each point of a pass. -/
def At (s : State) (p : Pass) : Point → Prop
  | .next => Covered s p p.todo
  | .pieces chunk _ => Covered s p (chunk :: p.todo)
  | .clear chunk | .cursor chunk => Covered s p p.todo ∧ ∀ d ∈ p.todo, chunk.Behind d
  | .late => ∀ t ∈ p.turns, t ∈ s.extracted
  | .archive | .confirm _ | .removeBuffer =>
    ∀ t ∈ s.buffer, t.speaker ≠ .summary → t ∈ s.extracted ∨ t ∈ s.poison
  | .setAside chunk => ∀ t ∈ p.turns, t ∈ chunk.turns ∨ After chunk t
  | .setAsideCursor chunk => ∀ t ∈ p.turns, t ∈ s.poison ∨ After chunk t
  | .record _ | .removeCursor | .removeBackoff | .setAsideBackoff => True

/-- Every row is kept, and what the pass in progress has read is where the pass takes it to be. -/
structure Inv (s : State) : Prop where
  stamped : ∀ t ∈ s.appended, ∃ x, t.stamp = some x
  appended : ∀ t ∈ s.buffer, t ∈ s.appended
  kept : ∀ t ∈ s.appended, t.speaker ≠ .summary → Kept s t
  read : ∀ p, s.pass = some p → ∀ t ∈ p.turns, t ∈ s.appended
  here : ∀ p, s.pass = some p → At s p p.point

variable {s : State} {p : Pass}

theorem mem_unextracted {t : Turn} : t ∈ s.unextracted ↔
    t ∈ readSessionAfter s.buffer s.cursor ∧ t.speaker ≠ .summary := by
  simp [State.unextracted]

theorem mem_buffer_of_mem_unextracted {t : Turn} (h : t ∈ s.unextracted) : t ∈ s.buffer :=
  (mem_readSessionAfter.mp (mem_unextracted.mp h).1).1

/-- A pass that ends leaves every row where it is. -/
theorem Inv.stop (h : Inv s) (backoff : Option Backoff) :
    Inv { s with backoff := backoff, pass := none } :=
  ⟨h.stamped, h.appended, h.kept, fun _ hp => (by cases hp), fun _ hp => (by cases hp)⟩

/-- A statement of the pass keeps the invariant if every row is kept, and the point that the pass
comes to is one that it may be at. -/
theorem Inv.goTo (h : Inv s) (hp : s.pass = some p) (s' : State) (p' : Pass)
    (hturns : p'.turns = p.turns) (happended : s'.appended = s.appended)
    (hbuffer : ∀ t ∈ s'.buffer, t ∈ s.buffer)
    (hkept : ∀ t ∈ s.appended, t.speaker ≠ .summary → Kept s' t) {point : Point}
    (hat : At s' p' point) : Inv (s'.setPoint p' point) := by
  refine ⟨?_, ?_, ?_, ?_, ?_⟩
  · intro t ht
    exact h.stamped t (happended ▸ ht)
  · intro t ht
    show t ∈ s'.appended
    rw [happended]
    exact h.appended t (hbuffer t ht)
  · intro t ht
    exact hkept t (happended ▸ ht)
  · rintro _ ⟨⟩ t ht
    show t ∈ s'.appended
    rw [happended]
    exact h.read p hp t (hturns ▸ ht)
  · rintro _ ⟨⟩
    cases point <;> exact hat

/-- A statement that writes to none of the rows' files. -/
theorem Inv.setPoint (h : Inv s) (hp : s.pass = some p) {point : Point} (hat : At s p point) :
    Inv (s.setPoint p point) :=
  h.goTo hp s p rfl rfl (fun _ ht => ht) h.kept hat

/-- The cursor may move to the end of a chunk if every row that it passes is extracted or set aside.
-/
theorem Inv.writeCursor (h : Inv s) (chunk : TurnChunk)
    (hrows : ∀ t ∈ s.unextracted, t ∈ s.extracted ∨ t ∈ s.poison ∨ After chunk t) :
    ∀ t ∈ s.appended, t.speaker ≠ .summary → Kept (s.writeCursor chunk) t := by
  intro t ht hspeaker
  rcases h.kept t ht hspeaker with hx | hx | hread
  · exact .inl hx
  · exact .inr (.inl hx)
  rcases hrows t (mem_unextracted.mpr ⟨hread, hspeaker⟩) with hx | hx | hafter
  · exact .inl hx
  · exact .inr (.inl hx)
  refine .inr (.inr ?_)
  obtain ⟨hbuf, hcur⟩ := mem_readSessionAfter.mp hread
  refine mem_readSessionAfter.mpr ⟨hbuf, fun c hc => ?_⟩
  cases hx : chunk.cursorTs with
  | none => exact hcur c (by simpa [State.writeCursor, hx] using hc)
  | some x =>
    obtain rfl : x = c := by simpa [State.writeCursor, hx] using hc
    exact hafter x hx

/-- The rows that the pass has not read are newer than the cursor value. -/
theorem after_of_timely {chunk : TurnChunk} {t : Turn}
    (h : (chunk.cursorTs.all fun x => (s.unread p).all fun t => t.stamp.any (x < ·)) = true)
    (ht : t ∈ s.unextracted) (hunread : t ∉ p.turns) : After chunk t := by
  intro x hx
  rw [hx, Option.all_some, List.all_eq_true] at h
  obtain ⟨y, hy, hlt⟩ := (Option.any_eq_true _ _).mp (h t (by simp [State.unread, ht, hunread]))
  exact ⟨y, hy, of_decide_eq_true hlt⟩

/-- The rows of the later chunks are newer than the cursor value of a chunk. -/
theorem after_of_behind {chunk : TurnChunk} {todo : List TurnChunk}
    (h : ∀ d ∈ todo, chunk.Behind d) {t : Turn} (ht : t ∈ todo.flatMap TurnChunk.turns)
    (hstamp : ∃ x, t.stamp = some x) : After chunk t := by
  obtain ⟨d, hd, ht⟩ := List.mem_flatMap.mp ht
  obtain ⟨y, hy⟩ := hstamp
  exact fun x hx => ⟨y, hy, h d hd x hx t ht y hy⟩

/-- The start of a pass keeps the invariant: its chunks have the rows that it reads. -/
theorem Inv.start (h : Inv s) {kind : Kind} {maxChars : ℕ} {userName assistantName : Option Text}
    {s' : State} (hstart : s.start kind maxChars userName assistantName = some s') : Inv s' := by
  have hread : ∀ t ∈ s.unextracted, t ∈ s.appended := fun t ht =>
    h.appended t (mem_buffer_of_mem_unextracted ht)
  have hall : s.unextracted.filter (fun t => t.speaker ≠ .summary) = s.unextracted :=
    List.filter_eq_self.mpr fun t ht => by simpa using (mem_unextracted.mp ht).2
  have hloop : ∀ chunks, chunkTurns maxChars userName assistantName s.unextracted = some chunks →
      Inv { s with pass := some ⟨kind, s.unextracted, chunks, 0, .next⟩ } := by
    intro chunks hc
    refine ⟨h.stamped, h.appended, h.kept, ?_, ?_⟩
    · rintro _ ⟨⟩
      exact hread
    · rintro _ ⟨⟩
      refine ⟨pairwise_chunkTurns hc, fun t ht => .inr ?_⟩
      rwa [flatMap_turns_chunkTurns hc, hall]
  cases kind with
  | snapshot maxChunks =>
    simp only [State.start] at hstart
    split_ifs at hstart
    · obtain rfl := Option.some.inj hstart
      exact h
    · obtain ⟨chunks, hc, rfl⟩ := Option.map_eq_some_iff.mp hstart
      exact hloop chunks hc
  | close =>
    obtain ⟨chunks, hc, rfl⟩ := Option.map_eq_some_iff.mp hstart
    exact hloop chunks hc
  | poison =>
    obtain ⟨chunks, hc, rfl⟩ := Option.map_eq_some_iff.mp hstart
    refine ⟨h.stamped, h.appended, h.kept, ?_, ?_⟩
    · rintro _ ⟨⟩
      exact hread
    · rintro _ ⟨⟩
      cases chunks with
      | nil => trivial
      | cons failing later =>
        -- A row of the span is in the chunk or in a later one; one after the span is newer.
        intro t ht
        obtain ⟨y, hy⟩ := h.stamped t (hread t ht)
        have hspan : t ∈ s.failingSpan → t ∈ failing.turns ∨ After failing t := by
          intro hmem
          have hflat : t ∈ (failing :: later).flatMap TurnChunk.turns := by
            rw [flatMap_turns_chunkTurns hc]
            exact List.mem_filter.mpr ⟨hmem, by simpa using (mem_unextracted.mp ht).2⟩
          rcases List.mem_append.mp (List.flatMap_cons ▸ hflat) with hmem | hmem
          · exact .inl hmem
          · refine .inr (after_of_behind ?_ hmem ⟨y, hy⟩)
            exact (List.pairwise_cons.mp (pairwise_chunkTurns hc)).1
        cases hend : s.backoff.bind Backoff.failingEndTs with
        | none =>
          refine hspan ?_
          rwa [State.failingSpan, hend]
        | some failingEnd =>
          rw [State.failingSpan, hend] at hspan hc
          by_cases hle : y ≤ failingEnd
          · exact hspan (List.mem_filter.mpr ⟨ht, by simp [hy, hle]⟩)
          · refine .inr fun x hx => ⟨y, hy, ?_⟩
            obtain ⟨a, ha, hax⟩ := exists_stamp_of_mem_chunkTurns hc List.mem_cons_self hx
            calc x ≤ failingEnd := by simpa [hax] using (List.mem_filter.mp ha).2
              _ < y := not_le.mp hle

/-- The next statement of a pass keeps the invariant. -/
theorem Inv.advance (h : Inv s) (hp : s.pass = some p) (result : ChunkResult)
    (htimely : Timely s (.pass true result) = true) : Inv (s.advance p result) := by
  have hat := h.here p hp
  simp only [Timely, hp, Option.all_some] at htimely
  unfold State.advance
  cases hpoint : p.point with
  | next =>
    rw [hpoint] at hat
    obtain ⟨hpair, hcov⟩ := hat
    dsimp only
    split
    · rename_i htodo
      split_ifs
      · refine h.setPoint hp fun t ht => ?_
        simpa [htodo] using hcov t ht
      · exact h.stop _
    · rename_i chunk todo htodo
      have hgo : Inv (s.setPoint { p with todo := todo, index := p.index + 1 }
          (.pieces chunk chunk.pieces)) := by
        refine h.goTo hp s { p with todo := todo, index := p.index + 1 } rfl rfl (fun _ ht => ht)
          h.kept ?_
        rw [htodo] at hpair hcov
        exact ⟨hpair, hcov⟩
      split
      · split_ifs
        · exact h.stop _
        · exact hgo
      · exact hgo
  | pieces chunk left =>
    rw [hpoint] at hat
    obtain ⟨hpair, hcov⟩ := hat
    cases left with
    | nil =>
      obtain ⟨hbehind, hpair⟩ := List.pairwise_cons.mp hpair
      have hkept : ∀ t ∈ s.appended, t.speaker ≠ .summary →
          Kept { s with extracted := s.extracted ++ chunk.turns } t := fun t ht hspeaker =>
        (h.kept t ht hspeaker).imp_left (List.mem_append_left _)
      have hcov' : Covered { s with extracted := s.extracted ++ chunk.turns } p p.todo := by
        refine ⟨hpair, fun t ht => ?_⟩
        rcases hcov t ht with hx | hx
        · exact .inl (List.mem_append_left _ hx)
        · rw [List.flatMap_cons, List.mem_append] at hx
          exact hx.imp_left (List.mem_append_right _)
      have hgo : ∀ point, At { s with extracted := s.extracted ++ chunk.turns } p point →
          Inv ({ s with extracted := s.extracted ++ chunk.turns }.setPoint p point) := fun _ hat =>
        h.goTo hp { s with extracted := s.extracted ++ chunk.turns } p rfl rfl (fun _ ht => ht) hkept hat
      dsimp only
      split_ifs
      · exact hgo (.cursor chunk) ⟨hcov', hbehind⟩
      · exact hgo (.clear chunk) ⟨hcov', hbehind⟩
    | cons text left =>
      cases result with
      | ok => exact h.setPoint hp ⟨hpair, hcov⟩
      | deferred => exact h.stop _
      | failed | commitFailed =>
        dsimp only
        split_ifs
        · exact h.stop _
        · exact h.setPoint hp trivial
  | record chunk => exact h.stop _
  | clear chunk =>
    rw [hpoint] at hat
    exact h.goTo hp { s with backoff := none } p rfl rfl (fun _ ht => ht) h.kept hat
  | cursor chunk =>
    rw [hpoint] at hat htimely
    obtain ⟨hcov, hbehind⟩ := hat
    refine h.goTo hp (s.writeCursor chunk) p rfl rfl (fun _ ht => ht) (h.writeCursor chunk fun t ht => ?_) hcov
    by_cases hread : t ∈ p.turns
    · rcases hcov.2 t hread with hx | hx
      · exact .inl hx
      · exact .inr (.inr (after_of_behind hbehind hx (h.stamped t (h.read p hp t hread))))
    · exact .inr (.inr (after_of_timely htimely ht hread))
  | late =>
    rw [hpoint] at hat htimely
    dsimp only
    split_ifs with hlate
    · refine h.setPoint hp fun t ht hspeaker => ?_
      rcases h.kept t (h.appended t ht) hspeaker with hx | hx | hread
      · exact .inl hx
      · exact .inr hx
      have hmem : t ∈ s.unextracted := mem_unextracted.mpr ⟨hread, hspeaker⟩
      -- A row that was not read is like no row that was, so it is late.
      by_cases hturn : t ∈ p.turns
      · exact .inl (hat t hturn)
      · have hunlike : t.identity ∉ p.turns.map Turn.identity := by
          rw [List.all_eq_true] at htimely
          simpa using htimely t (by simp [State.unread, hmem, hturn])
        have : t ∈ s.lateRows p := by
          unfold State.lateRows
          exact List.mem_filter.mpr ⟨hmem, by simpa using hunlike⟩
        rw [hlate] at this
        cases this
    · exact h.stop _
  | archive =>
    rw [hpoint] at hat
    exact h.setPoint hp hat
  | confirm rows =>
    rw [hpoint] at hat
    dsimp only
    split_ifs
    · exact h.setPoint hp hat
    · exact h.stop _
  | removeBuffer =>
    rw [hpoint] at hat
    refine h.goTo hp { s with buffer := [] } p rfl rfl (by simp) ?_ trivial
    intro t ht hspeaker
    rcases h.kept t ht hspeaker with hx | hx | hread
    · exact .inl hx
    · exact .inr (.inl hx)
    · rcases hat t (mem_readSessionAfter.mp hread).1 hspeaker with hx | hx
      · exact .inl hx
      · exact .inr (.inl hx)
  | removeCursor =>
    refine h.goTo hp { s with cursor := none } p rfl rfl (fun _ ht => ht) ?_ trivial
    intro t ht hspeaker
    refine (h.kept t ht hspeaker).imp_right (Or.imp_right fun hread => ?_)
    exact (mem_readSessionAfter.mp hread).1
  | removeBackoff => exact h.stop _
  | setAside chunk =>
    rw [hpoint] at hat
    refine h.goTo hp { s with poison := s.poison ++ chunk.turns } p rfl rfl (fun _ ht => ht) ?_ ?_
    · intro t ht hspeaker
      exact (h.kept t ht hspeaker).imp_right (Or.imp_left (List.mem_append_left _))
    · exact fun t ht => (hat t ht).imp_left (List.mem_append_right _)
  | setAsideCursor chunk =>
    rw [hpoint] at hat htimely
    refine h.goTo hp (s.writeCursor chunk) p rfl rfl (fun _ ht => ht) (h.writeCursor chunk fun t ht => ?_) trivial
    by_cases hread : t ∈ p.turns
    · exact .inr (hat t hread)
    · exact .inr (.inr (after_of_timely htimely ht hread))
  | setAsideBackoff => exact h.stop _

/-- The next statement of a pass that fails keeps the invariant. -/
theorem Inv.fail (h : Inv s) (hp : s.pass = some p) : Inv (s.fail p) := by
  unfold State.fail
  split
  · rename_i chunk hpoint
    have hat := h.here p hp
    rw [hpoint] at hat
    exact h.setPoint hp hat.1
  · exact h.stop _

/-- A row that is appended is after the cursor. -/
theorem Inv.append (h : Inv s) (hlocked : s.pass.any (·.point.locked) = false) {turn : Turn}
    {now : Instant} (hstamp : turn.stamp = some now) (htimely : s.cursor.all (· < now) = true) :
    Inv (s.append turn) := by
  refine ⟨?_, ?_, ?_, ?_, ?_⟩
  · intro t ht
    rcases List.mem_append.mp ht with ht | ht
    · exact h.stamped t ht
    · rw [List.mem_singleton.mp ht]
      exact ⟨now, hstamp⟩
  · intro t ht
    rcases List.mem_append.mp ht with ht | ht
    · exact List.mem_append_left _ (h.appended t ht)
    · exact List.mem_append_right _ ht
  · intro t ht hspeaker
    rcases List.mem_append.mp ht with ht | ht
    · refine (h.kept t ht hspeaker).imp_right (Or.imp_right fun hread => ?_)
      obtain ⟨hbuf, hcur⟩ := mem_readSessionAfter.mp hread
      exact mem_readSessionAfter.mpr ⟨List.mem_append_left _ hbuf, hcur⟩
    · obtain rfl := List.mem_singleton.mp ht
      refine .inr (.inr (mem_readSessionAfter.mpr ⟨List.mem_append_right _ ht, fun c hc => ?_⟩))
      have hc : s.cursor = some c := hc
      exact ⟨now, hstamp, by simpa [hc] using htimely⟩
  · intro p hp t ht
    exact List.mem_append_left _ (h.read p hp t ht)
  · intro p hp
    have hp : s.pass = some p := hp
    have hat := h.here p hp
    have hfree : p.point.locked = false := by simpa [hp] using hlocked
    -- Only what holds under the append lock is about the buffer.
    cases hpoint : p.point <;> rw [hpoint] at hat hfree <;> first | exact hat | cases hfree

/-- Every step that is timely keeps the invariant. -/
theorem Inv.step (h : Inv s) {a : Act} {s' : State} (ha : Timely s a = true)
    (hstep : machine.step s a = some s') : Inv s' := by
  cases a with
  | tick t =>
    simp only [machine] at hstep
    split_ifs at hstep
    obtain rfl := Option.some.inj hstep
    refine ⟨h.stamped, h.appended, h.kept, h.read, fun p hp => ?_⟩
    have hat := h.here p hp
    cases hpoint : p.point <;> rw [hpoint] at hat <;> exact hat
  | append speaker text imageShas =>
    simp only [machine] at hstep
    split_ifs at hstep with hlocked
    obtain rfl := Option.some.inj hstep
    exact h.append (eq_false_of_ne_true hlocked) (stamp_ingestTurn _ _ _ _ _) ha
  | start kind maxChars userName assistantName =>
    simp only [machine] at hstep
    split_ifs at hstep
    exact h.start hstep
  | pass succeeds result =>
    obtain ⟨p, hp, rfl⟩ := Option.map_eq_some_iff.mp hstep
    split_ifs with hs
    · exact h.advance hp result (hs ▸ ha)
    · exact h.fail hp
  | abort =>
    obtain rfl := Option.some.inj hstep
    exact h.stop _

/-! ## No row escapes -/

/-- In a run of timely steps every row is kept, and when a close is to delete the buffer every row
of it was extracted or set aside. -/
theorem rows_kept {s : State} (h : machine.Reach (fun s a => Timely s a = true) s) :
    (∀ t ∈ s.appended, t.speaker ≠ .summary → Kept s t) ∧
      ∀ p, s.pass = some p → p.point = .removeBuffer →
        ∀ t ∈ s.buffer, t.speaker ≠ .summary → t ∈ s.extracted ∨ t ∈ s.poison := by
  have hinv : Inv s := by
    refine h.invariant ?_ fun _ _ _ hI ha hstep => hI.step ha hstep
    rintro s ⟨hbuffer, -, -, -, hpass, happended, -⟩
    exact ⟨by simp [happended], by simp [hbuffer], by simp [happended], by simp [hpass],
      by simp [hpass]⟩
  refine ⟨hinv.kept, fun p hp hpoint => ?_⟩
  have hat := hinv.here p hp
  rwa [hpoint] at hat

/-- A session without a row. -/
def noRows : State where
  clock := 0
  buffer := []
  cursor := none
  backoff := none
  poison := []
  pass := none
  appended := []
  extracted := []

theorem noRows_init : machine.init noRows := ⟨rfl, rfl, rfl, rfl, rfl, rfl, rfl⟩

/-- The user says something. -/
def said (text : String) : Act := .append .user text.toList []

/-- A pass of that many statements, each of which succeeds. -/
def passOf (kind : Kind) (statements : ℕ) : List Act :=
  .start kind 24000 none none :: List.replicate statements (.pass true .ok)

instance (s : State) (t : Turn) : Decidable (Kept s t) :=
  inferInstanceAs (Decidable (_ ∨ _ ∨ _))

/-- A row, a snapshot of it, a later row, and a close that comes to delete the buffer. -/
theorem rows_kept_close : ∃ s : State, s.buffer.length = 2 ∧
    ∀ t ∈ s.buffer, t.speaker ≠ .summary → t ∈ s.extracted ∨ t ∈ s.poison := by
  obtain ⟨s, hs, hp⟩ := Machine.exists_reach_of_runWithin (M := machine)
    (D := fun s a => Timely s a = true) (fun _ _ h => h) noRows_init
    (said "hello" :: passOf (.snapshot none) 6 ++ .tick 1000000 :: said "are you there" ::
      passOf .close 8)
    (fun s => s.buffer.length = 2 ∧ s.pass.any (·.point = .removeBuffer)) (by decide +kernel)
  obtain ⟨hlen, hpass⟩ : s.buffer.length = 2 ∧ s.pass.any (·.point = .removeBuffer) = true := by
    simpa using hp
  obtain ⟨p, hp, hpoint⟩ := (Option.any_eq_true _ _).mp hpass
  exact ⟨s, hlen, (rows_kept hs).2 p hp (of_decide_eq_true hpoint)⟩

/-- A row that is appended in the second of the last row that a snapshot read is not after the
cursor that the snapshot writes, so that no later pass reads it. -/
theorem row_escapes : ∃ (s : State) (t : Turn), machine.Reachable s ∧ t ∈ s.appended ∧
    t.speaker ≠ .summary ∧ ¬Kept s t := by
  obtain ⟨s, hs, hp⟩ := Machine.exists_reach_of_runWithin (M := machine) (D := fun _ _ => True)
    (fun _ _ h => h) noRows_init
    (said "hello" :: .start (.snapshot none) 24000 none none :: said "are you there" ::
      .tick 5000000 :: List.replicate 6 (.pass true .ok))
    (fun s => s.appended.any fun t => t.speaker ≠ .summary ∧ ¬Kept s t) (by decide +kernel)
  obtain ⟨t, ht, hlost⟩ := List.any_eq_true.mp hp
  obtain ⟨hspeaker, hkept⟩ := of_decide_eq_true hlost
  exact ⟨s, t, hs, ht, hspeaker, hkept⟩

end Companion.Ingest.Extraction

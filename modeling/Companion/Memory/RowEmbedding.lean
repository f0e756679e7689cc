import Companion.Memory.EmbeddingMatrix
import Mathlib

/-!
# Rows and the vectors that describe them

The operations of `MemoryStore` that write the content or the embedding of a row, run by any number
of threads on connections of their own, one commit or one call of the warm matrix at a time. A
change of the content is a commit that sets the embedding to `NULL`, an eviction, and a second
commit with the new text's vector, with the model's call between them (`_reembed_or_clear`). The
backfill and the promotion of a candidate call `embed_row` with a content that they read before.

The vector's write names its row by the id alone. Where every such write meets the content that it
embeds, a row's vector describes its content, and an idle process's matrix holds vectors of rows
only (`vectors_describe_rows`). A backfill that read the content from before a change breaks the
first (`stale_backfill`), which `_reembed_or_clear` rules out.
-/

namespace Companion.Memory.RowEmbedding

open Companion.Runs
open EmbeddingMatrix (Matrix)

/-- An embedding provider: a function of the model and the text, of one dimension for each model. -/
structure Provider where
  embed : ModelId → Text → Vec
  dim : ModelId → ℕ
  length_embed : ∀ m t, (embed m t).length = dim m

/-- Where a thread is between two statements. -/
inductive Phase
  | idle
  /-- `fade` has read that the row is not fading; its update is next. -/
  | fading (id : MemoryId) (summary : Text)
  /-- `unfade` has read the snapshot; its update is next. -/
  | unfading (id : MemoryId) (restored : Text)
  /-- A new content is committed; the eviction is next, and then the embedding of `text`. -/
  | evicting (id : MemoryId) (text : Text)
  /-- `embed_row` computes the vector of `text`; its write is next. A failure is followed by the
  clearing if the call is that of `_reembed_or_clear`. -/
  | embedding (id : MemoryId) (text : Text) (orClear : Bool)
  /-- The vector is committed; the put is next. -/
  | putting (id : MemoryId) (v : Vec)
  /-- The clearing of `_reembed_or_clear` is next. -/
  | clearing (id : MemoryId)
  /-- The embedding is cleared; the eviction is next. -/
  | evictingCleared (id : MemoryId)
  deriving DecidableEq

/-- The row for which the thread has a call of the matrix to make. -/
def Phase.tended : Phase → Option MemoryId
  | .evicting id _ | .embedding id _ true | .putting id _ | .clearing id | .evictingCleared id =>
    some id
  | _ => none

/-- The table, the warm matrix of the process, its model, and its threads. -/
structure State where
  rows : Dict MemoryId Row
  matrix : Matrix
  model : ModelId
  phase : ℕ → Phase

/-- A step: a thread's first statement of an operation, its next statement, which may fail, a lazy
build, or the end of the process and its restart. -/
inductive Act
  /-- `create`, and then `embed_row` on the new row where `embed` is set. -/
  | create (c : ℕ) (id : MemoryId) (content : Text) (active : Bool) (t : Instant) (embed : Bool)
  /-- Read a row's content, to call `embed_row` with it. -/
  | read (c : ℕ) (id : MemoryId)
  | update (c : ℕ) (id : MemoryId) (content : Text)
  | fade (c : ℕ) (id : MemoryId) (summary : Text)
  | unfade (c : ℕ) (id : MemoryId)
  | refresh (c : ℕ) (id : MemoryId) (t : Instant)
  | next (c : ℕ) (succeeds : Bool)
  | ensureBuilt
  | crash (model : ModelId)
  deriving DecidableEq

section Machine

variable (P : Provider) (cal : Text.Calendar)

namespace State

/-- Move one thread to a phase. -/
def setPhase (s : State) (c : ℕ) (p : Phase) : State :=
  { s with phase := Function.update s.phase c p }

/-- The first statement of an operation on the row that is there. A thread is between operations
there, and an unknown id raises. -/
def begin (s : State) (c : ℕ) (id : MemoryId) (f : Row → State) : Option State :=
  if s.phase c = .idle then some ((s.rows.get? id).elim s f) else none

/-- A statement of a thread that commits a row, after which the thread is in the phase `p`. -/
def commit (s : State) (c : ℕ) (id : MemoryId) (f : Row → Row) (p : Phase) : State :=
  { s.setPhase c p with rows := updateRow s.rows id f }

/-- The next statement of a thread. -/
def next (s : State) (c : ℕ) (succeeds : Bool) : State :=
  match s.phase c, succeeds with
  | .idle, _ => s
  | .fading id summary, true => s.commit c id (.fade summary) (.evicting id summary)
  | .unfading id restored, true =>
    -- The update copies the snapshot that the row has by now, and fails where it has none.
    match (s.rows.get? id).bind Row.unfade with
    | some r => s.commit c id (fun _ => r) (.evicting id restored)
    | none => s.setPhase c .idle
  | .evicting id text, true =>
    { s.setPhase c (.embedding id text true) with matrix := s.matrix.evict id }
  | .evicting id text, false => s.setPhase c (.embedding id text true)
  | .embedding id text _, true =>
    s.commit c id (.writeEmbedding (P.embed s.model text) s.model)
      (.putting id (P.embed s.model text))
  | .embedding id _ true, false => s.setPhase c (.clearing id)
  | .putting id v, true => { s.setPhase c .idle with matrix := s.matrix.put id v s.model }
  | .clearing id, true => s.commit c id .clearEmbedding (.evictingCleared id)
  | .evictingCleared id, true => { s.setPhase c .idle with matrix := s.matrix.evict id }
  | _, false => s.setPhase c .idle

/-- A lazy build whose scan and swap are at one moment. -/
def ensureBuilt (s : State) : State :=
  if s.matrix.built then s
  else
    { s with
      matrix := ((s.matrix.startBuild none).swap ⟨none, s.model, none⟩
        (s.rows.filterMap fun _ => Row.vectorUnder s.model)).leaveBuild 0 }

end State

/-- The vector of a row, if it has one, is that of its content under its model. -/
def Describes (r : Row) : Prop :=
  ∀ blob, r.embedding = some blob →
    ∃ m, r.embeddingModelId = some m ∧ blob = tobytes (P.embed m r.content)

/-- The operations on the rows of one process. A process starts with an unbuilt matrix. -/
def machine : Machine State Act where
  init s := s.matrix = .new s.model ∧ (∀ c, s.phase c = .idle) ∧
    ∀ id r, s.rows.get? id = some r → Describes P r
  step s
    | .create c id content active t embed =>
      if s.phase c = .idle ∧ s.rows.get? id = none then
        some { s.setPhase c (if embed then .embedding id content false else .idle) with
          rows := s.rows.set id (.created content active t 0) }
      else none
    | .read c id => s.begin c id fun r => s.setPhase c (.embedding id r.content false)
    | .update c id content =>
      s.begin c id fun _ => s.commit c id (.updateContent content) (.evicting id content)
    | .fade c id summary =>
      s.begin c id fun r =>
        if r.state = .fading then s else s.setPhase c (.fading id summary)
    | .unfade c id =>
      s.begin c id fun r =>
        match r.contentSnapshot with
        | some snapshot => s.setPhase c (.unfading id snapshot)
        | none => s
    | .refresh c id t =>
      s.begin c id fun r =>
        s.commit c id (.refreshFadedEmotions cal t)
          (if r.content.withDatePrefix cal r.createdAt = r.content then .idle
          else .evicting id (r.content.withDatePrefix cal r.createdAt))
    | .next c succeeds => some (s.next P c succeeds)
    | .ensureBuilt => some s.ensureBuilt
    | .crash model => some { s with matrix := .new model, model := model, phase := fun _ => .idle }

end Machine

/-- The matrix holds no vector for the row, or that of the row, which is active. -/
def State.Agrees (s : State) (id : MemoryId) : Prop :=
  ∀ v, s.matrix.vectors.get? id = some v → (s.rows.get? id).bind Row.vector? = some v

/-- A vector is written to the row whose content it embeds. -/
def WritesCurrent (s : State) : Act → Prop
  | .next c true =>
    match s.phase c with
    | .embedding id text _ => ∀ r ∈ s.rows.get? id, r.content = text
    | _ => True
  | _ => True

/-- No other thread has a call of the matrix to make for the row. -/
def State.Alone (s : State) (c : ℕ) (id : MemoryId) : Prop :=
  ∀ c', c' ≠ c → (s.phase c').tended ≠ some id

/-- The last thread to make a call of the matrix for a row puts the vector that the row has, evicts,
or, where its call does not come to pass, leaves an entry that agrees with the row. -/
def LeavesAgreeing (s : State) : Act → Prop
  | .next c succeeds =>
    match s.phase c, succeeds with
    | .putting id v, true => s.Alone c id → (s.rows.get? id).bind Row.vector? = some v
    | .putting id _, false | .clearing id, false | .evictingCleared id, false =>
      s.Alone c id → s.Agrees id
    | _, _ => True
  | _ => True

/-! ## The invariant -/

section Invariant

variable (P : Provider)

/-- Every vector of a row describes it, and off the rows that a thread tends the matrix agrees with
the table. -/
structure Inv (s : State) : Prop where
  describes : ∀ id r, s.rows.get? id = some r → Describes P r
  /-- No build is in flight. -/
  quiet : s.matrix.modelId = s.model ∧ s.matrix.buildDepth = 0 ∧ s.matrix.pending = ∅
  dims : ∀ d, s.matrix.expectedDim = some d → d = P.dim s.model
  puts : ∀ c id v, s.phase c = .putting id v → v.length = P.dim s.model
  warm : ∀ id, (∀ c, (s.phase c).tended ≠ some id) → s.Agrees id

variable {P} {s : State}

/-- A row without an embedding is described. -/
theorem describes_of_embedding_eq_none {r : Row} (h : r.embedding = none) : Describes P r := by
  intro blob hb
  rw [h] at hb
  cases hb

/-- The vector of a described row is that of its content. -/
theorem Describes.vector? {r : Row} (h : Describes P r) {v : Vec} (hv : r.vector? = some v) :
    r.active = true ∧ ∃ m, r.embeddingModelId = some m ∧ v = P.embed m r.content := by
  unfold Row.vector? at hv
  split_ifs at hv with hactive
  obtain ⟨blob, hblob, hdec⟩ := Option.bind_eq_some_iff.mp hv
  obtain ⟨m, hm, rfl⟩ := h blob hblob
  rw [frombuffer_tobytes] at hdec
  exact ⟨hactive, m, hm, (Option.some.inj hdec).symm⟩

/-- A statement of the thread `c` on the row `id`: the rest of the table and of the matrix is as it
was, and the row agrees with the matrix once no thread tends it. -/
theorem Inv.move (h : Inv P s) {c : ℕ} (id : MemoryId) {p : Phase}
    {rows : Dict MemoryId Row} {matrix : Matrix}
    (hdescribes : ∀ id r, rows.get? id = some r → Describes P r)
    (hquiet : matrix.modelId = s.model ∧ matrix.buildDepth = 0 ∧ matrix.pending = ∅)
    (hdims : ∀ d, matrix.expectedDim = some d → d = P.dim s.model)
    (hputs : ∀ id v, p = .putting id v → v.length = P.dim s.model)
    (hc : (s.phase c).tended ∈ [none, some id])
    (hothers : ∀ id', id' ≠ id →
      rows.get? id' = s.rows.get? id' ∧ matrix.vectors.get? id' = s.matrix.vectors.get? id')
    (hid : p.tended ≠ some id → s.Alone c id → ∀ v,
      matrix.vectors.get? id = some v → (rows.get? id).bind Row.vector? = some v) :
    Inv P ⟨rows, matrix, s.model, Function.update s.phase c p⟩ := by
  refine ⟨hdescribes, hquiet, hdims, ?_, ?_⟩
  · intro c' id' v hp
    by_cases hcc : c' = c
    · subst hcc
      exact hputs id' v (by simpa using hp)
    · exact h.puts c' id' v (by simpa [Function.update_of_ne hcc] using hp)
  · intro id' hnot
    have hrest : s.Alone c id' := by
      intro c' hcc
      simpa [Function.update_of_ne hcc] using hnot c'
    by_cases heq : id' = id
    · subst heq
      exact hid (by simpa using hnot c) hrest
    · obtain ⟨hrow, hvec⟩ := hothers id' heq
      have hall : ∀ c', (s.phase c').tended ≠ some id' := by
        intro c'
        by_cases hcc : c' = c
        · subst hcc
          rcases List.mem_pair.mp hc with hc | hc
          · simp [hc]
          · simpa [hc] using Ne.symm heq
        · exact hrest c' hcc
      intro v hv
      show (rows.get? id').bind Row.vector? = some v
      rw [hrow]
      exact h.warm id' hall v (hvec ▸ hv)

/-- A thread that moves without a statement. -/
theorem Inv.setPhase (h : Inv P s) {c : ℕ} {p : Phase} (id : MemoryId)
    (hputs : ∀ id v, p ≠ .putting id v) (hc : (s.phase c).tended ∈ [none, some id])
    (hid : p.tended ≠ some id → s.Alone c id → s.Agrees id) : Inv P (s.setPhase c p) :=
  h.move id h.describes h.quiet h.dims (fun id v hp => absurd hp (hputs id v)) hc
    (fun _ _ => ⟨rfl, rfl⟩) hid

/-- Where a thread tends no row, those that no other thread tends agree with the matrix. -/
theorem Inv.agrees (h : Inv P s) {c : ℕ} {id : MemoryId} (hc : (s.phase c).tended = none)
    (hrest : s.Alone c id) : s.Agrees id := by
  refine h.warm id fun c' => ?_
  by_cases hcc : c' = c
  · simp [hcc, hc]
  · exact hrest c' hcc

/-- A thread that tends no row moves without a statement. -/
theorem Inv.setPhase_of_tended (h : Inv P s) {c : ℕ} {p : Phase}
    (hputs : ∀ id v, p ≠ .putting id v) (hc : (s.phase c).tended = none) :
    Inv P (s.setPhase c p) :=
  h.setPhase 0 hputs (by simp [hc]) fun _ => h.agrees hc

/-- A thread commits a row that it goes on to tend. -/
theorem Inv.commit (h : Inv P s) {c : ℕ} {id : MemoryId} {f : Row → Row} {p : Phase}
    (hf : ∀ r, s.rows.get? id = some r → Describes P (f r)) (hp : p.tended = some id)
    (hputs : ∀ id v, p = .putting id v → v.length = P.dim s.model)
    (hc : (s.phase c).tended ∈ [none, some id]) : Inv P (s.commit c id f p) := by
  refine h.move id ?_ h.quiet h.dims hputs hc ?_ fun hnot => absurd hp hnot
  · intro id' r hr
    rw [get?_updateRow] at hr
    split_ifs at hr with heq
    · obtain ⟨r', hr', rfl⟩ := Option.map_eq_some_iff.mp hr
      exact hf r' hr'
    · exact h.describes id' r hr
  · intro id' hne
    exact ⟨by rw [get?_updateRow, if_neg hne], rfl⟩

/-- A thread evicts a row. -/
theorem Inv.evict (h : Inv P s) {c : ℕ} {id : MemoryId} {p : Phase}
    (hputs : ∀ id v, p ≠ .putting id v) (hc : (s.phase c).tended ∈ [none, some id]) :
    Inv P { s.setPhase c p with matrix := s.matrix.evict id } := by
  refine h.move id h.describes ?_ h.dims (fun id v hp => absurd hp (hputs id v)) hc ?_ ?_
  · obtain ⟨hm, hd, hp⟩ := h.quiet
    exact ⟨hm, hd, by simp [Matrix.evict, hd, hp]⟩
  · intro id' hne
    refine ⟨rfl, ?_⟩
    show (s.matrix.vectors.pop id).get? id' = _
    rw [Dict.get?_pop, if_neg hne]
  · intro _ _ v hv
    have hv' : (s.matrix.vectors.pop id).get? id = some v := hv
    rw [Dict.get?_pop, if_pos rfl] at hv'
    cases hv'

/-- A thread puts the vector of a row. -/
theorem Inv.put (h : Inv P s) {c : ℕ} {id : MemoryId} {v : Vec} (hc : s.phase c = .putting id v)
    (hv : s.Alone c id → (s.rows.get? id).bind Row.vector? = some v) :
    Inv P { s.setPhase c .idle with matrix := s.matrix.put id v s.model } := by
  obtain ⟨hm, hd, hp⟩ := h.quiet
  have hlen := h.puts c id v hc
  -- The matrix holds vectors of the one dimension, so the vector is not rejected.
  have hrej : ¬s.matrix.Rejects v := by
    rintro ⟨d, hdim, hne⟩
    exact hne ((h.dims d hdim).trans hlen.symm)
  have hput : s.matrix.put id v s.model =
      { s.matrix with expectedDim := some v.length, vectors := s.matrix.vectors.set id v } := by
    unfold Matrix.put
    rw [if_neg hrej, if_neg (by omega)]
  rw [hput]
  refine h.move id h.describes ⟨hm, hd, hp⟩ ?_ (by simp) (by simp [hc, Phase.tended]) ?_ ?_
  · rintro d ⟨⟩
    exact hlen
  · intro id' hne
    refine ⟨rfl, ?_⟩
    show (s.matrix.vectors.set id v).get? id' = _
    rw [Dict.get?_set, if_neg hne]
  · intro _ hrest w hw
    have hw' : (s.matrix.vectors.set id v).get? id = some w := hw
    rw [Dict.get?_set, if_pos rfl] at hw'
    exact (hv hrest).trans hw'

/-- Every next statement of a thread keeps the invariant. -/
theorem Inv.next (h : Inv P s) {c : ℕ} {succeeds : Bool}
    (hw : WritesCurrent s (.next c succeeds)) (hl : LeavesAgreeing s (.next c succeeds)) :
    Inv P (s.next P c succeeds) := by
  unfold LeavesAgreeing at hl
  dsimp only at hl
  unfold State.next
  cases hphase : s.phase c with
  | idle => exact h
  | fading id summary =>
    cases succeeds with
    | false => exact h.setPhase_of_tended (by simp) (by rw [hphase]; rfl)
    | true =>
      exact h.commit (fun r _ => describes_of_embedding_eq_none rfl) rfl (by simp)
        (by simp [hphase, Phase.tended])
  | unfading id restored =>
    cases succeeds with
    | false => exact h.setPhase_of_tended (by simp) (by rw [hphase]; rfl)
    | true =>
      dsimp only
      cases hr : (s.rows.get? id).bind Row.unfade with
      | none => exact h.setPhase_of_tended (by simp) (by rw [hphase]; rfl)
      | some r =>
        refine h.commit (fun _ _ => ?_) rfl (by simp) (by simp [hphase, Phase.tended])
        obtain ⟨r', -, hr'⟩ := Option.bind_eq_some_iff.mp hr
        obtain ⟨snapshot, -, rfl⟩ := Option.map_eq_some_iff.mp hr'
        exact describes_of_embedding_eq_none rfl
  | evicting id text =>
    have hc : (s.phase c).tended ∈ [none, some id] := by simp [hphase, Phase.tended]
    cases succeeds with
    | false => exact h.setPhase id (by simp) hc fun hnot => absurd rfl hnot
    | true => exact h.evict (by simp) hc
  | embedding id text orClear =>
    cases succeeds with
    | false =>
      cases orClear with
      | false => exact h.setPhase_of_tended (by simp) (by rw [hphase]; rfl)
      | true =>
        exact h.setPhase id (by simp) (by simp [hphase, Phase.tended]) fun hnot => absurd rfl hnot
    | true =>
      refine h.commit (fun r hr => ?_) rfl ?_ ?_
      · -- The row's content is the one that the vector is of.
        simp only [WritesCurrent, hphase] at hw
        have hcontent := hw r hr
        rintro blob ⟨⟩
        exact ⟨s.model, rfl, by simp [Row.writeEmbedding, hcontent]⟩
      · rintro _ _ ⟨⟩
        exact P.length_embed _ _
      · rw [hphase]
        cases orClear <;> simp [Phase.tended]
  | putting id v =>
    rw [hphase] at hl
    cases succeeds with
    | false => exact h.setPhase id (by simp) (by simp [hphase, Phase.tended]) fun _ => hl
    | true => exact h.put hphase hl
  | clearing id =>
    rw [hphase] at hl
    have hc : (s.phase c).tended ∈ [none, some id] := by simp [hphase, Phase.tended]
    cases succeeds with
    | false => exact h.setPhase id (by simp) hc fun _ => hl
    | true => exact h.commit (fun r _ => describes_of_embedding_eq_none rfl) rfl (by simp) hc
  | evictingCleared id =>
    rw [hphase] at hl
    have hc : (s.phase c).tended ∈ [none, some id] := by simp [hphase, Phase.tended]
    cases succeeds with
    | false => exact h.setPhase id (by simp) hc fun _ => hl
    | true => exact h.evict (by simp) hc

/-- The first statement of an operation keeps the invariant if it does so on a row that is there. -/
theorem Inv.begin (h : Inv P s) {c : ℕ} {id : MemoryId} {f : Row → State} {s' : State}
    (hstep : s.begin c id f = some s')
    (hf : (s.phase c).tended = none → ∀ r, s.rows.get? id = some r → Inv P (f r)) : Inv P s' := by
  unfold State.begin at hstep
  split_ifs at hstep with hc
  obtain rfl := Option.some.inj hstep
  cases hr : s.rows.get? id with
  | none => exact h
  | some r => exact hf (by rw [hc]; rfl) r hr

/-- A new row is not embedded, and the matrix has nothing at its id. -/
theorem Inv.create (h : Inv P s) {c : ℕ} {id : MemoryId} {r : Row} {p : Phase}
    (hc : (s.phase c).tended = none) (hnew : s.rows.get? id = none) (hr : r.embedding = none)
    (hputs : ∀ id v, p ≠ .putting id v) :
    Inv P { s.setPhase c p with rows := s.rows.set id r } := by
  refine h.move id ?_ h.quiet h.dims (fun id v hp => absurd hp (hputs id v)) (by simp [hc])
    ?_ ?_
  · intro id' r' hr'
    rw [Dict.get?_set] at hr'
    split_ifs at hr' with heq
    · obtain rfl := Option.some.inj hr'
      exact describes_of_embedding_eq_none hr
    · exact h.describes id' r' hr'
  · intro id' hne
    refine ⟨?_, rfl⟩
    show (s.rows.set id r).get? id' = _
    rw [Dict.get?_set, if_neg hne]
  · intro _ hrest v hv
    have hnone := h.agrees hc hrest v hv
    rw [hnew] at hnone
    cases hnone

/-- A write-back that leaves the text leaves the vector. -/
theorem Inv.refresh (h : Inv P s) {c : ℕ} {id : MemoryId} {r : Row} (cal : Text.Calendar)
    (t : Instant) (hc : (s.phase c).tended = none) (hr : s.rows.get? id = some r) :
    Inv P (s.commit c id (.refreshFadedEmotions cal t)
      (if r.content.withDatePrefix cal r.createdAt = r.content then .idle
        else .evicting id (r.content.withDatePrefix cal r.createdAt))) := by
  split_ifs with hsame
  · have hrefresh : r.refreshFadedEmotions cal t = { r with
        createdAt := t
        contentSnapshot := r.contentSnapshot.map (·.withDatePrefix cal r.createdAt) } := by
      simp only [Row.refreshFadedEmotions, hsame, if_true]
    refine h.move id ?_ h.quiet h.dims (by simp) (by simp [hc]) ?_ ?_
    · intro id' r' hr'
      rw [get?_updateRow] at hr'
      split_ifs at hr' with heq
      · rw [hr, Option.map_some, hrefresh] at hr'
        obtain rfl := Option.some.inj hr'
        exact h.describes id r hr
      · exact h.describes id' r' hr'
    · intro id' hne
      exact ⟨by rw [get?_updateRow, if_neg hne], rfl⟩
    · intro _ hrest v hv
      have hrow := h.agrees hc hrest v hv
      rw [get?_updateRow, if_pos rfl, hr, Option.map_some, hrefresh]
      rwa [hr] at hrow
  · refine h.commit (fun r' hr' => ?_) rfl (by simp) (by simp [hc])
    obtain rfl : r = r' := Option.some.inj (hr.symm.trans hr')
    refine describes_of_embedding_eq_none ?_
    simp only [Row.refreshFadedEmotions, if_neg hsame]
    rfl

/-- A lazy build loads vectors that the rows have. -/
theorem Inv.ensureBuilt (h : Inv P s) : Inv P s.ensureBuilt := by
  unfold State.ensureBuilt
  split_ifs
  · exact h
  · obtain ⟨hm, hd, hp⟩ := h.quiet
    have hload : ∀ id v, (s.rows.filterMap fun _ => Row.vectorUnder s.model).get? id = some v →
        ∃ r, s.rows.get? id = some r ∧ r.embeddingModelId = some s.model ∧ r.vector? = some v := by
      intro id v hv
      rw [Dict.get?_filterMap] at hv
      obtain ⟨r, hr, hvr⟩ := Option.bind_eq_some_iff.mp hv
      unfold Row.vectorUnder at hvr
      split_ifs at hvr with hm
      exact ⟨r, hr, hm, hvr⟩
    have hvec : ∀ id, (Dict.overlay (s.rows.filterMap fun _ => Row.vectorUnder s.model)
        s.matrix.pending EmbeddingMatrix.Entry.value).get? id =
          (s.rows.filterMap fun _ => Row.vectorUnder s.model).get? id := by
      intro id
      rw [Dict.get?_overlay, hp, Dict.get?_empty]
    refine ⟨h.describes, ⟨hm, ?_, ?_⟩, ?_, h.puts, ?_⟩
    · show s.matrix.buildDepth + 1 - 1 = 0
      omega
    · exact if_pos (by show s.matrix.buildDepth + 1 - 1 = 0; omega)
    · -- The dimension is that of the first vector loaded, or as it was.
      intro d hdim
      rcases EmbeddingMatrix.Matrix.expectedDim_swap
          (b := ⟨none, s.model, none⟩) hdim with ⟨v, hfirst, rfl⟩ | hold
      · obtain ⟨id, hv⟩ := Dict.exists_get?_of_first? hfirst
        obtain ⟨r, hr, hm, hvr⟩ := hload id v ((hvec id).symm.trans hv)
        obtain ⟨-, m, hm', rfl⟩ := (h.describes id r hr).vector? hvr
        obtain rfl : s.model = m := Option.some.inj (hm.symm.trans hm')
        exact P.length_embed _ _
      · exact h.dims d hold
    · intro id _ v hv
      obtain ⟨r, hr, -, hvr⟩ := hload id v ((hvec id).symm.trans hv)
      show (s.rows.get? id).bind Row.vector? = some v
      rw [hr]
      exact hvr

/-- Every step that meets the conditions keeps the invariant. -/
theorem Inv.step {cal : Text.Calendar} (h : Inv P s) {a : Act} {s' : State}
    (hw : WritesCurrent s a) (hl : LeavesAgreeing s a) (hstep : (machine P cal).step s a = some s') :
    Inv P s' := by
  cases a with
  | create c id content active t embed =>
    simp only [machine] at hstep
    split_ifs at hstep with hc hembed
    · obtain rfl := Option.some.inj hstep
      exact h.create (by rw [hc.1]; rfl) hc.2 rfl (by simp)
    · obtain rfl := Option.some.inj hstep
      exact h.create (by rw [hc.1]; rfl) hc.2 rfl (by simp)
  | read c id => exact h.begin hstep fun hc r _ => h.setPhase_of_tended (by simp) hc
  | update c id content =>
    refine h.begin hstep fun hc r _ => ?_
    exact h.commit (fun r _ => describes_of_embedding_eq_none rfl) rfl (by simp) (by simp [hc])
  | fade c id summary =>
    refine h.begin hstep fun hc r _ => ?_
    split_ifs
    · exact h
    · exact h.setPhase_of_tended (by simp) hc
  | unfade c id =>
    refine h.begin hstep fun hc r _ => ?_
    split
    · exact h.setPhase_of_tended (by simp) hc
    · exact h
  | refresh c id t => exact h.begin hstep fun hc r hr => h.refresh cal t hc hr
  | next c succeeds =>
    obtain rfl := Option.some.inj hstep
    exact h.next hw hl
  | ensureBuilt =>
    obtain rfl := Option.some.inj hstep
    exact h.ensureBuilt
  | crash model =>
    obtain rfl := Option.some.inj hstep
    exact ⟨h.describes, ⟨rfl, rfl, rfl⟩, by simp [Matrix.new], by simp, by
      intro id _ v hv
      cases hv⟩

end Invariant

/-! ## A stored vector describes the stored text -/

/-- In a run in which a vector is written to the row whose content it embeds, and the last call of
the matrix for a row leaves it agreeing with the row, every vector of a row is that of its content
under its model, and once no operation is in flight every vector of the matrix is that of an active
row. -/
theorem vectors_describe_rows {P : Provider} {cal : Text.Calendar} {s : State}
    (h : (machine P cal).Reach (fun s a => WritesCurrent s a ∧ LeavesAgreeing s a) s) :
    (∀ id r, s.rows.get? id = some r → Describes P r) ∧
      ((∀ c, s.phase c = .idle) → ∀ id v, s.matrix.vectors.get? id = some v →
        ∃ r m, s.rows.get? id = some r ∧ r.active = true ∧ r.embeddingModelId = some m ∧
          v = P.embed m r.content) := by
  have hinv : Inv P s := by
    refine h.invariant ?_ fun _ _ _ hI hC => hI.step hC.1 hC.2
    rintro s ⟨hm, hidle, hdescribes⟩
    refine ⟨hdescribes, by rw [hm]; exact ⟨rfl, rfl, rfl⟩, by simp [hm, Matrix.new], ?_, ?_⟩
    · simp [hidle]
    · intro id _ v hv
      rw [hm] at hv
      cases hv
  refine ⟨hinv.describes, fun hidle id v hv => ?_⟩
  have hrow := hinv.warm id (by simp [hidle, Phase.tended]) v hv
  obtain ⟨r, hr, hvr⟩ := Option.bind_eq_some_iff.mp hrow
  obtain ⟨hactive, m, hm, hvec⟩ := (hinv.describes id r hr).vector? hvr
  exact ⟨r, m, hr, hactive, hm, hvec⟩

/-- A provider whose vectors count the characters of a text. -/
def counting : Provider where
  embed _ t := [(UInt8.ofNat t.length, 0, 0, 0)]
  dim _ := 1
  length_embed _ _ := rfl

/-- A calendar of one day. -/
def oneDay : Text.Calendar where
  dayOf _ := "2026-01-01".toList
  dayOf_dated := Text.Calendar.oneDay.dayOf_dated

/-- A process over an empty table. -/
def start : State := ⟨∅, .new 0, 0, fun _ => .idle⟩

theorem start_init : (machine counting oneDay).init start := by
  refine ⟨rfl, fun _ => rfl, ?_⟩
  rintro id r ⟨⟩

/-- A statement succeeds, and a write or a put meets the row's content or its vector. -/
def Direct (s : State) : Act → Prop
  | .next c succeeds =>
    succeeds = true ∧
      match s.phase c with
      | .embedding id text _ => (s.rows.get? id).all fun r => r.content = text
      | .putting id v => (s.rows.get? id).bind Row.vector? = some v
      | _ => True
  | _ => True

instance (s : State) (a : Act) : Decidable (Direct s a) := by
  unfold Direct
  split
  · refine @instDecidableAnd _ _ _ ?_
    split <;> infer_instance
  · exact instDecidableTrue

theorem Direct.meets {s : State} {a : Act} (h : Direct s a) :
    WritesCurrent s a ∧ LeavesAgreeing s a := by
  cases a with
  | next c succeeds =>
    obtain ⟨rfl, h⟩ := h
    simp only [WritesCurrent, LeavesAgreeing]
    cases hphase : s.phase c with
    | embedding id text orClear =>
      rw [hphase] at h
      refine ⟨fun r hr => ?_, trivial⟩
      simpa [Option.mem_def.mp hr] using h
    | putting id v =>
      rw [hphase] at h
      exact ⟨trivial, fun _ => h⟩
    | _ => exact ⟨trivial, trivial⟩
  | _ => exact ⟨trivial, trivial⟩

/-- A memory is created and embedded, and then fades. The matrix of the next process is built with
the vector of its summary. -/
theorem vectors_describe_rows_fade : ∃ s : State,
    s.matrix.vectors.get? 5 = some [(2, 0, 0, 0)] ∧
      ∃ r m, s.rows.get? 5 = some r ∧ r.active = true ∧ r.embeddingModelId = some m ∧
        [(2, 0, 0, 0)] = counting.embed m r.content := by
  have hany : ((machine counting oneDay).runWithin Direct start
      [.create 0 5 "a walk".toList true 0 true, .next 0 true, .next 0 true,
        .fade 0 5 "a…".toList, .next 0 true, .next 0 true, .next 0 true, .next 0 true, .crash 0,
        .ensureBuilt]).any (fun s => s.matrix.vectors.get? 5 = some [(2, 0, 0, 0)]) = true := by
    decide
  obtain ⟨s, hrun, hp⟩ := (Option.any_eq_true _ _).mp hany
  have hs := Machine.Reach.of_runWithin (fun _ _ h => Direct.meets h) (.init start_init) hrun
  have hidle : s.phase = fun _ => .idle := Option.some.inj ((congrArg (·.map State.phase) hrun).symm)
  have hv : s.matrix.vectors.get? 5 = some [(2, 0, 0, 0)] := by simpa using hp
  exact ⟨s, hv, (vectors_describe_rows hs).2 (fun c => by rw [hidle]) 5 _ hv⟩

/-- The backfill reads a row, an update changes its content and embeds it, and the backfill's write
then puts the vector of the old content on the row. -/
theorem stale_backfill : ∃ s id r, (machine counting oneDay).Reachable s ∧
    s.rows.get? id = some r ∧ ¬Describes counting r := by
  obtain ⟨s, hs, hp⟩ := Machine.exists_reach_of_runWithin (M := machine counting oneDay)
    (C := fun _ _ => True) (D := fun _ _ => True) (fun _ _ h => h) start_init
    [.create 0 5 "a walk".toList true 0 false, .read 1 5, .update 0 5 "rain".toList, .next 0 true,
      .next 0 true, .next 0 true, .next 1 true]
    (fun s => (s.rows.get? 5).any fun r =>
      r.content = "rain".toList ∧ r.embedding = some [6, 0, 0, 0]) (by decide)
  obtain ⟨r, hr, hrow⟩ := (Option.any_eq_true _ _).mp hp
  obtain ⟨hcontent, hblob⟩ : r.content = "rain".toList ∧ r.embedding = some [6, 0, 0, 0] := by
    simpa using hrow
  refine ⟨s, 5, r, hs, hr, fun hd => ?_⟩
  obtain ⟨m, -, heq⟩ := hd _ hblob
  rw [hcontent] at heq
  exact absurd (congrArg List.head? heq) (by simp [counting, tobytes])

end Companion.Memory.RowEmbedding

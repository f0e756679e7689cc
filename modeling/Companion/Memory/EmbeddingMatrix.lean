import Companion.Memory.Store
import Companion.Runs

/-!
# The warm embedding matrix

`EmbeddingMatrix` of `brain/memory/embedding_matrix.py` over the rows of `memories`, with any number
of builds in flight. A build fixes its target model and opens the pending overlay, scans the table
off the lock, and publishes what it loaded with the overlay applied on top. `put` and `evict` change
the live vectors, and the overlay as well while a build is in flight. The overlay is cleared when
the last build in flight ends.

A write of the store is a commit, after which it owes the matrix a `put` or an `evict`. Once no
build is in flight and nothing is owed for a row, the matrix holds the row's committed vector
(`vectors_eq_committed`), in runs whose steps meet `Applies`. It fails where `put` refuses a vector
of the new model by the dimension of the previous one (`put_refused_after_swap`): a build that loads
no row leaves the expected dimension as it was.

Memory ids and model ids are only compared, so numbers stand for them. The model of a pending
vector, what is owed, and the current model are bookkeeping: no operation of the matrix reads them.
-/

namespace Companion.Memory.EmbeddingMatrix

open Companion.Runs

/-- A write to one row of `memories`. -/
inductive Commit
  /-- A new row, not embedded yet. -/
  | insert (content : Text) (createdAt : Instant)
  /-- `write_embedding` -/
  | embed (v : Vec)
  /-- A change of the content, which sets the embedding to `NULL`. -/
  | change (content : Text)
  | deactivate
  | delete
  deriving DecidableEq

/-- The row after a write under the current model `m`. -/
def Commit.apply (m : ModelId) : Commit → Option Row → Option Row
  | .insert content createdAt, _ => some (.created content true createdAt 0)
  | .embed v, r => r.map (.writeEmbedding v m)
  | .change content, r => r.map (.updateContent content)
  | .deactivate, r => r.map .deactivate
  | .delete, _ => none

/-! ## The matrix -/

/-- An entry of the pending overlay. -/
inductive Entry
  | vector (v : Vec) (model : ModelId)
  | tombstone
  deriving DecidableEq

/-- What an entry leaves at its id. -/
def Entry.value : Entry → Option Vec
  | .vector v _ => some v
  | .tombstone => none

/-- The model of an entry's vector. -/
def Entry.model? : Entry → Option ModelId
  | .vector _ model => some model
  | .tombstone => none

/-- A call of the matrix that a commit is to be followed by. -/
inductive Owed
  | put (id : MemoryId) (v : Vec) (model : ModelId)
  | evict (id : MemoryId)
  deriving DecidableEq

def Owed.id : Owed → MemoryId
  | .put id _ _ => id
  | .evict id => id

/-- What follows a write of the row `id` under the model `m`. -/
def Commit.owed (id : MemoryId) (m : ModelId) : Commit → List Owed
  | .insert _ _ => []
  | .embed v => [.put id v m]
  | .change _ | .deactivate | .delete => [.evict id]

/-- A build in flight: its argument, its target, and the rows it loaded once it has. -/
structure Build where
  modelId : Option ModelId
  target : ModelId
  loaded : Option (Dict MemoryId Vec)
  deriving DecidableEq

/-- An `EmbeddingMatrix`, with its builds in flight. -/
structure Matrix where
  vectors : Dict MemoryId Vec
  built : Bool
  modelId : ModelId
  pending : Dict MemoryId Entry
  buildDepth : ℕ
  expectedDim : Option ℕ
  builds : List Build
  deriving DecidableEq

namespace Matrix

/-- `EmbeddingMatrix(model_id=m)` -/
def new (m : ModelId) : Matrix := ⟨∅, false, m, ∅, 0, none, []⟩

/-- `put` rejects a vector of another dimension than the expected one. -/
def Rejects (M : Matrix) (v : Vec) : Prop := ∃ d ∈ M.expectedDim, d ≠ v.length

instance (M : Matrix) (v : Vec) : Decidable (M.Rejects v) := by
  unfold Rejects
  cases M.expectedDim with
  | none => exact isFalse (by simp)
  | some d => exact decidable_of_iff (d ≠ v.length) (by simp)

/-- `put` -/
def put (M : Matrix) (id : MemoryId) (v : Vec) (model : ModelId) : Matrix :=
  if M.Rejects v then M
  else
    { M with
      expectedDim := some v.length
      vectors := M.vectors.set id v
      pending := if 0 < M.buildDepth then M.pending.set id (.vector v model) else M.pending }

/-- `evict` -/
def evict (M : Matrix) (id : MemoryId) : Matrix :=
  { M with
    vectors := M.vectors.pop id
    pending := if 0 < M.buildDepth then M.pending.set id .tombstone else M.pending }

/-- The call of the matrix that is owed. -/
def perform (M : Matrix) : Owed → Matrix
  | .put id v model => M.put id v model
  | .evict id => M.evict id

/-- The locked start of `_run_build`. -/
def startBuild (M : Matrix) (modelId : Option ModelId) : Matrix :=
  { M with
    buildDepth := M.buildDepth + 1
    builds := M.builds ++ [⟨modelId, modelId.getD M.modelId, none⟩] }

/-- The scan of the build at place `n` has loaded its rows. -/
def load (M : Matrix) (n : ℕ) (b : Build) (loaded : Dict MemoryId Vec) : Matrix :=
  { M with builds := M.builds.set n { b with loaded := some loaded } }

/-- A build leaves: the depth goes down, and the overlay is cleared at depth zero. -/
def leaveBuild (M : Matrix) (n : ℕ) : Matrix :=
  { M with
    builds := M.builds.eraseIdx n
    buildDepth := M.buildDepth - 1
    pending := if M.buildDepth - 1 = 0 then ∅ else M.pending }

/-- The swap of `_run_build`: what was loaded, under the overlay. -/
def swap (M : Matrix) (b : Build) (loaded : Dict MemoryId Vec) : Matrix :=
  let vectors := loaded.overlay M.pending Entry.value
  { M with
    vectors := vectors
    built := true
    modelId := b.modelId.getD M.modelId
    expectedDim := match vectors.first? with | some v => some v.length | none => M.expectedDim }

theorem expectedDim_swap {M : Matrix} {b : Build} {loaded : Dict MemoryId Vec} {d : ℕ}
    (h : (M.swap b loaded).expectedDim = some d) :
    (∃ v, (loaded.overlay M.pending Entry.value).first? = some v ∧ v.length = d) ∨
      M.expectedDim = some d := by
  unfold swap at h
  cases hfirst : (loaded.overlay M.pending Entry.value).first? with
  | some v =>
    simp only [hfirst] at h
    exact .inl ⟨v, rfl, Option.some.inj h⟩
  | none =>
    simp only [hfirst] at h
    exact .inr h

end Matrix

/-- The table, the matrix, and what is owed. -/
structure State where
  rows : Dict MemoryId Row
  matrix : Matrix
  owed : List Owed
  /-- The model that rows are embedded under: that of the last `rebuild` to be called with one. -/
  current : ModelId
  deriving DecidableEq

namespace State

/-- The committed vector of a row that is active and embedded under `m`. -/
def committed (s : State) (m : ModelId) (id : MemoryId) : Option Vec :=
  (s.rows.get? id).bind (Row.vectorUnder m)

/-- Nothing is owed for a row. -/
def Settled (s : State) (id : MemoryId) : Prop := ∀ o ∈ s.owed, o.id ≠ id

instance (s : State) (id : MemoryId) : Decidable (s.Settled id) :=
  inferInstanceAs (Decidable (∀ o ∈ s.owed, o.id ≠ id))

/-- The rows once one of them is written. -/
def setRow (s : State) (id : MemoryId) : Option Row → Dict MemoryId Row
  | some r => s.rows.set id r
  | none => s.rows.pop id

/-- `_load_from_db` -/
def loadFromDb (s : State) (m : ModelId) : Dict MemoryId Vec :=
  s.rows.filterMap fun _ => Row.vectorUnder m

end State

/-- A step of the store or of the matrix. -/
inductive Act
  /-- A write of one row. -/
  | commit (id : MemoryId) (c : Commit)
  /-- A call owed to the matrix, by its place among those owed. -/
  | perform (n : ℕ)
  | ensureBuilt
  | rebuild (modelId : Option ModelId)
  /-- The table scan of a build, by its place among those in flight. -/
  | scan (n : ℕ)
  | scanFails (n : ℕ)
  | publish (n : ℕ)
  deriving DecidableEq

/-- The matrix over its table. A process starts with an unbuilt matrix over any rows. -/
def machine : Machine State Act where
  init s := s.matrix = .new s.current ∧ s.owed = []
  step s
    | .commit id c =>
      -- The primary key refuses a second row of one id.
      if (c matches .insert ..) ∧ (s.rows.get? id).isSome then none
      else some { s with
        rows := s.setRow id (c.apply s.current (s.rows.get? id))
        owed := s.owed ++ c.owed id s.current }
    | .perform n =>
      s.owed[n]?.map fun o =>
        { s with owed := s.owed.eraseIdx n, matrix := s.matrix.perform o }
    | .ensureBuilt =>
      some (if s.matrix.built then s else { s with matrix := s.matrix.startBuild none })
    | .rebuild modelId =>
      some { s with matrix := s.matrix.startBuild modelId, current := modelId.getD s.current }
    | .scan n =>
      s.matrix.builds[n]?.bind fun b =>
        if b.loaded.isSome then none
        else some { s with matrix := s.matrix.load n b (s.loadFromDb b.target) }
    | .scanFails n =>
      s.matrix.builds[n]?.bind fun b =>
        if b.loaded.isSome then none else some { s with matrix := s.matrix.leaveBuild n }
    | .publish n =>
      s.matrix.builds[n]?.bind fun b =>
        b.loaded.map fun loaded => { s with matrix := (s.matrix.swap b loaded).leaveBuild n }

/-- The scan of every build reads the table. -/
def ScansRead : Act → Prop
  | .scanFails _ => False
  | _ => True

instance (a : Act) : Decidable (ScansRead a) := by
  unfold ScansRead
  split
  · exact instDecidableFalse
  · exact instDecidableTrue

/-- The last call owed for a row finds the row as its commit left it. A vector that is put while no
build is in flight is of the matrix's model. One is rejected only where the builds in flight do
without it: no overlay entry is at its id, and those that have read the table have read its row. The
last build to publish is of the model that the matrix and the overlay's vectors are then of. -/
def Applies (s : State) : Act → Prop
  | .perform n =>
    match s.owed[n]? with
    | some (.put id v model) => (∀ o ∈ s.owed.eraseIdx n, o.id ≠ id) →
      s.committed model id = some v ∧
        (s.matrix.built = true → s.matrix.builds = [] → model = s.matrix.modelId) ∧
        (s.matrix.Rejects v → (s.matrix.builds = [] → s.matrix.built = false) ∧
          s.matrix.pending.get? id = none ∧ ∀ b ∈ s.matrix.builds,
            b.loaded.all fun loaded => loaded.get? id = s.committed b.target id)
    | some (.evict id) => (∀ o ∈ s.owed.eraseIdx n, o.id ≠ id) →
      (s.rows.get? id).bind Row.vector? = none
    | none => True
  | .publish n =>
    match s.matrix.builds[n]? with
    | some b => s.matrix.builds.length = 1 → b.modelId.getD s.matrix.modelId = b.target ∧
      ∀ e ∈ s.matrix.pending.entries, e.2.model?.all fun model => model = b.target
    | none => True
  | _ => True

instance (s : State) (a : Act) : Decidable (Applies s a) := by
  unfold Applies
  split
  · split <;> infer_instance
  · split <;> infer_instance
  · exact instDecidableTrue

/-! ## The invariant -/

/-- What the overlay's entry says of the committed row. -/
def Entry.Agrees (s : State) (id : MemoryId) : Entry → Prop
  | .vector v model => s.committed model id = some v
  | .tombstone => ∀ m, s.committed m id = none

/-- Off the rows for which a call is owed, the vectors of a quiet matrix are the committed ones; the
overlay's entries agree with the rows; and so does what a build has loaded where the overlay has no
entry. -/
structure Inv (s : State) : Prop where
  depth : s.matrix.buildDepth = s.matrix.builds.length
  /-- The overlay is open only while a build is in flight. -/
  closed : s.matrix.builds = [] → s.matrix.pending = ∅
  quiet : s.matrix.built = true → s.matrix.builds = [] → ∀ id, s.Settled id →
    s.matrix.vectors.get? id = s.committed s.matrix.modelId id
  overlay : ∀ id, s.Settled id → ∀ e, s.matrix.pending.get? id = some e → e.Agrees s id
  loaded : ∀ b ∈ s.matrix.builds, ∀ loaded, b.loaded = some loaded → ∀ id, s.Settled id →
    s.matrix.pending.get? id = none → loaded.get? id = s.committed b.target id

section Steps

variable {s : State}

theorem Inv.init (h : machine.init s) : Inv s := by
  obtain ⟨hm, -⟩ := h
  constructor
  · rw [hm]
    rfl
  · exact fun _ => by rw [hm]; rfl
  · simp [hm, Matrix.new]
  · simp [hm, Matrix.new]
  · simp [hm, Matrix.new]

/-- A row that is not active and embedded has no vector under any model. -/
theorem State.committed_of_vector?_eq_none {id : MemoryId}
    (h : (s.rows.get? id).bind Row.vector? = none) (m : ModelId) : s.committed m id = none := by
  unfold State.committed
  cases hr : s.rows.get? id with
  | none => rfl
  | some r =>
    rw [hr] at h
    show r.vectorUnder m = none
    unfold Row.vectorUnder
    split_ifs
    · exact h
    · rfl

/-- The load query finds the committed vectors. -/
theorem State.get?_loadFromDb (m : ModelId) (id : MemoryId) :
    (s.loadFromDb m).get? id = s.committed m id :=
  Dict.get?_filterMap _ _ _

/-- A write of one row leaves the others. -/
theorem State.get?_setRow {id id' : MemoryId} (hne : id' ≠ id) (r : Option Row) :
    (s.setRow id r).get? id' = s.rows.get? id' := by
  cases r with
  | none => rw [State.setRow, Dict.get?_pop, if_neg hne]
  | some r => rw [State.setRow, Dict.get?_set, if_neg hne]

/-- Steps that leave the committed vectors of a row keep what an entry says. -/
theorem Entry.Agrees.congr {s' : State} {id : MemoryId} {e : Entry} (h : e.Agrees s id)
    (hc : ∀ m, s'.committed m id = s.committed m id) : e.Agrees s' id := by
  cases e with
  | vector v model => exact (hc model).trans h
  | tombstone => exact fun m => (hc m).trans (h m)

/-- A commit keeps the invariant: the rows for which it owes nothing have the vectors they had. -/
theorem Inv.commit (h : Inv s) {rows : Dict MemoryId Row} {owed : List Owed}
    (hc : ∀ id, ({ s with rows := rows, owed := s.owed ++ owed } : State).Settled id →
      ∀ m, (rows.get? id).bind (Row.vectorUnder m) = s.committed m id) :
    Inv { s with rows := rows, owed := s.owed ++ owed } := by
  have hs : ∀ {id}, ({ s with rows := rows, owed := s.owed ++ owed } : State).Settled id →
      s.Settled id := fun hid o ho => hid o (List.mem_append_left _ ho)
  refine ⟨h.depth, h.closed, ?_, ?_, ?_⟩
  · intro hb hq id hid
    calc s.matrix.vectors.get? id = s.committed s.matrix.modelId id := h.quiet hb hq id (hs hid)
      _ = (rows.get? id).bind (Row.vectorUnder s.matrix.modelId) := (hc id hid _).symm
  · intro id hid e he
    exact (h.overlay id (hs hid) e he).congr (hc id hid)
  · intro b hb loaded hl id hid hp
    calc loaded.get? id = s.committed b.target id := h.loaded b hb loaded hl id (hs hid) hp
      _ = (rows.get? id).bind (Row.vectorUnder b.target) := (hc id hid _).symm

/-- Once a call is made, the rows for which nothing is owed are those before, but for its own. -/
theorem State.Settled.of_eraseIdx {n : ℕ} {o : Owed} (hn : s.owed[n]? = some o) {id : MemoryId}
    (hid : ∀ o' ∈ s.owed.eraseIdx n, o'.id ≠ id) (hne : id ≠ o.id) : s.Settled id := by
  intro o' ho'
  obtain ⟨j, hj⟩ := List.mem_iff_getElem?.mp ho'
  by_cases hjn : j = n
  · subst hjn
    obtain rfl : o = o' := Option.some.inj (hn.symm.trans hj)
    exact hne.symm
  · exact hid o' (List.mem_eraseIdx_iff_getElem?.mpr ⟨j, hjn, hj⟩)

/-- A call that leaves the entry `e` at its row keeps the invariant, if the entry agrees with the
row whenever the call is the last that was owed for it. -/
theorem Inv.record (h : Inv s) {n : ℕ} {o : Owed} (hn : s.owed[n]? = some o) {e : Entry}
    {vectors : Dict MemoryId Vec} (dim : Option ℕ)
    (hv : ∀ id, vectors.get? id = if id = o.id then e.value else s.matrix.vectors.get? id)
    (hlast : (∀ o' ∈ s.owed.eraseIdx n, o'.id ≠ o.id) → e.Agrees s o.id ∧
      (s.matrix.built = true → s.matrix.builds = [] →
        e.value = s.committed s.matrix.modelId o.id)) :
    Inv { s with
      owed := s.owed.eraseIdx n
      matrix := { s.matrix with
        expectedDim := dim
        vectors := vectors
        pending := if 0 < s.matrix.buildDepth then s.matrix.pending.set o.id e
          else s.matrix.pending } } := by
  refine ⟨h.depth, ?_, ?_, ?_, ?_⟩
  · intro hq
    have hq' : s.matrix.builds = [] := hq
    have hd : ¬0 < s.matrix.buildDepth := by simp [h.depth, hq']
    exact (if_neg hd).trans (h.closed hq')
  · intro hb hq id hid
    by_cases heq : id = o.id
    · subst heq
      rw [hv, if_pos rfl]
      exact (hlast hid).2 hb hq
    · rw [hv, if_neg heq]
      exact h.quiet hb hq id (.of_eraseIdx hn hid heq)
  · intro id hid e' he'
    by_cases heq : id = o.id
    · subst heq
      by_cases hd : 0 < s.matrix.buildDepth
      · obtain rfl : e = e' := by simpa [hd, Dict.get?_set] using he'
        exact (hlast hid).1
      · -- No build is in flight, so the overlay is empty.
        have hdepth := h.depth
        have hq : s.matrix.builds = [] := List.eq_nil_of_length_eq_zero (by omega)
        simp [hd, h.closed hq] at he'
    · refine h.overlay id (.of_eraseIdx hn hid heq) e' ?_
      split_ifs at he'
      · simpa [Dict.get?_set, heq] using he'
      · exact he'
  · intro b hb loaded hl id hid hp
    by_cases heq : id = o.id
    · subst heq
      have hd : 0 < s.matrix.buildDepth := by
        rw [h.depth]
        exact List.length_pos_of_mem hb
      simp [hd, Dict.get?_set] at hp
    · refine h.loaded b hb loaded hl id (.of_eraseIdx hn hid heq) ?_
      split_ifs at hp
      · simpa [Dict.get?_set, heq] using hp
      · exact hp

/-- A call that leaves the matrix keeps the invariant, if the builds do without it. -/
theorem Inv.reject (h : Inv s) {n : ℕ} {o : Owed} (hn : s.owed[n]? = some o)
    (hlast : (∀ o' ∈ s.owed.eraseIdx n, o'.id ≠ o.id) →
      (s.matrix.builds = [] → s.matrix.built = false) ∧ s.matrix.pending.get? o.id = none ∧
        ∀ b ∈ s.matrix.builds, b.loaded.all fun loaded =>
          loaded.get? o.id = s.committed b.target o.id) :
    Inv { s with owed := s.owed.eraseIdx n } := by
  refine ⟨h.depth, h.closed, ?_, ?_, ?_⟩
  · intro hb hq id hid
    by_cases heq : id = o.id
    · subst heq
      have hb' : s.matrix.built = true := hb
      rw [(hlast hid).1 hq] at hb'
      cases hb'
    · exact h.quiet hb hq id (.of_eraseIdx hn hid heq)
  · intro id hid e he
    by_cases heq : id = o.id
    · subst heq
      have he' : s.matrix.pending.get? o.id = some e := he
      rw [(hlast hid).2.1] at he'
      cases he'
    · exact h.overlay id (.of_eraseIdx hn hid heq) e he
  · intro b hb loaded hl id hid hp
    by_cases heq : id = o.id
    · subst heq
      have hload := (hlast hid).2.2 b hb
      rw [hl] at hload
      exact of_decide_eq_true hload
    · exact h.loaded b hb loaded hl id (.of_eraseIdx hn hid heq) hp

/-- A call owed to the matrix keeps the invariant. -/
theorem Inv.perform (h : Inv s) {n : ℕ} {o : Owed} (hn : s.owed[n]? = some o)
    (ha : Applies s (.perform n)) :
    Inv { s with owed := s.owed.eraseIdx n, matrix := s.matrix.perform o } := by
  simp only [Applies, hn] at ha
  cases o with
  | evict id =>
    refine h.record hn (e := .tombstone) s.matrix.expectedDim (fun _ => Dict.get?_pop _ _ _) ?_
    intro hl
    have hnone := State.committed_of_vector?_eq_none (ha hl)
    exact ⟨hnone, fun _ _ => (hnone _).symm⟩
  | put id v model =>
    by_cases hr : s.matrix.Rejects v
    · have hput : s.matrix.perform (.put id v model) = s.matrix := if_pos hr
      rw [hput]
      exact h.reject hn fun hl => (ha hl).2.2 hr
    · have hput : s.matrix.perform (.put id v model) =
          { s.matrix with
            expectedDim := some v.length
            vectors := s.matrix.vectors.set id v
            pending := if 0 < s.matrix.buildDepth then s.matrix.pending.set id (.vector v model)
              else s.matrix.pending } := if_neg hr
      rw [hput]
      refine h.record hn _ (fun _ => Dict.get?_set _ _ _ _) fun hl => ?_
      obtain ⟨hc, hm, -⟩ := ha hl
      refine ⟨hc, fun hb hq => ?_⟩
      rw [← hm hb hq]
      exact hc.symm

/-- A build that starts has loaded nothing. -/
theorem Inv.startBuild (h : Inv s) (modelId : Option ModelId) (current : ModelId) :
    Inv { s with matrix := s.matrix.startBuild modelId, current := current } := by
  refine ⟨?_, ?_, ?_, h.overlay, ?_⟩
  · simp [Matrix.startBuild, h.depth]
  · simp [Matrix.startBuild]
  · simp [Matrix.startBuild]
  · intro b hb loaded hl
    rcases List.mem_append.mp hb with hb | hb
    · exact h.loaded b hb loaded hl
    · obtain rfl := List.mem_singleton.mp hb
      simp at hl

/-- A scan loads the committed vectors. -/
theorem Inv.scan (h : Inv s) (n : ℕ) (b : Build) :
    Inv { s with matrix := s.matrix.load n b (s.loadFromDb b.target) } := by
  have hnil : (s.matrix.load n b (s.loadFromDb b.target)).builds = [] ↔ s.matrix.builds = [] := by
    unfold Matrix.load
    rw [← List.length_eq_zero_iff, List.length_set, List.length_eq_zero_iff]
  refine ⟨by simpa [Matrix.load] using h.depth, fun hq => h.closed (hnil.mp hq), ?_, h.overlay, ?_⟩
  · intro hb hq
    exact h.quiet hb (hnil.mp hq)
  · intro b' hb' loaded hl id hid hp
    rcases List.mem_or_eq_of_mem_set hb' with hb' | rfl
    · exact h.loaded b' hb' loaded hl id hid hp
    · obtain rfl := Option.some.inj hl
      exact State.get?_loadFromDb _ _

/-- A build that publishes keeps the invariant. The last one leaves the committed vectors. -/
theorem Inv.publish (h : Inv s) {n : ℕ} {b : Build} (hn : s.matrix.builds[n]? = some b)
    {loaded : Dict MemoryId Vec} (hl : b.loaded = some loaded) (ha : Applies s (.publish n)) :
    Inv { s with matrix := (s.matrix.swap b loaded).leaveBuild n } := by
  have hlt : n < s.matrix.builds.length := (List.getElem?_eq_some_iff.mp hn).1
  have hlen : (s.matrix.builds.eraseIdx n).length = s.matrix.builds.length - 1 :=
    List.length_eraseIdx_of_lt hlt
  have hmem : b ∈ s.matrix.builds := List.mem_of_getElem? hn
  have hdepth := h.depth
  simp only [Applies, hn] at ha
  refine ⟨?_, ?_, ?_, ?_, ?_⟩
  · show s.matrix.buildDepth - 1 = (s.matrix.builds.eraseIdx n).length
    omega
  · intro hq
    have hq' : (s.matrix.builds.eraseIdx n).length = 0 := List.length_eq_zero_iff.mpr hq
    have hd : s.matrix.buildDepth - 1 = 0 := by omega
    exact if_pos hd
  · -- The last build: what it loaded, and the overlay, are of the model that it leaves.
    intro _ hq id hid
    have hq' : (s.matrix.builds.eraseIdx n).length = 0 := List.length_eq_zero_iff.mpr hq
    obtain ⟨htarget, hmodels⟩ := ha (by omega)
    show (loaded.overlay s.matrix.pending Entry.value).get? id =
      s.committed (b.modelId.getD s.matrix.modelId) id
    rw [Dict.get?_overlay, htarget]
    cases hp : s.matrix.pending.get? id with
    | none => exact h.loaded b hmem loaded hl id hid hp
    | some e =>
      have hag := h.overlay id hid e hp
      cases e with
      | tombstone => exact (hag _).symm
      | vector v model =>
        obtain rfl : model = b.target := by
          simpa [Entry.model?] using hmodels _ (Dict.mem_entries_of_get? hp)
        exact hag.symm
  · intro id hid e he
    have he' : (if s.matrix.buildDepth - 1 = 0 then ∅ else s.matrix.pending).get? id = some e := he
    split_ifs at he' with hd
    · simp at he'
    · exact h.overlay id hid e he'
  · intro b' hb' loaded' hl' id hid hp
    have hpos : 0 < (s.matrix.builds.eraseIdx n).length := List.length_pos_of_mem hb'
    have hd : ¬s.matrix.buildDepth - 1 = 0 := by omega
    have hp' : (if s.matrix.buildDepth - 1 = 0 then ∅ else s.matrix.pending).get? id = none := hp
    rw [if_neg hd] at hp'
    exact h.loaded b' (List.mem_of_mem_eraseIdx hb') loaded' hl' id hid hp'

end Steps

/-- A commit on one row keeps the invariant. -/
theorem Inv.commitRow {s : State} (h : Inv s) (id : MemoryId) (c : Commit)
    (hins : ¬((c matches .insert ..) ∧ (s.rows.get? id).isSome)) :
    Inv { s with
      rows := s.setRow id (c.apply s.current (s.rows.get? id))
      owed := s.owed ++ c.owed id s.current } := by
  refine h.commit fun id' hid m => ?_
  by_cases heq : id' = id
  · subst heq
    cases c with
    | insert content createdAt =>
      -- There was no row, and the new one is not embedded.
      have hnone : s.rows.get? id' = none := by simpa using hins
      show ((s.rows.set id' _).get? id').bind (Row.vectorUnder m) = _
      rw [Dict.get?_set, if_pos rfl, State.committed, hnone]
      simp [Row.vectorUnder, Row.created]
    | embed v => exact absurd rfl (hid (.put id' v s.current) (by simp [Commit.owed]))
    | change content => exact absurd rfl (hid (.evict id') (by simp [Commit.owed]))
    | deactivate => exact absurd rfl (hid (.evict id') (by simp [Commit.owed]))
    | delete => exact absurd rfl (hid (.evict id') (by simp [Commit.owed]))
  · rw [State.get?_setRow heq]
    rfl

/-- Every step that meets the conditions keeps the invariant. -/
theorem Inv.step {s s' : State} {a : Act} (h : Inv s) (hread : ScansRead a) (ha : Applies s a)
    (hstep : machine.step s a = some s') : Inv s' := by
  cases a with
  | commit id c =>
    simp only [machine] at hstep
    split_ifs at hstep with hins
    obtain rfl := Option.some.inj hstep
    exact h.commitRow id c hins
  | perform n =>
    obtain ⟨o, ho, rfl⟩ := Option.map_eq_some_iff.mp hstep
    exact h.perform ho ha
  | ensureBuilt =>
    obtain rfl := Option.some.inj hstep
    split_ifs
    · exact h
    · exact h.startBuild none s.current
  | rebuild modelId =>
    obtain rfl := Option.some.inj hstep
    exact h.startBuild modelId _
  | scan n =>
    obtain ⟨b, hb, hs⟩ := Option.bind_eq_some_iff.mp hstep
    split_ifs at hs
    obtain rfl := Option.some.inj hs
    exact h.scan n b
  | scanFails n => exact hread.elim
  | publish n =>
    obtain ⟨b, hb, hs⟩ := Option.bind_eq_some_iff.mp hstep
    obtain ⟨loaded, hl, rfl⟩ := Option.map_eq_some_iff.mp hs
    exact h.publish hb hl ha

/-! ## Builds lose and resurrect nothing -/

/-- Once no build is in flight and nothing is owed for a row, the built matrix holds at the row's id
the vector of the committed row, if it is active and embedded under the matrix's model, and none
otherwise. -/
theorem vectors_eq_committed {s : State}
    (h : machine.Reach (fun s a => ScansRead a ∧ Applies s a) s) (hbuilt : s.matrix.built = true)
    (hquiet : s.matrix.builds = []) {id : MemoryId} (hid : s.Settled id) :
    s.matrix.vectors.get? id = s.committed s.matrix.modelId id := by
  have hinv : Inv s := h.invariant (fun _ => Inv.init) fun _ _ _ hI hC => hI.step hC.1 hC.2
  exact hinv.quiet hbuilt hquiet id hid

/-- A process over a table without rows, with the model 0. -/
def start : State := ⟨∅, .new 0, [], 0⟩

/-- A vector that is put between the scan of a build and its swap is held after it. -/
theorem vectors_eq_committed_start : ∃ s : State,
    s.matrix.vectors.get? 7 = some [(0, 0, 128, 63)] ∧
      s.committed s.matrix.modelId 7 = some [(0, 0, 128, 63)] := by
  obtain ⟨s, hs, hp⟩ := Machine.exists_reach_of_runWithin (M := machine)
    (C := fun s a => ScansRead a ∧ Applies s a) (D := fun s a => ScansRead a ∧ Applies s a)
    (s := start) (fun _ _ h => h) ⟨rfl, rfl⟩
    [.commit 7 (.insert ['h', 'i'] 0), .ensureBuilt, .scan 0,
      .commit 7 (.embed [(0, 0, 128, 63)]), .perform 0, .publish 0]
    (fun s => s.matrix.built ∧ s.matrix.builds = [] ∧ s.Settled 7 ∧
      s.committed s.matrix.modelId 7 = some [(0, 0, 128, 63)]) (by decide)
  obtain ⟨hb, hq, hid, hc⟩ : s.matrix.built = true ∧ s.matrix.builds = [] ∧ s.Settled 7 ∧
    s.committed s.matrix.modelId 7 = some [(0, 0, 128, 63)] := by simpa using hp
  exact ⟨s, (vectors_eq_committed hs hb hq hid).trans hc, hc⟩

/-- A row of the model 0 is embedded with one dimension, and a rebuild under the model 1 loads no
row. The dimension stays expected, so a vector of the model 1 with two is refused, and the matrix
lacks an active row that is embedded under its model. -/
theorem put_refused_after_swap : ∃ s : State, machine.Reach (fun _ a => ScansRead a) s ∧
    s.matrix.built = true ∧ s.matrix.builds = [] ∧ s.owed = [] ∧
      s.committed s.matrix.modelId 8 ≠ none ∧ s.matrix.vectors.get? 8 = none := by
  obtain ⟨s, hs, hp⟩ := Machine.exists_reach_of_runWithin (M := machine)
    (C := fun _ a => ScansRead a) (D := fun _ a => ScansRead a) (s := start) (fun _ _ h => h)
    ⟨rfl, rfl⟩
    [.commit 7 (.insert ['h', 'i'] 0), .commit 7 (.embed [(0, 0, 128, 63)]), .perform 0,
      .ensureBuilt, .scan 0, .publish 0, .rebuild (some 1), .scan 0, .publish 0,
      .commit 8 (.insert ['y', 'o'] 0), .commit 8 (.embed [(0, 0, 0, 63), (0, 0, 64, 63)]),
      .perform 0]
    (fun s => s.matrix.built ∧ s.matrix.builds = [] ∧ s.owed = [] ∧
      s.committed s.matrix.modelId 8 ≠ none ∧ s.matrix.vectors.get? 8 = none) (by decide)
  exact ⟨s, hs, by simpa using hp⟩

end Companion.Memory.EmbeddingMatrix

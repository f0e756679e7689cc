import Companion.JsonText
import Mathlib

/-!
# The queue of candidates

The records of `initiate_candidates.jsonl` as `brain/initiate/emit.py` reads and rewrites them, and
`brain/initiate/schemas.py` makes candidates of them. A record is any JSON object, and the fields of
a candidate are any values: a record is refused only where a field is missing, or where what should
be an object is none.

What a record raises is told by its class. The language's treatment of floats and of times is a
parameter.
-/

namespace Companion.Initiate.Review

open Companion.JsonText

/-- What a call of the provider raises. -/
inductive Raised
  /-- `TimeoutError` and `subprocess.TimeoutExpired` -/
  | timeout
  /-- `ThrottleDeferred`: the call was refused. -/
  | throttleDeferred
  | other (message : Text)
  deriving DecidableEq

/-- An exception, by its class. -/
inductive PyError
  | keyError
  | attributeError
  | typeError
  | valueError
  | overflowError
  | provider (e : Raised)
  deriving DecidableEq

/-- What the language makes of the values that are open here. -/
structure Builtins (F : Type) where
  /-- `==` -/
  eq : Value F → Value F → Bool
  eq_str : ∀ s t, eq (.str s) (.str t) = decide (s = t)
  /-- `bool` of a float -/
  truth : F → Bool
  /-- `int` of a float -/
  truncate : F → Except PyError ℤ
  /-- `int` of a string, none where it raises `ValueError` -/
  parseInt : List CodeUnit → Option ℤ
  /-- Whether what `datetime.fromisoformat` returns has an offset, none where it raises
  `ValueError` -/
  hasOffset : List CodeUnit → Option Bool

section Values

variable {F : Type}

/-- A string of the source. -/
def name (s : String) : List CodeUnit := s.toList.map fun c => Fin.ofNat _ c.toNat

/-- `fields.get(key)`, none where the key is not there. -/
def get? (fields : Fields F) (key : String) : Option (Value F) :=
  (fields.find? fun f => f.1 = name key).map Prod.snd

@[simp] theorem get?_cons (k : List CodeUnit) (v : Value F) (fields : Fields F) (key : String) :
    get? ((k, v) :: fields) key = if k = name key then some v else get? fields key := by
  unfold get?
  by_cases h : k = name key <;> simp [h]

@[simp] theorem get?_nil (key : String) : get? ([] : Fields F) key = none := rfl

/-- `fields[key]` -/
def item (fields : Fields F) (key : String) : Except PyError (Value F) :=
  (get? fields key).elim (.error .keyError) .ok

/-- `value == text` -/
def isText (value : Value F) (text : String) : Bool :=
  match value with
  | .str s => s = name text
  | _ => false

/-- `bool(value)` -/
def truthy (b : Builtins F) : Value F → Bool
  | .null => false
  | .bool p => p
  | .int n => n ≠ 0
  | .float x => b.truth x
  | .str s => !s.isEmpty
  | .arr items => !items.isEmpty
  | .obj fields => !fields.isEmpty

/-- What has the methods of a `dict`. -/
def asDict : Value F → Except PyError (Fields F)
  | .obj fields => .ok fields
  | _ => .error .attributeError

/-- `", ".join(value)`, without its text. -/
def joined : Value F → Except PyError Unit
  | .str _ | .obj _ => .ok ()
  | .arr items => if items.all fun v => v matches .str _ then .ok () else .error .typeError
  | _ => .error .typeError

/-- `f"{value:.2f}"`, without its text. An integer is made a float, which it may be too large for.
-/
def formatted : Value F → Except PyError Unit
  | .bool _ | .float _ => .ok ()
  | .int n => if n.natAbs < 2 ^ 1024 - 2 ^ 970 then .ok () else .error .overflowError
  | .str _ => .error .valueError
  | _ => .error .typeError

/-- Whether a set can hold the value. -/
def hashable : Value F → Bool
  | .arr _ | .obj _ => false
  | _ => true

end Values

/-! ## Candidates -/

section Candidates

variable {F : Type}

structure EmotionalSnapshot (F : Type) where
  vector : Value F
  rollingBaselineMean : Value F
  rollingBaselineStdev : Value F
  currentResonance : Value F
  deltaSigma : Value F

namespace EmotionalSnapshot

/-- `EmotionalSnapshot.to_dict` -/
def toDict (s : EmotionalSnapshot F) : Fields F :=
  [(name "vector", s.vector), (name "rolling_baseline_mean", s.rollingBaselineMean),
    (name "rolling_baseline_stdev", s.rollingBaselineStdev),
    (name "current_resonance", s.currentResonance), (name "delta_sigma", s.deltaSigma)]

/-- `EmotionalSnapshot.from_dict`: unknown keys are left out, a missing one is a `TypeError`. -/
def fromDict : Value F → Except PyError (EmotionalSnapshot F)
  | .obj fields =>
    match get? fields "vector", get? fields "rolling_baseline_mean",
      get? fields "rolling_baseline_stdev", get? fields "current_resonance",
      get? fields "delta_sigma" with
    | some vector, some mean, some stdev, some resonance, some sigma =>
      .ok ⟨vector, mean, stdev, resonance, sigma⟩
    | _, _, _, _, _ => .error .typeError
  | _ => .error .typeError

theorem fromDict_toDict (s : EmotionalSnapshot F) : fromDict (.obj s.toDict) = .ok s := by
  simp +decide [fromDict, toDict]

end EmotionalSnapshot

/-- `SemanticContext`. No `source_meta` is null. -/
structure SemanticContext (F : Type) where
  linkedMemoryIds : Value F
  topicTags : Value F
  sourceMeta : Value F

namespace SemanticContext

/-- An item of a `dict` that is left out where the value is `None`. -/
def unlessNull (key : String) : Value F → Fields F
  | .null => []
  | v => [(name key, v)]

theorem get?_unlessNull (key : String) (v : Value F) :
    (get? (unlessNull key v) key).getD .null = v := by
  cases v <;> simp [unlessNull]

/-- `SemanticContext.to_dict` -/
def toDict (s : SemanticContext F) : Fields F :=
  (name "linked_memory_ids", s.linkedMemoryIds) :: (name "topic_tags", s.topicTags) ::
    unlessNull "source_meta" s.sourceMeta

/-- `SemanticContext.from_dict` -/
def fromDict (v : Value F) : Except PyError (SemanticContext F) :=
  (asDict v).map fun fields =>
    { linkedMemoryIds := (get? fields "linked_memory_ids").getD (.arr [])
      topicTags := (get? fields "topic_tags").getD (.arr [])
      sourceMeta := (get? fields "source_meta").getD .null }

theorem fromDict_toDict (s : SemanticContext F) : fromDict (.obj s.toDict) = .ok s := by
  have hmeta := get?_unlessNull "source_meta" s.sourceMeta
  simp +decide [fromDict, toDict, asDict, Except.map, hmeta]

end SemanticContext

/-- `InitiateCandidate`. No `claimed_at` and no `proposal` are null. -/
structure InitiateCandidate (F : Type) where
  candidateId : Value F
  ts : Value F
  kind : Value F
  source : Value F
  sourceId : Value F
  semanticContext : SemanticContext F
  emotionalSnapshot : Option (EmotionalSnapshot F)
  claimedAt : Value F
  proposal : Value F

namespace InitiateCandidate

/-- `InitiateCandidate.to_dict` -/
def toDict (c : InitiateCandidate F) : Fields F :=
  [(name "candidate_id", c.candidateId), (name "ts", c.ts), (name "kind", c.kind),
    (name "source", c.source), (name "source_id", c.sourceId),
    (name "emotional_snapshot", c.emotionalSnapshot.elim .null fun s => .obj s.toDict),
    (name "semantic_context", .obj c.semanticContext.toDict), (name "claimed_at", c.claimedAt)] ++
    SemanticContext.unlessNull "proposal" c.proposal

/-- The snapshot of a record, where there is one. -/
def snapshot? : Value F → Except PyError (Option (EmotionalSnapshot F))
  | .null => .ok none
  | v => (EmotionalSnapshot.fromDict v).map some

/-- `InitiateCandidate.from_dict` -/
def fromDict (d : Fields F) : Except PyError (InitiateCandidate F) := do
  let snapshot ← snapshot? ((get? d "emotional_snapshot").getD .null)
  let candidateId ← item d "candidate_id"
  let ts ← item d "ts"
  let kind ← item d "kind"
  let source ← item d "source"
  let sourceId ← item d "source_id"
  let context ← item d "semantic_context"
  let context ← SemanticContext.fromDict context
  return {
    candidateId, ts, kind, source, sourceId
    semanticContext := context
    emotionalSnapshot := snapshot
    claimedAt := (get? d "claimed_at").getD .null
    proposal := (get? d "proposal").getD .null }

/-- A candidate whose record is its own reads as itself. -/
theorem fromDict_toDict (c : InitiateCandidate F) : fromDict c.toDict = .ok c := by
  have hproposal : (get? (SemanticContext.unlessNull "proposal" c.proposal) "proposal").getD .null
      = c.proposal := SemanticContext.get?_unlessNull "proposal" c.proposal
  have hsnapshot : snapshot? (c.emotionalSnapshot.elim .null fun s => .obj s.toDict)
      = .ok c.emotionalSnapshot := by
    cases c.emotionalSnapshot with
    | none => rfl
    | some s =>
      have hs := EmotionalSnapshot.fromDict_toDict s
      simp only [Option.elim_some, snapshot?, hs]
      rfl
  have hcontext := SemanticContext.fromDict_toDict c.semanticContext
  simp +decide only [fromDict, toDict, item, get?_cons, List.cons_append, List.nil_append,
    reduceIte, Option.getD_some, Option.elim_some, hsnapshot, hproposal, bind, Except.bind,
    hcontext]
  rfl

end InitiateCandidate

/-- `read_candidates`, of the objects of the queue's lines. -/
def readCandidates (queue : List (Fields F)) : Except PyError (List (InitiateCandidate F)) :=
  queue.mapM InitiateCandidate.fromDict

theorem readCandidates_map_toDict (cs : List (InitiateCandidate F)) :
    readCandidates (cs.map InitiateCandidate.toDict) = .ok cs := by
  induction cs with
  | nil => rfl
  | cons c cs ih =>
    have hc := c.fromDict_toDict
    simp only [readCandidates] at ih
    simp only [readCandidates, List.map_cons, List.mapM_cons, hc, ih]
    rfl

/-- `remove_candidate`: the records that are left are rewritten. -/
def removeCandidate (b : Builtins F) (queue : List (Fields F)) (candidateId : Value F) :
    Except PyError (List (Fields F)) :=
  (readCandidates queue).map fun cs =>
    (cs.filter fun c => !b.eq c.candidateId candidateId).map InitiateCandidate.toDict

/-- A removal leaves the candidates of other ids. -/
theorem readCandidates_of_removeCandidate {b : Builtins F} {queue : List (Fields F)}
    {cs : List (InitiateCandidate F)} (h : readCandidates queue = .ok cs) (candidateId : Value F) :
    ∃ queue', removeCandidate b queue candidateId = .ok queue' ∧
      readCandidates queue' = .ok (cs.filter fun c => !b.eq c.candidateId candidateId) := by
  refine ⟨(cs.filter fun c => !b.eq c.candidateId candidateId).map InitiateCandidate.toDict, ?_,
    readCandidates_map_toDict _⟩
  rw [removeCandidate, h]
  rfl

end Candidates

end Companion.Initiate.Review

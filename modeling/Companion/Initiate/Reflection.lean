import Companion.Initiate.Candidates
import Companion.Memory.Text
import Mathlib.Data.List.DropRight

/-!
# The reflection

What is read out of a model's reply (`brain/utils/llm_output.py`), and the reflection that decides
about the fetched candidates before they are composed (`run` in `brain/initiate/reflection.py`): one
call of the small model, and one of the large model where the first reply cannot be read or is not
sure of a candidate.

A reply is any text, or what the call raises. A text is not JSON where `json.loads` raises
`ValueError`, whatever the reason.
-/

namespace Companion.Initiate.Review

open Companion.JsonText
open Companion.Memory (Instant isSpace)

/-! ## Replies -/

section Replies

/-- The rest of a text after the opening of a fenced object, from its brace on. -/
def afterFence (t : Text) : Option Text :=
  if "```".toList <+: t then
    let rest := t.drop 3
    let rest := if "json".toList <+: rest then rest.drop 4 else rest
    let rest := rest.dropWhile isSpace
    if rest.head? = some '\x7b' then some rest else none
  else none

/-- The text up to the first closing brace that the end of a fence follows. -/
def upToFence : Text → Option Text
  | [] => none
  | c :: t =>
    if c = '\x7d' ∧ "```".toList <+: t.dropWhile isSpace then some [c]
    else (upToFence t).map (c :: ·)

/-- `_JSON_FENCE.search`, the group of it. -/
def jsonFence : Text → Option Text
  | [] => none
  | c :: t => ((afterFence (c :: t)).bind upToFence).or (jsonFence t)

/-- `_JSON_LOOSE.search`: from the first opening brace to the last closing one. -/
def jsonLoose (t : Text) : Option Text :=
  let body := (t.dropWhile (· ≠ '\x7b')).rdropWhile (· ≠ '\x7d')
  if body = [] then none else some body

/-- `extract_json_object`, none where it raises `ValueError`. -/
def extractJsonObject (raw : Text) : Option Text := (jsonFence raw).or (jsonLoose raw)

variable {F : Type} (floats : Floats F)

/-- `json.loads`, none where it raises `ValueError`. -/
def jsonLoads (t : Text) : Option (Value F) := (loads floats t.length t).toOption

/-- `loads_json_object`, none where it raises `ValueError`. -/
def loadsJsonObject (raw : Text) : Option (Fields F) :=
  let data := (jsonLoads floats (Memory.Text.strip raw)).or
    ((extractJsonObject raw).bind (jsonLoads floats))
  data.bind fun v => (asDict v).toOption

end Replies

section Reflection

variable {F : Type} (floats : Floats F) (b : Builtins F)

/-- `int(value)` -/
def int : Value F → Except PyError ℤ
  | .int n => .ok n
  | .bool p => .ok (if p then 1 else 0)
  | .float x => b.truncate x
  | .str s => (b.parseInt s).elim (.error .valueError) .ok
  | _ => .error .typeError

/-- `DDecision` -/
structure DDecision (F : Type) where
  candidateIndex : ℤ
  decision : Value F
  reason : Value F
  confidence : Value F

/-- `DReflectionResult` -/
structure DReflectionResult (F : Type) where
  decisions : List (DDecision F)
  tickNote : Option (List CodeUnit)

/-- A decision of a reply. What is no object is a `ValueError`, and what lacks a key is not. -/
def parseDecision : Value F → Except PyError (DDecision F)
  | .obj fields => do
    let index ← item fields "candidate_index"
    let candidateIndex ← int b index
    let decision ← item fields "decision"
    let reason ← item fields "reason"
    let confidence ← item fields "confidence"
    return { candidateIndex, decision, reason, confidence }
  | _ => .error .valueError

/-- `parse_structured_response` -/
def parseStructuredResponse (raw : Text) : Except PyError (DReflectionResult F) :=
  match (extractJsonObject raw).bind (jsonLoads floats) with
  | none => .error .valueError
  | some (.obj fields) =>
    match get? fields "decisions" with
    | some (.arr items) =>
      (items.mapM (parseDecision b)).map fun decisions =>
        { decisions
          tickNote := match get? fields "tick_note" with
            | some (.str s) => some s
            | _ => none }
    | _ => .error .valueError
  | some _ => .error .attributeError

/-- The age of a candidate. A time without an offset cannot be subtracted from one with it. -/
def age : Value F → Except PyError Unit
  | .str s => if b.hasOffset s = some false then .error .typeError else .ok ()
  | _ => .error .typeError

/-- The items of a context's meta data. -/
def metaItems (sourceMeta : Value F) : Except PyError Unit :=
  if truthy b sourceMeta then (asDict sourceMeta).map fun _ => () else .ok ()

/-- The deviation of a snapshot. -/
def sigma : Option (EmotionalSnapshot F) → Except PyError Unit
  | some s => formatted s.deltaSigma
  | none => .ok ()

/-- `_render_candidate_summary`, without its text. -/
def renderCandidateSummary (c : InitiateCandidate F) : Except PyError Unit := do
  age b c.ts
  metaItems b c.semanticContext.sourceMeta
  joined c.semanticContext.linkedMemoryIds
  sigma c.emotionalSnapshot

/-- `FailureType` -/
inductive FailureType
  | timeout
  | providerError
  | malformedJson
  | rateLimit
  | bothLowConfidence
  deriving DecidableEq

/-- `ModelTier` -/
inductive ModelTier
  | haiku
  | sonnet
  deriving DecidableEq

/-- `DCallRow`, without its ids and measurements. -/
structure DCallRow where
  ts : Instant
  modelTierUsed : ModelTier
  candidatesIn : ℕ
  promotedOut : ℕ
  filteredOut : ℕ
  failureType : Option FailureType
  retryCount : ℕ
  tickNote : Option (List CodeUnit)
  deriving DecidableEq

/-- A reply of the provider. -/
abbrev Reply := Except Raised Text

/-- What the reflection is run with: `ReflectionDeps`, with the replies of its two calls. -/
structure ReflectionDeps where
  now : Instant
  haiku : Reply
  sonnet : Reply
  /-- `_is_rate_limit_text` of a message in lower case -/
  isRateLimitText : Text → Bool

namespace ReflectionDeps

variable (deps : ReflectionDeps)

/-- The failure that is made of what a call raises, none where the call was refused. -/
def failureOf : Raised → Option FailureType
  | .timeout => some .timeout
  | .throttleDeferred => none
  | .other message => some (if deps.isRateLimitText message then .rateLimit else .providerError)

/-- The row of a call that decided nothing. -/
def emptyCallRow (candidatesIn : ℕ) (failureType : FailureType) (tier : ModelTier)
    (retryCount : ℕ) : DCallRow where
  ts := deps.now
  modelTierUsed := tier
  candidatesIn := candidatesIn
  promotedOut := 0
  filteredOut := 0
  failureType := some failureType
  retryCount := retryCount
  tickNote := none

/-- What is returned where a call raised. -/
def failed (candidatesIn : ℕ) (tier : ModelTier) (e : Raised) :
    Except PyError (DReflectionResult F × DCallRow) :=
  match deps.failureOf e with
  | some failureType => .ok (⟨[], none⟩, deps.emptyCallRow candidatesIn failureType tier 0)
  | none => .error (.provider e)

/-- The row of a call that decided. -/
def callRow (candidatesIn : ℕ) (result : DReflectionResult F) (tier : ModelTier)
    (failureType : Option FailureType) (retryCount : ℕ) : DCallRow where
  ts := deps.now
  modelTierUsed := tier
  candidatesIn := candidatesIn
  promotedOut := result.decisions.countP fun d => isText d.decision "promote"
  filteredOut := result.decisions.countP fun d => isText d.decision "filter"
  failureType := failureType
  retryCount := retryCount
  tickNote := result.tickNote

end ReflectionDeps

/-- `confidence == "low"` -/
def DDecision.isLow (d : DDecision F) : Bool := isText d.confidence "low"

/-- `decision == "filter"` -/
def DDecision.isFilter (d : DDecision F) : Bool := isText d.decision "filter"

/-- A decision of the large model that is of low confidence is a filter. -/
def DDecision.forced (d : DDecision F) : DDecision F :=
  if d.isLow then
    { d with
      decision := .str (name "filter")
      reason := .str (name "ambivalent — both my fast and slow voice were uncertain")
      confidence := .str (name "low") }
  else d

/-- The second call, on the large model. -/
def escalate (deps : ReflectionDeps) (candidatesIn : ℕ) :
    Except PyError (DReflectionResult F × DCallRow) :=
  match deps.sonnet with
  | .error e => deps.failed candidatesIn .sonnet e
  | .ok raw =>
    match parseStructuredResponse floats b raw with
    | .error .valueError =>
      .ok (⟨[], none⟩, deps.emptyCallRow candidatesIn .malformedJson .sonnet 1)
    | .error e => .error e
    | .ok result =>
      let forced := { result with decisions := result.decisions.map DDecision.forced }
      let bothLow := result.decisions.any DDecision.isLow
      let failureType := if bothLow then some FailureType.bothLowConfidence else none
      .ok (forced, deps.callRow candidatesIn forced .sonnet failureType 1)

/-- `run` of the reflection -/
def run (deps : ReflectionDeps) (candidates : List (InitiateCandidate F)) :
    Except PyError (DReflectionResult F × DCallRow) :=
  match candidates.mapM (renderCandidateSummary b) with
  | .error e => .error e
  | .ok _ =>
    match deps.haiku with
    | .error e => deps.failed candidates.length .haiku e
    | .ok raw =>
      match parseStructuredResponse floats b raw with
      | .error .valueError => escalate floats b deps candidates.length
      | .error e => .error e
      | .ok result =>
        if result.decisions.any DDecision.isLow then escalate floats b deps candidates.length
        else .ok (result, deps.callRow candidates.length result .haiku none 0)

/-! ## What the reflection raises -/

/-- A reply that is read or is not a structured reply. It has no decision that lacks a key or whose
index is no number. -/
def Structured (raw : Text) : Prop :=
  ∀ e, parseStructuredResponse floats b raw = .error e → e = .valueError

variable {floats b}

theorem failed_error {deps : ReflectionDeps} {n : ℕ} {tier : ModelTier} {e : Raised} {e' : PyError}
    (h : (deps.failed n tier e : Except PyError (DReflectionResult F × DCallRow)) = .error e') :
    e' = .provider .throttleDeferred := by
  unfold ReflectionDeps.failed at h
  cases e with
  | throttleDeferred => exact (Except.error.inj h).symm
  | timeout => exact absurd h nofun
  | other message => exact absurd h nofun

theorem escalate_error {deps : ReflectionDeps} {n : ℕ} {e : PyError}
    (hsonnet : ∀ raw, deps.sonnet = .ok raw → Structured floats b raw)
    (h : escalate floats b deps n = .error e) : e = .provider .throttleDeferred := by
  unfold escalate at h
  split at h
  · exact failed_error h
  · next raw hraw =>
    have hstructured := hsonnet raw hraw
    split at h
    · exact absurd h nofun
    · next e' hne hparse => exact absurd (hstructured e' hparse) hne
    · exact absurd h nofun

theorem mapM_render {cs : List (InitiateCandidate F)}
    (h : ∀ c ∈ cs, renderCandidateSummary b c = .ok ()) :
    ∃ us, cs.mapM (renderCandidateSummary b) = .ok us := by
  induction cs with
  | nil => exact ⟨[], rfl⟩
  | cons c cs ih =>
    have hc := h c List.mem_cons_self
    obtain ⟨us, hus⟩ := ih fun c' hc' => h c' (List.mem_cons_of_mem c hc')
    refine ⟨() :: us, ?_⟩
    rw [List.mapM_cons, hc, hus]
    rfl

/-- Where the candidates can be written and the replies are structured, the reflection raises
nothing but a refusal. -/
theorem run_error {deps : ReflectionDeps} {cs : List (InitiateCandidate F)} {e : PyError}
    (hcs : ∀ c ∈ cs, renderCandidateSummary b c = .ok ())
    (hhaiku : ∀ raw, deps.haiku = .ok raw → Structured floats b raw)
    (hsonnet : ∀ raw, deps.sonnet = .ok raw → Structured floats b raw)
    (h : run floats b deps cs = .error e) : e = .provider .throttleDeferred := by
  obtain ⟨us, hus⟩ := mapM_render hcs
  unfold run at h
  rw [hus] at h
  dsimp only at h
  split at h
  · exact failed_error h
  · next raw hraw =>
    have hstructured := hhaiku raw hraw
    split at h
    · exact escalate_error hsonnet h
    · next e' hne hparse => exact absurd (hstructured e' hparse) hne
    · split at h
      · exact escalate_error hsonnet h
      · exact absurd h nofun

end Reflection

end Companion.Initiate.Review

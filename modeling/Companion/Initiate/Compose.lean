import Companion.Initiate.Outreach
import Companion.Initiate.Reflection

/-!
# The composition

What is made of a candidate in three calls of the provider, or in one where it is a voice edit
(`brain/initiate/compose.py` and the first half of `_process_one_candidate` in
`brain/initiate/review.py`). The prompts are left out: of what goes into them there is what raises
before the call.

A reply to the last call that cannot be read is a hold.
-/

namespace Companion.Initiate.Review

open Companion.JsonText
open Companion.Initiate.Outreach (answers)

/-- The replies to the calls about a candidate. -/
structure Replies where
  subject : Reply
  tone : Reply
  decision : Reply

section Compose

variable {F : Type} (floats : Floats F) (b : Builtins F)

/-- `candidate.kind`: any other value than the voice edit is composed as a message. -/
def InitiateCandidate.kindOf (c : InitiateCandidate F) : CandidateKind :=
  if isText c.kind "voice_edit_proposal" then .voiceEditProposal else .message

/-- `provider.complete` -/
def complete (reply : Reply) : Except PyError Text := reply.mapError .provider

/-- The decision that a value names. -/
def answer? (v : Value F) : Option Decision :=
  if isText v "send_notify" then some .sendNotify
  else if isText v "send_quiet" then some .sendQuiet
  else if isText v "hold" then some .hold
  else if isText v "drop" then some .drop
  else none

/-- The decision of a reply. What cannot be read, and what is no answer for the kind, is a hold. -/
def readDecision (kind : CandidateKind) (raw : Text) : Decision :=
  let parsed := loadsJsonObject floats (Memory.Text.strip raw)
  match parsed.bind fun parsed => get? parsed "decision" with
  | none => .hold
  | some v => ((answer? v).filter (· ∈ answers kind)).getD .hold

/-- The excerpts of the linked memories, or their ids: the ids must be what can be cut. -/
def hydrate : Value F → Except PyError Unit
  | .str _ | .arr _ => .ok ()
  | _ => .error .typeError

/-- The emotional vector, whose items are written where there are any. -/
def vectorItems (c : InitiateCandidate F) : Except PyError Unit :=
  match c.emotionalSnapshot with
  | some s => if truthy b s.vector then (asDict s.vector).map fun _ => () else .ok ()
  | none => .ok ()

/-- `compose_subject`, `compose_tone` and `compose_decision` -/
def composeMessage (c : InitiateCandidate F) (replies : Replies) : Except PyError Decision := do
  hydrate c.semanticContext.linkedMemoryIds
  joined c.semanticContext.topicTags
  let _ ← complete replies.subject
  vectorItems b c
  let _ ← complete replies.tone
  let raw ← complete replies.decision
  return readDecision floats .message raw

/-- `candidate.proposal or {}` -/
def proposalOf (c : InitiateCandidate F) : Except PyError (Fields F) :=
  if truthy b c.proposal then asDict c.proposal else .ok []

/-- The rationale of a proposal, which is put into a text as it is. -/
def rationale (proposal : Fields F) : Except PyError Unit :=
  match (get? proposal "rationale").getD (.str []) with
  | .str _ => .ok ()
  | _ => .error .typeError

/-- The evidence of a proposal. -/
def evidence (proposal : Fields F) : Except PyError Unit :=
  let v := (get? proposal "evidence").getD .null
  if truthy b v then joined v else .ok ()

/-- `compose_decision_voice_edit`, and what is read of the proposal before it. -/
def composeVoiceEdit (c : InitiateCandidate F) (replies : Replies) : Except PyError Decision := do
  let proposal ← proposalOf b c
  rationale proposal
  evidence b proposal
  let raw ← complete replies.decision
  return readDecision floats .voiceEditProposal raw

/-- The composition of a candidate: the decision of the model, or what is raised. -/
def compose (c : InitiateCandidate F) (replies : Replies) : Except PyError Decision :=
  match c.kindOf with
  | .message => composeMessage floats b c replies
  | .voiceEditProposal => composeVoiceEdit floats b c replies

theorem readDecision_mem (kind : CandidateKind) (raw : Text) :
    readDecision floats kind raw ∈ answers kind := by
  have hhold : Decision.hold ∈ answers kind := by cases kind <;> decide
  dsimp only [readDecision]
  split
  · exact hhold
  · next v _ =>
    cases hv : (answer? v).filter (· ∈ answers kind) with
    | none => exact hhold
    | some d =>
      have hd := Option.mem_filter_iff.mp hv
      simpa using hd.2

/-- A computation that is done in two steps took both. -/
theorem bind_ok {α β : Type} {x : Except PyError α} {f : α → Except PyError β} {r : β}
    (h : x >>= f = .ok r) : ∃ a, x = .ok a ∧ f a = .ok r := by
  cases x with
  | error e => exact absurd h (by simp [bind, Except.bind])
  | ok a => exact ⟨a, rfl, h⟩

theorem compose_mem {c : InitiateCandidate F} {replies : Replies} {d : Decision}
    (h : compose floats b c replies = .ok d) : d ∈ answers c.kindOf := by
  unfold compose at h
  cases hkind : c.kindOf with
  | message =>
    simp only [hkind, composeMessage] at h
    obtain ⟨_, -, h⟩ := bind_ok h
    obtain ⟨_, -, h⟩ := bind_ok h
    obtain ⟨_, -, h⟩ := bind_ok h
    obtain ⟨_, -, h⟩ := bind_ok h
    obtain ⟨_, -, h⟩ := bind_ok h
    obtain ⟨raw, -, h⟩ := bind_ok h
    have hd : readDecision floats .message raw = d := Except.ok.inj h
    exact hd ▸ readDecision_mem floats .message raw
  | voiceEditProposal =>
    simp only [hkind, composeVoiceEdit] at h
    obtain ⟨proposal, -, h⟩ := bind_ok h
    obtain ⟨_, -, h⟩ := bind_ok h
    obtain ⟨_, -, h⟩ := bind_ok h
    obtain ⟨raw, -, h⟩ := bind_ok h
    have hd : readDecision floats .voiceEditProposal raw = d := Except.ok.inj h
    exact hd ▸ readDecision_mem floats .voiceEditProposal raw

end Compose

end Companion.Initiate.Review

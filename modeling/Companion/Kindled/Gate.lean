import Companion.Effects
import Companion.Kindled.Json
import Companion.Memory.Text
import Mathlib

/-!
# The privacy gate

`brain/kindled_link/privacy_gate.py`: the pre-filter for structural leaks, the verdict of the model,
the disclosure budget, and `PrivacyGate.review`, which puts them together. What lies outside (the
provider, the throttle, and the store, whose counters and budget others write too) is asked by calls
that may answer anything or raise.
-/

namespace Companion.Kindled

open Companion.Memory Companion.Effects

/-- `relationship_hint`, where it is not empty. -/
structure Hint where
  /-- Its JSON text, or none where it has none. -/
  dumped : Option Text
  deriving DecidableEq

/-- `OutboundPayload` -/
structure Payload where
  body : Text
  hint : Option Hint
  deriving DecidableEq

/-- The actions of a `GateDecision`. -/
inductive Action
  | send
  | revise
  | hold
  | endOrPause
  deriving DecidableEq

/-- `GateDecision` -/
structure Decision where
  action : Action
  revisionConstraints : Option (Json Text)
  textureScore : ℚ

/-- What a provider is given. -/
inductive Prompt
  /-- `_build_gate_prompt` -/
  | gate (body hint summary reason stage : Text) (budgetOk : Bool)
  /-- The prompt of `_regenerate`. -/
  | revision (constraints body : Text)
  /-- `build_peer_prompt` -/
  | draft (stage summary : Text) (affinity : List Text)
  deriving DecidableEq

/-- A row of `sessions`. -/
structure SessionRow where
  isOpen : Bool
  msgCount : ℕ
  /-- The time of the last outbound message, where it can be read. -/
  lastOutboundAt : Option Instant
  deriving DecidableEq

/-- A row of `peer_counters`. -/
structure Counters where
  outbound : ℕ
  provider : ℕ
  deriving DecidableEq

/-- What `send_message` pushes: the message in its envelope. -/
structure Outgoing where
  peer : Text
  session : Text
  sequence : ℕ
  mailbox : Text
  text : Text
  deriving DecidableEq

/-- A row of `outbound_drafts`. -/
structure Draft where
  nr : ℕ
  peer : Text
  session : Text
  payload : Payload
  deriving DecidableEq

/-- What the gate, the engine and the tick ask of the outside. -/
inductive Call
  /-- `get_session` -/
  | session (peer session : Text)
  /-- `get_active_session` -/
  | activeSession (peer : Text)
  /-- `get_counters` -/
  | counters (peer today : Text)
  /-- `relationship.get_stage` -/
  | stage (peer : Text)
  /-- `try_reserve_provider` -/
  | reserveProvider (peer today : Text)
  /-- `release_provider_slot` -/
  | releaseProvider (peer today : Text)
  /-- `try_reserve_outbound` -/
  | reserveOutbound (peer today : Text)
  /-- `get_disclosure_budget` -/
  | budget (peer : Text)
  /-- `debit_disclosure_budget` -/
  | debit (peer : Text) (amount : ℚ)
  /-- `bump_session_outbound` -/
  | bump (peer session : Text)
  /-- `end_session` -/
  | endSession (peer session : Text) (cooldownUntil : Instant)
  /-- The slot of the throttle is entered, and granted or not. -/
  | enterSlot
  | exitSlot
  /-- `provider.complete` -/
  | complete (prompt : Prompt)
  /-- `get_session_key`: a row is there. -/
  | sessionKey (peer session : Text)
  /-- `next_outbound_sequence` -/
  | nextSequence (peer session : Text)
  /-- The `relay_mailbox` of `get_peer`. -/
  | mailbox (peer : Text)
  /-- `RelayClient.push` -/
  | push (envelope : Outgoing)
  /-- A `send_fn` of a caller that is not modelled. -/
  | send (payload : Payload)
  /-- `save_draft` -/
  | saveDraft (peer session : Text) (payload : Payload)
  /-- `get_pending_drafts` -/
  | pendingDrafts
  /-- `set_draft_status` -/
  | setDraftStatus (nr : ℕ) (status : Action)
  /-- `list_paired_peers` -/
  | pairedPeers
  /-- `recent_transcript`: the latest row first, and whether it is inbound. -/
  | transcript (peer : Text)
  /-- `get_relationship_row`: the stage and the affinity tags. -/
  | relationship (peer : Text)
  /-- `tick_is_due` -/
  | due
  /-- `_should_open_first_content` -/
  | shouldOpen (peer session : Text)
  /-- The rest of a tick, which sends no draft. -/
  | other
  deriving DecidableEq

/-- What a call is answered. -/
abbrev Call.Reply : Call → Type
  | session _ _ => Option SessionRow
  | activeSession _ => Option Text
  | counters _ _ => Counters
  | stage _ => Text
  | reserveProvider _ _ => Bool
  | reserveOutbound _ _ => Bool
  | budget _ => ℚ
  | enterSlot => Bool
  | complete _ => Text
  | sessionKey _ _ => Bool
  | nextSequence _ _ => ℕ
  | mailbox _ => Text
  | saveDraft _ _ _ => ℕ
  | pendingDrafts => List Draft
  | pairedPeers => List Text
  | transcript _ => List (Bool × Text)
  | relationship _ => Option (Text × List Text)
  | due => Bool
  | shouldOpen _ _ => Bool
  | _ => Unit

/-- A program of such calls. -/
abbrev Link (α : Type) := Prog Call.Reply α

abbrev ask (c : Call) : Link c.Reply := Prog.ask c

/-- `KINDLED_LINK_BUDGET_TIGHTEN_THRESHOLD` -/
def budgetTightenThreshold : ℚ := 1 / 4

/-- `KINDLED_LINK_BUDGET_DEPLETED_THRESHOLD`, which is `KINDLED_LINK_MIN_SEND_DEBIT`. -/
def budgetDepletedThreshold : ℚ := 1 / 50

/-- `MAX_SCAN_CHARS` -/
def maxScanChars : ℕ := 8192

/-- What the gate and the engine take from the standard library. -/
structure Setting where
  /-- The searches of `_PATTERNS`. -/
  patterns : List (Text → Bool)
  /-- `json.loads`, or none where it raises. -/
  loads : Text → Option (Json Text)
  /-- `float` of a string, or none where it raises. -/
  floatOf : Text → Option FloatValue
  /-- `strftime("%Y-%m-%d")` -/
  dayOf : Instant → Text

/-- A decision to hold. -/
def Decision.held : Decision := ⟨.hold, none, 0⟩

/-- `PrivacyGate._payload_text` -/
def payloadText (p : Payload) : Text :=
  match p.hint with
  | none => p.body.take maxScanChars
  | some hint =>
    p.body.take maxScanChars ++ '\n' ::
      (hint.dumped.map (·.take maxScanChars)).getD "/etc/kindled/unserialisable-hint".toList

/-- `max(0.0, min(1.0, x))` -/
def clampUnit : FloatValue → ℚ
  | .finite x => max 0 (min 1 x)
  | .infinite negative => if negative then 0 else 1
  | .nan => 1

/-- The decision that a verdict names. -/
def actionOf : Option (Json Text) → Option Action
  | some (.str s) =>
    if s = "send".toList then some .send
    else if s = "revise".toList then some .revise
    else if s = "hold".toList then some .hold
    else if s = "end_or_pause".toList then some .endOrPause
    else none
  | _ => none

/-- The text from the first opening brace to the last closing one. -/
def bracesOf (raw : Text) : Option Text :=
  if '{' ∈ raw ∧ '}' ∈ raw then
    let upTo := (raw.reverse.dropWhile (· ≠ '}')).reverse
    some (upTo.dropWhile (· ≠ '{'))
  else none

/-- `_apply_budget` -/
def applyBudget (decision : Decision) (budget : ℚ) : Decision :=
  if decision.action = .send then
    if budget < budgetDepletedThreshold then
      { decision with action := .hold, revisionConstraints := none }
    else if budget < budgetTightenThreshold then
      { decision with
        action := .revise
        revisionConstraints := some (.str "Say less about the user; keep it general.".toList) }
    else decision
  else decision

/-- `with throttle.background_slot() as granted: body` -/
def withSlot {α : Type} (body : Bool → Link α) : Link α := do
  let granted : Bool ← ask .enterSlot
  (body granted).ensuring (ask .exitSlot)

/-- The hint as the gate's prompt has it, or an exception. -/
def hintText : Option Hint → Link Text
  | none => pure "{}".toList
  | some hint => hint.dumped.elim Prog.raise pure

/-- The reflection of `PrivacyGate.review`: the budget and the verdict, or none to hold. -/
def reflect (p : Payload) (peer stage summary reason today : Text) : Link (Option (ℚ × Text)) :=
  Prog.tryExcept
    (do
      let budget : ℚ ← ask (.budget peer)
      let hint ← hintText p.hint
      withSlot fun granted =>
        if granted then do
          let raw : Text ← ask (.complete (.gate p.body hint summary reason stage
            (decide (budgetTightenThreshold ≤ budget))))
          pure (some (budget, raw))
        else do
          ask (.releaseProvider peer today)
          pure none)
    (do
      ask (.releaseProvider peer today)
      pure none)

namespace Setting

variable (S : Setting)

/-- `_prefilter` -/
def prefilter (text : Text) : Option Decision :=
  match S.patterns.filter (· text) with
  | [] => none
  | hits =>
    some
      { action := if hits.length = 1 then .revise else .hold
        revisionConstraints := some (.str ("Remove the file path, address, email, or credential; " ++
          "speak only in broad non-identifying texture.").toList)
        textureScore := 1 }

/-- The texture score of a verdict, or none where `float` raises what is not caught beside it. -/
def textureOf : Option (Json Text) → Option ℚ
  | none => some 1
  | some (.bool b) => some (if b then 1 else 0)
  | some (.int n) => if 2 ^ 1024 ≤ |n| then none else some (clampUnit (.finite n))
  | some (.float x) => some (clampUnit x)
  | some (.str s) => some ((S.floatOf s).elim 1 clampUnit)
  | some _ => some 1

/-- `_parse_verdict` -/
def parseVerdict (raw : Text) : Decision :=
  match (bracesOf raw).bind S.loads with
  | some (.obj items) =>
    match actionOf (items.lookup "decision".toList),
      S.textureOf (items.lookup "texture_score".toList) with
    | some action, some score =>
      { action := action
        revisionConstraints := items.lookup "revision_constraints".toList
        textureScore := score }
    | _, _ => .held
  | _ => .held

/-- `PrivacyGate.review` -/
def review (p : Payload) (peer stage summary reason today : Text) : Link Decision :=
  match S.prefilter (payloadText p) with
  | some decision => pure decision
  | none => do
    let reserved : Bool ← ask (.reserveProvider peer today)
    if reserved then do
      match ← reflect p peer stage summary reason today with
      | none => pure .held
      | some (budget, raw) => pure (applyBudget (S.parseVerdict raw) budget)
    else pure .held

end Setting

end Companion.Kindled

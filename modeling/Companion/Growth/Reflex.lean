import Companion.JsonText
import Companion.Kindled.Json
import Companion.Memory.Text
import Companion.Rounding
import Mathlib.Data.Finset.Basic
import Mathlib.Data.List.DropRight

/-!
# The reflex crystallizer

`crystallize_reflex` of `brain/growth/crystallizers/reflex.py`, from the provider's reply on: the
gates of a proposal, the loops over the proposed arcs and prunings, and the result.

The gates look at one proposal and the arcs as they were before, and compare floats, of which one is
no number. So the result is sound just in case the first proposals that pass are sound together
(`crystallizeReflex_sound_iff`).

What the language makes of a text is a parameter: which float it reads as, its lower case, and how
it fares as a template. A refusal is given by its gate; the texts, which are only logged, are left
out.
-/

namespace Companion.Growth

open Companion.JsonText
open Companion.Kindled (FloatValue)
open Companion.Rounding

/-! ## Values -/

/-- A string. -/
abbrev Name := List CodeUnit

/-- A string of the source. -/
def text (s : String) : Name := s.toList.map fun c => Fin.ofNat _ c.toNat

/-- How `template.format_map` ends. -/
inductive Rendering
  | renders
  /-- `KeyError`, `ValueError` or `IndexError`. -/
  | fails
  /-- Any other exception. -/
  | raises
  deriving DecidableEq

structure Setting where
  floats : Floats FloatValue
  /-- The depth to which a value may be nested. -/
  depth : ℕ
  /-- `float` of a string, none where it raises `ValueError`. -/
  floatOf : Name → Option FloatValue
  /-- `str.lower` -/
  lower : Name → Name
  /-- `format_map` with the canonical values. -/
  formatMap : Name → Rendering

/-- What `float` raises. -/
inductive FloatError
  /-- `TypeError` or `ValueError`. -/
  | notNumeric
  | overflow
  deriving DecidableEq

/-- The first integer that is too large for a float. -/
def floatLimit : ℕ := 2 ^ 1024 - 2 ^ 970

/-- `value < bound` -/
def FloatValue.below (bound : ℚ) : FloatValue → Bool
  | .finite x => x < bound
  | .infinite negative => negative
  | .nan => false

/-- The value is a number that is not below the bound. -/
def FloatValue.AtLeast (bound : ℚ) (x : FloatValue) : Prop :=
  x ≠ .nan ∧ FloatValue.below bound x = false

variable (S : Setting)

/-- `float(value)` -/
def toFloat : Value FloatValue → Except FloatError FloatValue
  | .bool b => .ok (.finite (if b then 1 else 0))
  | .int n =>
    if n.natAbs < floatLimit then .ok (.finite (n.sign * roundNat n.natAbs)) else .error .overflow
  | .float x => .ok x
  | .str s => (S.floatOf s).elim (.error .notNumeric) .ok
  | _ => .error .notNumeric

def isSpace (u : CodeUnit) : Bool := Memory.whitespace.contains u.val

/-- `text.strip()` -/
def strip (t : Name) : Name := (t.dropWhile isSpace).rdropWhile isSpace

def underscore : CodeUnit := 0x5F

def hyphen : CodeUnit := 0x2D

def newline : CodeUnit := 0x0A

/-- `canonical_name` -/
def canonicalName (name : Name) : Name :=
  let key := (S.lower (strip name)).map fun u => if u = hyphen then underscore else u
  if text "_blend" <:+ key then
    let parts := (key.take (key.length - (text "_blend").length)).splitOn underscore
    List.intercalate [underscore] (parts.mergeSort fun a b => a ≤ b) ++ text "_blend"
  else key

/-- The keys of `pool_by_canonical_name`. -/
def keyset (trigger : List (Name × FloatValue)) : Finset Name :=
  (trigger.map fun e => canonicalName S e.1).toFinset

/-- A lower-case letter of ASCII. -/
def isLetter (u : CodeUnit) : Bool := 0x61 ≤ u && u ≤ 0x7A

def isNamePart (u : CodeUnit) : Bool := isLetter u || (0x30 ≤ u && u ≤ 0x39) || u = underscore

/-- A letter, and letters, digits and underscores after it. -/
def isIdentifier : Name → Bool
  | [] => false
  | u :: us => isLetter u && us.all isNamePart

/-- `_NAME_REGEX.match`. The end of the pattern is also before a newline at the end of the text. -/
def matchesNameRegex (t : Name) : Bool :=
  isIdentifier t || (t.getLast? = some newline && isIdentifier t.dropLast)

/-- `_NAME_MAX_LEN` -/
def nameMaxLen : ℕ := 64

/-- `_THRESHOLD_FLOOR` -/
def thresholdFloor : ℚ := 5

/-- `_COOLDOWN_FLOOR_HOURS` -/
def cooldownFloorHours : ℚ := 12

/-- `_ACTIVE_FLOOR` -/
def activeFloor : ℕ := 4

/-! ## The request -/

inductive CreatedBy
  | ogMigration
  | brainEmergence
  | userAuthored
  deriving DecidableEq

/-- What the crystallizer reads of a `ReflexArc`. -/
structure ReflexArc where
  name : Name
  trigger : List (Name × FloatValue)
  createdBy : CreatedBy

structure ReflexArcProposal where
  name : Name
  description : Name
  trigger : List (Name × FloatValue)
  cooldownHours : FloatValue
  outputMemoryType : Name
  promptTemplate : Name
  reasoning : Name
  daysSinceHumanMin : FloatValue

structure ReflexPruneProposal where
  name : Name
  reasoning : Name

structure Request where
  currentArcs : List ReflexArc
  removedArcNames : List Name
  emotionVocabulary : List Name
  totalCap : ℤ
  maxEmergences : ℤ
  maxPrunings : ℤ

variable (R : Request)

/-! ## The gates of an arc -/

/-- The gate that refuses a proposal. -/
inductive Refusal
  | nameNotText
  | invalidName
  | nameExists
  | nameRemoved
  | noTrigger
  | triggerNotNumeric
  | unknownEmotion
  | threshold
  | cooldownNotNumeric
  | cooldown
  | noTemplate
  | template
  | subset
  | superset
  | full
  | missing (field : String)
  deriving DecidableEq

/-- How the gates end before their end. -/
inductive Stop
  | refused (reason : Refusal)
  | raised
  deriving DecidableEq

abbrev Gate := Except Stop

def refuseIf (condition : Prop) [Decidable condition] (reason : Refusal) : Gate Unit :=
  if condition then .error (.refused reason) else .ok ()

/-- A float where one is wanted. -/
def numeric (reason : Refusal) : Except FloatError FloatValue → Gate FloatValue
  | .ok x => .ok x
  | .error .notNumeric => .error (.refused reason)
  | .error .overflow => .error .raised

/-- `proposal_dict.get(key)` -/
def field? (p : Fields FloatValue) (key : String) : Option (Value FloatValue) := p.lookup (text key)

def nameOf (p : Fields FloatValue) : Gate Name :=
  match field? p "name" with
  | none => .error (.refused .invalidName)
  | some (.str name) =>
    if name = [] ∨ nameMaxLen < name.length ∨ matchesNameRegex name = false then
      .error (.refused .invalidName)
    else .ok name
  | some _ => .error (.refused .nameNotText)

/-- `trigger_typed` -/
def triggerOf (p : Fields FloatValue) : Gate (List (Name × FloatValue)) :=
  match field? p "trigger" with
  | some (.obj (e :: es)) =>
    (e :: es).mapM fun e => (numeric .triggerNotNumeric (toFloat S e.2)).map fun x => (e.1, x)
  | _ => .error (.refused .noTrigger)

def cooldownOf (p : Fields FloatValue) : Gate FloatValue :=
  match field? p "cooldown_hours" with
  | some v => numeric .cooldownNotNumeric (toFloat S v)
  | none => .error (.refused .cooldownNotNumeric)

/-- `_prompt_template_renderable` of the template. -/
def templateOf (p : Fields FloatValue) : Gate Name :=
  match field? p "prompt_template" with
  | some (.str (u :: us)) =>
    match S.formatMap (u :: us) with
    | .renders => .ok (u :: us)
    | .fails => .error (.refused .template)
    | .raises => .error .raised
  | _ => .error (.refused .noTemplate)

/-- The keys that are proposed beside those of an arc. -/
def overlap (proposed existing : Finset Name) : Option Refusal :=
  if proposed ⊂ existing then some .subset
  else if existing ⊂ proposed then some .superset
  else none

def notOverlapping (trigger : List (Name × FloatValue)) : Gate Unit :=
  match R.currentArcs.findSome? fun a => overlap (keyset S trigger) (keyset S a.trigger) with
  | some reason => .error (.refused reason)
  | none => .ok ()

/-- The field is a text that is not blank. -/
def required (p : Fields FloatValue) (key : String) : Gate Unit :=
  match field? p key with
  | some (.str t) => refuseIf (strip t = []) (.missing key)
  | _ => .error (.refused (.missing key))

/-- The gates up to the eighth. -/
def firstGates (p : Fields FloatValue) : Gate Unit := do
  let name ← nameOf p
  refuseIf (name ∈ R.currentArcs.map ReflexArc.name) .nameExists
  refuseIf (name ∈ R.removedArcNames) .nameRemoved
  let trigger ← triggerOf S p
  refuseIf (∃ e ∈ trigger, e.1 ∉ R.emotionVocabulary) .unknownEmotion
  refuseIf (∃ e ∈ trigger, FloatValue.below thresholdFloor e.2 = true) .threshold
  let cooldown ← cooldownOf S p
  refuseIf (FloatValue.below cooldownFloorHours cooldown = true) .cooldown
  let _ ← templateOf S p
  notOverlapping S R trigger

/-- `_validate_emergence_proposal` -/
def validateEmergenceProposal (activeArcCount : ℤ) (p : Fields FloatValue) : Gate Unit := do
  firstGates S R p
  refuseIf (R.totalCap ≤ activeArcCount) .full
  required p "description"
  required p "output_memory_type"
  required p "reasoning"

/-- `str(d[key])`. The gates let only texts come here. -/
def textAt (p : Fields FloatValue) (key : String) : Except FloatError Name :=
  match field? p key with
  | some (.str t) => .ok t
  | _ => .error .notNumeric

/-- The items of `d[key]` with their floats. -/
def floatsAt (p : Fields FloatValue) (key : String) : Except FloatError (List (Name × FloatValue)) :=
  match field? p key with
  | some (.obj fields) => fields.mapM fun e => (toFloat S e.2).map fun x => (e.1, x)
  | _ => .error .notNumeric

/-- `_proposal_from_dict`. What it raises other than `OverflowError` is caught. -/
def proposalFromDict (p : Fields FloatValue) : Except FloatError ReflexArcProposal := do
  let name ← textAt p "name"
  let description ← textAt p "description"
  let trigger ← floatsAt S p "trigger"
  let cooldownHours ← ((field? p "cooldown_hours").elim (.error .notNumeric) (toFloat S))
  let outputMemoryType ← textAt p "output_memory_type"
  let promptTemplate ← textAt p "prompt_template"
  let reasoning ← textAt p "reasoning"
  let daysSinceHumanMin ← ((field? p "days_since_human_min").elim (.ok (.finite 0)) (toFloat S))
  return ⟨name, strip description, trigger, cooldownHours, outputMemoryType, promptTemplate,
    strip reasoning, daysSinceHumanMin⟩

/-! ## The pass -/

/-- `effective_max_emergences` -/
def effectiveMaxEmergences : ℤ :=
  if (R.currentArcs.length : ℤ) < R.totalCap then R.maxEmergences else 0

/-- What a proposal adds where a number of others have been accepted, or none where an exception is
raised. -/
def emergence (accepted : ℕ) (p : Fields FloatValue) : Option (Option ReflexArcProposal) :=
  match validateEmergenceProposal S R (R.currentArcs.length + accepted) p with
  | .error .raised => none
  | .error (.refused _) => some none
  | .ok () =>
    match proposalFromDict S p with
    | .error .overflow => none
    | .error .notNumeric => some none
    | .ok q => some (some q)

/-- The loop over the proposed arcs. -/
def acceptedEmergences : ℕ → List (Value FloatValue) → Option (List ReflexArcProposal)
  | _, [] => some []
  | accepted, .obj p :: ps =>
    if effectiveMaxEmergences R ≤ accepted then acceptedEmergences accepted ps
    else
      match emergence S R accepted p with
      | none => none
      | some none => acceptedEmergences accepted ps
      | some (some q) => (acceptedEmergences (accepted + 1) ps).map (q :: ·)
  | accepted, _ :: ps => acceptedEmergences accepted ps

/-- `_validate_pruning_proposal`, with the proposal that is accepted. -/
def pruning (prunesAcceptedSoFar : ℕ) (p : Fields FloatValue) : Option ReflexPruneProposal :=
  match field? p "name", field? p "reasoning" with
  | some (.str name), some (.str reasoning) =>
    -- Of several arcs of one name the last is looked at.
    match (R.currentArcs.filter fun a => a.name = name).getLast? with
    | none => none
    | some target =>
      if target.createdBy ≠ .brainEmergence then none
      else if (R.currentArcs.length : ℤ) - 1 < activeFloor then none
      else if R.maxPrunings ≤ prunesAcceptedSoFar then none
      else if strip reasoning = [] then none
      else some ⟨name, strip reasoning⟩
  | _, _ => none

/-- The loop over the proposed prunings. -/
def acceptedPrunings : ℕ → List (Value FloatValue) → List ReflexPruneProposal
  | _, [] => []
  | accepted, .obj p :: ps =>
    if R.maxPrunings ≤ accepted then acceptedPrunings accepted ps
    else
      match pruning R accepted p with
      | none => acceptedPrunings accepted ps
      | some q => q :: acceptedPrunings (accepted + 1) ps
  | accepted, _ :: ps => acceptedPrunings accepted ps

/-- What the provider comes to. -/
inductive Reply
  | text (t : JsonText.Text)
  | throttleDeferred
  | failed

/-- How a pass ends. -/
inductive Outcome
  | result (emergences : List ReflexArcProposal) (prunings : List ReflexPruneProposal)
  | throttleDeferred
  /-- Any other exception. -/
  | raised

/-- A list of the reply, empty where there is none. -/
def listAt (p : Fields FloatValue) (key : String) : List (Value FloatValue) :=
  match field? p key with
  | some (.arr items) => items
  | _ => []

/-- `crystallize_reflex`, from the reply of the provider on. -/
def crystallizeReflex : Reply → Outcome
  | .throttleDeferred => .throttleDeferred
  | .failed => .result [] []
  | .text t =>
    match loads S.floats S.depth t with
    | .error .unloadable => .raised
    | .ok (.obj parsed) =>
      match acceptedEmergences S R 0 (listAt parsed "emergences") with
      | none => .raised
      | some emergences =>
        .result emergences (acceptedPrunings R 0 (listAt parsed "prunings"))
    | _ => .result [] []

/-! ## What is promised of a pass -/

/-- Neither set of keys is a part of the other. -/
def Apart (t t' : List (Name × FloatValue)) : Prop :=
  ¬keyset S t ⊂ keyset S t' ∧ ¬keyset S t' ⊂ keyset S t

/-- The accepted proposals meet all gates together. -/
structure Sound (emergences : List ReflexArcProposal) (prunings : List ReflexPruneProposal) :
    Prop where
  distinct : (emergences.map ReflexArcProposal.name).Nodup
  valid : ∀ q ∈ emergences, isIdentifier q.name = true ∧ q.name.length ≤ nameMaxLen
  fresh : ∀ q ∈ emergences, q.name ∉ R.currentArcs.map ReflexArc.name ∧ q.name ∉ R.removedArcNames
  trigger : ∀ q ∈ emergences, q.trigger ≠ [] ∧
    ∀ e ∈ q.trigger, e.1 ∈ R.emotionVocabulary ∧ FloatValue.AtLeast thresholdFloor e.2
  apart : ∀ q ∈ emergences, ∀ a ∈ R.currentArcs, Apart S q.trigger a.trigger
  apartEach : emergences.Pairwise fun q q' => Apart S q.trigger q'.trigger
  cooldown : ∀ q ∈ emergences, FloatValue.AtLeast cooldownFloorHours q.cooldownHours
  template : ∀ q ∈ emergences, S.formatMap q.promptTemplate = .renders
  cap : (R.currentArcs.length : ℤ) + emergences.length ≤ R.totalCap
  pruned : (prunings.map ReflexPruneProposal.name).Nodup ∧
    ∀ q ∈ prunings, ∃ a ∈ R.currentArcs, a.name = q.name ∧ a.createdBy = .brainEmergence
  floor : prunings ≠ [] → activeFloor ≤
    (R.currentArcs.filter fun a => a.name ∉ prunings.map ReflexPruneProposal.name).length

/-! ## The proposals that pass -/

/-- The proposals that are objects. -/
def objects (items : List (Value FloatValue)) : List (Fields FloatValue) :=
  items.filterMap fun
    | .obj p => some p
    | _ => none

/-- The arc that is proposed, where the proposal passes all gates but the total cap. -/
def passes (p : Fields FloatValue) : Option ReflexArcProposal :=
  match validateEmergenceProposal S R (R.totalCap - 1) p with
  | .ok () => (proposalFromDict S p).toOption
  | .error _ => none

/-- How many arcs fit under the total cap. -/
def room : ℕ := (R.totalCap - R.currentArcs.length).toNat

/-- How many arcs may be accepted before proposals are no longer looked at. -/
def most : ℕ := (effectiveMaxEmergences R).toNat

/-- No proposal that is looked at raises an exception. One is looked at while fewer than `most` have
been accepted, and made an arc of where there is room for it. -/
def Untroubled (most room : ℕ) (ps : List (Fields FloatValue)) : Prop :=
  ∀ l p l', ps = l ++ p :: l' → min (l.filterMap (passes S R)).length room < most →
    firstGates S R p ≠ .error .raised ∧
      ((l.filterMap (passes S R)).length < room →
        validateEmergenceProposal S R (R.totalCap - 1) p = .ok () →
        proposalFromDict S p ≠ .error .overflow)

/-- The arcs that are taken of a reply. -/
def taken (ps : List (Fields FloatValue)) : List ReflexArcProposal :=
  (ps.filterMap (passes S R)).take (min (most R) (room R))

/-- The prunings that are taken of a reply. -/
def takenPrunings (ps : List (Fields FloatValue)) : List ReflexPruneProposal :=
  (ps.filterMap (pruning R 0)).take R.maxPrunings.toNat

/-- The condition under which a pass over a reply is sound: nothing is raised, and the proposals
that are taken have what no gate looks at. -/
structure Meets (t : JsonText.Text) (emergences prunings : List (Fields FloatValue)) : Prop where
  cap : (R.currentArcs.length : ℤ) ≤ R.totalCap
  loads : loads S.floats S.depth t ≠ .error .unloadable
  untroubled : Untroubled S R (most R) (room R) emergences
  names : ((taken S R emergences).map ReflexArcProposal.name).Nodup
  noNewline : ∀ q ∈ taken S R emergences, q.name.getLast? ≠ some newline
  numbers : ∀ q ∈ taken S R emergences, q.cooldownHours ≠ .nan ∧ ∀ e ∈ q.trigger, e.2 ≠ .nan
  apart : (taken S R emergences).Pairwise fun q q' => Apart S q.trigger q'.trigger
  pruned : ((takenPrunings R prunings).map ReflexPruneProposal.name).Nodup
  floor : takenPrunings R prunings ≠ [] → activeFloor ≤ (R.currentArcs.filter fun a =>
    a.name ∉ (takenPrunings R prunings).map ReflexPruneProposal.name).length

/-- The proposals of a reply under a key. -/
def proposals (t : JsonText.Text) (key : String) : List (Fields FloatValue) :=
  match loads S.floats S.depth t with
  | .ok (.obj parsed) => objects (listAt parsed key)
  | _ => []

/-! ## The gates of one proposal -/

variable {S R} {p : Fields FloatValue} {q : ReflexArcProposal}

theorem ok_of_bind {ε α β : Type} {x : Except ε α} {f : α → Except ε β} {b : β}
    (h : x >>= f = .ok b) : ∃ a, x = .ok a ∧ f a = .ok b := by
  cases x with
  | error e => cases h
  | ok a => exact ⟨a, rfl, h⟩

theorem not_of_refuseIf {c : Prop} [Decidable c] {reason : Refusal} (h : refuseIf c reason = .ok ()) :
    ¬c := by
  intro hc
  rw [refuseIf, if_pos hc] at h
  cases h

theorem nameOf_spec {name : Name} (h : nameOf p = .ok name) :
    field? p "name" = some (.str name) ∧ name.length ≤ nameMaxLen ∧
      matchesNameRegex name = true := by
  unfold nameOf at h
  split at h
  next => cases h
  next t ht =>
    split_ifs at h with hbad
    cases h
    simp only [not_or, not_lt, Bool.not_eq_false] at hbad
    exact ⟨ht, hbad.2.1, hbad.2.2⟩
  next => cases h

theorem numeric_spec {reason : Refusal} {y : Except FloatError FloatValue} {x : FloatValue}
    (h : numeric reason y = .ok x) : y = .ok x := by
  unfold numeric at h
  split at h
  · cases h
    rfl
  · cases h
  · cases h

theorem mapM_numeric {reason : Refusal} {es : List (Name × Value FloatValue)}
    {trigger : List (Name × FloatValue)}
    (h : es.mapM (fun e => (numeric reason (toFloat S e.2)).map fun x => (e.1, x)) = .ok trigger) :
    es.mapM (fun e => (toFloat S e.2).map fun x => (e.1, x)) = .ok trigger := by
  induction es generalizing trigger with
  | nil =>
    cases h
    rfl
  | cons e es ih =>
    rw [List.mapM_cons] at h ⊢
    obtain ⟨a, ha, hrest⟩ := ok_of_bind h
    obtain ⟨as, has, hcons⟩ := ok_of_bind hrest
    cases hx : numeric reason (toFloat S e.2) with
    | error s =>
      rw [hx] at ha
      cases ha
    | ok x =>
      rw [hx] at ha
      cases ha
      rw [numeric_spec hx, ih has]
      cases hcons
      rfl

theorem triggerOf_spec {trigger : List (Name × FloatValue)} (h : triggerOf S p = .ok trigger) :
    trigger ≠ [] ∧ floatsAt S p "trigger" = .ok trigger := by
  unfold triggerOf at h
  split at h
  next e es hfield =>
    refine ⟨?_, ?_⟩
    · rintro rfl
      rw [List.mapM_cons] at h
      obtain ⟨a, -, hrest⟩ := ok_of_bind h
      obtain ⟨as, -, hcons⟩ := ok_of_bind hrest
      cases hcons
    · rw [floatsAt, hfield]
      exact mapM_numeric h
  next => cases h

theorem cooldownOf_spec {cooldown : FloatValue} (h : cooldownOf S p = .ok cooldown) :
    (field? p "cooldown_hours").elim (.error .notNumeric) (toFloat S) = .ok cooldown := by
  unfold cooldownOf at h
  split at h
  next v hfield =>
    rw [hfield]
    exact numeric_spec h
  next => cases h

theorem templateOf_spec {t : Name} (h : templateOf S p = .ok t) :
    field? p "prompt_template" = some (.str t) ∧ S.formatMap t = .renders := by
  unfold templateOf at h
  split at h
  next u us hfield =>
    split at h
    next hrender =>
      cases h
      exact ⟨hfield, hrender⟩
    next => cases h
    next => cases h
  next => cases h

theorem notOverlapping_spec {trigger : List (Name × FloatValue)}
    (h : notOverlapping S R trigger = .ok ()) : ∀ a ∈ R.currentArcs, Apart S trigger a.trigger := by
  unfold notOverlapping at h
  split at h
  next => cases h
  next hnone =>
    intro a ha
    have hover := List.findSome?_eq_none_iff.mp hnone a ha
    unfold overlap at hover
    split_ifs at hover with h1 h2
    exact ⟨h1, h2⟩

/-- What the first gates let through. -/
structure Passed (S : Setting) (R : Request) (p : Fields FloatValue) (q : ReflexArcProposal) :
    Prop where
  name : q.name.length ≤ nameMaxLen ∧ matchesNameRegex q.name = true
  fresh : q.name ∉ R.currentArcs.map ReflexArc.name ∧ q.name ∉ R.removedArcNames
  trigger : q.trigger ≠ [] ∧
    ∀ e ∈ q.trigger, e.1 ∈ R.emotionVocabulary ∧ FloatValue.below thresholdFloor e.2 = false
  cooldown : FloatValue.below cooldownFloorHours q.cooldownHours = false
  template : S.formatMap q.promptTemplate = .renders
  apart : ∀ a ∈ R.currentArcs, Apart S q.trigger a.trigger

theorem passed_of_gates (h : firstGates S R p = .ok ()) (hq : proposalFromDict S p = .ok q) :
    Passed S R p q := by
  unfold firstGates at h
  obtain ⟨name, hname, h⟩ := ok_of_bind h
  obtain ⟨⟨⟩, hcurrent, h⟩ := ok_of_bind h
  obtain ⟨⟨⟩, hremoved, h⟩ := ok_of_bind h
  obtain ⟨trigger, htrigger, h⟩ := ok_of_bind h
  obtain ⟨⟨⟩, hknown, h⟩ := ok_of_bind h
  obtain ⟨⟨⟩, hthreshold, h⟩ := ok_of_bind h
  obtain ⟨cooldown, hcooldown, h⟩ := ok_of_bind h
  obtain ⟨⟨⟩, hfloor, h⟩ := ok_of_bind h
  obtain ⟨template, htemplate, hoverlap⟩ := ok_of_bind h
  obtain ⟨hfield, hlength, hmatches⟩ := nameOf_spec hname
  obtain ⟨hne, hfloats⟩ := triggerOf_spec htrigger
  obtain ⟨htext, hrenders⟩ := templateOf_spec htemplate
  -- The arc is made of the values that went through the gates.
  unfold proposalFromDict at hq
  obtain ⟨name', hname', hq⟩ := ok_of_bind hq
  obtain ⟨description, -, hq⟩ := ok_of_bind hq
  obtain ⟨trigger', htrigger', hq⟩ := ok_of_bind hq
  obtain ⟨cooldown', hcooldown', hq⟩ := ok_of_bind hq
  obtain ⟨outputMemoryType, -, hq⟩ := ok_of_bind hq
  obtain ⟨template', htemplate', hq⟩ := ok_of_bind hq
  obtain ⟨reasoning, -, hq⟩ := ok_of_bind hq
  obtain ⟨days, -, hq⟩ := ok_of_bind hq
  rw [textAt, hfield] at hname'
  rw [hfloats] at htrigger'
  rw [cooldownOf_spec hcooldown] at hcooldown'
  rw [textAt, htext] at htemplate'
  cases hname'
  cases htrigger'
  cases hcooldown'
  cases htemplate'
  cases hq
  refine ⟨⟨hlength, hmatches⟩, ⟨not_of_refuseIf hcurrent, not_of_refuseIf hremoved⟩, ⟨hne, ?_⟩, ?_,
    hrenders, notOverlapping_spec hoverlap⟩
  · intro e he
    refine ⟨?_, ?_⟩
    · by_contra hout
      exact not_of_refuseIf hknown ⟨e, he, hout⟩
    · rw [← Bool.not_eq_true]
      exact fun hbelow => not_of_refuseIf hthreshold ⟨e, he, hbelow⟩
  · rw [← Bool.not_eq_true]
    exact not_of_refuseIf hfloor

/-! ## A proposal among others -/

theorem refuseIf_ne_raised {c : Prop} [Decidable c] {reason : Refusal} :
    refuseIf c reason ≠ .error .raised := by
  unfold refuseIf
  split_ifs
  · simp
  · simp

theorem required_ne_raised {key : String} : required p key ≠ .error .raised := by
  unfold required
  split
  · exact refuseIf_ne_raised
  · simp

theorem bind_ne_raised {x : Gate Unit} {f : Unit → Gate Unit} (hx : x ≠ .error .raised)
    (hf : f () ≠ .error .raised) : x >>= f ≠ .error .raised := by
  cases x with
  | error e => exact hx
  | ok a => exact hf

/-- Only the first gates raise. -/
theorem validate_eq_raised {n : ℤ} : validateEmergenceProposal S R n p = .error .raised ↔
    firstGates S R p = .error .raised := by
  unfold validateEmergenceProposal
  cases hgates : firstGates S R p with
  | error e => exact Iff.rfl
  | ok a =>
    refine ⟨fun h => absurd h ?_, by rintro ⟨⟩⟩
    exact bind_ne_raised (by simp) (bind_ne_raised refuseIf_ne_raised
      (bind_ne_raised required_ne_raised (bind_ne_raised required_ne_raised required_ne_raised)))

theorem firstGates_of_validate {n : ℤ} (h : validateEmergenceProposal S R n p = .ok ()) :
    firstGates S R p = .ok () ∧ ¬R.totalCap ≤ n := by
  obtain ⟨⟨⟩, hgates, hrest⟩ := ok_of_bind h
  obtain ⟨⟨⟩, hcap, -⟩ := ok_of_bind hrest
  exact ⟨hgates, not_of_refuseIf hcap⟩

/-- Below the total cap the number of arcs is of no matter. -/
theorem validate_congr {n m : ℤ} (hn : n < R.totalCap) (hm : m < R.totalCap) :
    validateEmergenceProposal S R n p = validateEmergenceProposal S R m p := by
  unfold validateEmergenceProposal refuseIf
  rw [if_neg (not_le.mpr hn), if_neg (not_le.mpr hm)]

/-- The room that a number of accepted arcs leaves. -/
def roomAt (R : Request) (accepted : ℕ) : ℕ := (R.totalCap - (R.currentArcs.length + accepted)).toNat

/-- How many arcs may still be accepted. -/
def mostAt (R : Request) (accepted : ℕ) : ℕ := (effectiveMaxEmergences R - accepted).toNat

/-- The proposal raises no exception where a number of others have passed before. -/
def Fair (S : Setting) (R : Request) (room passed : ℕ) (p : Fields FloatValue) : Prop :=
  firstGates S R p ≠ .error .raised ∧
    (passed < room → validateEmergenceProposal S R (R.totalCap - 1) p = .ok () →
      proposalFromDict S p ≠ .error .overflow)

/-- A proposal raises, or adds an arc where it passes and there is room for it. -/
theorem emergence_cases (n : ℕ) (p : Fields FloatValue) :
    (¬Fair S R (roomAt R n) 0 p ∧ emergence S R n p = none) ∨
    (Fair S R (roomAt R n) 0 p ∧ 0 < roomAt R n ∧ ∃ q, passes S R p = some q ∧
      emergence S R n p = some (some q)) ∨
    (Fair S R (roomAt R n) 0 p ∧ (roomAt R n = 0 ∨ passes S R p = none) ∧
      emergence S R n p = some none) := by
  have hroom : 0 < roomAt R n ↔ (R.currentArcs.length + n : ℤ) < R.totalCap := by
    unfold roomAt
    omega
  unfold emergence
  cases hvalid : validateEmergenceProposal S R (R.currentArcs.length + n) p with
  | error stop =>
    cases stop with
    | raised =>
      left
      refine ⟨fun hfair => hfair.1 (validate_eq_raised.mp hvalid), rfl⟩
    | refused reason =>
      right
      right
      have hgates : firstGates S R p ≠ .error .raised := by
        rw [ne_eq, ← validate_eq_raised (n := R.currentArcs.length + n), hvalid]
        simp
      by_cases hcap : (R.currentArcs.length + n : ℤ) < R.totalCap
      · have hnot : validateEmergenceProposal S R (R.totalCap - 1) p ≠ .ok () := by
          rw [validate_congr (Int.sub_one_lt_of_le le_rfl) hcap, hvalid]
          simp
        refine ⟨⟨hgates, fun _ h => absurd h hnot⟩, .inr ?_, rfl⟩
        unfold passes
        split
        next h => exact absurd h hnot
        next => rfl
      · have hzero : roomAt R n = 0 := Nat.eq_zero_of_not_pos fun h => hcap (hroom.mp h)
        exact ⟨⟨hgates, fun h => absurd h (by omega)⟩, .inl hzero, rfl⟩
  | ok a =>
    obtain ⟨hgates, hcap⟩ := firstGates_of_validate hvalid
    have hlt : (R.currentArcs.length + n : ℤ) < R.totalCap := not_le.mp hcap
    have hok : validateEmergenceProposal S R (R.totalCap - 1) p = .ok () := by
      rw [validate_congr (Int.sub_one_lt_of_le le_rfl) hlt, hvalid]
    have hne : firstGates S R p ≠ .error .raised := by
      rw [hgates]
      simp
    cases hq : proposalFromDict S p with
    | error e =>
      cases e with
      | overflow =>
        left
        exact ⟨fun hfair => hfair.2 (hroom.mpr hlt) hok hq, rfl⟩
      | notNumeric =>
        right
        right
        refine ⟨⟨hne, fun _ _ => ?_⟩, .inr ?_, rfl⟩
        · rw [hq]
          simp
        · rw [passes, hok, hq]
          rfl
    | ok q =>
      right
      left
      refine ⟨⟨hne, fun _ _ => ?_⟩, hroom.mpr hlt, q, ?_, rfl⟩
      · rw [hq]
        simp
      · rw [passes, hok, hq]
        rfl

/-- How many proposals of a list pass. -/
def count (S : Setting) (R : Request) (ps : List (Fields FloatValue)) : ℕ :=
  (ps.filterMap (passes S R)).length

theorem untroubled_cons {most room : ℕ} {ps : List (Fields FloatValue)} :
    Untroubled S R most room (p :: ps) ↔ (0 < most → Fair S R room 0 p) ∧
      ∀ l p' l', ps = l ++ p' :: l' → min (count S R (p :: l)) room < most →
        Fair S R room (count S R (p :: l)) p' := by
  refine ⟨fun h => ⟨fun hmost => h [] p ps rfl (by simpa using hmost), fun l p' l' hps hmin => ?_⟩,
    ?_⟩
  · exact h (p :: l) p' l' (by rw [hps, List.cons_append]) hmin
  · rintro ⟨hfirst, hrest⟩ l p' l' hps hmin
    cases l with
    | nil =>
      simp only [List.nil_append, List.cons.injEq] at hps
      obtain ⟨rfl, -⟩ := hps
      exact hfirst (by simpa using hmin)
    | cons a l =>
      simp only [List.cons_append, List.cons.injEq] at hps
      obtain ⟨rfl, hps⟩ := hps
      exact hrest l p' l' hps hmin

theorem count_cons_none (h : passes S R p = none) (ps : List (Fields FloatValue)) :
    count S R (p :: ps) = count S R ps := by
  rw [count, List.filterMap_cons_none h, count]

theorem count_cons_some (h : passes S R p = some q) (ps : List (Fields FloatValue)) :
    count S R (p :: ps) = count S R ps + 1 := by
  rw [count, List.filterMap_cons_some h, List.length_cons, count]

theorem untroubled_cons_skip {most room : ℕ} (h : room = 0 ∨ passes S R p = none)
    (ps : List (Fields FloatValue)) : Untroubled S R most room (p :: ps) ↔
      (0 < most → Fair S R room 0 p) ∧ Untroubled S R most room ps := by
  rw [untroubled_cons]
  refine and_congr_right fun _ => forall₄_congr fun l p' l' _ => ?_
  rcases h with rfl | hnone
  · simp [Fair]
  · rw [count_cons_none hnone]
    exact Iff.rfl

theorem untroubled_cons_take {most room : ℕ} (hroom : 0 < room) (h : passes S R p = some q)
    (ps : List (Fields FloatValue)) : Untroubled S R most room (p :: ps) ↔
      (0 < most → Fair S R room 0 p) ∧ Untroubled S R (most - 1) (room - 1) ps := by
  rw [untroubled_cons]
  refine and_congr_right fun _ => forall₄_congr fun l p' l' _ => ?_
  rw [count_cons_some h]
  have hmin : min (count S R l + 1) room < most ↔ min (count S R l) (room - 1) < most - 1 := by
    omega
  have hlt : count S R l + 1 < room ↔ count S R l < room - 1 := by
    omega
  rw [hmin, Fair, hlt]
  exact Iff.rfl

theorem untroubled_of_most_zero {room : ℕ} {ps : List (Fields FloatValue)} :
    Untroubled S R 0 room ps := fun _ _ _ _ h => absurd h (Nat.not_lt_zero _)

theorem untroubled_nil {most room : ℕ} : Untroubled S R most room [] := by
  intro l p l' h
  simp at h

theorem mostAt_succ (n : ℕ) : mostAt R (n + 1) = mostAt R n - 1 := by
  unfold mostAt
  omega

theorem roomAt_succ (n : ℕ) : roomAt R (n + 1) = roomAt R n - 1 := by
  unfold roomAt
  omega

theorem objects_cons_obj (p : Fields FloatValue) (items : List (Value FloatValue)) :
    objects (.obj p :: items) = p :: objects items := rfl

/-- The loop gives the first proposals that pass, or raises at one that raises. -/
theorem acceptedEmergences_eq_some {n : ℕ} {items : List (Value FloatValue)}
    {es : List ReflexArcProposal} : acceptedEmergences S R n items = some es ↔
      Untroubled S R (mostAt R n) (roomAt R n) (objects items) ∧
        es = ((objects items).filterMap (passes S R)).take (min (mostAt R n) (roomAt R n)) := by
  induction items generalizing n es with
  | nil =>
    simp only [acceptedEmergences, objects, List.filterMap_nil, List.take_nil, Option.some.injEq]
    exact ⟨fun h => ⟨untroubled_nil, h.symm⟩, fun h => h.2.symm⟩
  | cons v items ih =>
    cases v with
    | obj p =>
      rw [objects_cons_obj, acceptedEmergences]
      by_cases hmost : effectiveMaxEmergences R ≤ n
      · have hzero : mostAt R n = 0 := by
          unfold mostAt
          omega
        rw [if_pos hmost, ih, hzero, Nat.zero_min, List.take_zero, List.take_zero]
        exact and_congr_left fun _ => iff_of_true untroubled_of_most_zero untroubled_of_most_zero
      · have hpos : 0 < mostAt R n := by
          unfold mostAt
          omega
        rw [if_neg hmost]
        rcases emergence_cases (S := S) (R := R) n p with
          ⟨hfair, heq⟩ | ⟨hfair, hroom, q, hq, heq⟩ | ⟨hfair, hskip, heq⟩
        · rw [heq]
          refine ⟨by rintro ⟨⟩, fun h => absurd ((untroubled_cons.mp h.1).1 hpos) hfair⟩
        · have hmin : min (mostAt R n) (roomAt R n) =
              min (mostAt R (n + 1)) (roomAt R (n + 1)) + 1 := by
            rw [mostAt_succ, roomAt_succ]
            omega
          rw [heq, untroubled_cons_take hroom hq, List.filterMap_cons_some hq, hmin,
            List.take_succ_cons, ← mostAt_succ, ← roomAt_succ]
          simp only [Option.map_eq_some_iff, ih]
          refine ⟨?_, ?_⟩
          · rintro ⟨rest, ⟨huntroubled, rfl⟩, rfl⟩
            exact ⟨⟨fun _ => hfair, huntroubled⟩, rfl⟩
          · rintro ⟨⟨-, huntroubled⟩, rfl⟩
            exact ⟨_, ⟨huntroubled, rfl⟩, rfl⟩
        · have htake : ((p :: objects items).filterMap (passes S R)).take
              (min (mostAt R n) (roomAt R n)) =
              ((objects items).filterMap (passes S R)).take (min (mostAt R n) (roomAt R n)) := by
            rcases hskip with hroom | hnone
            · rw [hroom, Nat.min_zero, List.take_zero, List.take_zero]
            · rw [List.filterMap_cons_none hnone]
          rw [heq, untroubled_cons_skip hskip, htake]
          simp only [ih, and_assoc]
          exact ⟨fun h => ⟨fun _ => hfair, h⟩, fun h => h.2⟩
    | _ => exact ih

/-! ## The prunings of a pass -/

variable {r : ReflexPruneProposal}

theorem pruning_congr {n m : ℕ} (hn : n < R.maxPrunings) (hm : m < R.maxPrunings) :
    pruning R n p = pruning R m p := by
  unfold pruning
  simp only [not_le.mpr hn, not_le.mpr hm]

theorem pruning_spec {n : ℕ} (h : pruning R n p = some r) :
    ∃ a ∈ R.currentArcs, a.name = r.name ∧ a.createdBy = .brainEmergence := by
  unfold pruning at h
  split at h
  next name reasoning hname hreasoning =>
    split at h
    next => cases h
    next target htarget =>
      split_ifs at h with hcreated
      cases h
      have hmem := List.mem_of_getLast? htarget
      rw [List.mem_filter, decide_eq_true_eq] at hmem
      exact ⟨target, hmem.1, hmem.2, not_not.mp hcreated⟩
  next => cases h

theorem acceptedPrunings_eq (n : ℕ) (items : List (Value FloatValue)) :
    acceptedPrunings R n items =
      ((objects items).filterMap (pruning R 0)).take (R.maxPrunings - n).toNat := by
  induction items generalizing n with
  | nil => simp [acceptedPrunings, objects]
  | cons v items ih =>
    cases v with
    | obj p =>
      rw [objects_cons_obj, acceptedPrunings]
      by_cases hmax : R.maxPrunings ≤ n
      · have hzero : (R.maxPrunings - n).toNat = 0 := by
          omega
        rw [if_pos hmax, ih, hzero, List.take_zero, List.take_zero]
      · have hsame : pruning R n p = pruning R 0 p := pruning_congr (by omega) (by omega)
        have hsucc : (R.maxPrunings - n).toNat = (R.maxPrunings - (n + 1 : ℕ)).toNat + 1 := by
          omega
        rw [if_neg hmax, hsame]
        cases hp : pruning R 0 p with
        | none => rw [List.filterMap_cons_none hp, ← ih n]
        | some r => rw [List.filterMap_cons_some hp, hsucc, List.take_succ_cons, ← ih (n + 1)]
    | _ => exact ih n

/-! ## The result -/

theorem most_eq : mostAt R 0 = most R := by
  simp [mostAt, most]

theorem room_eq : roomAt R 0 = room R := by
  simp [roomAt, room]

theorem acceptedPrunings_eq_taken (items : List (Value FloatValue)) :
    acceptedPrunings R 0 items = takenPrunings R (objects items) := by
  rw [acceptedPrunings_eq, takenPrunings, Nat.cast_zero, sub_zero]

/-- A pass gives what is taken of the reply, or raises. -/
theorem crystallizeReflex_eq_result {t : JsonText.Text} {es : List ReflexArcProposal}
    {prs : List ReflexPruneProposal} : crystallizeReflex S R (.text t) = .result es prs ↔
      loads S.floats S.depth t ≠ .error .unloadable ∧
        Untroubled S R (most R) (room R) (proposals S t "emergences") ∧
        es = taken S R (proposals S t "emergences") ∧
        prs = takenPrunings R (proposals S t "prunings") := by
  have hempty : .result [] [] = Outcome.result es prs ↔
      Untroubled S R (most R) (room R) [] ∧ es = taken S R [] ∧ prs = takenPrunings R [] := by
    simp only [untroubled_nil, true_and, taken, takenPrunings, List.filterMap_nil, List.take_nil,
      Outcome.result.injEq, eq_comm]
  rw [crystallizeReflex, proposals, proposals]
  cases hloads : loads S.floats S.depth t with
  | error e =>
    cases e with
    | unloadable => simp
    | malformed => simpa using hempty
  | ok v =>
    cases v with
    | obj parsed =>
      simp only [ne_eq, reduceCtorEq, not_false_eq_true, true_and]
      have hloop : acceptedEmergences S R 0 (listAt parsed "emergences") = some es ↔ _ :=
        acceptedEmergences_eq_some
      rw [most_eq, room_eq] at hloop
      rw [← acceptedPrunings_eq_taken, ← and_assoc, taken, ← hloop]
      cases acceptedEmergences S R 0 (listAt parsed "emergences") with
      | none => simp
      | some es' => simp [eq_comm]
    | _ => simpa using hempty

theorem passed_of_mem_taken {ps : List (Fields FloatValue)} (hq : q ∈ taken S R ps) :
    ∃ p, Passed S R p q := by
  obtain ⟨p, -, hp⟩ := List.mem_filterMap.mp (List.mem_of_mem_take hq)
  unfold passes at hp
  split at hp
  next hvalid =>
    cases hok : proposalFromDict S p with
    | error e =>
      rw [hok] at hp
      cases hp
    | ok q' =>
      rw [hok] at hp
      cases hp
      exact ⟨p, passed_of_gates (firstGates_of_validate hvalid).1 hok⟩
  next => cases hp

theorem not_isNamePart_newline : isNamePart newline = false := by
  decide

theorem all_isNamePart {name : Name} (h : isIdentifier name = true) :
    ∀ u ∈ name, isNamePart u = true := by
  cases name with
  | nil => cases h
  | cons v us =>
    rw [isIdentifier, Bool.and_eq_true, List.all_eq_true] at h
    rintro u hu
    rcases List.mem_cons.mp hu with rfl | hu
    · rw [isNamePart, h.1, Bool.true_or, Bool.true_or]
    · exact h.2 u hu

/-- What the expression matches is a name just in case no newline is at its end. -/
theorem isIdentifier_iff {name : Name} (h : matchesNameRegex name = true) :
    isIdentifier name = true ↔ name.getLast? ≠ some newline := by
  refine ⟨fun hname hlast => ?_, fun hlast => ?_⟩
  · have hpart := all_isNamePart hname newline (List.mem_of_getLast? hlast)
    rw [not_isNamePart_newline] at hpart
    cases hpart
  · rw [matchesNameRegex, Bool.or_eq_true, Bool.and_eq_true, decide_eq_true_eq] at h
    exact h.resolve_right fun hnewline => hlast hnewline.1

theorem length_taken (ps : List (Fields FloatValue)) : (taken S R ps).length ≤ room R := by
  rw [taken, List.length_take]
  omega

theorem atLeast_iff {bound : ℚ} {x : FloatValue} (h : FloatValue.below bound x = false) :
    FloatValue.AtLeast bound x ↔ x ≠ .nan := and_iff_left h

/-- What is taken of a reply is sound just in case it meets what no gate looks at. -/
theorem sound_iff_meets {t : JsonText.Text} {ps prs : List (Fields FloatValue)}
    (hloads : loads S.floats S.depth t ≠ .error .unloadable)
    (huntroubled : Untroubled S R (most R) (room R) ps) :
    Sound S R (taken S R ps) (takenPrunings R prs) ↔ Meets S R t ps prs := by
  have hpassed : ∀ q ∈ taken S R ps, ∃ p, Passed S R p q := fun q hq => passed_of_mem_taken hq
  refine ⟨fun h => ?_, fun h => ?_⟩
  · have hlength : (R.currentArcs.length : ℤ) ≤ R.totalCap := by
      have hcap := h.cap
      omega
    refine ⟨hlength, hloads, huntroubled, h.distinct, fun q hq => ?_, fun q hq => ?_, h.apartEach,
      h.pruned.1, h.floor⟩
    · obtain ⟨p, hp⟩ := hpassed q hq
      exact (isIdentifier_iff hp.name.2).mp (h.valid q hq).1
    · exact ⟨(h.cooldown q hq).1, fun e he => ((h.trigger q hq).2 e he).2.1⟩
  · refine ⟨h.names, fun q hq => ?_, fun q hq => ?_, fun q hq => ?_, fun q hq => ?_, h.apart,
      fun q hq => ?_, fun q hq => ?_, ?_, ⟨h.pruned, fun r hr => ?_⟩, h.floor⟩
    · obtain ⟨p, hp⟩ := hpassed q hq
      exact ⟨(isIdentifier_iff hp.name.2).mpr (h.noNewline q hq), hp.name.1⟩
    · obtain ⟨p, hp⟩ := hpassed q hq
      exact hp.fresh
    · obtain ⟨p, hp⟩ := hpassed q hq
      refine ⟨hp.trigger.1, fun e he => ⟨(hp.trigger.2 e he).1, ?_⟩⟩
      exact (atLeast_iff (hp.trigger.2 e he).2).mpr ((h.numbers q hq).2 e he)
    · obtain ⟨p, hp⟩ := hpassed q hq
      exact hp.apart
    · obtain ⟨p, hp⟩ := hpassed q hq
      exact (atLeast_iff hp.cooldown).mpr (h.numbers q hq).1
    · obtain ⟨p, hp⟩ := hpassed q hq
      exact hp.template
    · have hcap := h.cap
      have hle := length_taken (S := S) (R := R) ps
      unfold room at hle
      omega
    · obtain ⟨p, -, hp⟩ := List.mem_filterMap.mp (List.mem_of_mem_take hr)
      exact pruning_spec hp

/-- The result of a pass is sound just in case nothing is raised and the arcs that are taken are
sound together. -/
theorem crystallizeReflex_sound_iff (S : Setting) (R : Request) (t : JsonText.Text) :
    (∃ es prs, crystallizeReflex S R (.text t) = .result es prs ∧ Sound S R es prs) ↔
      Meets S R t (proposals S t "emergences") (proposals S t "prunings") := by
  refine ⟨?_, fun h => ?_⟩
  · rintro ⟨es, prs, hresult, hsound⟩
    obtain ⟨hloads, huntroubled, rfl, rfl⟩ := crystallizeReflex_eq_result.mp hresult
    exact (sound_iff_meets hloads huntroubled).mp hsound
  · exact ⟨_, _, crystallizeReflex_eq_result.mpr ⟨h.loads, h.untroubled, rfl, rfl⟩,
      (sound_iff_meets h.loads h.untroubled).mpr h⟩

/-! ## Two arcs of one name -/

/-- A language in which every template renders, every text is in lower case and none is a number. -/
def sampleSetting : Setting where
  floats := ⟨fun _ => none, fun _ => .nan, .nan, .infinite, by rintro _ _ ⟨⟩, by rintro _ _ ⟨⟩⟩
  depth := 9
  floatOf _ := none
  lower t := t
  formatMap _ := .renders

/-- No arc is there yet, and two may be added. -/
def sampleRequest : Request where
  currentArcs := []
  removedArcNames := []
  emotionVocabulary := [text "awe"]
  totalCap := 16
  maxEmergences := 2
  maxPrunings := 1

/-- The text of one proposal. -/
def sampleArc : String :=
  "\x7b\"name\": \"awe_walk\", \"description\": \"d\", \"trigger\": \x7b\"awe\": 6\x7d, " ++
    "\"cooldown_hours\": 24, \"output_memory_type\": \"m\", \"prompt_template\": \"t\", " ++
    "\"reasoning\": \"r\"\x7d"

/-- The proposal twice. -/
def sampleReply : JsonText.Text :=
  ("\x7b\"emergences\": [" ++ sampleArc ++ ", " ++ sampleArc ++ "], \"prunings\": []\x7d").toList

theorem names_taken : (taken sampleSetting sampleRequest
    (proposals sampleSetting sampleReply "emergences")).map ReflexArcProposal.name =
      [text "awe_walk", text "awe_walk"] := by
  decide +kernel

/-- Of two proposals of one name both are accepted. -/
theorem crystallizeReflex_accepts_twice : ¬∃ es prs,
    crystallizeReflex sampleSetting sampleRequest (.text sampleReply) = .result es prs ∧
      Sound sampleSetting sampleRequest es prs := by
  rintro ⟨es, prs, hresult, hsound⟩
  have hes := (crystallizeReflex_eq_result.mp hresult).2.2.1
  have hdistinct := hsound.distinct
  rw [hes, names_taken, List.nodup_cons, List.mem_singleton] at hdistinct
  exact hdistinct.1 rfl

end Companion.Growth

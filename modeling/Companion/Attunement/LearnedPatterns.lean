import Companion.Memory.Text
import Companion.Snapshots
import Mathlib.Algebra.Order.Ring.Int
import Mathlib.Data.List.Infix
import Mathlib.Data.List.Perm.Basic
import Mathlib.Logic.Function.Basic

/-!
# Learned patterns

The append-only file of `brain/attunement/store.py`, in which the last record of an id is the
pattern. `merge_into_learned`, `apply_contradiction` and `mark_addressed` read the file once, and
each record that they append is made from what they read. They take no lock, so that a record that
is appended after another call has read its pattern hides what that call writes, or is hidden by it
(`one_confirmation_lost`). Runs without such records are serial (`learned_serialisable`).

The records of the file are those that `from_known_fields` accepts. The normal form of texts and the
hash of a pattern's id are parameters.
-/

namespace Companion.Attunement

open Companion.Memory (Text)
open Companion.Runs
open Companion.Snapshots

/-! ## Records -/

inductive Category
  | tone
  | cadence
  | topicAffinity
  | responseShape
  | relational
  deriving DecidableEq

inductive Maturity
  | immature
  | forming
  | known
  | falsified
  deriving DecidableEq

structure LearnedPattern where
  id : Text
  category : Category
  canonicalKey : Text
  description : Text
  evidenceCount : ℤ
  maturity : Maturity
  firstSeenAt : Text
  lastConfirmedAt : Text
  lastAddressedAt : Option Text
  crystallisedAt : Option Text
  falsifiedAt : Option Text
  examples : List Text
  schemaVersion : Text
  deriving DecidableEq

structure Evidence where
  quote : Text
  turnId : Text
  deriving DecidableEq

structure PatternCandidate where
  category : Category
  canonicalKey : Text
  description : Text
  evidence : List Evidence
  deriving DecidableEq

structure BufferTurn where
  id : Text
  content : Text
  deriving DecidableEq

/-- What the store takes from elsewhere. -/
structure Setting where
  /-- `_normalise` -/
  normalise : Text → Text
  /-- `pattern_id` -/
  patternId : Category → Text → Text

/-- `ATTUNEMENT_SCHEMA_VERSION` -/
def schemaVersion : Text := "0.0.29".toList

/-- `ATTUNEMENT_MATURITY_KNOWN_MIN` -/
def maturityKnownMin : ℤ := 10

/-- `ATTUNEMENT_MATURITY_FORMING_MIN` -/
def maturityFormingMin : ℤ := 3

/-- `ATTUNEMENT_MATURITY_FALSIFIED_MAX` -/
def maturityFalsifiedMax : ℤ := 3

/-- `_EXAMPLES_CAP` -/
def examplesCap : ℕ := 5

/-- `_maturity_for_count` -/
def maturityForCount (count : ℤ) : Maturity :=
  if maturityKnownMin ≤ count then .known
  else if maturityFormingMin ≤ count then .forming
  else .immature

variable (S : Setting)

/-- `validate_grounded` -/
def validateGrounded (candidate : PatternCandidate) (bufferSlice : List BufferTurn) : Bool :=
  if candidate.category = .relational ∧ candidate.evidence.length < 2 then false
  else if candidate.evidence = [] then false
  else candidate.evidence.all fun ev =>
    (latest BufferTurn.id bufferSlice ev.turnId).any fun turn =>
      S.normalise ev.quote <:+: S.normalise turn.content

/-! ## What a call appends -/

/-- The patterns by their ids, as a call knows them. -/
abbrev Patterns := Text → Option LearnedPattern

/-- The last examples. -/
def capped (texts : List Text) : List Text := texts.drop (texts.length - examplesCap)

/-- The record of a candidate that is confirmed. -/
def confirmed (candidate : PatternCandidate) (now : Text) : Option LearnedPattern → LearnedPattern
  | some prev =>
    { prev with
      id := S.patternId candidate.category candidate.canonicalKey
      description := candidate.description
      evidenceCount := prev.evidenceCount + 1
      maturity := maturityForCount (prev.evidenceCount + 1)
      lastConfirmedAt := now
      falsifiedAt := none
      examples := capped (prev.examples ++ candidate.evidence.map Evidence.quote)
      schemaVersion }
  | none =>
    { id := S.patternId candidate.category candidate.canonicalKey
      category := candidate.category
      canonicalKey := candidate.canonicalKey
      description := candidate.description
      evidenceCount := 1
      maturity := .immature
      firstSeenAt := now
      lastConfirmedAt := now
      lastAddressedAt := none
      crystallisedAt := none
      falsifiedAt := none
      examples := candidate.evidence.map Evidence.quote
      schemaVersion }

/-- `merge_into_learned`. A candidate that comes twice in a batch is confirmed twice. -/
def mergeIntoLearned (bufferSlice : List BufferTurn) (now : Text) :
    Patterns → List PatternCandidate → List LearnedPattern
  | _, [] => []
  | existing, candidate :: candidates =>
    if validateGrounded S candidate bufferSlice then
      let pid := S.patternId candidate.category candidate.canonicalKey
      let updated := confirmed S candidate now (existing pid)
      updated ::
        mergeIntoLearned bufferSlice now (Function.update existing pid (some updated)) candidates
    else mergeIntoLearned bufferSlice now existing candidates

/-- The record of a pattern that is contradicted. -/
def contradicted (prev : LearnedPattern) (now : Text) : LearnedPattern :=
  let newCount := max 0 (prev.evidenceCount - 1)
  let newMaturity : Maturity :=
    if newCount < maturityFalsifiedMax then .falsified else maturityForCount newCount
  { prev with
    evidenceCount := newCount
    maturity := newMaturity
    falsifiedAt :=
      if newMaturity = .falsified ∧ prev.maturity ≠ .falsified then some now else prev.falsifiedAt
    schemaVersion }

/-- `apply_contradiction` -/
def applyContradiction (existing : Patterns) (patternId now : Text) : List LearnedPattern :=
  match existing patternId with
  | some prev => [contradicted prev now]
  | none => []

/-- The record of a pattern that is addressed. -/
def addressed (now : Text) (prev : LearnedPattern) : LearnedPattern :=
  { prev with lastAddressedAt := some now, schemaVersion }

/-- `mark_addressed`. What it appends does not change what it knows. -/
def markAddressed (existing : Patterns) (patternIds : List Text) (now : Text) :
    List LearnedPattern :=
  patternIds.filterMap fun pid => (existing pid).map (addressed now)

/-! ## Calls -/

/-- A call on the store. -/
inductive Op
  | mergeIntoLearned (candidates : List PatternCandidate) (bufferSlice : List BufferTurn) (now : Text)
  | applyContradiction (patternId now : Text)
  | markAddressed (patternIds : List Text) (now : Text)
  deriving DecidableEq

/-- What a call appends. -/
def Op.rows (existing : Patterns) : Op → List LearnedPattern
  | .mergeIntoLearned candidates bufferSlice now =>
    Attunement.mergeIntoLearned S bufferSlice now existing candidates
  | .applyContradiction patternId now => Attunement.applyContradiction existing patternId now
  | .markAddressed patternIds now => Attunement.markAddressed existing patternIds now

/-- The patterns that a call names: those of its grounded candidates, or of its ids. -/
def Op.names : Op → List Text
  | .mergeIntoLearned candidates bufferSlice _ =>
    (candidates.filter fun c => validateGrounded S c bufferSlice).map fun c =>
      S.patternId c.category c.canonicalKey
  | .applyContradiction patternId _ => [patternId]
  | .markAddressed patternIds _ => patternIds

variable {S}

@[simp]
theorem id_confirmed (candidate : PatternCandidate) (now : Text) (prev : Option LearnedPattern) :
    (confirmed S candidate now prev).id =
      S.patternId candidate.category candidate.canonicalKey := by
  cases prev <;> rfl

theorem id_of_mem_mergeIntoLearned {bufferSlice : List BufferTurn} {now : Text}
    {candidates : List PatternCandidate} {existing : Patterns} {r : LearnedPattern}
    (hr : r ∈ mergeIntoLearned S bufferSlice now existing candidates) :
    r.id ∈ (Op.mergeIntoLearned candidates bufferSlice now).names S := by
  induction candidates generalizing existing with
  | nil => exact absurd hr List.not_mem_nil
  | cons candidate candidates ih =>
    rw [mergeIntoLearned] at hr
    rw [Op.names, List.filter_cons]
    split_ifs at hr ⊢ with hgrounded
    · rw [List.map_cons]
      rcases List.mem_cons.mp hr with rfl | hr
      · exact List.mem_cons.mpr (.inl (id_confirmed _ _ _))
      · exact List.mem_cons_of_mem _ (ih hr)
    · exact ih hr

/-- The records of a pattern rest on what is known of it. -/
theorem rowsOf_mergeIntoLearned {bufferSlice : List BufferTurn} {now k : Text}
    {candidates : List PatternCandidate} {existing existing' : Patterns}
    (h : existing k = existing' k) :
    rowsOf LearnedPattern.id k (mergeIntoLearned S bufferSlice now existing candidates) =
      rowsOf LearnedPattern.id k (mergeIntoLearned S bufferSlice now existing' candidates) := by
  induction candidates generalizing existing existing' with
  | nil => rfl
  | cons candidate candidates ih =>
    rw [mergeIntoLearned, mergeIntoLearned]
    split_ifs with hgrounded
    · dsimp only
      rw [rowsOf, List.filter_cons, rowsOf, List.filter_cons, id_confirmed, id_confirmed]
      by_cases hk : S.patternId candidate.category candidate.canonicalKey = k
      · rw [hk, h]
        simp only [decide_true, if_true]
        exact congrArg _ (ih (by rw [Function.update_self, Function.update_self]))
      · rw [decide_eq_false hk]
        refine ih ?_
        rw [Function.update_of_ne (Ne.symm hk), Function.update_of_ne (Ne.symm hk), h]
    · exact ih h

theorem id_of_mem_applyContradiction {existing : Patterns} (hkeyed : Keyed LearnedPattern.id existing)
    {patternId now : Text} {r : LearnedPattern}
    (hr : r ∈ applyContradiction existing patternId now) : r.id = patternId := by
  unfold applyContradiction at hr
  split at hr
  · next prev hprev =>
    rw [List.mem_singleton.mp hr]
    exact hkeyed patternId prev hprev
  · exact absurd hr List.not_mem_nil

theorem id_of_mem_markAddressed {existing : Patterns} (hkeyed : Keyed LearnedPattern.id existing)
    {patternIds : List Text} {now : Text} {r : LearnedPattern}
    (hr : r ∈ markAddressed existing patternIds now) : r.id ∈ patternIds := by
  obtain ⟨pid, hpid, hmap⟩ := List.mem_filterMap.mp hr
  obtain ⟨prev, hprev, rfl⟩ := Option.map_eq_some_iff.mp hmap
  have hid : (addressed now prev).id = pid := hkeyed pid prev hprev
  rwa [hid]

theorem rowsOf_markAddressed {existing existing' : Patterns}
    (hkeyed : Keyed LearnedPattern.id existing) (hkeyed' : Keyed LearnedPattern.id existing')
    {k : Text} (h : existing k = existing' k) (patternIds : List Text) (now : Text) :
    rowsOf LearnedPattern.id k (markAddressed existing patternIds now) =
      rowsOf LearnedPattern.id k (markAddressed existing' patternIds now) := by
  induction patternIds with
  | nil => rfl
  | cons pid patternIds ih =>
    have hcons : ∀ existing : Patterns, markAddressed existing (pid :: patternIds) now =
        ((existing pid).map (addressed now)).toList ++ markAddressed existing patternIds now := by
      intro existing
      rw [markAddressed, List.filterMap_cons]
      cases existing pid <;> rfl
    rw [hcons, hcons, rowsOf_append, rowsOf_append, ih]
    congr 1
    by_cases hk : pid = k
    · rw [hk, h]
    · -- The record of another id is none of `k`.
      have hnil : ∀ existing : Patterns, Keyed LearnedPattern.id existing →
          rowsOf LearnedPattern.id k ((existing pid).map (addressed now)).toList = [] := by
        intro existing hkeyed
        rw [rowsOf_eq_nil]
        intro r hr
        obtain ⟨prev, hprev, rfl⟩ := Option.map_eq_some_iff.mp (Option.mem_toList.mp hr)
        have hid : (addressed now prev).id = pid := hkeyed pid prev hprev
        rwa [hid]
      rw [hnil existing hkeyed, hnil existing' hkeyed']

/-- A call reads the patterns that it names, and appends records of them. -/
def Op.call (S : Setting) (op : Op) : Call LearnedPattern.id where
  rows existing := op.rows S existing
  names := op.names S
  named existing hkeyed r hr := by
    cases op with
    | mergeIntoLearned candidates bufferSlice now => exact id_of_mem_mergeIntoLearned hr
    | applyContradiction patternId now =>
      exact List.mem_singleton.mpr (id_of_mem_applyContradiction hkeyed hr)
    | markAddressed patternIds now => exact id_of_mem_markAddressed hkeyed hr
  own existing existing' hkeyed hkeyed' k h := by
    cases op with
    | mergeIntoLearned candidates bufferSlice now => exact rowsOf_mergeIntoLearned h
    | applyContradiction patternId now =>
      by_cases hk : patternId = k
      · subst hk
        rw [Op.rows, Op.rows, Attunement.applyContradiction, Attunement.applyContradiction, h]
      · have hnil : ∀ existing : Patterns, Keyed LearnedPattern.id existing →
            rowsOf LearnedPattern.id k (Attunement.applyContradiction existing patternId now) = [] := by
          intro existing hkeyed
          rw [rowsOf_eq_nil]
          exact fun r hr => id_of_mem_applyContradiction hkeyed hr ▸ hk
        rw [Op.rows, Op.rows, hnil existing hkeyed, hnil existing' hkeyed']
    | markAddressed patternIds now => exact rowsOf_markAddressed hkeyed hkeyed' h patternIds now

/-! ## Runs -/

/-- The calls of any processes on one file. -/
def store (S : Setting) (rows : List LearnedPattern) : Machine (State Op LearnedPattern) (Act Op) :=
  machine LearnedPattern.id (Op.call S) rows

/-- `read_learned_patterns` -/
def readLearnedPatterns (rows : List LearnedPattern) : Patterns := latest LearnedPattern.id rows

/-- No record is appended after another call, which read later, has read the pattern it is of. -/
def Current (S : Setting) : State Op LearnedPattern → Act Op → Prop :=
  Timely LearnedPattern.id (Op.call S)

/-- All calls are over. -/
def Over (s : State Op LearnedPattern) : Prop := ∀ x ∈ s.calls, x.pending = []

instance : DecidablePred Over := fun s => inferInstanceAs (Decidable (∀ x ∈ s.calls, x.pending = []))

/-- The records of the calls one by one. -/
def oneByOne (S : Setting) (rows : List LearnedPattern) (ops : List Op) : List LearnedPattern :=
  serial LearnedPattern.id (Op.call S) rows ops

/-- In a run whose records are all current, a pattern of which no record is outstanding is as after
the calls one by one, in the order of their reads. With all calls over, these are all patterns. -/
theorem learned_serialisable {S : Setting} {rows : List LearnedPattern} {s : State Op LearnedPattern}
    (h : (store S rows).Reach (Current S) s) :
    (∀ id, ¬Outstanding LearnedPattern.id id s.calls → readLearnedPatterns s.rows id =
      readLearnedPatterns (oneByOne S rows (s.calls.map Running.op)) id) ∧
    (Over s → ∃ ops, ops.Perm (s.calls.map Running.op) ∧
      readLearnedPatterns s.rows = readLearnedPatterns (oneByOne S rows ops)) := by
  have hserial : ∀ id, ¬Outstanding LearnedPattern.id id s.calls → readLearnedPatterns s.rows id =
      readLearnedPatterns (oneByOne S rows (s.calls.map Running.op)) id :=
    fun id hout => timely_serial h hout
  refine ⟨hserial, fun hover => ⟨_, .refl _, funext fun id => hserial id ?_⟩⟩
  rintro ⟨x, hx, r, hr, -⟩
  rw [hover x hx] at hr
  exact absurd hr List.not_mem_nil

/-- Texts as they are, and ids that say the key. -/
def Setting.plain : Setting := ⟨id, fun _ key => key⟩

/-- A candidate that a turn grounds. -/
def PatternCandidate.grounded (key : String) : PatternCandidate :=
  ⟨.tone, key.toList, "warm".toList, [⟨"hello".toList, "t1".toList⟩]⟩

def Op.confirm (key : String) : Op :=
  .mergeIntoLearned [.grounded key] [⟨"t1".toList, "hello there".toList⟩] "now".toList

/-- A confirmation reads, the confirmation of another pattern runs, and the pattern is addressed
once the first has been written. -/
theorem learned_serialisable_disjoint : ∃ s, (store .plain []).Reach (Current .plain) s ∧
    s.calls.map Running.op = [.confirm "soft", .confirm "slow",
      .markAddressed ["soft".toList] "later".toList] ∧
    ∃ ops, ops.Perm (s.calls.map Running.op) ∧
      readLearnedPatterns s.rows = readLearnedPatterns (oneByOne .plain [] ops) := by
  obtain ⟨s, hs, hp⟩ := Machine.exists_reach_of_runWithin (M := store .plain [])
    (C := Current .plain) (D := fun s a => onTime LearnedPattern.id (Op.call .plain) s a = true)
    (fun s a h => timely_of_onTime LearnedPattern.id (Op.call .plain) h) (s := ⟨[], []⟩) rfl
    [.read (.confirm "soft"), .read (.confirm "slow"), .append 1, .append 0,
      .read (.markAddressed ["soft".toList] "later".toList), .append 2]
    (fun s => Over s ∧ s.calls.map Running.op = [.confirm "soft", .confirm "slow",
      .markAddressed ["soft".toList] "later".toList])
    (by decide +kernel)
  obtain ⟨hover, hops⟩ := of_decide_eq_true hp
  exact ⟨s, hs, hops, (learned_serialisable hs).2 hover⟩

/-- Two confirmations of one pattern both read before either writes, and one is lost. -/
theorem one_confirmation_lost : ∃ s, (store .plain []).Reachable s ∧ Over s ∧
    (readLearnedPatterns s.rows "soft".toList).map LearnedPattern.evidenceCount = some 1 ∧
    ∀ ops, ops.Perm (s.calls.map Running.op) →
      readLearnedPatterns s.rows ≠ readLearnedPatterns (oneByOne .plain [] ops) := by
  obtain ⟨s, hs, hp⟩ := Machine.exists_reach_of_runWithin (M := store .plain [])
    (C := fun _ _ => True) (D := fun _ _ => True) (fun _ _ h => h) (s := ⟨[], []⟩) rfl
    [.read (.confirm "soft"), .read (.confirm "soft"), .append 0, .append 1]
    (fun s => Over s ∧ s.calls.map Running.op = List.replicate 2 (.confirm "soft") ∧
      (readLearnedPatterns s.rows "soft".toList).map LearnedPattern.evidenceCount = some 1)
    (by decide +kernel)
  obtain ⟨hover, hops, hcount⟩ := of_decide_eq_true hp
  refine ⟨s, hs, hover, hcount, fun ops hperm heq => ?_⟩
  rw [hops, List.perm_replicate] at hperm
  rw [heq, hperm] at hcount
  exact absurd hcount (by decide +kernel)

end Companion.Attunement

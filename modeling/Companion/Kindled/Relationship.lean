import Companion.Kindled.Engine
import Mathlib

/-!
# The relationship with a peer

`run_relationship_reflection` of `brain/kindled_link/relationship.py`: one pass in which a model
reads the transcript with a peer and proposes what has become of the relationship, and the stage
that is stored after it.

A promotion takes a quote that is found in the transcript (`_is_grounded`), and one pass moves the
stage by one step (`_bounded_stage`), where no hard breach resets it. The signal of drafts that were
held takes one more step down, from the stage that the model's proposal has led to.
-/

namespace Companion.Kindled.Relationship

open Companion.Memory Companion.Effects

/-- `STAGES` -/
def stages : List Text :=
  ["stranger", "acquaintance", "familiar", "friend", "close"].map String.toList

/-- `STAGES.index` -/
def stageIndex (stage : Text) : ℕ := stages.idxOf stage

/-- `STAGES[i]` -/
def stageAt (i : ℕ) : Text := stages.getD i []

/-- `_MIN_GROUNDED_QUOTE_CHARS` -/
def minGroundedQuoteChars : ℕ := 12

/-- `_HOLD_REGRESS_THRESHOLD` -/
def holdRegressThreshold : ℤ := 3

/-- `_HARD_BREACH_RESET` -/
def hardBreachReset : Text := "stranger".toList

/-- `Evidence` -/
structure Evidence where
  quote : Text
  turnId : Text
  supports : Text
  deriving DecidableEq

/-- `PeerRelationshipState`, without the id of the peer. -/
structure RelationshipState where
  stage : Text
  trustScore : FloatValue
  affinityTags : List Text
  boundariesSeen : List Text
  repairHistory : List Text
  evidence : List Evidence
  lastReflectedAt : Option Instant
  deriving DecidableEq

/-- The state of a peer that has no row. -/
def RelationshipState.fresh : RelationshipState :=
  ⟨"stranger".toList, .finite 0, [], [], [], [], none⟩

/-- What a reflection asks of the outside. -/
inductive Call
  /-- `get_relationship_row`, and what `get_relationship_state` reads in the row. -/
  | row (peer : Text)
  /-- `try_reserve_provider` -/
  | reserveProvider (peer today : Text)
  /-- `release_provider_slot` -/
  | releaseProvider (peer today : Text)
  /-- The slot of the throttle is entered, and granted or not. -/
  | enterSlot
  | exitSlot
  /-- `provider.complete`, with the prompt of `_build_reflection_prompt`. -/
  | complete (stage transcript : Text)
  /-- The row that `_log_rejection` appends. -/
  | logRejection (peer quote : Text)
  /-- `persist_relationship_state` -/
  | persist (peer : Text) (state : RelationshipState)
  /-- The emotion and the memory of the pass. -/
  | wireBack (peer : Text) (stage : Text) (data : List (Text × Json Text))

/-- What a call is answered. -/
abbrev Call.Reply : Call → Type
  | row _ => Option RelationshipState
  | reserveProvider _ _ => Bool
  | enterSlot => Bool
  | complete _ _ => Text
  | _ => Unit

/-- A program of such calls. -/
abbrev Pass (α : Type) := Prog Call.Reply α

abbrev ask (c : Call) : Pass c.Reply := Prog.ask c

/-- What a reflection takes from the standard library. -/
structure Library where
  /-- `json.loads`, or none where it raises. -/
  loads : Text → Option (Json Text)
  /-- `float` of a string, or none where it raises. -/
  floatOf : Text → Option FloatValue
  /-- `str` of a JSON value. -/
  str : Json Text → Text
  /-- `_normalise` -/
  normalise : Text → Text
  /-- `strftime("%Y-%m-%d")` -/
  dayOf : Instant → Text

/-- The arguments of `run_relationship_reflection`. -/
structure Reflection where
  peer : Text
  transcript : Text
  now : Instant
  today : Text
  /-- `int(regression_signal.get("hold_count", 0))`, or none where it raises. The signal itself is
  none where it is empty or not given. -/
  regressionSignal : Option (Option ℤ)
  /-- A directory for the log of rejected quotes is given. -/
  logs : Bool
  /-- A store of memories is given. -/
  remembers : Bool

/-- `_bounded_stage` -/
def boundedStage (current proposed : Text) : Text :=
  if proposed ∈ stages then
    if stageIndex current < stageIndex proposed then
      stageAt (min (stageIndex current + 1) (stages.length - 1))
    else if stageIndex proposed < stageIndex current then stageAt (stageIndex current - 1)
    else current
  else current

/-- What the external signal makes of a stage. -/
def regress (signal : Option (Option ℤ)) (stage : Text) : Text :=
  match signal with
  | some (some holdCount) =>
    if holdRegressThreshold ≤ holdCount ∧ 0 < stageIndex stage then stageAt (stageIndex stage - 1)
    else stage
  | _ => stage

/-- `data.get("evidence") or []`, or none where it cannot be iterated. -/
def evidenceItems : Option (Json Text) → Option (List (Json Text))
  | none => some []
  | some j =>
    if j.truthy then
      match j with
      | .arr items => some items
      | .str s => some (s.map fun c => .str [c])
      | .obj items => some (items.map fun item => .str item.1)
      | _ => none
    else some []

/-- `with throttle.background_slot() as granted: body` -/
def withSlot {α : Type} (body : Bool → Pass α) : Pass α := do
  let granted : Bool ← ask .enterSlot
  (body granted).ensuring (ask .exitSlot)

namespace Reflection

variable (x : Reflection)

/-- The call of the provider: what it returns, or none where the state stays as it is. -/
def attempt (stage : Text) : Pass (Option Text) :=
  Prog.tryExcept
    (withSlot fun granted =>
      if granted then do
        let raw : Text ← ask (.complete stage x.transcript)
        pure (some raw)
      else do
        ask (.releaseProvider x.peer x.today)
        pure none)
    (do
      ask (.releaseProvider x.peer x.today)
      pure none)

/-- `_log_rejection` -/
def logRejection (quote : Text) : Pass Unit :=
  if x.logs then (ask (.logRejection x.peer quote)).tryExcept (pure ()) else pure ()

/-- The write-back of the pass, whose exceptions are logged. -/
def writeBack (stage : Text) (data : List (Text × Json Text)) : Pass Unit :=
  if x.remembers then (ask (.wireBack x.peer stage data)).tryExcept (pure ()) else pure ()

end Reflection

namespace Library

variable (L : Library) (x : Reflection)

/-- `_is_grounded` -/
def isGrounded (quote transcript : Text) : Bool :=
  minGroundedQuoteChars ≤ (L.normalise quote).length ∧
    L.normalise quote <:+: L.normalise transcript

/-- `str(d.get(key, default))` -/
def strOf (d : List (Text × Json Text)) (key : String) (default : Text) : Text :=
  (d.lookup key.toList).elim default L.str

/-- `(data.get("boundaries_seen") or ["hard breach"])[0]` as a string, or none where it raises. -/
def breachNote (data : List (Text × Json Text)) : Option Text :=
  match data.lookup "boundaries_seen".toList with
  | none => some "hard breach".toList
  | some j =>
    if j.truthy then
      match j with
      | .arr (item :: _) => some (L.str item)
      | .str (c :: _) => some [c]
      | _ => none
    else some "hard breach".toList

/-- The evidence whose quotes are grounded. A rejected quote is logged, and an item that is no
object raises. -/
def grounded : List (Json Text) → Pass (List Evidence)
  | [] => pure []
  | .obj item :: items =>
    let quote := L.strOf item "quote" []
    if L.isGrounded quote x.transcript then do
      let rest ← grounded items
      pure (⟨quote, L.strOf item "turn_id" "unknown".toList, L.strOf item "supports" []⟩ :: rest)
    else do
      x.logRejection quote
      grounded items
  | _ :: _ => Prog.raise

/-- The trust score of a verdict, or none where `float` raises what is not caught beside it. A value
that is no number leaves the score as it is. -/
def trustOf (stored : FloatValue) : Option (Json Text) → Option FloatValue
  | none => some (.finite (clampUnit stored))
  | some (.bool b) => some (.finite (if b then 1 else 0))
  | some (.int n) => if 2 ^ 1024 ≤ |n| then none else some (.finite (clampUnit (.finite n)))
  | some (.float y) => some (.finite (clampUnit y))
  | some (.str s) => some ((L.floatOf s).elim stored fun y => .finite (clampUnit y))
  | some _ => some stored

/-- The first strings of a list in the verdict, or what is stored where it is no list. -/
def listOf (limit : ℕ) (stored : List Text) : Option (Json Text) → List Text
  | some (.arr items) => (items.map L.str).take limit
  | _ => stored

/-- The stage that a verdict proposes, where a promotion has evidence. -/
def proposedStage (data : List (Text × Json Text)) (stage : Text) (evidence : List Evidence) :
    Text :=
  let proposed := L.strOf data "proposed_stage" stage
  if proposed ∈ stages ∧ stageIndex stage < stageIndex proposed ∧ evidence = [] then stage
  else proposed

/-- The state that a verdict without a breach leads to, or none where an exception ends the pass. -/
def judged (data : List (Text × Json Text)) (state : RelationshipState) (evidence : List Evidence) :
    Option RelationshipState :=
  if state.stage ∈ stages then
    (L.trustOf state.trustScore (data.lookup "trust_score".toList)).map fun trust =>
      { state with
        stage := regress x.regressionSignal
          (boundedStage state.stage (L.proposedStage data state.stage evidence))
        trustScore := trust
        affinityTags := L.listOf 12 state.affinityTags (data.lookup "affinity_tags".toList)
        boundariesSeen := L.listOf 20 state.boundariesSeen (data.lookup "boundaries_seen".toList)
        evidence := if evidence = [] then state.evidence else evidence.take 10
        lastReflectedAt := some x.now }
  else none

/-- The state after a hard breach. -/
def breached (state : RelationshipState) (note : Text) : RelationshipState :=
  { state with
    stage := hardBreachReset
    trustScore := .finite 0
    boundariesSeen := (state.boundariesSeen ++ [note]).drop (state.boundariesSeen.length + 1 - 20)
    lastReflectedAt := some x.now }

/-- `bool(data.get("hard_breach"))` -/
def hardBreach (data : List (Text × Json Text)) : Bool :=
  (data.lookup "hard_breach".toList).any Json.truthy

/-- The pass after the provider's reply is read as an object. -/
def conclude (data : List (Text × Json Text)) (state : RelationshipState) :
    Pass RelationshipState :=
  if hardBreach data then
    match L.breachNote data with
    | none => Prog.raise
    | some note => do
      ask (.persist x.peer (breached x state note))
      pure (breached x state note)
  else
    match evidenceItems (data.lookup "evidence".toList) with
    | none => Prog.raise
    | some items => do
      let evidence ← L.grounded x items
      match L.judged x data state evidence with
      | none => Prog.raise
      | some new => do
        ask (.persist x.peer new)
        x.writeBack new.stage data
        pure new

/-- `run_relationship_reflection` -/
def runRelationshipReflection : Pass RelationshipState := do
  let found : Option RelationshipState ← ask (.row x.peer)
  let state := found.getD .fresh
  if x.today = L.dayOf x.now then do
    let reserved : Bool ← ask (.reserveProvider x.peer x.today)
    if reserved then
      match ← x.attempt state.stage with
      | none => pure state
      | some raw =>
        match (bracesOf raw).bind L.loads with
        | none => pure state
        | some (.obj data) => L.conclude x data state
        | some _ => Prog.raise
    else pure state
  else pure state

end Library

/-! ## The stage that a pass persists -/

/-- The signal takes a step down. -/
def Presses (signal : Option (Option ℤ)) : Prop :=
  ∃ holdCount, signal = some (some holdCount) ∧ holdRegressThreshold ≤ holdCount

theorem stageIndex_stageAt {i : ℕ} (hi : i < stages.length) : stageIndex (stageAt i) = i := by
  have hall : ∀ j < stages.length, stageIndex (stageAt j) = j := by decide
  exact hall i hi

theorem stageIndex_lt {stage : Text} (h : stage ∈ stages) : stageIndex stage < stages.length :=
  List.idxOf_lt_length_of_mem h

theorem stageAt_mem {i : ℕ} (hi : i < stages.length) : stageAt i ∈ stages := by
  have hall : ∀ j < stages.length, stageAt j ∈ stages := by decide
  exact hall i hi

/-- A proposal moves a stage by one step, towards the proposed one. -/
theorem stageIndex_boundedStage {current proposed : Text} (hc : current ∈ stages) :
    (proposed ∉ stages ∧ stageIndex (boundedStage current proposed) = stageIndex current) ∨
    (proposed ∈ stages ∧
      ((stageIndex current < stageIndex proposed ∧
          stageIndex (boundedStage current proposed) = stageIndex current + 1) ∨
        (stageIndex proposed < stageIndex current ∧
          stageIndex (boundedStage current proposed) + 1 = stageIndex current) ∨
        (stageIndex proposed = stageIndex current ∧
          stageIndex (boundedStage current proposed) = stageIndex current))) := by
  have hlt := stageIndex_lt hc
  unfold boundedStage
  by_cases hp : proposed ∈ stages
  · refine .inr ⟨hp, ?_⟩
    have hpl := stageIndex_lt hp
    rw [if_pos hp]
    split_ifs with hup hdown
    · rw [stageIndex_stageAt (by omega)]
      omega
    · rw [stageIndex_stageAt (by omega)]
      omega
    · omega
  · rw [if_neg hp]
    exact .inl ⟨hp, rfl⟩

theorem boundedStage_mem {current proposed : Text} (hc : current ∈ stages) :
    boundedStage current proposed ∈ stages := by
  have hlt := stageIndex_lt hc
  unfold boundedStage
  split_ifs
  · exact stageAt_mem (by omega)
  · exact stageAt_mem (by omega)
  · exact hc
  · exact hc

/-- The signal moves a stage by one step down, where it presses. -/
theorem stageIndex_regress {signal : Option (Option ℤ)} {stage : Text} (hs : stage ∈ stages) :
    (Presses signal ∧ stageIndex (regress signal stage) = stageIndex stage - 1) ∨
      (¬ Presses signal ∧ stageIndex (regress signal stage) = stageIndex stage) := by
  have hlt := stageIndex_lt hs
  unfold regress
  split
  · next holdCount =>
    by_cases hpress : holdRegressThreshold ≤ holdCount
    · refine .inl ⟨⟨holdCount, rfl, hpress⟩, ?_⟩
      split_ifs with h
      · rw [stageIndex_stageAt (by omega)]
      · omega
    · refine .inr ⟨?_, by rw [if_neg fun h => hpress h.1]⟩
      rintro ⟨_, ⟨⟩, h⟩
      exact hpress h
  · next hne =>
    refine .inr ⟨?_, rfl⟩
    rintro ⟨holdCount, rfl, -⟩
    exact hne holdCount rfl

/-! ## What a pass that persists a state has read -/

/-- The state of the relationship is persisted. -/
def Call.persists : Call → Bool
  | persist _ _ => true
  | _ => false

/-- The quotes of the evidence of a verdict. -/
def Library.quotes (L : Library) (data : List (Text × Json Text)) : List Text :=
  ((evidenceItems (data.lookup "evidence".toList)).getD []).filterMap fun
    | .obj item => some (L.strOf item "quote" [])
    | _ => none

variable {L : Library} {x : Reflection} {α : Type} {u : Trace Call.Reply}

theorem only_withSlot {P : Call → Prop} {body : Bool → Pass α} (henter : P .enterSlot)
    (hexit : P .exitSlot) (h : ∀ granted, Only P (body granted)) : Only P (withSlot body) :=
  .bind (only_ask.mpr henter) fun granted => .ensuring (h granted) (only_ask.mpr hexit)

theorem only_attempt (stage : Text) : Only (fun c => c.persists = false) (x.attempt stage) := by
  refine .tryExcept (only_withSlot rfl rfl fun granted => ?_)
    (.bind (only_ask.mpr rfl) fun _ => trivial)
  cases granted with
  | false => exact .bind (only_ask.mpr rfl) fun _ => trivial
  | true => exact .bind (only_ask.mpr rfl) fun _ => trivial

section

variable {P : Call → Prop}

theorem only_logRejection (hlog : ∀ quote, P (.logRejection x.peer quote)) (quote : Text) :
    Only P (x.logRejection quote) := by
  unfold Reflection.logRejection
  split_ifs
  · exact .tryExcept (only_ask.mpr (hlog quote)) trivial
  · trivial

theorem only_writeBack {stage : Text} {data : List (Text × Json Text)}
    (hwire : P (.wireBack x.peer stage data)) : Only P (x.writeBack stage data) := by
  unfold Reflection.writeBack
  split_ifs
  · exact .tryExcept (only_ask.mpr hwire) trivial
  · trivial

theorem only_grounded (hlog : ∀ quote, P (.logRejection x.peer quote)) (items : List (Json Text)) :
    Only P (L.grounded x items) := by
  fun_induction Library.grounded L x items with
  | case1 => trivial
  | case2 item items quote h ih => exact .bind ih fun _ => trivial
  | case3 item items quote h ih => exact .bind (only_logRejection hlog _) fun _ => ih
  | case4 => trivial

/-- The calls after the verdict is read. -/
theorem only_conclude (hlog : ∀ quote, P (.logRejection x.peer quote))
    (hpersist : ∀ state, P (.persist x.peer state))
    (hwire : ∀ stage data, P (.wireBack x.peer stage data)) (data : List (Text × Json Text))
    (state : RelationshipState) : Only P (L.conclude x data state) := by
  unfold Library.conclude
  split
  · split
    · trivial
    · exact .bind (only_ask.mpr (hpersist _)) fun _ => trivial
  · split
    · trivial
    · refine .bind (only_grounded hlog _) fun evidence => ?_
      split
      · trivial
      · exact .bind (only_ask.mpr (hpersist _)) fun _ => .bind (only_writeBack (hwire ..)) fun _ =>
          trivial

end

/-- Each piece of evidence that is kept has a quote of the verdict, which is grounded. -/
theorem grounded_some {items : List (Json Text)} {evidence : List Evidence}
    (h : Runs (L.grounded x items) u (some evidence)) :
    ∀ e ∈ evidence, L.isGrounded e.quote x.transcript = true ∧
      ∃ item, .obj item ∈ items ∧ e.quote = L.strOf item "quote" [] := by
  induction items generalizing u evidence with
  | nil =>
    obtain ⟨-, ⟨⟩⟩ := h
    exact fun e he => absurd he List.not_mem_nil
  | cons item items ih =>
    have hlater : ∀ {v : Trace Call.Reply} {rest : List Evidence},
        Runs (L.grounded x items) v (some rest) → ∀ e ∈ rest,
        L.isGrounded e.quote x.transcript = true ∧
          ∃ i, .obj i ∈ item :: items ∧ e.quote = L.strOf i "quote" [] := by
      intro v rest hrest e he
      obtain ⟨hg, i, hi, heq⟩ := ih hrest e he
      exact ⟨hg, i, List.mem_cons_of_mem _ hi, heq⟩
    cases item with
    | obj fields =>
      dsimp only [Library.grounded] at h
      split_ifs at h with hquote
      · obtain ⟨rest, v, w, rfl, hrest, -, ⟨⟩⟩ := runs_bind_some.mp h
        exact List.forall_mem_cons.mpr ⟨⟨hquote, fields, List.mem_cons_self, rfl⟩, hlater hrest⟩
      · obtain ⟨_, v, w, rfl, -, hrest⟩ := runs_bind_some.mp h
        exact hlater hrest
    | _ => cases h.2

/-- A verdict, and the state that it leads to from the one that was read: by a breach, or by the
evidence that is grounded. -/
inductive Concluded (L : Library) (x : Reflection) (data : List (Text × Json Text))
    (old new : RelationshipState) : Prop
  | breach (hbreach : Library.hardBreach data = true) (hstage : new.stage = hardBreachReset)
  | judged {evidence : List Evidence} (hbreach : Library.hardBreach data = false)
      (hquotes : ∀ e ∈ evidence, e.quote ∈ L.quotes data ∧
        L.isGrounded e.quote x.transcript = true)
      (hjudged : L.judged x data old evidence = some new)

/-- A program that persists nothing leaves no state in its calls. -/
theorem persist_notMem {p : Pass α} (hp : Only (fun c => c.persists = false) p) {o : Option α}
    (h : Runs p u o) {peer : Text} {new : RelationshipState} {r : Option Unit} :
    ⟨.persist peer new, r⟩ ∉ u :=
  fun hmem => Bool.noConfusion (hp.of_runs h _ hmem)

/-- The state is the one that is persisted first, where nothing is persisted after it. -/
theorem eq_of_persist {peer peer' : Text} {old new : RelationshipState} {r : Option Unit}
    {p : Pass α} (hp : Only (fun c => c.persists = false) p) {o : Option α}
    (h : Runs (ask (.persist peer' old) >>= fun _ => p) u o) (hmem : ⟨.persist peer new, r⟩ ∈ u) :
    new = old := by
  rcases runs_ask_bind.mp h with ⟨_, w, rfl, hw⟩ | ⟨-, rfl⟩
  · rcases List.mem_cons.mp hmem with heq | hmem
    · cases heq
      rfl
    · exact absurd hmem (persist_notMem hp hw)
  · cases List.mem_singleton.mp hmem
    rfl

theorem concluded_of_persist {data : List (Text × Json Text)} {old new : RelationshipState}
    {o : Option RelationshipState} {peer : Text} {r : Option Unit}
    (h : Runs (L.conclude x data old) u o) (hmem : ⟨.persist peer new, r⟩ ∈ u) :
    Concluded L x data old new := by
  rw [Library.conclude] at h
  split_ifs at h with hbreach
  · -- a breach persists the state of its note, and nothing else
    cases hnote : L.breachNote data with
    | none =>
      simp only [hnote, runs_raise] at h
      rw [h.1] at hmem
      exact absurd hmem List.not_mem_nil
    | some note =>
      simp only [hnote] at h
      obtain rfl := eq_of_persist (p := pure _) trivial h hmem
      exact .breach hbreach rfl
  · -- no breach: the evidence is grounded first, and the state judged by it
    cases hitems : evidenceItems (data.lookup "evidence".toList) with
    | none =>
      simp only [hitems, runs_raise] at h
      rw [h.1] at hmem
      exact absurd hmem List.not_mem_nil
    | some items =>
      simp only [hitems] at h
      rcases runs_bind.mp h with ⟨evidence, v, w, rfl, hfound, hrest⟩ | ⟨-, hraised⟩
      · have hmem : ⟨.persist peer new, r⟩ ∈ w :=
          (List.mem_append.mp hmem).resolve_left
            (persist_notMem (only_grounded (fun _ => rfl) items) hfound)
        cases hjudged : L.judged x data old evidence with
        | none =>
          simp only [hjudged, runs_raise] at hrest
          rw [hrest.1] at hmem
          exact absurd hmem List.not_mem_nil
        | some state =>
          simp only [hjudged] at hrest
          have hafter : Only (fun c => c.persists = false)
              (x.writeBack state.stage data >>= fun _ => pure state) :=
            .bind (only_writeBack rfl) fun _ => trivial
          obtain rfl := eq_of_persist hafter hrest hmem
          refine .judged (eq_false_of_ne_true hbreach) (fun e he => ?_) hjudged
          obtain ⟨hg, item, hitem, heq⟩ := grounded_some hfound e he
          refine ⟨List.mem_filterMap.mpr ⟨.obj item, ?_, by rw [heq]⟩, hg⟩
          rw [hitems]
          exact hitem
      · exact absurd hmem (persist_notMem (only_grounded (fun _ => rfl) items) hraised)

theorem attempt_some {stage raw : Text} (h : Runs (x.attempt stage) u (some (some raw))) :
    u = [⟨.enterSlot, some true⟩, ⟨.complete stage x.transcript, some raw⟩,
      ⟨.exitSlot, some ()⟩] := by
  rw [Reflection.attempt, runs_tryExcept] at h
  rcases h with ⟨-, h⟩ | ⟨v, w, -, -, h⟩
  · rw [withSlot, runs_ask_ensuring] at h
    obtain ⟨granted, v, w, y, _ | _, rfl, hbody, hexit, ho⟩ | ⟨ho, -⟩ := h
    · cases ho
    · obtain rfl : some (some raw) = y := ho
      obtain rfl : w = _ := runs_ask.mp hexit
      cases granted with
      | false =>
        obtain ⟨_, v, -, -, hnone⟩ := runs_ask_bind_some.mp hbody
        cases hnone
      | true =>
        rw [if_pos rfl, runs_ask_bind_some] at hbody
        obtain ⟨raw, v, rfl, rfl, ⟨⟩⟩ := hbody
        rfl
    · cases ho
  · -- The handler yields none.
    obtain ⟨_, v, -, -, hnone⟩ := runs_ask_bind_some.mp h
    cases hnone

/-- Where a pass persists a state, it has read the old one and an object in the reply of the model,
and the state follows from these. -/
theorem persisted_cases {o : Option RelationshipState} {peer : Text} {new : RelationshipState}
    {r : Option Unit} (h : Runs (L.runRelationshipReflection x) u o)
    (hmem : ⟨.persist peer new, r⟩ ∈ u) :
    ∃ found raw data v,
      u = ⟨.row x.peer, some found⟩ :: ⟨.reserveProvider x.peer x.today, some true⟩ ::
        ⟨.enterSlot, some true⟩ ::
        ⟨.complete (found.getD .fresh).stage x.transcript, some raw⟩ ::
        ⟨.exitSlot, some ()⟩ :: v ∧
      (bracesOf raw).bind L.loads = some (.obj data) ∧
      Concluded L x data (found.getD .fresh) new := by
  have hpure : ∀ {state : RelationshipState} {w : Trace Call.Reply},
      Runs (pure state : Pass RelationshipState) w o → ⟨.persist peer new, r⟩ ∉ w :=
    fun hrun => persist_notMem (p := pure _) trivial hrun
  rw [Library.runRelationshipReflection] at h
  rcases runs_ask_bind.mp h with ⟨found, v₁, rfl, hrest⟩ | ⟨-, rfl⟩
  · clear h
    have hmem₁ : ⟨.persist peer new, r⟩ ∈ v₁ := (List.mem_cons.mp hmem).resolve_left nofun
    dsimp only at hrest
    split_ifs at hrest with hday
    · rcases runs_ask_bind.mp hrest with ⟨reserved, v₂, rfl, hslot⟩ | ⟨-, rfl⟩
      · have hmem₂ : ⟨.persist peer new, r⟩ ∈ v₂ := (List.mem_cons.mp hmem₁).resolve_left nofun
        cases reserved with
        | false => exact absurd hmem₂ (hpure hslot)
        | true =>
          rw [if_pos rfl] at hslot
          rcases runs_bind.mp hslot with ⟨got, v, w, rfl, hattempt, hread⟩ | ⟨-, hraised⟩
          · have hmem₃ : ⟨.persist peer new, r⟩ ∈ w :=
              (List.mem_append.mp hmem₂).resolve_left (persist_notMem (only_attempt _) hattempt)
            cases got with
            | none => exact absurd hmem₃ (hpure hread)
            | some raw =>
              obtain rfl := attempt_some hattempt
              dsimp only at hread
              split at hread
              · exact absurd hmem₃ (hpure hread)
              · next data hdata =>
                exact ⟨found, raw, data, w, rfl, hdata, concluded_of_persist hread hmem₃⟩
              · rw [hread.1] at hmem₃
                exact absurd hmem₃ List.not_mem_nil
          · exact absurd hmem₂ (persist_notMem (only_attempt _) hraised)
      · exact absurd hmem₁ (by simp)
    · exact absurd hmem₁ (hpure hrest)
  · exact absurd hmem (by simp)

/-! ## One step -/

/-- A pass may move the stage so: up by one step at most, and then by a grounded quote; to the first
stage by a hard breach; and without one down by one step at most. -/
structure OneStep (L : Library) (x : Reflection) (data : List (Text × Json Text)) (old new : Text) :
    Prop where
  up : stageIndex new ≤ stageIndex old + 1
  grounded : stageIndex old < stageIndex new →
    ∃ quote ∈ L.quotes data, L.isGrounded quote x.transcript = true
  breach : Library.hardBreach data = true → stageIndex new = 0
  down : Library.hardBreach data = false → stageIndex old ≤ stageIndex new + 1

/-- The model proposes a lower stage, and the signal presses on a stage that has two below it. -/
def PressedTwice (L : Library) (x : Reflection) (data : List (Text × Json Text)) (old : Text) :
    Prop :=
  Library.hardBreach data = false ∧
    L.strOf data "proposed_stage" old ∈ stages ∧
    stageIndex (L.strOf data "proposed_stage" old) < stageIndex old ∧
    2 ≤ stageIndex old ∧ Presses x.regressionSignal

/-- Before the signal the stage stays, or goes up by a step on evidence, or down by a step. -/
theorem stageIndex_proposedStage (L : Library) (data : List (Text × Json Text)) {stage : Text}
    (hs : stage ∈ stages) (evidence : List Evidence) :
    let proposed := L.strOf data "proposed_stage" stage
    let i := stageIndex (boundedStage stage (L.proposedStage data stage evidence))
    (i = stageIndex stage ∧ ¬ (proposed ∈ stages ∧ stageIndex proposed < stageIndex stage)) ∨
    (i = stageIndex stage + 1 ∧ stageIndex stage < stageIndex proposed ∧ evidence ≠ []) ∨
    (i + 1 = stageIndex stage ∧ proposed ∈ stages ∧ stageIndex proposed < stageIndex stage) := by
  intro proposed i
  have hmoved := @stageIndex_boundedStage _ (L.proposedStage data stage evidence) hs
  by_cases hrefused : proposed ∈ stages ∧ stageIndex stage < stageIndex proposed ∧ evidence = []
  · have hstay : L.proposedStage data stage evidence = stage := if_pos hrefused
    have hi : i = stageIndex stage := by
      rw [hstay] at hmoved
      simp only [i, hstay]
      omega
    exact .inl ⟨hi, fun h => absurd h.2 (by omega)⟩
  · have hpass : L.proposedStage data stage evidence = proposed := if_neg hrefused
    rw [hpass] at hmoved
    simp only [i, hpass]
    rcases hmoved with ⟨hmem, hi⟩ | ⟨hmem, ⟨hup, hi⟩ | ⟨hdown, hi⟩ | ⟨heq, hi⟩⟩
    · exact .inl ⟨hi, fun h => hmem h.1⟩
    · exact .inr (.inl ⟨hi, hup, fun hnil => hrefused ⟨hmem, hup, hnil⟩⟩)
    · exact .inr (.inr ⟨hi, hmem, hdown⟩)
    · exact .inl ⟨hi, fun h => absurd h.2 (by omega)⟩

theorem judged_some {data : List (Text × Json Text)} {old new : RelationshipState}
    {evidence : List Evidence} (h : L.judged x data old evidence = some new) :
    old.stage ∈ stages ∧ new.stage = regress x.regressionSignal
      (boundedStage old.stage (L.proposedStage data old.stage evidence)) := by
  unfold Library.judged at h
  by_cases hmem : old.stage ∈ stages
  · rw [if_pos hmem] at h
    obtain ⟨trust, -, rfl⟩ := Option.map_eq_some_iff.mp h
    exact ⟨hmem, rfl⟩
  · rw [if_neg hmem] at h
    cases h

theorem Concluded.oneStep_iff {data : List (Text × Json Text)} {old new : RelationshipState}
    (h : Concluded L x data old new) :
    OneStep L x data old.stage new.stage ↔ ¬ PressedTwice L x data old.stage := by
  cases h with
  | breach hbreach hstage =>
    have hzero : stageIndex new.stage = 0 := by rw [hstage]; rfl
    have hnot : ¬ PressedTwice L x data old.stage := fun hp => by simp [hp.1] at hbreach
    refine iff_of_true ⟨by omega, fun hlt => absurd hlt (by omega), fun _ => hzero, ?_⟩ hnot
    exact fun hno => absurd hbreach (by simp [hno])
  | @judged evidence hbreach hquotes hjudged =>
    obtain ⟨hold, hstage⟩ := judged_some hjudged
    have hproposed := stageIndex_proposedStage L data hold evidence
    have hpressed := @stageIndex_regress x.regressionSignal _
      (@boundedStage_mem _ (L.proposedStage data old.stage evidence) hold)
    rw [← hstage] at hpressed
    constructor
    · rintro ⟨-, -, -, hdown⟩ ⟨-, hmem, hlower, htwo, hpress⟩
      have hdown := hdown hbreach
      -- The proposal has taken one step down, and the signal another.
      rcases hproposed with ⟨-, hnot⟩ | ⟨-, hup, -⟩ | ⟨hi, -, -⟩
      · exact hnot ⟨hmem, hlower⟩
      · omega
      · rcases hpressed with ⟨-, hj⟩ | ⟨hnot, -⟩
        · omega
        · exact hnot hpress
    · intro hnot
      -- a stage goes up only on evidence, and each piece of it quotes the transcript
      have hgrounded : stageIndex old.stage < stageIndex new.stage →
          ∃ quote ∈ L.quotes data, L.isGrounded quote x.transcript = true := by
        intro hlt
        have hne : evidence ≠ [] := by
          rcases hproposed with ⟨hi, -⟩ | ⟨-, -, hne⟩ | ⟨hi, -, -⟩
          · omega
          · exact hne
          · omega
        obtain ⟨e, he⟩ := List.exists_mem_of_ne_nil evidence hne
        exact ⟨e.quote, hquotes e he⟩
      refine ⟨by omega, hgrounded, fun hyes => by simp [hbreach] at hyes, fun _ => ?_⟩
      rcases hproposed with ⟨hi, -⟩ | ⟨hi, -, -⟩ | ⟨hi, hmem, hlower⟩
      · omega
      · omega
      · rcases hpressed with ⟨hpress, hj⟩ | ⟨-, hj⟩
        · have hlow : ¬ 2 ≤ stageIndex old.stage :=
            fun htwo => hnot ⟨hbreach, hmem, hlower, htwo, hpress⟩
          omega
        · omega

/-- In every pass that persists a state, the stage has moved by one step, as the transcript and the
verdict allow it, just in case it was not pressed down twice: by the model's proposal, and by the
signal. -/
theorem stage_moves_one_step (L : Library) (x : Reflection) (u : Trace Call.Reply)
    (o : Option RelationshipState) (h : Runs (L.runRelationshipReflection x) u o) (peer : Text)
    (new : RelationshipState) (r : Option Unit) (hmem : ⟨.persist peer new, r⟩ ∈ u) :
    ∃ found raw data v,
      u = ⟨.row x.peer, some found⟩ :: ⟨.reserveProvider x.peer x.today, some true⟩ ::
        ⟨.enterSlot, some true⟩ ::
        ⟨.complete (found.getD .fresh).stage x.transcript, some raw⟩ ::
        ⟨.exitSlot, some ()⟩ :: v ∧
      (bracesOf raw).bind L.loads = some (.obj data) ∧
      (OneStep L x data (found.getD .fresh).stage new.stage ↔
        ¬ PressedTwice L x data (found.getD .fresh).stage) := by
  obtain ⟨found, raw, data, v, hu, hdata, hconcluded⟩ := persisted_cases h hmem
  exact ⟨found, raw, data, v, hu, hdata, hconcluded.oneStep_iff⟩

/-- A reply that proposes to go down from a friend to a familiar one. -/
def loweringReply : Text := "\x7b\"proposed_stage\": \"familiar\"\x7d".toList

/-- The verdict of that reply. -/
def loweringData : List (Text × Json Text) :=
  [("proposed_stage".toList, .str "familiar".toList)]

/-- A library that reads it. -/
def lowering : Library where
  loads t := if t = loweringReply then some (.obj loweringData) else none
  floatOf _ := none
  str
    | .str s => s
    | _ => []
  normalise := id
  dayOf _ := "2026-07-01".toList

/-- A pass under a signal of three drafts that were held. -/
def pressing : Reflection where
  peer := "moss".toList
  transcript := "hello".toList
  now := 0
  today := "2026-07-01".toList
  regressionSignal := some (some 3)
  logs := false
  remembers := false

/-- A friend, and a provider that replies. -/
def befriended : Env Call.Reply := fun _ c =>
  match c with
  | .row _ => some (some { RelationshipState.fresh with stage := "friend".toList })
  | .reserveProvider _ _ => some true
  | .enterSlot => some true
  | .complete _ _ => some loweringReply
  | .releaseProvider _ _ | .exitSlot | .logRejection _ _ | .persist _ _ | .wireBack _ _ _ => some ()

/-- What the pass persists. -/
def demoted : RelationshipState :=
  { RelationshipState.fresh with stage := "acquaintance".toList, lastReflectedAt := some 0 }

theorem pressing_persists :
    ⟨.persist "moss".toList demoted, some ()⟩ ∈
      ((lowering.runRelationshipReflection pressing).run befriended []).1 :=
  .tail _ (.tail _ (.tail _ (.tail _ (.tail _ (.head _)))))

theorem stage_moves_one_step_pressing :
    let u := ((lowering.runRelationshipReflection pressing).run befriended []).1
    ∃ found raw data v,
      u = ⟨.row "moss".toList, some found⟩ ::
        ⟨.reserveProvider "moss".toList "2026-07-01".toList, some true⟩ ::
        ⟨.enterSlot, some true⟩ ::
        ⟨.complete (found.getD .fresh).stage "hello".toList, some raw⟩ ::
        ⟨.exitSlot, some ()⟩ :: v ∧
      (bracesOf raw).bind lowering.loads = some (.obj data) ∧
      (OneStep lowering pressing data (found.getD .fresh).stage demoted.stage ↔
        ¬ PressedTwice lowering pressing data (found.getD .fresh).stage) :=
  stage_moves_one_step lowering pressing _ _ (runs_run ..) _ _ _ pressing_persists

/-- A friend is an acquaintance after one pass without a hard breach. -/
theorem pressed_twice :
    let u := ((lowering.runRelationshipReflection pressing).run befriended []).1
    let old := { RelationshipState.fresh with stage := "friend".toList }
    ⟨.row "moss".toList, some (some old)⟩ ∈ u ∧
      ⟨.persist "moss".toList demoted, some ()⟩ ∈ u ∧
      (bracesOf loweringReply).bind lowering.loads = some (.obj loweringData) ∧
      Library.hardBreach loweringData = false ∧
      ¬ OneStep lowering pressing loweringData old.stage demoted.stage :=
  ⟨.head _, pressing_persists, rfl, rfl, fun h => absurd (h.down rfl) (by decide)⟩

end Companion.Kindled.Relationship

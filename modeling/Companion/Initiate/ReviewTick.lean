import Companion.Initiate.Compose

/-!
# The review tick

One tick of the review (`run_initiate_review_tick` in `brain/initiate/review.py`) as a function of
what is in the queue and of what each call of the provider does: a text, or what it raises, a
refusal among that.

The tick is compared with its plan, which says without a state whom it demotes and whom it composes
(`tick_spec`). From it, whatever the records and the replies are, a candidate leaves the queue only
after a decision about it, an error of its composition or a rate limit; and where the records and
the replies are sound the tick returns and has carried out its plan (`queue_accounted`).
Candidates are told apart by their ids, as the source does.
-/

namespace Companion.Initiate.Review

open Companion.JsonText
open Companion.Memory (Instant)
open Companion.Initiate.Outreach (answers urgencyOf)

/-! ## The tick -/

/-- `gate_check` of a row. -/
inductive GateCheck
  | allowed
  | blocked (reason : GateReason)
  | compositionException
  deriving DecidableEq

/-- `AuditRow`, of a review. -/
structure ReviewRow (F : Type) where
  candidateId : Value F
  kind : Value F
  decision : Decision
  gateCheck : GateCheck

/-- A candidate in `draft_space.md`. -/
structure Draft (F : Type) where
  reason : Value F
  source : Value F
  sourceId : Value F
  candidateId : Value F

/-- The files of the persona. -/
structure State (F : Type) where
  queue : List (Fields F)
  audit : List (ReviewRow F)
  calls : List DCallRow
  drafts : List (Draft F)

/-- What a tick is run with, and what the provider does at each of its calls. -/
structure Tick (F : Type) where
  floats : Floats F
  builtins : Builtins F
  deps : ReflectionDeps
  capPerTick : ℕ
  /-- `check_send_allowed`, over the audit so far -/
  gate : List (ReviewRow F) → Urgency → Option GateReason
  /-- Of the candidate at a place among those fetched. -/
  replies : ℕ → Replies
  /-- Whether `background_slot` gives a slot. -/
  slot : Bool
  /-- `should_pause`, after the candidate at a place. -/
  shouldPause : ℕ → Bool

namespace Tick

variable {F : Type} (t : Tick F)

/-- The row of a candidate. -/
def rowOf (audit : List (ReviewRow F)) (c : InitiateCandidate F) :
    Except PyError Decision → ReviewRow F
  | .error _ => ⟨c.candidateId, c.kind, .error, .compositionException⟩
  | .ok decision =>
    match c.kindOf, urgencyOf decision with
    | .message, some urgency =>
      match t.gate audit urgency with
      | none => ⟨c.candidateId, c.kind, decision, .allowed⟩
      | some reason => ⟨c.candidateId, c.kind, .hold, .blocked reason⟩
    | _, _ => ⟨c.candidateId, c.kind, decision, .allowed⟩

/-- `remove_candidate`, and what it raises. -/
def remove (s : State F) (c : InitiateCandidate F) : State F × Option PyError :=
  match removeCandidate t.builtins s.queue c.candidateId with
  | .ok queue => ({ s with queue }, none)
  | .error e => (s, some e)

/-- `_process_one_candidate`, of the candidate at a place, and what it raises. -/
def processOneCandidate (p : InitiateCandidate F × ℕ) (s : State F) : State F × Option PyError :=
  let row := t.rowOf s.audit p.1 (compose t.floats t.builtins p.1 (t.replies p.2))
  t.remove { s with audit := s.audit ++ [row] } p.1

/-- The loop of the tick that promotes all after three failures. -/
def processAll : List (InitiateCandidate F × ℕ) → State F → State F × Option PyError
  | [], s => (s, none)
  | p :: rest, s =>
    match t.processOneCandidate p s with
    | (s, none) => processAll rest s
    | (s, some e) => (s, some e)

/-- `candidate.candidate_id in promote_ids` -/
def Promoted (promoted : List (Value F)) (c : InitiateCandidate F) : Prop :=
  promoted.any (fun id => t.builtins.eq id c.candidateId) = true

instance (promoted : List (Value F)) (c : InitiateCandidate F) :
    Decidable (t.Promoted promoted c) :=
  inferInstanceAs (Decidable (_ = _))

/-- The composition loop, over the candidates whose ids are promoted. What is raised about one is
logged. The pause is not asked after the last of all `n`. -/
def compositionLoop (n : ℕ) (promoted : List (Value F)) :
    List (InitiateCandidate F × ℕ) → State F → State F
  | [], s => s
  | p :: rest, s =>
    if t.Promoted promoted p.1 then
      let s := (t.processOneCandidate p s).1
      if p.2 + 1 < n ∧ t.shouldPause p.2 then s else compositionLoop n promoted rest s
    else compositionLoop n promoted rest s

/-- `demote_to_draft_space`, and the removal after it. -/
def demote (c : InitiateCandidate F) (reason : Value F) (s : State F) : State F × Option PyError :=
  t.remove { s with drafts := s.drafts ++ [⟨reason, c.source, c.sourceId, c.candidateId⟩] } c

/-- The loop of the tick that demotes all after a rate limit. -/
def demoteAll : List (InitiateCandidate F) → State F → State F × Option PyError
  | [], s => (s, none)
  | c :: rest, s =>
    match t.demote c (.str (name "rate_limit — D could not review this tick")) s with
    | (s, none) => demoteAll rest s
    | (s, some e) => (s, some e)

/-- The candidate that a decision is about. -/
def about (candidates : List (InitiateCandidate F)) (d : DDecision F) :
    Option (InitiateCandidate F) :=
  if 0 ≤ d.candidateIndex then candidates[d.candidateIndex.toNat]? else none

/-- The loop over the decisions, with the ids that are promoted so far. -/
def decisionLoop (candidates : List (InitiateCandidate F)) :
    List (DDecision F) → List (Value F) → State F → State F × Except PyError (List (Value F))
  | [], promoted, s => (s, .ok promoted)
  | d :: ds, promoted, s =>
    match about candidates d with
    | none => decisionLoop candidates ds promoted s
    | some c =>
      if d.isFilter then
        match t.demote c d.reason s with
        | (s, none) => decisionLoop candidates ds promoted s
        | (s, some e) => (s, .error e)
      else if hashable c.candidateId then decisionLoop candidates ds (promoted ++ [c.candidateId]) s
      else (s, .error .typeError)

/-- `set.add`, of each. -/
def addAll (promoted ids : List (Value F)) : Except PyError (List (Value F)) :=
  if ids.all hashable then .ok (promoted ++ ids) else .error .typeError

/-- The ids of the candidates that no decision is about. -/
def undecided (candidates : List (InitiateCandidate F)) (ds : List (DDecision F)) :
    List (Value F) :=
  (candidates.zipIdx.filter fun p => ds.all fun d => d.candidateIndex ≠ p.2).map (·.1.candidateId)

/-- A failure after which the candidates wait for another reflection. -/
def isOutage (failure : Option FailureType) : Bool :=
  failure = some .timeout || failure = some .providerError

/-- `read_recent_d_calls`, of the last hour, and the number of failures that it ends with. -/
def consecutiveFailures (calls : List DCallRow) : ℕ :=
  let recent := calls.filter fun r => t.deps.now - hour ≤ r.ts
  (recent.reverse.takeWhile fun r => isOutage r.failureType).length

/-- What is done with the candidates that are fetched once the reflection has returned. -/
def dispatch (candidates : List (InitiateCandidate F)) (result : DReflectionResult F)
    (failure : Option FailureType) (s : State F) : State F × Option PyError :=
  if result.decisions.isEmpty ∧ isOutage failure then
    if 3 ≤ t.consecutiveFailures s.calls then t.processAll candidates.zipIdx s else (s, none)
  else if result.decisions.isEmpty ∧ failure = some .rateLimit then t.demoteAll candidates s
  else
    match t.decisionLoop candidates result.decisions [] s with
    | (s, .error e) => (s, some e)
    | (s, .ok promoted) =>
      match addAll promoted (undecided candidates result.decisions) with
      | .error e => (s, some e)
      | .ok promoted =>
        if t.slot then (t.compositionLoop candidates.length promoted candidates.zipIdx s, none)
        else (s, none)

/-- `run_initiate_review_tick`, and what it raises. -/
def runInitiateReviewTick (s : State F) : State F × Option PyError :=
  match readCandidates s.queue with
  | .error e => (s, some e)
  | .ok queued =>
    let candidates := queued.take t.capPerTick
    if candidates.isEmpty then (s, none)
    else
      match run t.floats t.builtins t.deps candidates with
      | .error (.provider .throttleDeferred) => (s, none)
      | .error e => (s, some e)
      | .ok (result, dcall) =>
        t.dispatch candidates result dcall.failureType { s with calls := s.calls ++ [dcall] }

/-! ## What a tick does -/

/-- The ids are the same. -/
def Same (c c' : InitiateCandidate F) : Prop := t.builtins.eq c.candidateId c'.candidateId = true

instance (c c' : InitiateCandidate F) : Decidable (t.Same c c') :=
  inferInstanceAs (Decidable (_ = _))

/-- The composition of the candidate at a place. -/
def composition (p : InitiateCandidate F × ℕ) : Except PyError Decision :=
  compose t.floats t.builtins p.1 (t.replies p.2)

/-- What the row of a candidate says. A send may be held by the gate. -/
structure Verdict (p : InitiateCandidate F × ℕ) (row : ReviewRow F) : Prop where
  candidateId : row.candidateId = p.1.candidateId
  kind : row.kind = p.1.kind
  failed : ∀ e, t.composition p = .error e → row.decision = .error
  decided : ∀ d, t.composition p = .ok d →
    row.decision = d ∨ (p.1.kindOf = .message ∧ d.isSend ∧ row.decision = .hold)

/-- From one state to the next, some candidates were demoted and some composed. -/
structure Reviewed (s s' : State F) (demoted : List (InitiateCandidate F))
    (composed : List (InitiateCandidate F × ℕ)) : Prop where
  /-- The others are left in the queue. -/
  queue : ∀ cs, readCandidates s.queue = .ok cs → readCandidates s'.queue =
    .ok (cs.filter fun c => ∀ c' ∈ demoted ++ composed.map Prod.fst, ¬ t.Same c c')
  /-- Each that was composed has a row. -/
  audit : ∃ rows, s'.audit = s.audit ++ rows ∧ List.Forall₂ t.Verdict composed rows
  /-- Each that was demoted has a draft. -/
  drafts : s'.drafts.map Draft.candidateId =
    s.drafts.map Draft.candidateId ++ demoted.map InitiateCandidate.candidateId

/-- The candidates of the queue can be read. -/
def Ready (s : State F) : Prop := ∃ cs, readCandidates s.queue = .ok cs

section Reviewed

variable {t} {s s' s'' : State F}

theorem Reviewed.ready {demoted composed} (h : t.Reviewed s s' demoted composed) (hs : Ready s) :
    Ready s' := by
  obtain ⟨cs, hcs⟩ := hs
  exact ⟨_, h.queue cs hcs⟩

theorem Reviewed.refl (s : State F) : t.Reviewed s s [] [] where
  queue cs hcs := by
    rw [hcs, List.filter_eq_self.mpr]
    simp
  audit := ⟨[], (List.append_nil _).symm, .nil⟩
  drafts := (List.append_nil _).symm

theorem Reviewed.trans {demoted demoted' composed composed'}
    (h : t.Reviewed s s' demoted composed) (h' : t.Reviewed s' s'' demoted' composed') :
    t.Reviewed s s'' (demoted ++ demoted') (composed ++ composed') where
  queue cs hcs := by
    rw [h'.queue _ (h.queue cs hcs), List.filter_filter]
    congr 2
    funext c
    rw [← Bool.decide_and, decide_eq_decide]
    -- Who is left is in neither list, whichever way the four are put together.
    simp only [List.map_append, List.mem_append]
    grind
  audit := by
    obtain ⟨rows, hrows, hverdicts⟩ := h.audit
    obtain ⟨rows', hrows', hverdicts'⟩ := h'.audit
    refine ⟨rows ++ rows', ?_, List.rel_append hverdicts hverdicts'⟩
    rw [hrows', hrows, List.append_assoc]
  drafts := by
    have hdrafts := h.drafts
    rw [h'.drafts, hdrafts, List.map_append, List.append_assoc]

end Reviewed

/-! ## The loops -/

/-- A removal does not raise, where the queue can be read. -/
theorem remove_spec {s : State F} (hs : Ready s) (c : InitiateCandidate F) :
    ∃ queue, t.remove s c = ({ s with queue }, none) ∧
      ∀ cs, readCandidates s.queue = .ok cs →
        readCandidates queue = .ok (cs.filter fun c' => ¬ t.Same c' c) := by
  obtain ⟨cs, hcs⟩ := hs
  obtain ⟨queue, hremove, hqueue⟩ :=
    readCandidates_of_removeCandidate (b := t.builtins) hcs c.candidateId
  refine ⟨queue, by rw [remove, hremove], ?_⟩
  intro cs' hcs'
  have heq : cs = cs' := Except.ok.inj (hcs.symm.trans hcs')
  rw [hqueue, heq]
  congr 2
  funext c'
  cases h : t.builtins.eq c'.candidateId c.candidateId <;> simp [Same, h]

theorem verdict_rowOf (audit : List (ReviewRow F)) (p : InitiateCandidate F × ℕ) :
    t.Verdict p (t.rowOf audit p.1 (t.composition p)) := by
  cases h : t.composition p with
  | error e => exact ⟨rfl, rfl, fun _ _ => rfl, fun d hd => absurd (h.symm.trans hd) nofun⟩
  | ok decision =>
    have hdecided (d : Decision) (hd : t.composition p = .ok d) : decision = d :=
      Except.ok.inj (h.symm.trans hd)
    have hfailed (e : PyError) (he : t.composition p = .error e) : False :=
      absurd (h.symm.trans he) nofun
    simp only [rowOf]
    split
    · next urgency hkind hurgency =>
      split
      · exact ⟨rfl, rfl, fun e he => (hfailed e he).elim, fun d hd => .inl (hdecided d hd)⟩
      · -- Only a send has an urgency, and so it is a send that the gate holds.
        have hsend : decision.isSend := by cases decision <;> simp_all [urgencyOf, Decision.isSend]
        exact ⟨rfl, rfl, fun e he => (hfailed e he).elim,
          fun d hd => .inr ⟨hkind, hdecided d hd ▸ hsend, rfl⟩⟩
    · exact ⟨rfl, rfl, fun e he => (hfailed e he).elim, fun d hd => .inl (hdecided d hd)⟩

theorem processOneCandidate_spec {s : State F} (hs : Ready s) (p : InitiateCandidate F × ℕ) :
    ∃ s', t.processOneCandidate p s = (s', none) ∧ t.Reviewed s s' [] [p] := by
  have hready : Ready { s with audit := s.audit ++ [t.rowOf s.audit p.1 (t.composition p)] } := hs
  obtain ⟨queue, hremove, hqueue⟩ := t.remove_spec hready p.1
  refine ⟨_, hremove, ?_, ?_, ?_⟩
  · intro cs hcs
    rw [hqueue cs hcs]
    simp
  · exact ⟨_, rfl, .cons (t.verdict_rowOf s.audit p) .nil⟩
  · exact (List.append_nil _).symm

theorem demote_spec {s : State F} (hs : Ready s) (c : InitiateCandidate F) (reason : Value F) :
    ∃ s', t.demote c reason s = (s', none) ∧ t.Reviewed s s' [c] [] := by
  let draft : Draft F := ⟨reason, c.source, c.sourceId, c.candidateId⟩
  have hready : Ready { s with drafts := s.drafts ++ [draft] } := hs
  obtain ⟨queue, hremove, hqueue⟩ := t.remove_spec hready c
  refine ⟨_, hremove, ?_, ?_, ?_⟩
  · intro cs hcs
    rw [hqueue cs hcs]
    simp
  · exact ⟨[], (List.append_nil _).symm, .nil⟩
  · simp [draft]

theorem processAll_spec (ps : List (InitiateCandidate F × ℕ)) {s : State F} (hs : Ready s) :
    ∃ s', t.processAll ps s = (s', none) ∧ t.Reviewed s s' [] ps := by
  induction ps generalizing s with
  | nil => exact ⟨s, rfl, .refl s⟩
  | cons p rest ih =>
    obtain ⟨s₁, hone, hreviewed⟩ := t.processOneCandidate_spec hs p
    obtain ⟨s₂, hrest, hreviewed'⟩ := ih (hreviewed.ready hs)
    refine ⟨s₂, ?_, hreviewed.trans hreviewed'⟩
    rw [processAll, hone]
    exact hrest

theorem demoteAll_spec (cs : List (InitiateCandidate F)) {s : State F} (hs : Ready s) :
    ∃ s', t.demoteAll cs s = (s', none) ∧ t.Reviewed s s' cs [] := by
  induction cs generalizing s with
  | nil => exact ⟨s, rfl, .refl s⟩
  | cons c rest ih =>
    obtain ⟨s₁, hone, hreviewed⟩ :=
      t.demote_spec hs c (.str (name "rate_limit — D could not review this tick"))
    obtain ⟨s₂, hrest, hreviewed'⟩ := ih (hreviewed.ready hs)
    refine ⟨s₂, ?_, hreviewed.trans hreviewed'⟩
    rw [demoteAll, hone]
    exact hrest

/-- The candidates of a list, up to the first after which the tick pauses. -/
def untilPause (n : ℕ) : List (InitiateCandidate F × ℕ) → List (InitiateCandidate F × ℕ)
  | [] => []
  | p :: rest => p :: if p.2 + 1 < n ∧ t.shouldPause p.2 then [] else untilPause n rest

theorem compositionLoop_spec (n : ℕ) (promoted : List (Value F))
    (ps : List (InitiateCandidate F × ℕ)) {s : State F} (hs : Ready s) :
    t.Reviewed s (t.compositionLoop n promoted ps s) []
      (t.untilPause n (ps.filter fun p => t.Promoted promoted p.1)) := by
  induction ps generalizing s with
  | nil => exact .refl s
  | cons p rest ih =>
    by_cases hp : t.Promoted promoted p.1
    · obtain ⟨s₁, hone, hreviewed⟩ := t.processOneCandidate_spec hs p
      rw [compositionLoop, if_pos hp, List.filter_cons_of_pos (by simpa using hp), untilPause, hone]
      dsimp only
      by_cases hpause : p.2 + 1 < n ∧ t.shouldPause p.2
      · rw [if_pos hpause, if_pos hpause]
        exact hreviewed
      · rw [if_neg hpause, if_neg hpause]
        exact hreviewed.trans (ih (hreviewed.ready hs))
    · rw [compositionLoop, if_neg hp, List.filter_cons_of_neg (by simpa using hp)]
      exact ih hs

/-- The candidates that decisions filter, one for each decision. -/
def filtered (candidates : List (InitiateCandidate F)) (ds : List (DDecision F)) :
    List (InitiateCandidate F) :=
  (ds.filter DDecision.isFilter).filterMap (about candidates)

/-- The ids that decisions promote. -/
def promotedIds (candidates : List (InitiateCandidate F)) (ds : List (DDecision F)) :
    List (Value F) :=
  ((ds.filter fun d => !d.isFilter).filterMap (about candidates)).map InitiateCandidate.candidateId

theorem about_mem {candidates : List (InitiateCandidate F)} {d : DDecision F}
    {c : InitiateCandidate F} (h : about candidates d = some c) : c ∈ candidates := by
  unfold about at h
  split at h
  · exact List.mem_of_getElem? h
  · exact absurd h nofun

/-- The loop demotes what is filtered and adds the ids of the others, unless it stops at an id that
no set can hold. -/
theorem decisionLoop_spec (candidates : List (InitiateCandidate F)) (ds : List (DDecision F))
    (promoted : List (Value F)) {s : State F} (hs : Ready s) : ∃ s' demoted,
    t.Reviewed s s' demoted [] ∧ demoted.Sublist (filtered candidates ds) ∧
    ((t.decisionLoop candidates ds promoted s =
        (s', .ok (promoted ++ promotedIds candidates ds)) ∧ demoted = filtered candidates ds) ∨
      (t.decisionLoop candidates ds promoted s = (s', .error .typeError) ∧
        ∃ c ∈ candidates, hashable c.candidateId = false)) := by
  induction ds generalizing promoted s with
  | nil => exact ⟨s, [], .refl s, .slnil, .inl ⟨by simp [decisionLoop, promotedIds], rfl⟩⟩
  | cons d ds ih =>
    cases habout : about candidates d with
    | none =>
      -- A decision about no candidate is passed over.
      have hfiltered : filtered candidates (d :: ds) = filtered candidates ds := by
        cases h : d.isFilter <;> simp [filtered, h, habout]
      have hpromoted : promotedIds candidates (d :: ds) = promotedIds candidates ds := by
        cases h : d.isFilter <;> simp [promotedIds, h, habout]
      rw [decisionLoop, habout, hfiltered, hpromoted]
      exact ih promoted hs
    | some c =>
      cases hfilter : d.isFilter with
      | true =>
        have hfiltered : filtered candidates (d :: ds) = c :: filtered candidates ds := by
          simp [filtered, hfilter, habout]
        have hpromoted : promotedIds candidates (d :: ds) = promotedIds candidates ds := by
          simp [promotedIds, hfilter]
        obtain ⟨s₁, hone, hreviewed⟩ := t.demote_spec hs c d.reason
        obtain ⟨s₂, demoted, hreviewed', hsub, hend⟩ := ih promoted (hreviewed.ready hs)
        refine ⟨s₂, c :: demoted, hreviewed.trans hreviewed', ?_, ?_⟩
        · rw [hfiltered]
          exact hsub.cons_cons c
        · simp only [decisionLoop, habout, hfilter, hone, if_true, hfiltered, hpromoted]
          rcases hend with ⟨hloop, hdemoted⟩ | hstop
          · exact .inl ⟨hloop, hdemoted ▸ rfl⟩
          · exact .inr hstop
      | false =>
        have hfiltered : filtered candidates (d :: ds) = filtered candidates ds := by
          simp [filtered, hfilter]
        have hpromoted : promotedIds candidates (d :: ds) =
            c.candidateId :: promotedIds candidates ds := by
          simp [promotedIds, hfilter, habout]
        cases hhash : hashable c.candidateId with
        | true =>
          obtain ⟨s₂, demoted, hreviewed, hsub, hend⟩ := ih (promoted ++ [c.candidateId]) hs
          refine ⟨s₂, demoted, hreviewed, hfiltered ▸ hsub, ?_⟩
          simp only [decisionLoop, habout, hfilter, hhash, if_true, Bool.false_eq_true, if_false,
            hfiltered, hpromoted]
          rw [List.append_assoc] at hend
          exact hend
        | false =>
          refine ⟨s, [], .refl s, List.nil_sublist _, .inr ⟨?_, c, about_mem habout, hhash⟩⟩
          simp [decisionLoop, habout, hfilter, hhash]

/-! ## The tick as a whole -/

/-- The candidates of a tick, and what is done with them: whom it demotes, and whom it composes. -/
structure Plan (F : Type) where
  demoted : List (InitiateCandidate F)
  composed : List (InitiateCandidate F × ℕ)

/-- The plan once the reflection has returned. No decisions promote all candidates, whether the
reply had none or could not be read. -/
def planOf (candidates : List (InitiateCandidate F)) (ds : List (DDecision F))
    (failure : Option FailureType) (calls : List DCallRow) : Plan F :=
  if ds.isEmpty ∧ isOutage failure then
    ⟨[], if 3 ≤ t.consecutiveFailures calls then candidates.zipIdx else []⟩
  else if ds.isEmpty ∧ failure = some .rateLimit then ⟨candidates, []⟩
  else
    let promoted := promotedIds candidates ds ++ undecided candidates ds
    ⟨filtered candidates ds,
      if t.slot then
        t.untilPause candidates.length (candidates.zipIdx.filter fun p => t.Promoted promoted p.1)
      else []⟩

theorem exists_unhashable {candidates : List (InitiateCandidate F)} {ds : List (DDecision F)}
    (h : (undecided candidates ds).all hashable = false) :
    ∃ c ∈ candidates, hashable c.candidateId = false := by
  obtain ⟨id, hid, hhash⟩ := List.all_eq_false.mp h
  obtain ⟨p, hp, rfl⟩ := List.mem_map.mp hid
  have hmem : p ∈ candidates.zipIdx := List.mem_of_mem_filter hp
  exact ⟨p.1, List.fst_mem_of_mem_zipIdx hmem, by simpa using hhash⟩

/-- The plan is carried out, or a part of it, up to an id that no set can hold. -/
theorem dispatch_spec (candidates : List (InitiateCandidate F)) (result : DReflectionResult F)
    (failure : Option FailureType) {s : State F} (hs : Ready s) :
    let plan := t.planOf candidates result.decisions failure s.calls
    ∃ s' demoted composed, t.Reviewed s s' demoted composed ∧ demoted.Sublist plan.demoted ∧
      composed.Sublist plan.composed ∧
      ((t.dispatch candidates result failure s = (s', none) ∧ demoted = plan.demoted ∧
          composed = plan.composed) ∨
        (t.dispatch candidates result failure s = (s', some .typeError) ∧
          ∃ c ∈ candidates, hashable c.candidateId = false)) := by
  intro plan
  -- Without decisions an outage is told from a limit of the rate, which counts no failure.
  by_cases houtage : result.decisions.isEmpty ∧ isOutage failure
  · have hplan : plan = ⟨[], if 3 ≤ t.consecutiveFailures s.calls then candidates.zipIdx else []⟩ :=
      if_pos houtage
    rw [hplan, dispatch, if_pos houtage]
    by_cases hthree : 3 ≤ t.consecutiveFailures s.calls
    · obtain ⟨s', hall, hreviewed⟩ := t.processAll_spec candidates.zipIdx hs
      rw [if_pos hthree, if_pos hthree]
      exact ⟨s', _, _, hreviewed, .slnil, .refl _, .inl ⟨hall, rfl, rfl⟩⟩
    · rw [if_neg hthree, if_neg hthree]
      exact ⟨s, _, _, .refl s, .slnil, .slnil, .inl ⟨rfl, rfl, rfl⟩⟩
  by_cases hlimit : result.decisions.isEmpty ∧ failure = some .rateLimit
  · have hplan : plan = ⟨candidates, []⟩ := (if_neg houtage).trans (if_pos hlimit)
    obtain ⟨s', hall, hreviewed⟩ := t.demoteAll_spec candidates hs
    rw [hplan, dispatch, if_neg houtage, if_pos hlimit]
    exact ⟨s', _, _, hreviewed, .refl _, .slnil, .inl ⟨hall, rfl, rfl⟩⟩
  have hplan : plan = _ := (if_neg houtage).trans (if_neg hlimit)
  rw [hplan, dispatch, if_neg houtage, if_neg hlimit]
  -- With decisions, the demoted ones go first, and what is left over is promoted.
  obtain ⟨s₁, demoted, hreviewed, hsub, hend⟩ :=
    t.decisionLoop_spec candidates result.decisions [] hs
  rcases hend with ⟨hloop, hdemoted⟩ | ⟨hloop, hbad⟩
  · rw [List.nil_append] at hloop
    simp only [hloop, addAll]
    cases hids : (undecided candidates result.decisions).all hashable with
    | false =>
      exact ⟨s₁, demoted, [], hreviewed, hsub, List.nil_sublist _,
        .inr ⟨rfl, exists_unhashable hids⟩⟩
    | true =>
      cases hslot : t.slot with
      | false =>
        exact ⟨s₁, demoted, [], hreviewed, hsub, .slnil, .inl ⟨rfl, hdemoted, rfl⟩⟩
      | true =>
        have hcomposed := t.compositionLoop_spec candidates.length
          (promotedIds candidates result.decisions ++ undecided candidates result.decisions)
          candidates.zipIdx (hreviewed.ready hs)
        have hboth := hreviewed.trans hcomposed
        rw [List.append_nil, List.nil_append] at hboth
        exact ⟨_, demoted, _, hboth, hsub, .refl _, .inl ⟨rfl, hdemoted, rfl⟩⟩
  · simp only [hloop]
    exact ⟨s₁, demoted, [], hreviewed, hsub, List.nil_sublist _, .inr ⟨rfl, hbad⟩⟩

theorem planOf_nil (ds : List (DDecision F)) (failure : Option FailureType)
    (calls : List DCallRow) : t.planOf [] ds failure calls = ⟨[], []⟩ := by
  have hfiltered : filtered ([] : List (InitiateCandidate F)) ds = [] := by
    simp [filtered, about]
  simp only [planOf, hfiltered, List.zipIdx_nil, List.filter_nil, untilPause, ite_self]

/-- The candidates that a tick fetches. -/
def fetched (s : State F) : List (InitiateCandidate F) :=
  ((readCandidates s.queue).toOption.getD []).take t.capPerTick

/-- What the reflection of a tick returns or raises. -/
def reflection (s : State F) : Except PyError (DReflectionResult F × DCallRow) :=
  run t.floats t.builtins t.deps (t.fetched s)

/-- The decisions of the reflection: none where it raises. -/
def decisions (s : State F) : List (DDecision F) :=
  (t.reflection s).toOption.elim [] fun r => r.1.decisions

/-- The failure of the reflection. -/
def failure (s : State F) : Option FailureType :=
  (t.reflection s).toOption.bind fun r => r.2.failureType

/-- The plan of a tick: nothing, where the reflection raises. -/
def plan (s : State F) : Plan F :=
  match t.reflection s with
  | .ok (result, dcall) =>
    t.planOf (t.fetched s) result.decisions dcall.failureType (s.calls ++ [dcall])
  | .error _ => ⟨[], []⟩

/-- The plan of a tick is carried out, or a part of it. It is carried out where the tick returns. -/
theorem tick_spec {s : State F} (hs : Ready s) : ∃ demoted composed,
    t.Reviewed s (t.runInitiateReviewTick s).1 demoted composed ∧
    demoted.Sublist (t.plan s).demoted ∧ composed.Sublist (t.plan s).composed ∧
    ((t.runInitiateReviewTick s).2 = none →
      demoted = (t.plan s).demoted ∧ composed = (t.plan s).composed) ∧
    ∀ e, (t.runInitiateReviewTick s).2 = some e → t.reflection s = .error e ∨
      ∃ c ∈ t.fetched s, hashable c.candidateId = false := by
  obtain ⟨cs, hcs⟩ := hs
  have hfetched : t.fetched s = cs.take t.capPerTick := by rw [fetched, hcs]; rfl
  have hreflection : t.reflection s = run t.floats t.builtins t.deps (cs.take t.capPerTick) := by
    rw [reflection, hfetched]
  rw [runInitiateReviewTick, hcs]
  dsimp only
  by_cases hempty : (cs.take t.capPerTick).isEmpty
  · have hnil : t.fetched s = [] := hfetched.trans (List.isEmpty_iff.mp hempty)
    have hplan : t.plan s = ⟨[], []⟩ := by
      unfold plan
      rw [hnil]
      cases t.reflection s with
      | error e => rfl
      | ok r => exact t.planOf_nil _ _ _
    rw [if_pos hempty, hplan]
    exact ⟨[], [], .refl s, .slnil, .slnil, fun _ => ⟨rfl, rfl⟩, nofun⟩
  rw [if_neg hempty, ← hreflection]
  cases hrun : t.reflection s with
  | error e =>
    have hplan : t.plan s = ⟨[], []⟩ := by rw [plan, hrun]
    rw [hplan]
    -- A refusal is quiet, and every other error is raised. Nothing is done either way.
    split
    · exact ⟨[], [], .refl s, .slnil, .slnil, fun _ => ⟨rfl, rfl⟩, nofun⟩
    · next e' _ he' =>
      refine ⟨[], [], .refl s, .slnil, .slnil, fun _ => ⟨rfl, rfl⟩, ?_⟩
      intro e'' he''
      exact .inl (he'.trans (congrArg Except.error (Option.some.inj he'')))
    · next h => exact absurd h nofun
  | ok r =>
    obtain ⟨result, dcall⟩ := r
    have hplan : t.plan s = t.planOf (t.fetched s) result.decisions dcall.failureType
        (s.calls ++ [dcall]) := by rw [plan, hrun]
    have hready : Ready { s with calls := s.calls ++ [dcall] } := ⟨cs, hcs⟩
    obtain ⟨s', demoted, composed, hreviewed, hdemoted, hcomposed, hend⟩ :=
      t.dispatch_spec (t.fetched s) result dcall.failureType hready
    have hfrom : t.Reviewed s s' demoted composed :=
      ⟨hreviewed.queue, hreviewed.audit, hreviewed.drafts⟩
    rw [hplan, ← hfetched]
    rcases hend with ⟨hdone, hfull⟩ | ⟨hdone, hbad⟩
    · simp only [hdone]
      exact ⟨demoted, composed, hfrom, hdemoted, hcomposed, fun _ => hfull, nofun⟩
    · simp only [hdone]
      exact ⟨demoted, composed, hfrom, hdemoted, hcomposed, nofun, fun _ _ => .inr hbad⟩

/-! ## Why a candidate leaves the queue -/

/-- Of the tick from `s` to `s'`: what was decided about a candidate, by its id. -/
inductive Decided (s s' : State F) (c : InitiateCandidate F) : Prop
  /-- The reflection filtered it. -/
  | filter (d : DDecision F) (c' : InitiateCandidate F) (hd : d ∈ t.decisions s)
      (hfilter : d.isFilter) (habout : about (t.fetched s) d = some c') (hsame : t.Same c c')
  /-- It was composed to a send, a hold or a drop, which its row tells. -/
  | answer (p : InitiateCandidate F × ℕ) (d : Decision) (row : ReviewRow F)
      (hp : p ∈ (t.fetched s).zipIdx) (hsame : t.Same c p.1) (hd : t.composition p = .ok d)
      (hanswer : d ∈ answers p.1.kindOf) (hrow : row ∈ s'.audit.drop s.audit.length)
      (hverdict : t.Verdict p row)
  /-- Its composition raised what is no refusal, which its row tells. -/
  | error (p : InitiateCandidate F × ℕ) (e : PyError) (row : ReviewRow F)
      (hp : p ∈ (t.fetched s).zipIdx) (hsame : t.Same c p.1) (he : t.composition p = .error e)
      (hrefused : e ≠ .provider .throttleDeferred) (hrow : row ∈ s'.audit.drop s.audit.length)
      (hverdict : t.Verdict p row)

/-- The reflection ended at a rate limit, and the candidate was before it. -/
def RateLimited (s : State F) (c : InitiateCandidate F) : Prop :=
  t.failure s = some .rateLimit ∧ ∃ c' ∈ t.fetched s, t.Same c c'

/-- No call about the candidate is refused in its composition. -/
def Unrefused (s : State F) (c : InitiateCandidate F) : Prop :=
  ∀ p ∈ (t.fetched s).zipIdx, t.Same c p.1 →
    t.composition p ≠ .error (.provider .throttleDeferred)

/-- The records that are read make candidates, those of the fetched ones can be written, and the
replies to the reflection are structured or no structured replies at all. -/
structure Sound (s : State F) : Prop where
  ready : Ready s
  rendered : ∀ c ∈ t.fetched s, renderCandidateSummary t.builtins c = .ok ()
  hashed : ∀ c ∈ t.fetched s, hashable c.candidateId = true
  haiku : ∀ raw, t.deps.haiku = .ok raw → Structured t.floats t.builtins raw
  sonnet : ∀ raw, t.deps.sonnet = .ok raw → Structured t.floats t.builtins raw

/-- What a tick from `s` comes to, with what it raises. -/
structure Accounted (s : State F) (out : State F × Option PyError) : Prop where
  /-- A candidate leaves the queue after a decision, or a rate limit of the reflection. -/
  left : ∀ cs, readCandidates s.queue = .ok cs → ∃ cs', readCandidates out.1.queue = .ok cs' ∧
    cs'.Sublist cs ∧ ∀ c ∈ cs, c ∉ cs' → t.Unrefused s c →
      t.Decided s out.1 c ∨ t.RateLimited s c
  /-- A queue that cannot be read is left as it is. -/
  unread : ¬ Ready s → out.1 = s
  /-- A refused reflection leaves everything as it is. -/
  refused : Ready s → t.reflection s = .error (.provider .throttleDeferred) → out = (s, none)
  /-- The tick returns, and each candidate is treated by the decisions about it and its own
  replies. -/
  treated : t.Sound s → out.2 = none ∧ t.Reviewed s out.1 (t.plan s).demoted (t.plan s).composed

section Accounted

variable {t} {s : State F}

theorem mem_demoted {c : InitiateCandidate F} (h : c ∈ (t.plan s).demoted) :
    (∃ d ∈ t.decisions s, d.isFilter ∧ about (t.fetched s) d = some c) ∨
      (t.failure s = some .rateLimit ∧ c ∈ t.fetched s) := by
  unfold plan at h
  cases hrun : t.reflection s with
  | error e =>
    rw [hrun] at h
    exact absurd h List.not_mem_nil
  | ok r =>
    obtain ⟨result, dcall⟩ := r
    have hdecisions : t.decisions s = result.decisions := by rw [decisions, hrun]; rfl
    have hfailure : t.failure s = dcall.failureType := by rw [failure, hrun]; rfl
    rw [hrun] at h
    dsimp only [planOf] at h
    split at h
    · exact absurd h List.not_mem_nil
    split at h
    · next hlimit => exact .inr ⟨hfailure.trans hlimit.2, h⟩
    · obtain ⟨d, hd, habout⟩ := List.mem_filterMap.mp h
      have hfilter := List.mem_filter.mp hd
      exact .inl ⟨d, hdecisions ▸ hfilter.1, hfilter.2, habout⟩

theorem untilPause_sublist (n : ℕ) (ps : List (InitiateCandidate F × ℕ)) :
    (t.untilPause n ps).Sublist ps := by
  induction ps with
  | nil => exact .slnil
  | cons p rest ih =>
    rw [untilPause]
    split_ifs
    · exact (List.nil_sublist rest).cons_cons p
    · exact ih.cons_cons p

theorem composed_sublist : (t.plan s).composed.Sublist (t.fetched s).zipIdx := by
  unfold plan
  split
  · dsimp only [planOf]
    split_ifs
    · exact .refl _
    · exact List.nil_sublist _
    · exact List.nil_sublist _
    · exact (untilPause_sublist _ _).trans List.filter_sublist
    · exact List.nil_sublist _
  · exact List.nil_sublist _

/-- Who is composed has a row among the new ones. -/
theorem Reviewed.row {s' : State F} {demoted composed} (h : t.Reviewed s s' demoted composed)
    {p : InitiateCandidate F × ℕ} (hp : p ∈ composed) :
    ∃ row ∈ s'.audit.drop s.audit.length, t.Verdict p row := by
  obtain ⟨rows, hrows, hverdicts⟩ := h.audit
  have hnew : s'.audit.drop s.audit.length = rows := by rw [hrows, List.drop_left]
  rw [hnew]
  obtain ⟨i, hi, hget⟩ := List.mem_iff_getElem.mp hp
  have hlen := hverdicts.length_eq
  refine ⟨rows[i], List.getElem_mem (hlen ▸ hi), ?_⟩
  have hverdict := hverdicts.get hi (hlen ▸ hi)
  simpa [hget] using hverdict

/-- Who is composed without a refusal is decided about. -/
theorem Reviewed.decided {s' : State F} {demoted composed} (h : t.Reviewed s s' demoted composed)
    (hsub : composed.Sublist (t.fetched s).zipIdx) {p : InitiateCandidate F × ℕ} (hp : p ∈ composed)
    {c : InitiateCandidate F} (hsame : t.Same c p.1) (hc : t.Unrefused s c) : t.Decided s s' c := by
  obtain ⟨row, hrow, hverdict⟩ := h.row hp
  have hfetched := hsub.subset hp
  cases hcomposition : t.composition p with
  | ok d =>
    have hanswer := compose_mem t.floats t.builtins hcomposition
    exact .answer p d row hfetched hsame hcomposition hanswer hrow hverdict
  | error e =>
    have hrefused : e ≠ .provider .throttleDeferred := fun he =>
      hc p hfetched hsame (he ▸ hcomposition)
    exact .error p e row hfetched hsame hcomposition hrefused hrow hverdict

theorem tick_refused (hs : Ready s) (hrun : t.reflection s = .error (.provider .throttleDeferred)) :
    t.runInitiateReviewTick s = (s, none) := by
  obtain ⟨cs, hcs⟩ := hs
  have hfetched : t.fetched s = cs.take t.capPerTick := by rw [fetched, hcs]; rfl
  rw [reflection, hfetched] at hrun
  rw [runInitiateReviewTick, hcs]
  dsimp only
  rw [hrun]
  exact ite_self _

end Accounted

/-- A candidate whose composition is not refused leaves the queue only after a decision about it, an
error of its composition, or a rate limit of the reflection. A refused reflection leaves everything
as it is. Where the records and the replies are sound the tick returns, and has treated every
candidate by the decisions about it and by its own replies. -/
theorem queue_accounted (s : State F) : t.Accounted s (t.runInitiateReviewTick s) where
  left cs hcs := by
    obtain ⟨demoted, composed, hreviewed, hdemoted, hcomposed, -, -⟩ := t.tick_spec ⟨cs, hcs⟩
    have hfetched := hcomposed.trans composed_sublist
    refine ⟨_, hreviewed.queue cs hcs, List.filter_sublist, ?_⟩
    intro c hc hgone hunrefused
    have hsame : ∃ c' ∈ demoted ++ composed.map Prod.fst, t.Same c c' := by
      simpa [hc] using hgone
    obtain ⟨c', hc', hsame⟩ := hsame
    rcases List.mem_append.mp hc' with hc' | hc'
    · rcases mem_demoted (hdemoted.subset hc') with ⟨d, hd, hfilter, habout⟩ | ⟨hlimit, hmem⟩
      · exact .inl (.filter d c' hd hfilter habout hsame)
      · exact .inr ⟨hlimit, c', hmem, hsame⟩
    · obtain ⟨p, hp, rfl⟩ := List.mem_map.mp hc'
      exact .inl (hreviewed.decided hfetched hp hsame hunrefused)
  unread hs := by
    cases hcs : readCandidates s.queue with
    | error e => rw [runInitiateReviewTick, hcs]
    | ok cs => exact absurd ⟨cs, hcs⟩ hs
  refused hs hrun := tick_refused hs hrun
  treated hsound := by
    obtain ⟨demoted, composed, hreviewed, -, -, hnone, hsome⟩ := t.tick_spec hsound.ready
    cases hraised : (t.runInitiateReviewTick s).2 with
    | none =>
      obtain ⟨rfl, rfl⟩ := hnone hraised
      exact ⟨rfl, hreviewed⟩
    | some e =>
      -- It would be a refusal, which is not raised, or an id that no set can hold.
      rcases hsome e hraised with hrun | ⟨c, hc, hhash⟩
      · have he := run_error hsound.rendered hsound.haiku hsound.sonnet hrun
        have hquiet := tick_refused hsound.ready (he ▸ hrun)
        rw [hquiet] at hraised
        exact absurd hraised nofun
      · exact absurd (hsound.hashed c hc) (by simp [hhash])

end Tick

/-! ## A rate limit -/

/-- Values of which only strings are compared. -/
def sampleBuiltins : Builtins Unit where
  eq v w := match v, w with
    | .str s, .str t => decide (s = t)
    | _, _ => false
  eq_str _ _ := rfl
  truth _ := false
  truncate _ := .error .valueError
  parseInt _ := none
  hasOffset _ := some true

def sampleCandidate : InitiateCandidate Unit where
  candidateId := .str (name "ic_1")
  ts := .str (name "2026-05-12T09:00:00+00:00")
  kind := .str (name "message")
  source := .str (name "dream")
  sourceId := .str (name "d_1")
  semanticContext := ⟨.arr [], .arr [], .null⟩
  emotionalSnapshot := none
  claimedAt := .null
  proposal := .null

def sampleState : State Unit := ⟨[sampleCandidate.toDict], [], [], []⟩

/-- A tick whose reflection meets a rate limit. -/
def sampleTick : Tick Unit where
  floats := noFloats
  builtins := sampleBuiltins
  deps := {
    now := 0
    haiku := .error (.other "too many requests".toList)
    sonnet := .error (.other "too many requests".toList)
    isRateLimitText := fun message => message = "too many requests".toList }
  capPerTick := 3
  gate _ _ := none
  replies _ := ⟨.ok [], .ok [], .ok []⟩
  slot := true
  shouldPause _ := false

theorem read_sampleState : readCandidates sampleState.queue = .ok [sampleCandidate] :=
  readCandidates_map_toDict [sampleCandidate]

theorem fetched_sampleState : sampleTick.fetched sampleState = [sampleCandidate] := by
  rw [Tick.fetched, read_sampleState]
  rfl

example : sampleTick.Sound sampleState where
  ready := ⟨_, read_sampleState⟩
  rendered := by
    rw [fetched_sampleState]
    exact List.forall_mem_singleton.mpr rfl
  hashed := by
    rw [fetched_sampleState]
    exact List.forall_mem_singleton.mpr rfl
  haiku := nofun
  sonnet := nofun

/-- A candidate leaves the queue at a rate limit, with no decision about it. -/
theorem rate_limit_undecided :
    readCandidates sampleState.queue = .ok [sampleCandidate] ∧
    readCandidates (sampleTick.runInitiateReviewTick sampleState).1.queue = .ok [] ∧
    ¬ sampleTick.Decided sampleState (sampleTick.runInitiateReviewTick sampleState).1
      sampleCandidate := by
  have hread := read_sampleState
  have hrun : sampleTick.reflection sampleState = .ok (⟨[], none⟩,
      sampleTick.deps.emptyCallRow 1 .rateLimit .haiku 0) := by
    rw [Tick.reflection, fetched_sampleState]
    rfl
  have hdecisions : sampleTick.decisions sampleState = [] := by rw [Tick.decisions, hrun]; rfl
  -- Nothing was composed, and what was fetched is in the draft space.
  have hqueue : (sampleTick.runInitiateReviewTick sampleState).1.queue = [] := by
    rw [Tick.runInitiateReviewTick, hread]
    rfl
  have haudit : (sampleTick.runInitiateReviewTick sampleState).1.audit = [] := by
    rw [Tick.runInitiateReviewTick, hread]
    rfl
  refine ⟨hread, hqueue ▸ rfl, ?_⟩
  intro hdecided
  cases hdecided with
  | filter d c' hd => exact absurd (hdecisions ▸ hd) List.not_mem_nil
  | answer p d row _ _ _ _ hrow => exact absurd (haudit ▸ hrow) List.not_mem_nil
  | error p e row _ _ _ _ hrow => exact absurd (haudit ▸ hrow) List.not_mem_nil

end Companion.Initiate.Review

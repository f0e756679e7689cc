import Companion.Kindled.Gate

/-!
# The session engine

`SessionEngine.process_outbound` of `brain/kindled_link/session_engine.py`: the admission of an
outbound message, its review, one revision with a second review, and the send.

`processOutbound_cases` says, for any `send_fn`, where in a run it is called and what that call has
passed. The calls of a run are written out where the run comes to a send (`Admitted`, `Reflected`),
and all other calls are the engine's own (`Inner`). `processOutbound_cleared` draws from it that
nothing leaves ungated.
-/

namespace Companion.Kindled

open Companion.Memory Companion.Effects

/-- The arguments of `process_outbound` beside the payload and the `send_fn`. -/
structure Sending where
  peer : Text
  session : Text
  summary : Text
  reason : Text
  now : Instant
  today : Text

/-- `KINDLED_LINK_MIN_OUTBOUND_GAP_SECONDS` -/
def minOutboundGap : Instant := 60 * 1000000

/-- `KINDLED_LINK_SESSION_MSG_CAP` -/
def sessionMsgCap : ℕ := 24

/-- `KINDLED_LINK_DAILY_OUTBOUND_CAP` -/
def dailyOutboundCap : ℕ := 20

/-- `KINDLED_LINK_DAILY_PROVIDER_CAP` -/
def dailyProviderCap : ℕ := 60

/-- `KINDLED_LINK_SESSION_COOLDOWN_HOURS` -/
def sessionCooldown : Instant := 6 * 3600 * 1000000

/-- The gap of `can_send_now` is met. -/
def SessionRow.spaced (row : SessionRow) (now : Instant) : Bool :=
  row.lastOutboundAt.all fun last => minOutboundGap ≤ now - last

def Counters.underCaps (c : Counters) : Bool :=
  c.outbound < dailyOutboundCap ∧ c.provider < dailyProviderCap

/-- `bool(j)` -/
def Json.truthy : Json Text → Bool
  | .null => false
  | .bool b => b
  | .int n => n ≠ 0
  | .float x => x ≠ .finite 0
  | .str s => s ≠ []
  | .arr items => !items.isEmpty
  | .obj items => !items.isEmpty

/-- `constraints or "reveal less about the user"` as a text, or an exception. -/
def constraintsText : Option (Json Text) → Link Text
  | none => pure "reveal less about the user".toList
  | some j =>
    if j.truthy then
      match j with
      | .str s => pure s
      | _ => Prog.raise
    else pure "reveal less about the user".toList

namespace Sending

variable (x : Sending)

/-- `can_send_now` -/
def canSendNow : Link Bool := do
  let row : Option SessionRow ← ask (.session x.peer x.session)
  pure (row.any (·.spaced x.now))

/-- `under_session_cap` -/
def underSessionCap : Link Bool := do
  let row : Option SessionRow ← ask (.session x.peer x.session)
  pure (row.any (·.msgCount < sessionMsgCap))

/-- `under_daily_caps` -/
def underDailyCaps : Link Bool := do
  let c : Counters ← ask (.counters x.peer x.today)
  pure c.underCaps

/-- `_send_allowed` -/
def sendAllowed : Link Bool := do
  let row : Option SessionRow ← ask (.session x.peer x.session)
  if row.any (·.isOpen) then do
    if ← x.canSendNow then do
      if ← x.underSessionCap then x.underDailyCaps else pure false
    else pure false
  else pure false

/-- `_regenerate` -/
def regenerate (p : Payload) (constraints : Option (Json Text)) : Link (Option Payload) := do
  let c ← constraintsText constraints
  Prog.tryExcept
    (withSlot fun granted =>
      if granted then do
        let reserved : Bool ← ask (.reserveProvider x.peer x.today)
        if reserved then do
          let body : Text ← ask (.complete (.revision c p.body))
          pure (some ⟨body, p.hint⟩)
        else pure none
      else pure none)
    (pure none)

/-- `_act_on_decision`, where a decision to revise leads to `onRevise`. -/
def settle (sendFn : Payload → Link Unit) (p : Payload) (decision : Decision)
    (onRevise : Link Action) : Link Action :=
  match decision.action with
  | .send => do
    let reserved : Bool ← ask (.reserveOutbound x.peer x.today)
    if reserved then do
      sendFn p
      ask (.bump x.peer x.session)
      ask (.debit x.peer (max budgetDepletedThreshold decision.textureScore))
      pure .send
    else pure .hold
  | .endOrPause => do
    ask (.endSession x.peer x.session (x.now + sessionCooldown))
    pure .endOrPause
  | .revise => onRevise
  | .hold => pure .hold

variable (S : Setting)

/-- The gate on a payload, with the stage of the relationship. -/
def gated (p : Payload) (stage : Text) : Link Decision :=
  S.review p x.peer stage x.summary x.reason x.today

/-- The revision of `_act_on_decision`: one regeneration, and a second review that is final. -/
def revised (sendFn : Payload → Link Unit) (p : Payload) (decision : Decision) : Link Action := do
  match ← x.regenerate p decision.revisionConstraints with
  | none => pure .hold
  | some p' => do
    let second ← Prog.tryExcept
      (do
        let stage : Text ← ask (.stage x.peer)
        x.gated S p' stage)
      (pure .held)
    if second.action = .revise then pure .hold
    else x.settle sendFn p' second (pure .hold)

/-- `process_outbound` -/
def processOutbound (sendFn : Payload → Link Unit) (p : Payload) : Link Action :=
  if x.today = S.dayOf x.now then do
    if ← x.sendAllowed then do
      let stage : Text ← ask (.stage x.peer)
      let decision ← Prog.tryExcept (x.gated S p stage) (pure .held)
      x.settle sendFn p decision (x.revised S sendFn p decision)
    else pure .hold
  else Prog.raise

end Sending

/-! ## What an admission and a review leave in the trace -/

/-- The calls of `_send_allowed` for a session that is open, at a time that meets the gap, under the
caps of the session and of the day. -/
inductive Admitted (x : Sending) : Trace Call.Reply → Prop
  | intro {opened spaced counted : SessionRow} {c : Counters} (hopen : opened.isOpen = true)
      (hgap : spaced.spaced x.now = true) (hcap : counted.msgCount < sessionMsgCap)
      (hcaps : c.outbound < dailyOutboundCap ∧ c.provider < dailyProviderCap) :
      Admitted x
        [⟨.session x.peer x.session, some (some opened)⟩,
          ⟨.session x.peer x.session, some (some spaced)⟩,
          ⟨.session x.peer x.session, some (some counted)⟩, ⟨.counters x.peer x.today, some c⟩]

/-- The calls of a review that lets the payload pass: the pre-filter finds nothing, the budget is at
least the threshold, and the model's reflection on this payload decides to send. -/
inductive Reflected (S : Setting) (x : Sending) (p : Payload) : Trace Call.Reply → Prop
  | intro {stage hint raw : Text} {b : ℚ} (hfilter : S.prefilter (payloadText p) = none)
      (hhint : hintText p.hint = pure hint) (hbudget : budgetTightenThreshold ≤ b)
      (hverdict : (S.parseVerdict raw).action = .send) :
      Reflected S x p
        [⟨.reserveProvider x.peer x.today, some true⟩, ⟨.budget x.peer, some b⟩,
          ⟨.enterSlot, some true⟩,
          ⟨.complete (.gate p.body hint x.summary x.reason stage true), some raw⟩,
          ⟨.exitSlot, some ()⟩]

/-- A guard that yields what is not the outcome lets the run pass. -/
theorem runs_guard {α : Type} {c : Prop} [Decidable c] {p : Link α} {a b : α} {u : Trace Call.Reply}
    (hab : a ≠ b) : Runs (if c then p else pure a) u (some b) ↔ c ∧ Runs p u (some b) := by
  by_cases hc : c
  · simp [hc]
  · simp [hc, hab.symm]

/-- A test of the row of a session that says yes. -/
theorem runs_any_session {peer session : Text} {f : SessionRow → Bool} {u : Trace Call.Reply}
    (h : Runs (do
      let row : Option SessionRow ← ask (.session peer session)
      pure (row.any f)) u (some true)) :
    ∃ row, f row = true ∧ u = [⟨.session peer session, some (some row)⟩] := by
  rw [runs_ask_bind_some] at h
  obtain ⟨row, _, rfl, rfl, h⟩ := h
  obtain ⟨row, rfl, hrow⟩ := (Option.any_eq_true _ _).mp (Option.some.inj h).symm
  exact ⟨row, hrow, rfl⟩

theorem sendAllowed_admitted {x : Sending} {u : Trace Call.Reply}
    (h : Runs x.sendAllowed u (some true)) : Admitted x u := by
  rw [Sending.sendAllowed, runs_ask_bind_some] at h
  obtain ⟨opened, u, rfl, h⟩ := h
  rw [runs_guard Bool.false_ne_true, runs_bind_some] at h
  obtain ⟨hopen, spaced, v₁, u, rfl, hspaced, h⟩ := h
  rw [runs_guard Bool.false_ne_true, runs_bind_some] at h
  obtain ⟨rfl, counted, v₂, u, rfl, hcounted, h⟩ := h
  rw [runs_guard Bool.false_ne_true, Sending.underDailyCaps, runs_ask_bind_some] at h
  obtain ⟨rfl, c, u, rfl, rfl, hcaps⟩ := h
  obtain ⟨opened, rfl, hopen⟩ := (Option.any_eq_true _ _).mp hopen
  obtain ⟨spaced, hgap, rfl⟩ := runs_any_session hspaced
  obtain ⟨counted, hcap, rfl⟩ := runs_any_session hcounted
  exact .intro hopen hgap (of_decide_eq_true hcap) (of_decide_eq_true (Option.some.inj hcaps).symm)

/-- The budget lets a verdict to send stand just in case it is at least the threshold. -/
theorem applyBudget_send {d : Decision} {b : ℚ} (h : (applyBudget d b).action = .send) :
    d.action = .send ∧ budgetTightenThreshold ≤ b := by
  unfold applyBudget at h
  split_ifs at h with hsend hdepleted htight
  · exact ⟨hsend, not_lt.mp htight⟩
  · exact absurd h hsend

/-- A slot encloses its body, whose outcome stands unless the exit of the slot raises. -/
theorem runs_withSlot {α : Type} {body : Bool → Link α} {u : Trace Call.Reply} {o : Option α} :
    Runs (withSlot body) u o ↔
      (∃ granted v x done, u = ⟨.enterSlot, some granted⟩ :: (v ++ [⟨.exitSlot, done⟩]) ∧
        Runs (body granted) v x ∧ o = done.bind fun _ => x) ∨
      (o = none ∧ u = [⟨.enterSlot, none⟩]) := by
  unfold withSlot
  rw [runs_ask_ensuring]
  refine or_congr ?_ Iff.rfl
  constructor
  · rintro ⟨granted, v, w, x, done, rfl, hbody, hexit, ho⟩
    obtain rfl : w = _ := runs_ask.mp hexit
    exact ⟨granted, v, x, done, rfl, hbody, ho⟩
  · rintro ⟨granted, v, x, done, rfl, hbody, ho⟩
    exact ⟨granted, v, _, x, done, rfl, hbody, runs_ask.mpr rfl, ho⟩

/-- A slot that is granted encloses its body. -/
theorem runs_withSlot_some {α : Type} {body : Bool → Link α} {a : α} {u : Trace Call.Reply} :
    Runs (withSlot body) u (some a) ↔
      ∃ granted v, u = ⟨.enterSlot, some granted⟩ :: (v ++ [⟨.exitSlot, some ()⟩]) ∧
        Runs (body granted) v (some a) := by
  rw [runs_withSlot]
  constructor
  · rintro (⟨granted, v, x, _ | _, rfl, hbody, ho⟩ | ⟨ho, -⟩)
    · cases ho
    · obtain rfl : some a = x := ho
      exact ⟨granted, v, rfl, hbody⟩
    · cases ho
  · rintro ⟨granted, v, rfl, hbody⟩
    exact .inl ⟨granted, v, some a, some (), rfl, hbody, rfl⟩

theorem runs_hintText {hint : Option Hint} {t : Text} {u : Trace Call.Reply}
    (h : Runs (hintText hint) u (some t)) : u = [] ∧ hintText hint = pure t := by
  cases hint with
  | none =>
    obtain ⟨rfl, h⟩ := h
    cases h
    exact ⟨rfl, rfl⟩
  | some hint =>
    obtain ⟨_ | dumped⟩ := hint
    · obtain ⟨-, h⟩ := h
      cases h
    · obtain ⟨rfl, h⟩ := h
      cases h
      exact ⟨rfl, rfl⟩

/-- What the pre-filter finds is no reason to send. -/
theorem prefilter_ne_send {S : Setting} {t : Text} {d : Decision} (h : S.prefilter t = some d) :
    d.action ≠ .send := by
  unfold Setting.prefilter at h
  split at h
  · cases h
  · cases h
    split_ifs
    · exact nofun
    · exact nofun

/-- A reflection that comes to a verdict. -/
theorem runs_reflect_some {p : Payload} {peer stage summary reason today raw : Text} {b : ℚ}
    {u : Trace Call.Reply} (h : Runs (reflect p peer stage summary reason today) u (some (some (b, raw)))) :
    ∃ hint, hintText p.hint = pure hint ∧
      u = [⟨.budget peer, some b⟩, ⟨.enterSlot, some true⟩,
        ⟨.complete (.gate p.body hint summary reason stage (decide (budgetTightenThreshold ≤ b))),
          some raw⟩, ⟨.exitSlot, some ()⟩] := by
  rw [reflect, runs_tryExcept] at h
  rcases h with ⟨-, h⟩ | ⟨v, w, rfl, -, h⟩
  · rw [runs_ask_bind_some] at h
    obtain ⟨b', u, rfl, h⟩ := h
    rw [runs_bind_some] at h
    obtain ⟨hint, v, u, rfl, hhint, h⟩ := h
    rw [runs_withSlot_some] at h
    obtain ⟨granted, w, rfl, h⟩ := h
    cases granted with
    | false =>
      obtain ⟨_, v, -, -, h⟩ := runs_ask_bind_some.mp h
      cases h
    | true =>
      rw [if_pos rfl, runs_ask_bind_some] at h
      obtain ⟨raw, v, rfl, rfl, h⟩ := h
      cases h
      obtain ⟨rfl, hdumped⟩ := runs_hintText hhint
      exact ⟨hint, hdumped, rfl⟩
  · -- The handler yields none.
    obtain ⟨_, v, rfl, -, h⟩ := runs_ask_bind_some.mp h
    cases h

theorem review_reflected {S : Setting} {x : Sending} {p : Payload} {stage : Text} {d : Decision}
    {u : Trace Call.Reply} (h : Runs (x.gated S p stage) u (some d)) (hd : d.action = .send) :
    Reflected S x p u := by
  rw [Sending.gated, Setting.review] at h
  cases hfilter : S.prefilter (payloadText p) with
  | some found =>
    -- The decision of the pre-filter is to revise or to hold.
    simp only [hfilter, runs_pure] at h
    obtain ⟨-, h⟩ := h
    cases h
    exact absurd hd (prefilter_ne_send hfilter)
  | none =>
    simp only [hfilter] at h
    rw [runs_ask_bind_some] at h
    obtain ⟨reserved, u, rfl, h⟩ := h
    cases reserved with
    | false =>
      obtain ⟨-, h⟩ := h
      cases h
      cases hd
    | true =>
      rw [if_pos rfl, runs_bind_some] at h
      obtain ⟨_ | ⟨b, raw⟩, v, w, rfl, hreflect, h⟩ := h
      · obtain ⟨-, h⟩ := h
        cases h
        cases hd
      · obtain ⟨rfl, h⟩ := h
        cases h
        obtain ⟨hverdict, hbudget⟩ := applyBudget_send hd
        obtain ⟨hint, hhint, rfl⟩ := runs_reflect_some hreflect
        rw [decide_eq_true hbudget]
        exact .intro hfilter hhint hbudget hverdict

/-! ## The engine's own calls -/

/-- The calls that the engine makes beside those of its `send_fn`. -/
def Call.inner : Call → Bool
  | session _ _ | counters _ _ | stage _ | reserveProvider _ _ | releaseProvider _ _
  | reserveOutbound _ _ | budget _ | debit _ _ | bump _ _ | endSession _ _ _ | enterSlot | exitSlot
  | complete _ => true
  | _ => false

/-- The calls of an admission, a review or a revision. -/
def Call.checks : Call → Bool
  | session _ _ | counters _ _ | stage _ | reserveProvider _ _ | releaseProvider _ _ | budget _
  | enterSlot | exitSlot | complete _ => true
  | _ => false

theorem Call.inner_of_checks {c : Call} (h : c.checks = true) : c.inner = true := by
  cases c <;> first | rfl | cases h

/-- The prompt of a revision is completed. -/
def Call.revises : Call → Bool
  | complete (.revision _ _) => true
  | _ => false

/-- Every call is the engine's own. -/
def Inner (u : Trace Call.Reply) : Prop := ∀ e ∈ u, e.query.inner = true

/-- Every call is the engine's own, and none completes the prompt of a revision. -/
def Unrevised (u : Trace Call.Reply) : Prop :=
  ∀ e ∈ u, e.query.inner = true ∧ e.query.revises = false

theorem Unrevised.inner {u : Trace Call.Reply} (h : Unrevised u) : Inner u :=
  fun e he => (h e he).1

@[simp]
theorem inner_append {u v : Trace Call.Reply} : Inner (u ++ v) ↔ Inner u ∧ Inner v :=
  List.forall_mem_append

@[simp]
theorem inner_cons {e : Event Call.Reply} {u : Trace Call.Reply} :
    Inner (e :: u) ↔ e.query.inner = true ∧ Inner u :=
  List.forall_mem_cons

@[simp]
theorem inner_nil : Inner [] :=
  nofun

theorem Admitted.unrevised {x : Sending} {a : Trace Call.Reply} (h : Admitted x a) : Unrevised a := by
  cases h
  simp [Unrevised, Call.inner, Call.revises]

theorem Reflected.unrevised {S : Setting} {x : Sending} {p : Payload} {g : Trace Call.Reply}
    (h : Reflected S x p g) : Unrevised g := by
  cases h
  simp [Unrevised, Call.inner, Call.revises]

variable {α : Type} {P : Call → Prop}

theorem only_ite {c : Prop} [Decidable c] {p q : Link α} (hp : Only P p) (hq : Only P q) :
    Only P (if c then p else q) := by
  split_ifs
  · exact hp
  · exact hq

theorem only_withSlot {body : Bool → Link α} (henter : P .enterSlot) (hexit : P .exitSlot)
    (h : ∀ granted, Only P (body granted)) : Only P (withSlot body) :=
  .bind (only_ask.mpr henter) fun granted => .ensuring (h granted) (only_ask.mpr hexit)

theorem checks_sendAllowed (x : Sending) : Only (fun c => c.checks = true) x.sendAllowed := by
  refine .bind (only_ask.mpr rfl) fun _ => only_ite ?_ trivial
  refine .bind (.bind (only_ask.mpr rfl) fun _ => trivial) fun _ => only_ite ?_ trivial
  refine .bind (.bind (only_ask.mpr rfl) fun _ => trivial) fun _ => only_ite ?_ trivial
  exact .bind (only_ask.mpr rfl) fun _ => trivial

theorem only_sendAllowed (x : Sending) : Only (fun c => c.inner = true) x.sendAllowed :=
  (checks_sendAllowed x).mono fun _ => Call.inner_of_checks

theorem only_hintText (hint : Option Hint) : Only P (hintText hint) := by
  obtain _ | ⟨_ | _⟩ := hint
  · trivial
  · trivial
  · trivial

theorem checks_reflect (p : Payload) (peer stage summary reason today : Text) :
    Only (fun c => c.checks = true ∧ c.revises = false)
      (reflect p peer stage summary reason today) := by
  refine .tryExcept ?_ (.bind (only_ask.mpr ⟨rfl, rfl⟩) fun _ => trivial)
  refine .bind (only_ask.mpr ⟨rfl, rfl⟩) fun b => .bind (only_hintText _) fun hint => ?_
  refine only_withSlot ⟨rfl, rfl⟩ ⟨rfl, rfl⟩ fun granted => only_ite ?_ ?_
  · exact .bind (only_ask.mpr ⟨rfl, rfl⟩) fun _ => trivial
  · exact .bind (only_ask.mpr ⟨rfl, rfl⟩) fun _ => trivial

theorem checks_gated (S : Setting) (x : Sending) (p : Payload) (stage : Text) :
    Only (fun c => c.checks = true ∧ c.revises = false) (x.gated S p stage) := by
  unfold Sending.gated Setting.review
  split
  · trivial
  · refine .bind (only_ask.mpr ⟨rfl, rfl⟩) fun reserved => only_ite ?_ trivial
    refine .bind (checks_reflect ..) fun verdict => ?_
    cases verdict with
    | none => trivial
    | some verdict => trivial

theorem only_gated (S : Setting) (x : Sending) (p : Payload) (stage : Text) :
    Only (fun c => c.inner = true ∧ c.revises = false) (x.gated S p stage) :=
  (checks_gated S x p stage).mono fun _ h => ⟨Call.inner_of_checks h.1, h.2⟩

theorem only_constraintsText (c : Option (Json Text)) : Only P (constraintsText c) := by
  unfold constraintsText
  split
  · trivial
  · refine only_ite ?_ trivial
    split
    · trivial
    · trivial

theorem checks_regenerate (x : Sending) (p : Payload) (constraints : Option (Json Text)) :
    Only (fun c => c.checks = true) (x.regenerate p constraints) := by
  refine .bind (only_constraintsText _) fun c => .tryExcept ?_ trivial
  refine only_withSlot rfl rfl fun granted => only_ite ?_ trivial
  refine .bind (only_ask.mpr rfl) fun reserved => only_ite ?_ trivial
  exact .bind (only_ask.mpr rfl) fun _ => trivial

theorem only_regenerate (x : Sending) (p : Payload) (constraints : Option (Json Text)) :
    Only (fun c => c.inner = true) (x.regenerate p constraints) :=
  (checks_regenerate x p constraints).mono fun _ => Call.inner_of_checks

/-! ## Where a `send_fn` is called -/

/-- A regeneration that succeeds keeps the hint, and its body is the reply to the one prompt that it
completes. -/
theorem regenerate_some {x : Sending} {p q : Payload} {constraints : Option (Json Text)}
    {u : Trace Call.Reply} (h : Runs (x.regenerate p constraints) u (some (some q))) :
    q.hint = p.hint ∧ ∃ c, u = [⟨.enterSlot, some true⟩, ⟨.reserveProvider x.peer x.today, some true⟩,
      ⟨.complete (.revision c p.body), some q.body⟩, ⟨.exitSlot, some ()⟩] := by
  rw [Sending.regenerate, runs_bind_some] at h
  obtain ⟨c, v, w, rfl, hc, h⟩ := h
  rw [runs_tryExcept] at h
  rcases h with ⟨-, h⟩ | ⟨v', w', -, -, -, h⟩
  · rw [runs_withSlot_some] at h
    obtain ⟨granted, w, rfl, h⟩ := h
    have hne : (none : Option Payload) ≠ some q := nofun
    rw [runs_guard hne, runs_ask_bind_some] at h
    obtain ⟨rfl, reserved, w, rfl, h⟩ := h
    rw [runs_guard hne, runs_ask_bind_some] at h
    obtain ⟨rfl, body, w, rfl, rfl, h⟩ := h
    cases h
    -- The text of the constraints asks nothing.
    have hv : ∀ e ∈ v, False := (only_constraintsText (P := fun _ => False) _).of_runs hc
    obtain rfl : v = [] := List.eq_nil_iff_forall_not_mem.mpr hv
    exact ⟨rfl, c, rfl⟩
  · cases h

/-- The payload and the calls before it, where it is the given one or its regenerated revision. -/
def Offered (p q : Payload) (v : Trace Call.Reply) : Prop :=
  (q = p ∧ Unrevised v) ∨
    ∃ c v₁ v₂, v = v₁ ++ ⟨.complete (.revision c p.body), some q.body⟩ :: v₂ ∧
      Unrevised v₁ ∧ Unrevised v₂ ∧ q.hint = p.hint

/-- What follows the call of a `send_fn` that comes to the outcome `so`. -/
inductive Counted (x : Sending) : Option Unit → Trace Call.Reply → Option Action → Prop
  | failed : Counted x none [] none
  | raised {w : Trace Call.Reply} (hw : Inner w) : Counted x (some ()) w none
  | done {amount : ℚ} :
      Counted x (some ()) [⟨.bump x.peer x.session, some ()⟩, ⟨.debit x.peer amount, some ()⟩] (some .send)

theorem Counted.unrevised {x : Sending} {so : Option Unit} {w : Trace Call.Reply}
    (h : Counted x so w (some .send)) : Unrevised w := by
  cases h
  simp [Unrevised, Call.inner, Call.revises]

theorem Counted.inner {x : Sending} {so : Option Unit} {w : Trace Call.Reply} {o : Option Action}
    (h : Counted x so w o) : Inner w := by
  cases h with
  | failed => exact inner_nil
  | raised hw => exact hw
  | done => simp [Call.inner]

theorem Counted.outcome {x : Sending} {so : Option Unit} {w : Trace Call.Reply} {o : Option Action}
    (h : Counted x so w o) : o = some .send ∨ o = none := by
  cases h with
  | failed => exact .inr rfl
  | raised hw => exact .inr rfl
  | done => exact .inl rfl

variable {x : Sending} {sendFn : Payload → Link Unit} {p : Payload} {u : Trace Call.Reply}
  {o : Option Action}

/-- What comes of a decision: it leads to a revision, or nothing is sent, or the payload is sent,
right after a slot is reserved. -/
theorem settle_cases {d : Decision} {onRevise : Link Action}
    (h : Runs (x.settle sendFn p d onRevise) u o) :
    (d.action = .revise ∧ Runs onRevise u o) ∨ (Inner u ∧ o ≠ some .send) ∨
      (d.action = .send ∧ ∃ s so w,
        u = ⟨.reserveOutbound x.peer x.today, some true⟩ :: (s ++ w) ∧ Runs (sendFn p) s so ∧
        Counted x so w o) := by
  rw [Sending.settle] at h
  cases hd : d.action with
  | revise =>
    simp only [hd] at h
    exact .inl ⟨rfl, h⟩
  | hold =>
    simp only [hd, runs_pure] at h
    obtain ⟨rfl, rfl⟩ := h
    exact .inr (.inl ⟨inner_nil, by rintro ⟨⟩⟩)
  | endOrPause =>
    simp only [hd] at h
    rw [runs_ask_bind] at h
    rcases h with ⟨_, w, rfl, rfl, rfl⟩ | ⟨rfl, rfl⟩
    · exact .inr (.inl ⟨by simp [Call.inner], by rintro ⟨⟩⟩)
    · exact .inr (.inl ⟨by simp [Call.inner], by rintro ⟨⟩⟩)
  | send =>
    simp only [hd] at h
    rw [runs_ask_bind] at h
    rcases h with ⟨reserved, w, rfl, h⟩ | ⟨rfl, rfl⟩
    · cases reserved with
      | false =>
        obtain ⟨rfl, rfl⟩ := h
        exact .inr (.inl ⟨by simp [Call.inner], by rintro ⟨⟩⟩)
      | true =>
        rw [if_pos rfl, runs_bind] at h
        rcases h with ⟨⟨⟩, s, w, rfl, hs, h⟩ | ⟨rfl, hs⟩
        · refine .inr (.inr ⟨rfl, s, some (), w, rfl, hs, ?_⟩)
          rw [runs_ask_bind] at h
          rcases h with ⟨⟨⟩, w, rfl, h⟩ | ⟨rfl, rfl⟩
          · rw [runs_ask_bind] at h
            rcases h with ⟨⟨⟩, w, rfl, rfl, rfl⟩ | ⟨rfl, rfl⟩
            · exact .done
            · exact .raised (by simp [Call.inner])
          · exact .raised (by simp [Call.inner])
        · exact .inr (.inr ⟨rfl, w, none, [], by simp, hs, .failed⟩)
    · exact .inr (.inl ⟨by simp [Call.inner], by rintro ⟨⟩⟩)

/-- A review whose exceptions hold lets a payload pass by a reflection alone. -/
theorem runs_tryExcept_held {r : Link Decision} {d : Decision}
    (h : Runs (r.tryExcept (pure .held)) u (some d)) (hd : d.action = .send) : Runs r u (some d) := by
  rw [runs_tryExcept] at h
  rcases h with ⟨-, h⟩ | ⟨v, w, -, -, -, h⟩
  · exact h
  · cases h
    cases hd

/-- What a call of the `send_fn` has passed: the reflection on its payload, and right before it the
reservation of a slot. -/
structure Passed (S : Setting) (x : Sending) (sendFn : Payload → Link Unit) (q : Payload)
    (v g s w : Trace Call.Reply) (so : Option Unit) (u : Trace Call.Reply) (o : Option Action) : Prop where
  trace : u = v ++ g ++ ⟨.reserveOutbound x.peer x.today, some true⟩ :: (s ++ w)
  reflected : Reflected S x q g
  sent : Runs (sendFn q) s so
  counted : Counted x so w o

/-- A revision sends nothing, or one payload after the reflection on it. -/
theorem revised_cases {S : Setting} {d : Decision} (h : Runs (x.revised S sendFn p d) u o) :
    (Inner u ∧ o ≠ some .send) ∨
      ∃ q c v₁ v₂ g s w so,
        Passed S x sendFn q (v₁ ++ ⟨.complete (.revision c p.body), some q.body⟩ :: v₂) g s w so u o ∧
        Unrevised v₁ ∧ Unrevised v₂ ∧ q.hint = p.hint := by
  rw [Sending.revised, runs_bind] at h
  rcases h with ⟨found, v, w₁, rfl, hrevise, h⟩ | ⟨rfl, h⟩
  · have hv : Inner v := (only_regenerate ..).of_runs hrevise
    cases found with
    | none =>
      obtain ⟨rfl, rfl⟩ := h
      exact .inl ⟨by simp [hv], nofun⟩
    | some q =>
      obtain ⟨hhint, c, rfl⟩ := regenerate_some hrevise
      have hreview : Only (fun c => c.inner = true ∧ c.revises = false) (Prog.tryExcept
          (do
            let stage : Text ← ask (.stage x.peer)
            x.gated S q stage)
          (pure .held)) :=
        .tryExcept (.bind (only_ask.mpr ⟨rfl, rfl⟩) fun _ => only_gated ..) trivial
      simp only at h
      rw [runs_bind] at h
      rcases h with ⟨second, v₂, w₂, rfl, hsecond, h⟩ | ⟨rfl, h⟩
      · have hv₂ : Unrevised v₂ := hreview.of_runs hsecond
        by_cases hagain : second.action = .revise
        · rw [if_pos hagain] at h
          obtain ⟨rfl, rfl⟩ := h
          exact .inl ⟨by simp [Call.inner, hv₂.inner], nofun⟩
        · rw [if_neg hagain] at h
          rcases settle_cases h with ⟨hrev, -⟩ | ⟨hw, ho⟩ | ⟨hsend, s, so, w, rfl, hs, hw⟩
          · exact absurd hrev hagain
          · exact .inl ⟨inner_append.mpr ⟨hv, inner_append.mpr ⟨hv₂.inner, hw⟩⟩, ho⟩
          · have hpass := runs_tryExcept_held hsecond hsend
            rw [runs_ask_bind_some] at hpass
            obtain ⟨stage, g, rfl, hpass⟩ := hpass
            refine .inr ⟨q, c, [⟨.enterSlot, some true⟩, ⟨.reserveProvider x.peer x.today, some true⟩],
              [⟨.exitSlot, some ()⟩, ⟨.stage x.peer, some stage⟩], g, s, w, so,
              ⟨by simp, review_reflected hpass hsend, hs, hw⟩, ?_, ?_, hhint⟩
            · simp [Unrevised, Call.inner, Call.revises]
            · simp [Unrevised, Call.inner, Call.revises]
      · exact .inl ⟨inner_append.mpr ⟨hv, fun e he => (hreview.of_runs h e he).1⟩, nofun⟩
  · exact .inl ⟨(only_regenerate ..).of_runs h, nofun⟩

/-- In a run of `process_outbound` the `send_fn` is not called, or called once, on a payload that
has passed the admission at the start and the whole gate. -/
theorem processOutbound_cases {S : Setting} (h : Runs (x.processOutbound S sendFn p) u o) :
    (Inner u ∧ o ≠ some .send) ∨
      ∃ q a v g s w so, Passed S x sendFn q (a ++ v) g s w so u o ∧ Admitted x a ∧
        Offered p q v := by
  unfold Sending.processOutbound at h
  by_cases hday : x.today = S.dayOf x.now
  · rw [if_pos hday, runs_bind] at h
    rcases h with ⟨allowed, a, u, rfl, hsend, h⟩ | ⟨rfl, h⟩
    · have ha : Inner a := (only_sendAllowed x).of_runs hsend
      cases allowed with
      | false =>
        obtain ⟨rfl, rfl⟩ := h
        exact .inl ⟨by simp [ha], nofun⟩
      | true =>
        have hadmitted := sendAllowed_admitted hsend
        rw [if_pos rfl, runs_ask_bind] at h
        rcases h with ⟨stage, u, rfl, h⟩ | ⟨rfl, rfl⟩
        · have hreview : Only (fun c => c.inner = true ∧ c.revises = false)
              (Prog.tryExcept (x.gated S p stage) (pure .held)) :=
            .tryExcept (only_gated ..) trivial
          rw [runs_bind] at h
          rcases h with ⟨d, v, u, rfl, hfirst, h⟩ | ⟨rfl, h⟩
          · have hv : Unrevised (⟨.stage x.peer, some stage⟩ :: v) :=
              List.forall_mem_cons.mpr ⟨⟨rfl, rfl⟩, hreview.of_runs hfirst⟩
            rcases settle_cases h with ⟨-, hrev⟩ | ⟨hu, ho⟩ | ⟨hsend, s, so, w, rfl, hs, hw⟩
            · rcases revised_cases hrev with ⟨hu, ho⟩ | ⟨q, c, v₁, v₂, g, s, w, so, hq, hv₁, hv₂, hhint⟩
              · exact .inl ⟨inner_append.mpr ⟨ha, inner_append.mpr ⟨hv.inner, hu⟩⟩, ho⟩
              · refine .inr ⟨q, a, ⟨.stage x.peer, some stage⟩ :: v ++
                  (v₁ ++ ⟨.complete (.revision c p.body), some q.body⟩ :: v₂), g, s, w, so,
                  ⟨?_, hq.reflected, hq.sent, hq.counted⟩, hadmitted,
                  .inr ⟨c, ⟨.stage x.peer, some stage⟩ :: v ++ v₁, v₂, by simp, ?_, hv₂, hhint⟩⟩
                · rw [hq.trace]
                  simp
                · exact List.forall_mem_append.mpr ⟨hv, hv₁⟩
            · exact .inl ⟨inner_append.mpr ⟨ha, inner_append.mpr ⟨hv.inner, hu⟩⟩, ho⟩
            · have hg := review_reflected (runs_tryExcept_held hfirst hsend) hsend
              refine .inr ⟨p, a, [⟨.stage x.peer, some stage⟩], v, s, w, so, ⟨by simp, hg, hs, hw⟩,
                hadmitted, .inl ⟨rfl, ?_⟩⟩
              simp [Unrevised, Call.inner, Call.revises]
          · refine .inl ⟨inner_append.mpr ⟨ha, inner_cons.mpr ⟨rfl, ?_⟩⟩, nofun⟩
            exact fun e he => (hreview.of_runs h e he).1
        · exact .inl ⟨by simp [ha, Call.inner], nofun⟩
    · exact .inl ⟨(only_sendAllowed x).of_runs h, nofun⟩
  · rw [if_neg hday] at h
    obtain ⟨rfl, rfl⟩ := h
    exact .inl ⟨inner_nil, nofun⟩

/-! ## Nothing leaves ungated -/

/-- The payload that a call sends. -/
def Call.sent : Call → Option Payload
  | send p => some p
  | _ => none

/-- The payloads that are sent, in order. -/
def sends (u : Trace Call.Reply) : List Payload := u.filterMap fun e => e.query.sent

/-- What a payload that is sent has passed: the admission at the start, then the reflection on it,
and right before the send the reservation of a slot. -/
def Cleared (S : Setting) (x : Sending) (q : Payload) (u : Trace Call.Reply) : Prop :=
  ∃ a v g r w, u = a ++ v ++ g ++
      ⟨.reserveOutbound x.peer x.today, some true⟩ :: ⟨.send q, r⟩ :: w ∧
    Admitted x a ∧ Reflected S x q g

@[simp]
theorem sends_append (u v : Trace Call.Reply) : sends (u ++ v) = sends u ++ sends v :=
  List.filterMap_append

theorem Inner.sends_eq_nil (h : Inner u) : sends u = [] := by
  refine List.filterMap_eq_nil_iff.mpr fun e he => ?_
  have he := h e he
  cases hq : e.query <;> simp_all [Call.inner, Call.sent]

theorem Offered.inner {q : Payload} {v : Trace Call.Reply} (h : Offered p q v) : Inner v := by
  rcases h with ⟨-, hv⟩ | ⟨c, v₁, v₂, rfl, hv₁, hv₂, -⟩
  · exact hv.inner
  · exact inner_append.mpr ⟨hv₁.inner, inner_cons.mpr ⟨rfl, hv₂.inner⟩⟩

/-- In every run of `process_outbound`, whatever is answered, nothing is sent, or one payload is
sent once: the given one or its revision, which has passed the admission and the whole gate itself.
-/
theorem processOutbound_cleared (S : Setting) (x : Sending) (p : Payload) (u : Trace Call.Reply)
    (o : Option Action) (h : Runs (x.processOutbound S (fun q => ask (.send q)) p) u o) :
    (sends u = [] ∧ o ≠ some .send) ∨
      ∃ q, sends u = [q] ∧ Cleared S x q u ∧
        (q = p ∨ q.hint = p.hint ∧ ∃ c, ⟨.complete (.revision c p.body), some q.body⟩ ∈ u) ∧
        (o = some .send ∨ o = none) := by
  rcases processOutbound_cases h with ⟨hu, ho⟩ | ⟨q, a, v, g, s, w, so, hq, hadmitted, hv⟩
  · exact .inl ⟨hu.sends_eq_nil, ho⟩
  · obtain ⟨rfl, hg, hs, hw⟩ := hq
    obtain rfl : s = _ := runs_ask.mp hs
    refine .inr ⟨q, ?_, ⟨a, v, g, so, w, rfl, hadmitted, hg⟩, ?_, hw.outcome⟩
    · have hsent : sends [⟨.reserveOutbound x.peer x.today, some true⟩, ⟨.send q, so⟩] = [q] := rfl
      calc sends (a ++ v ++ g ++ ⟨.reserveOutbound x.peer x.today, some true⟩ :: ([⟨.send q, so⟩] ++ w))
          = sends a ++ sends v ++ sends g ++
              (sends [⟨.reserveOutbound x.peer x.today, some true⟩, ⟨.send q, so⟩] ++ sends w) := by
            simp only [← sends_append]
            rfl
        _ = [q] := by
            rw [hadmitted.unrevised.inner.sends_eq_nil, hv.inner.sends_eq_nil, hg.unrevised.inner.sends_eq_nil,
              hw.inner.sends_eq_nil, hsent]
            rfl
    · rcases hv with ⟨rfl, -⟩ | ⟨c, v₁, v₂, rfl, -, -, hhint⟩
      · exact .inl rfl
      · exact .inr ⟨hhint, c, by simp⟩

/-- A setting without patterns, in which every verdict reads as a decision to send. -/
def lenient : Setting where
  patterns := []
  loads _ := some (.obj [("decision".toList, .str "send".toList), ("texture_score".toList, .int 0)])
  floatOf _ := none
  dayOf _ := "2026-07-01".toList

/-- A session that is open, a full budget, and slots that are free. -/
def unhindered : Env Call.Reply := fun _ c =>
  match c with
  | .session _ _ => some (some ⟨true, 0, none⟩)
  | .activeSession _ => some none
  | .counters _ _ => some ⟨0, 0⟩
  | .stage _ => some "stranger".toList
  | .reserveProvider _ _ => some true
  | .reserveOutbound _ _ => some true
  | .budget _ => some (1 : ℚ)
  | .enterSlot => some true
  | .complete _ => some "{}".toList
  | .sessionKey _ _ => some true
  | .nextSequence _ _ => some (1 : ℕ)
  | .mailbox _ => some "mailbox".toList
  | .saveDraft _ _ _ => some (1 : ℕ)
  | .pendingDrafts => some ([] : List Draft)
  | .pairedPeers => some ([] : List Text)
  | .transcript _ => some ([] : List (Bool × Text))
  | .relationship _ => some (none : Option (Text × List Text))
  | .due => some true
  | .shouldOpen _ _ => some false
  | .releaseProvider _ _ | .debit _ _ | .bump _ _ | .endSession _ _ _ | .exitSlot | .push _ | .send _
  | .setDraftStatus _ _ | .other => some ()

/-- An unhindered message is sent once, and cleared. -/
theorem processOutbound_cleared_unhindered :
    let x : Sending :=
      ⟨"moss".toList, "s1".toList, [], "reply".toList, 0, "2026-07-01".toList⟩
    let r := (x.processOutbound lenient (fun q => ask (.send q)) ⟨"hello".toList, none⟩).run unhindered []
    sends r.1 = [⟨"hello".toList, none⟩] ∧
      ((sends r.1 = [] ∧ r.2 ≠ some .send) ∨
        ∃ q, sends r.1 = [q] ∧ Cleared lenient x q r.1 ∧
          (q = ⟨"hello".toList, none⟩ ∨
            q.hint = none ∧ ∃ c, ⟨.complete (.revision c "hello".toList), some q.body⟩ ∈ r.1) ∧
          (r.2 = some .send ∨ r.2 = none)) :=
  ⟨by decide +kernel, processOutbound_cleared _ _ _ _ _ (runs_run ..)⟩

end Companion.Kindled

import Companion.Allowances
import Companion.Kindled.Engine
import Companion.Runs

/-!
# The disclosure budget

`get_disclosure_budget`, `debit_disclosure_budget` and `_refilled` of `brain/kindled_link/store.py`,
and the calls of `process_outbound` for one peer over the row that they keep. The clock does not run
backwards. The provider, the throttle, the `send_fn` and the rest of the store answer each call as
they like or raise; the two updates that follow a send do not raise.

`crumb_bound` is the bound on what goes from one party to another, drop by drop.
-/

namespace Companion.Kindled

open Companion.Memory Companion.Effects Companion.Runs Companion.Allowances

/-- `KINDLED_LINK_BUDGET_MAX` -/
def budgetMax : ℚ := 1

/-- `KINDLED_LINK_BUDGET_REFILL_PER_DAY` -/
def budgetRefillPerDay : ℚ := 1 / 2

/-- `KINDLED_LINK_MIN_SEND_DEBIT` -/
def minSendDebit : ℚ := 1 / 50

/-- `total_seconds() / 86400` -/
def days (t : Instant) : ℚ := t / 86400000000

/-- A row of `disclosure_budget`. -/
structure BudgetRow where
  budget : ℚ
  updatedAt : Instant
  deriving DecidableEq

/-- `_refilled` -/
def BudgetRow.refilled (row : BudgetRow) (now : Instant) : ℚ :=
  min budgetMax (max 0 (row.budget + max 0 (days (now - row.updatedAt)) * budgetRefillPerDay))

/-- `get_disclosure_budget` -/
def getDisclosureBudget (row : Option BudgetRow) (now : Instant) : ℚ :=
  match row with
  | none => budgetMax
  | some row => row.refilled now

/-- `debit_disclosure_budget` -/
def debitDisclosureBudget (row : Option BudgetRow) (amount : ℚ) (now : Instant) : BudgetRow :=
  ⟨max 0 (getDisclosureBudget row now - amount), now⟩

/-- The row of a peer, the time of the last call, and the times at which payloads were sent. -/
structure Account where
  row : Option BudgetRow
  clock : Instant
  sent : List Instant
  deriving DecidableEq

/-- What a call leaves. -/
def Account.note (a : Account) (now : Instant) : Event Call.Reply → Account
  | ⟨.debit _ amount, some _⟩ => { a with row := some (debitDisclosureBudget a.row amount now) }
  | ⟨.send _, some _⟩ => { a with sent := now :: a.sent }
  | _ => a

def Account.after (a : Account) (now : Instant) (u : Trace Call.Reply) : Account :=
  u.foldl (fun a e => a.note now e) a

/-- A call of `process_outbound`, and what the outside answers it. -/
structure Outbound where
  x : Sending
  payload : Payload
  outside : Env Call.Reply

/-- The outside with the row of the peer. -/
def Outbound.env (j : Outbound) (a : Account) : Env Call.Reply := fun t c =>
  match c with
  | .budget peer =>
    (j.outside t (.budget peer)).map fun _ => getDisclosureBudget (a.after j.x.now t).row j.x.now
  | .bump _ _ => some ()
  | .debit _ _ => some ()
  | c => j.outside t c

/-- The calls of `process_outbound` with a `send_fn` that only sends. -/
def Outbound.trace (S : Setting) (j : Outbound) (a : Account) : Trace Call.Reply :=
  ((j.x.processOutbound S (fun p => ask (.send p)) j.payload).run (j.env a) []).1

/-- The calls of `process_outbound` for one peer, one after another. -/
def disclosing (S : Setting) (peer : Text) : Machine Account Outbound where
  init a := a.row = none ∧ a.sent = []
  step a j :=
    if j.x.peer = peer ∧ a.clock ≤ j.x.now then
      some { a.after j.x.now (j.trace S a) with clock := j.x.now }
    else none

/-! ## The row -/

variable {row : Option BudgetRow} {now now' : Instant} {amount : ℚ}

theorem days_sub (t t' : Instant) : days (t - t') = days t - days t' := by
  unfold days
  push_cast
  ring

theorem days_mono (h : now ≤ now') : days now ≤ days now' := by
  have hcast : (now : ℚ) ≤ now' := by exact_mod_cast h
  unfold days
  linarith

theorem refilled_eq_level (row : BudgetRow) (now : Instant) :
    row.refilled now =
      level budgetMax budgetRefillPerDay row.budget (days row.updatedAt) (days now) := by
  rw [BudgetRow.refilled, days_sub]
  rfl

theorem getDisclosureBudget_nonneg : 0 ≤ getDisclosureBudget row now := by
  have hmax : (0 : ℚ) ≤ budgetMax := by norm_num [budgetMax]
  cases row with
  | none => exact hmax
  | some row => exact (level_nonneg hmax).trans_eq (refilled_eq_level row now).symm

theorem getDisclosureBudget_le_max : getDisclosureBudget row now ≤ budgetMax := by
  cases row with
  | none => exact le_rfl
  | some row => exact (refilled_eq_level row now).trans_le level_le_cap

/-- While no call is made the budget rises by at most the refill. -/
theorem getDisclosureBudget_le_add (h : now ≤ now') :
    getDisclosureBudget row now' ≤
      getDisclosureBudget row now + budgetRefillPerDay * (days now' - days now) := by
  have hrate : (0 : ℚ) ≤ budgetRefillPerDay := by norm_num [budgetRefillPerDay]
  have hdays := days_mono h
  cases row with
  | none =>
    have hrise := mul_nonneg hrate (sub_nonneg.mpr hdays)
    show budgetMax ≤ budgetMax + _
    linarith
  | some row =>
    show row.refilled now' ≤ row.refilled now + _
    rw [refilled_eq_level, refilled_eq_level]
    exact level_le_add hrate hdays

/-- What a debit leaves of the budget at that time. -/
theorem getDisclosureBudget_debit (h : 0 ≤ amount) :
    getDisclosureBudget (some (debitDisclosureBudget row amount now)) now =
      max 0 (getDisclosureBudget row now - amount) := by
  have hmax : (0 : ℚ) ≤ budgetMax := by norm_num [budgetMax]
  have hle : getDisclosureBudget row now ≤ budgetMax := getDisclosureBudget_le_max
  have hleft : max 0 (getDisclosureBudget row now - amount) ≤ budgetMax :=
    max_le hmax (by linarith)
  show (debitDisclosureBudget row amount now).refilled now = _
  rw [refilled_eq_level]
  exact level_stamp (le_max_left _ _) hleft

/-! ## The calls -/

variable {x : Sending} {u v : Trace Call.Reply} {a : Account}

/-- A payload that is sent is paid for, unless the update before that raises, and a debit is not
less than the minimum. -/
structure Paid (x : Sending) (u : Trace Call.Reply) : Prop where
  sends : ∀ v q w, u = v ++ ⟨.send q, some ()⟩ :: w →
    (∃ w', w = ⟨.bump x.peer x.session, none⟩ :: w') ∨
      ∃ amount r w', w = ⟨.bump x.peer x.session, some ()⟩ :: ⟨.debit x.peer amount, r⟩ :: w'
  debits : ∀ e ∈ u, ∀ peer amount, e.query = .debit peer amount → minSendDebit ≤ amount

theorem Paid.append (u v : Trace Call.Reply) (hu : Paid x u) (hv : Paid x v) : Paid x (u ++ v) where
  sends s q w heq := by
    rcases List.append_eq_append_iff.mp heq with ⟨y, rfl, hy⟩ | ⟨y, rfl, hy⟩
    · exact hv.sends y q w hy
    · cases y with
      | nil => exact hv.sends [] q w hy.symm
      | cons e y =>
        obtain ⟨rfl, rfl⟩ := List.cons.inj hy
        -- What follows the send in `u` is followed by `v`.
        rcases hu.sends s q y rfl with ⟨w', rfl⟩ | ⟨amount, r, w', rfl⟩
        · exact .inl ⟨w' ++ v, rfl⟩
        · exact .inr ⟨amount, r, w' ++ v, rfl⟩
  debits e he := by
    rcases List.mem_append.mp he with he | he
    · exact hu.debits e he
    · exact hv.debits e he

theorem paid_of_only (h : ∀ e ∈ u, e.query.checks = true) : Paid x u where
  sends v q w heq := by
    subst heq
    cases h _ (List.mem_append_right v List.mem_cons_self)
  debits e he peer amount hdebit := by
    have hchecks := h e he
    rw [hdebit] at hchecks
    cases hchecks

theorem leaves_paid_of_only {α : Type} {p : Link α} (h : Only (fun c => c.checks = true) p) :
    Leaves (Paid x) p :=
  fun _ _ hrun => paid_of_only (h.of_runs hrun)

theorem leaves_paid_bind {α β : Type} {p : Link α} {f : α → Link β} (hp : Leaves (Paid x) p)
    (hf : ∀ a, Leaves (Paid x) (f a)) : Leaves (Paid x) (p >>= f) :=
  hp.bind Paid.append hf

theorem leaves_paid_pure {α : Type} (a : α) : Leaves (Paid x) (pure a : Link α) :=
  leaves_paid_of_only (only_pure a)

/-- A send is paid for by what follows it, where that sends nothing more. -/
theorem paid_send {w : Trace Call.Reply} (p : Payload)
    (hw : (∃ w', w = ⟨.bump x.peer x.session, none⟩ :: w') ∨
      ∃ amount r w', w = ⟨.bump x.peer x.session, some ()⟩ :: ⟨.debit x.peer amount, r⟩ :: w')
    (hsends : ∀ e ∈ w, ∀ q, e.query ≠ .send q)
    (hdebits : ∀ e ∈ w, ∀ peer amount, e.query = .debit peer amount → minSendDebit ≤ amount) :
    Paid x (⟨.send p, some ()⟩ :: w) where
  sends v q w' heq := by
    cases v with
    | nil =>
      obtain ⟨-, rfl⟩ := List.cons.inj heq
      exact hw
    | cons e v =>
      obtain ⟨-, rfl⟩ := List.cons.inj heq
      exact absurd rfl (hsends _ (List.mem_append_right v List.mem_cons_self) q)
  debits e he peer amount hdebit := by
    rcases List.mem_cons.mp he with rfl | he
    · cases hdebit
    · exact hdebits e he peer amount hdebit

/-- The send and its two updates. -/
theorem leaves_paid_send (x : Sending) (p : Payload) {amount : ℚ} (h : minSendDebit ≤ amount) :
    Leaves (Paid x) (do
      ask (.send p)
      ask (.bump x.peer x.session)
      ask (.debit x.peer amount)
      pure Action.send) := by
  intro u o hrun
  rcases runs_ask_bind.mp hrun with ⟨⟨⟩, w, rfl, hrest⟩ | ⟨-, rfl⟩
  · rcases runs_ask_bind.mp hrest with ⟨⟨⟩, w', rfl, hdebit⟩ | ⟨-, rfl⟩
    · obtain ⟨r, rfl⟩ : ∃ r, w' = [⟨.debit x.peer amount, r⟩] := by
        rcases runs_ask_bind.mp hdebit with ⟨r, _, rfl, rfl, -⟩ | ⟨-, rfl⟩
        · exact ⟨some r, rfl⟩
        · exact ⟨none, rfl⟩
      refine paid_send p (.inr ⟨amount, r, [], rfl⟩) (by simp) ?_
      intro e he peer amount' heq
      rcases List.mem_cons.mp he with rfl | he
      · cases heq
      · obtain rfl := List.mem_singleton.mp he
        cases heq
        exact h
    · exact paid_send p (.inl ⟨[], rfl⟩) (by simp) (by simp)
  · -- The send has raised.
    refine ⟨fun v q w heq => ?_, by simp⟩
    cases v with
    | nil => cases (List.cons.inj heq).1
    | cons e v => cases v <;> cases (List.cons.inj heq).2

theorem leaves_paid_settle (x : Sending) (p : Payload) (d : Decision) {onRevise : Link Action}
    (h : Leaves (Paid x) onRevise) :
    Leaves (Paid x) (x.settle (fun p => ask (.send p)) p d onRevise) := by
  -- No call but the send, its updates and those of a revision moves the budget.
  have hask : ∀ c : Call, (∀ q, c ≠ .send q) → (∀ peer amount, c ≠ .debit peer amount) →
      Leaves (Paid x) (ask c) := by
    intro c hsend hdebit u o hrun
    obtain rfl := runs_ask.mp hrun
    refine ⟨fun v q w heq => ?_, fun e he peer amount heq => ?_⟩
    · cases v with
      | nil =>
        have hquery : c = .send q := congrArg Event.query (List.cons.inj heq).1
        exact absurd hquery (hsend q)
      | cons e v => cases v <;> cases (List.cons.inj heq).2
    · obtain rfl := List.mem_singleton.mp he
      exact absurd heq (hdebit peer amount)
  unfold Sending.settle
  cases d.action with
  | send =>
    refine leaves_paid_bind (hask _ nofun nofun) fun reserved => ?_
    split_ifs
    · exact leaves_paid_send x p (le_max_left _ _)
    · exact leaves_paid_pure _
  | endOrPause => exact leaves_paid_bind (hask _ nofun nofun) fun _ => leaves_paid_pure _
  | revise => exact h
  | hold => exact leaves_paid_pure _

theorem leaves_paid_processOutbound (S : Setting) (x : Sending) (p : Payload) :
    Leaves (Paid x) (x.processOutbound S (fun p => ask (.send p)) p) := by
  have hgated : ∀ p stage, Leaves (Paid x) (Prog.tryExcept (x.gated S p stage) (pure .held)) :=
    fun p stage => .tryExcept Paid.append
      (leaves_paid_of_only ((checks_gated S x p stage).mono fun _ h => h.1)) (leaves_paid_pure _)
  have hstage : Leaves (Paid x) (ask (.stage x.peer)) := leaves_paid_of_only (only_ask.mpr rfl)
  unfold Sending.processOutbound
  split_ifs
  · refine leaves_paid_bind (leaves_paid_of_only (checks_sendAllowed x)) fun allowed => ?_
    split_ifs
    · refine leaves_paid_bind hstage fun stage => leaves_paid_bind (hgated p stage) fun d => ?_
      refine leaves_paid_settle x p d (leaves_paid_bind ?_ fun revised => ?_)
      · exact leaves_paid_of_only (checks_regenerate x p _)
      · cases revised with
        | none => exact leaves_paid_pure _
        | some q =>
          dsimp only
          refine leaves_paid_bind ?_ fun second => ?_
          · refine .tryExcept Paid.append (leaves_paid_bind hstage fun stage => ?_) (leaves_paid_pure _)
            exact leaves_paid_of_only ((checks_gated S x q stage).mono fun _ h => h.1)
          · split_ifs
            · exact leaves_paid_pure _
            · exact leaves_paid_settle x q second (leaves_paid_pure _)
    · exact leaves_paid_pure _
  · exact leaves_paid_of_only only_raise

/-! ## What a call leaves of the account -/

theorem Account.after_append (a : Account) (now : Instant) (u v : Trace Call.Reply) :
    a.after now (u ++ v) = (a.after now u).after now v :=
  List.foldl_append

/-- No debit raises the budget. -/
theorem Account.note_budget_le (a : Account) (now : Instant) {e : Event Call.Reply}
    (h : ∀ peer amount, e.query = .debit peer amount → minSendDebit ≤ amount) :
    getDisclosureBudget (a.note now e).row now ≤ getDisclosureBudget a.row now := by
  unfold Account.note
  split
  next peer amount r =>
    have hamount : minSendDebit ≤ amount := h peer amount rfl
    have hmin : (0 : ℚ) ≤ minSendDebit := by norm_num [minSendDebit]
    have hnonneg : 0 ≤ getDisclosureBudget a.row now := getDisclosureBudget_nonneg
    show getDisclosureBudget (some (debitDisclosureBudget a.row amount now)) now ≤ _
    rw [getDisclosureBudget_debit (hmin.trans hamount)]
    exact max_le hnonneg (by linarith)
  next => exact le_rfl
  next => exact le_rfl

theorem Account.after_budget_le (a : Account) (now : Instant)
    (h : ∀ e ∈ u, ∀ peer amount, e.query = .debit peer amount → minSendDebit ≤ amount) :
    getDisclosureBudget (a.after now u).row now ≤ getDisclosureBudget a.row now := by
  induction u generalizing a with
  | nil => exact le_rfl
  | cons e u ih =>
    have hnote := a.note_budget_le now (h e List.mem_cons_self)
    exact (ih (a.note now e) fun e he => h e (List.mem_cons_of_mem _ he)).trans hnote

theorem Account.after_sent (a : Account) (now : Instant) (h : ∀ e ∈ u, ∀ q, e ≠ ⟨.send q, some ()⟩) :
    (a.after now u).sent = a.sent := by
  induction u generalizing a with
  | nil => rfl
  | cons e u ih =>
    have hnote : (a.note now e).sent = a.sent := by
      unfold Account.note
      split
      next => rfl
      next q r => exact absurd rfl (h _ List.mem_cons_self q)
      next => rfl
    exact (ih (a.note now e) fun e he => h e (List.mem_cons_of_mem _ he)).trans hnote

theorem Inner.ne_send (h : Inner u) : ∀ e ∈ u, ∀ q, e ≠ ⟨.send q, some ()⟩ := by
  rintro e he q rfl
  cases h _ he

/-- A review that lets a payload pass has read a budget that is not below the threshold, and changes
nothing. -/
theorem Reflected.after {S : Setting} {q : Payload} {g : Trace Call.Reply} (h : Reflected S x q g)
    (a : Account) (now : Instant) :
    a.after now g = a ∧ ∃ b v w, g = v ++ ⟨.budget x.peer, some b⟩ :: w ∧ a.after now v = a ∧
      budgetTightenThreshold ≤ b := by
  cases h with
  | @intro stage hint raw b hfilter hhint hbudget hverdict =>
    exact ⟨rfl, b, [⟨.reserveProvider x.peer x.today, some true⟩], _, rfl, rfl, hbudget⟩

/-- What a call of `process_outbound` does: nothing is sent and the budget does not rise, or a
payload is sent and the budget falls by the minimum at least. -/
theorem trace_cases (S : Setting) (j : Outbound) (a : Account) :
    let a' := a.after j.x.now (j.trace S a)
    (a'.sent = a.sent ∧
        getDisclosureBudget a'.row j.x.now ≤ getDisclosureBudget a.row j.x.now) ∨
      (a'.sent = j.x.now :: a.sent ∧
        getDisclosureBudget a'.row j.x.now + minSendDebit ≤ getDisclosureBudget a.row j.x.now) := by
  intro a'
  set now := j.x.now with hnow
  have hrun := runs_run (j.env a) (j.x.processOutbound S (fun p => ask (.send p)) j.payload) []
  have hpaid : Paid j.x (j.trace S a) := leaves_paid_processOutbound S j.x j.payload _ _ hrun
  have hreply : ∀ v e w, j.trace S a = v ++ e :: w → e.reply = j.env a v e.query :=
    fun v e w heq => reply_of_run (t := []) heq
  have hle : getDisclosureBudget a'.row now ≤ getDisclosureBudget a.row now :=
    a.after_budget_le now hpaid.debits
  rcases processOutbound_cases hrun with
    ⟨hinner, -⟩ | ⟨q, ad, v, g, s, w, so, ⟨htrace, hg, hs, hw⟩, hadmitted, hv⟩
  · exact .inl ⟨a.after_sent now hinner.ne_send, hle⟩
  obtain rfl : s = _ := runs_ask.mp hs
  have hbefore : Inner (ad ++ v ++ g ++ [⟨.reserveOutbound j.x.peer j.x.today, some true⟩]) := by
    simp [hadmitted.unrevised.inner, hv.inner, hg.unrevised.inner, Call.inner]
  set before := ad ++ v ++ g ++ [⟨.reserveOutbound j.x.peer j.x.today, some true⟩] with hdef
  have heq : j.trace S a = before ++ ⟨.send q, so⟩ :: w := by
    rw [hdef]
    exact htrace.trans (by simp)
  cases so with
  | none =>
    refine .inl ⟨a.after_sent now fun e he => ?_, hle⟩
    rw [heq] at he
    rcases List.mem_append.mp he with he | he
    · exact hbefore.ne_send e he
    · rcases List.mem_cons.mp he with rfl | he
      · rintro _ ⟨⟩
      · exact hw.inner.ne_send e he
  | some done =>
    -- The updates do not raise, so that the debit is made.
    rcases hpaid.sends before q w heq with ⟨w', rfl⟩ | ⟨amount, r, w', rfl⟩
    · have hbump := hreply (before ++ [⟨.send q, some ()⟩]) ⟨.bump j.x.peer j.x.session, none⟩ w'
        (by rw [heq]; simp)
      cases hbump
    have hdebit : r = some () :=
      hreply (before ++ [⟨.send q, some ()⟩, ⟨.bump j.x.peer j.x.session, some ()⟩])
        ⟨.debit j.x.peer amount, r⟩ w' (by rw [heq]; simp)
    subst hdebit
    have hamount : minSendDebit ≤ amount :=
      hpaid.debits ⟨.debit j.x.peer amount, some ()⟩ (by rw [heq]; simp) j.x.peer amount rfl
    set A := a.after now before with hA
    have hsent : A.sent = a.sent := a.after_sent now hbefore.ne_send
    have hA_le : getDisclosureBudget A.row now ≤ getDisclosureBudget a.row now := by
      refine a.after_budget_le now fun e he => hpaid.debits e ?_
      rw [heq]
      exact List.mem_append_left _ he
    -- The budget that the review has read is still there.
    have hbudget : budgetTightenThreshold ≤ getDisclosureBudget A.row now := by
      obtain ⟨hsame, b, g₁, g₂, rfl, hg₁, hb⟩ := hg.after (a.after now (ad ++ v)) now
      have hA_eq : A = a.after now (ad ++ v) := by
        rw [hA, hdef, Account.after_append, Account.after_append, hsame]
        rfl
      have hread := hreply (ad ++ v ++ g₁) ⟨.budget j.x.peer, some b⟩ _ (by rw [heq, hdef]; simp; rfl)
      obtain ⟨_, -, hget⟩ := Option.map_eq_some_iff.mp hread.symm
      rw [← hnow, Account.after_append, hg₁] at hget
      rw [hA_eq, hget]
      exact hb
    set paid : Account := ⟨some (debitDisclosureBudget A.row amount now), A.clock, now :: A.sent⟩
    have hafter : a' = paid.after now w' := by
      show a.after now (j.trace S a) = _
      rw [heq, Account.after_append]
      rfl
    have hmin : (0 : ℚ) ≤ minSendDebit := by norm_num [minSendDebit]
    have hroom : minSendDebit ≤ budgetTightenThreshold := by
      norm_num [minSendDebit, budgetTightenThreshold]
    have hpaid_eq : getDisclosureBudget paid.row now =
        max 0 (getDisclosureBudget A.row now - amount) :=
      getDisclosureBudget_debit (hmin.trans hamount)
    have hfall : getDisclosureBudget paid.row now + minSendDebit ≤ getDisclosureBudget A.row now := by
      rw [hpaid_eq, ← le_sub_iff_add_le]
      exact max_le (by linarith) (by linarith)
    have hw' : Inner w' := (inner_cons.mp (inner_cons.mp hw.inner).2).2
    have hrest : getDisclosureBudget a'.row now ≤ getDisclosureBudget paid.row now := by
      rw [hafter]
      refine paid.after_budget_le now fun e he => hpaid.debits e ?_
      rw [heq]
      simp [he]
    refine .inr ⟨?_, by linarith⟩
    rw [hafter, paid.after_sent now hw'.ne_send, ← hsent]

/-! ## The bound -/

/-- The sends of a peer within `T` days from `start`. -/
def Account.sentWithin (a : Account) (start T : ℚ) : ℕ :=
  a.sent.countP fun t => start ≤ days t ∧ days t ≤ start + T

/-- What was sent in an interval is paid from the budget that it started with and the refill. -/
def Account.Pays (start T : ℚ) (a : Account) : Prop :=
  Within budgetMax budgetRefillPerDay start T (days a.clock) (getDisclosureBudget a.row a.clock)
    (minSendDebit * a.sentWithin start T)

variable {S : Setting} {peer : Text} {start T : ℚ}

theorem Account.Pays.step {a a' : Account} {j : Outbound} (h : a.Pays start T)
    (hstep : (disclosing S peer).step a j = some a') : a'.Pays start T := by
  have hrate : (0 : ℚ) ≤ budgetRefillPerDay := by norm_num [budgetRefillPerDay]
  obtain ⟨⟨-, hclock⟩, heq⟩ := Option.ite_none_right_eq_some.mp hstep
  obtain rfl := Option.some.inj heq
  -- The clock goes on to the call, and then the call is made.
  have hwait : Within budgetMax budgetRefillPerDay start T (days j.x.now)
      (getDisclosureBudget a.row j.x.now) (minSendDebit * a.sentWithin start T) :=
    h.wait hrate (days_mono hclock) (getDisclosureBudget_le_add hclock) getDisclosureBudget_le_max
  unfold Account.Pays Account.sentWithin
  rcases trace_cases S j a with ⟨hsent, hle⟩ | ⟨hsent, hle⟩
  · rw [hsent]
    exact hwait.drop hle
  · have hpay := hwait.pay hrate getDisclosureBudget_nonneg hle
    have hpaid : minSendDebit * ((a.after j.x.now (j.trace S a)).sent.countP
          fun t => start ≤ days t ∧ days t ≤ start + T : ℕ) =
        if start ≤ days j.x.now ∧ days j.x.now ≤ start + T then
          minSendDebit * a.sentWithin start T + minSendDebit
        else minSendDebit * a.sentWithin start T := by
      rw [hsent, List.countP_cons]
      by_cases hin : start ≤ days j.x.now ∧ days j.x.now ≤ start + T
      · simp only [hin, and_self, decide_true, if_true]
        push_cast
        rw [mul_add, mul_one]
        rfl
      · simp only [hin, decide_false, Bool.false_eq_true, if_false, add_zero]
        rfl
    rw [hpaid]
    exact hpay

/-- However the gate decides, within `T` days a peer is sent no more than the budget and its refill
allow, and the budget stays within its bounds. -/
theorem crumb_bound (S : Setting) (peer : Text) (a : Account) (h : (disclosing S peer).Reachable a) :
    (∀ now, 0 ≤ getDisclosureBudget a.row now ∧ getDisclosureBudget a.row now ≤ budgetMax) ∧
      ∀ start T : ℚ, 0 ≤ T →
        a.sentWithin start T ≤ (budgetMax + budgetRefillPerDay * T) / minSendDebit := by
  refine ⟨fun now => ⟨getDisclosureBudget_nonneg, getDisclosureBudget_le_max⟩, fun start T hT => ?_⟩
  have hmax : (0 : ℚ) ≤ budgetMax := by norm_num [budgetMax]
  have hrate : (0 : ℚ) ≤ budgetRefillPerDay := by norm_num [budgetRefillPerDay]
  have hmin : (0 : ℚ) < minSendDebit := by norm_num [minSendDebit]
  have hpays : a.Pays start T := by
    refine h.invariant (fun a ⟨hrow, hsent⟩ => ?_) fun a j a' ha _ hstep => ha.step hstep
    have hinit : Within budgetMax budgetRefillPerDay start T (days a.clock)
        (getDisclosureBudget a.row a.clock) 0 := .init hmax hrate hT getDisclosureBudget_le_max
    unfold Account.Pays Account.sentWithin
    rw [hsent, List.countP_nil, Nat.cast_zero, mul_zero]
    exact hinit
  rw [le_div_iff₀ hmin, mul_comm]
  exact hpays.bounded

/-- An unhindered message. -/
def unhinderedAt (now : Instant) : Outbound :=
  ⟨⟨"moss".toList, "s1".toList, [], "reply".toList, now, "2026-07-01".toList⟩,
    ⟨"hello".toList, none⟩, unhindered⟩

/-- Two messages, a minute apart. -/
theorem crumb_bound_twice :
    ∃ a, (disclosing lenient "moss".toList).Reachable a ∧ a.sent = [60000000, 0] ∧
      (((∀ now, 0 ≤ getDisclosureBudget a.row now ∧ getDisclosureBudget a.row now ≤ budgetMax) ∧
        ∀ start T : ℚ, 0 ≤ T →
          a.sentWithin start T ≤ (budgetMax + budgetRefillPerDay * T) / minSendDebit) ∧
        a.sentWithin 0 1 ≤ (budgetMax + budgetRefillPerDay * 1) / minSendDebit) := by
  obtain ⟨a, ha, hsent⟩ := Machine.exists_reach_of_runWithin
    (M := disclosing lenient "moss".toList) (D := fun _ _ => True) (fun _ _ h => h)
    (s := ⟨none, 0, []⟩) ⟨rfl, rfl⟩ [unhinderedAt 0, unhinderedAt 60000000]
    (fun a => a.sent = [60000000, 0]) (by decide +kernel)
  exact ⟨a, ha, of_decide_eq_true hsent, crumb_bound _ _ _ ha, (crumb_bound _ _ _ ha).2 0 1 zero_le_one⟩

end Companion.Kindled

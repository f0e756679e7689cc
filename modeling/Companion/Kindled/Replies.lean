import Companion.Dict
import Companion.Kindled.Counters
import Companion.Kindled.Drafts
import Mathlib.Data.List.Sort

/-!
# Replies to a peer

The ticks of one peer (`_tick_peer` of `brain/kindled_link/tick.py`) over the tables of the store
that they read and write: `transcript`, `sessions`, `peer_counters` and `outbound_drafts`. Between
two ticks a message may be accepted (`poll_and_ingest` of `transport.py`), and the rest of the
process may change all tables but the transcript. The model, the throttle and the relay answer as
they like.

A tick replies where the peer's transcript has an inbound row. No reply is ever recorded in the
transcript, so a message that was replied to counts as fresh for good.
-/

namespace Companion.Kindled.Replies

open Companion.Memory Companion.Effects Companion.Runs

/-- A row of `transcript`. -/
structure Entry where
  session : Text
  sequence : ℕ
  inbound : Bool
  text : Text
  deriving DecidableEq

/-- What is kept of the past: a message was accepted, or a reply got the status of one that was
sent. -/
inductive Mark
  | accepted
  | replied
  deriving DecidableEq

/-- The tables, and the marks with the latest first. -/
structure Tables where
  transcript : List Entry
  /-- The sessions in the order in which they were started. -/
  sessions : Dict Text SessionRow
  counters : Option Counters.Row
  /-- The drafts with their status, or none where that is `pending`. -/
  drafts : List (Draft × Option Action)
  log : List Mark
  deriving DecidableEq

namespace Tables

variable (t : Tables)

/-- `recent_transcript` -/
def recentTranscript : List (Bool × Text) :=
  ((t.transcript.insertionSort fun e e' => e'.sequence ≤ e.sequence).take 10).map fun e =>
    (e.inbound, e.text)

/-- `has_fresh_inbound` -/
def hasFreshInbound : Bool := t.recentTranscript.any (·.1)

/-- `get_active_session` -/
def activeSession : Option Text := (t.sessions.entries.reverse.find? (·.2.isOpen)).map (·.1)

/-- `get_counters` -/
def getCounters (today : Text) : Counters :=
  ⟨(Counters.getCounters t.counters today).1, (Counters.getCounters t.counters today).2⟩

/-- The caps of `try_reserve_outbound` and `try_reserve_provider`. -/
def caps : Counters.Caps := ⟨dailyOutboundCap, dailyProviderCap⟩

/-- A call that writes the counters, and its reply. -/
def count (today : Text) (c : Counters.Call) : Tables × Bool :=
  match Counters.ensureCounterRow (t.counters.map (·.resetDate)) today t.counters with
  | none => (t, false)
  | some r => ({ t with counters := some (Counters.update caps r c).1 }, (Counters.update caps r c).2)

/-- `bump_session_outbound` -/
def bumpSession (session : Text) (now : Instant) : Tables :=
  { t with
    sessions := t.sessions.filterMap fun id row =>
      some (if id = session then
        { row with msgCount := row.msgCount + 1, lastOutboundAt := some now } else row) }

/-- `end_session` -/
def endSession (session : Text) : Tables :=
  { t with
    sessions := t.sessions.filterMap fun id row =>
      some (if id = session then { row with isOpen := false } else row) }

/-- What a call leaves. -/
def note (now : Instant) : Event Call.Reply → Tables
  | ⟨.reserveProvider _ today, some _⟩ => (t.count today .tryReserveProvider).1
  | ⟨.releaseProvider _ today, some _⟩ => (t.count today .releaseProviderSlot).1
  | ⟨.reserveOutbound _ today, some _⟩ => (t.count today .tryReserveOutbound).1
  | ⟨.bump _ session, some _⟩ => t.bumpSession session now
  | ⟨.endSession _ session _, some _⟩ => t.endSession session
  | ⟨.saveDraft peer session payload, some nr⟩ =>
    { t with drafts := t.drafts ++ [(⟨nr, peer, session, payload⟩, none)] }
  | ⟨.setDraftStatus nr status, some _⟩ =>
    { t with drafts := t.drafts.map fun d => if d.1.nr = nr then (d.1, some status) else d }
  | _ => t

def after (now : Instant) (u : Trace Call.Reply) : Tables := u.foldl (fun t e => t.note now e) t

/-- The outside with the tables. A call on them may raise. -/
def env (now : Instant) (outside : Env Call.Reply) : Env Call.Reply := fun u c =>
  match c with
  | .activeSession peer => (outside u (.activeSession peer)).map fun _ => (t.after now u).activeSession
  | .session peer session =>
    (outside u (.session peer session)).map fun _ => (t.after now u).sessions.get? session
  | .counters peer today => (outside u (.counters peer today)).map fun _ => (t.after now u).getCounters today
  | .reserveProvider peer today =>
    (outside u (.reserveProvider peer today)).map fun _ =>
      ((t.after now u).count today .tryReserveProvider).2
  | .reserveOutbound peer today =>
    (outside u (.reserveOutbound peer today)).map fun _ =>
      ((t.after now u).count today .tryReserveOutbound).2
  | .saveDraft peer session payload =>
    (outside u (.saveDraft peer session payload)).map fun _ => (t.after now u).drafts.length + 1
  | .transcript peer => (outside u (.transcript peer)).map fun _ => (t.after now u).recentTranscript
  | c => outside u c

/-- The calls of a tick. -/
def tickTrace (S : Setting) (peer : Text) (now : Instant) (outside : Env Call.Reply) : Trace Call.Reply :=
  ((S.tickPeer now peer).run (t.env now outside) []).1

end Tables

/-- The draft of a tick gets the status of one that was sent. -/
def sets (e : Event Call.Reply) : Bool :=
  match e with
  | ⟨.setDraftStatus _ .send, some _⟩ => true
  | _ => false

/-- What happens to a peer. -/
inductive Step
  /-- `append_transcript` of a message that is accepted. -/
  | accept (session : Text) (sequence : ℕ) (text : Text)
  | tick (now : Instant) (outside : Env Call.Reply)
  /-- The rest of the process: sessions are opened and ended, drafts recovered, slots counted. -/
  | other (sessions : Dict Text SessionRow) (counters : Option Counters.Row)
    (drafts : List (Draft × Option Action))

/-- The tables after a step. A tick has replied where it has found an inbound row in an active
session. -/
def step (S : Setting) (peer : Text) (t : Tables) : Step → Tables
  | .accept session sequence text =>
    { t with transcript := t.transcript ++ [⟨session, sequence, true, text⟩], log := .accepted :: t.log }
  | .tick now outside =>
    let u := t.tickTrace S peer now outside
    let replies := if t.activeSession.isSome && t.hasFreshInbound then u.countP sets else 0
    { t.after now u with log := List.replicate replies .replied ++ t.log }
  | .other sessions counters drafts =>
    { t with sessions := sessions, counters := counters, drafts := drafts }

/-- One peer, from tables in which no message has been accepted. -/
def machine (S : Setting) (peer : Text) : Machine Tables Step where
  init t := t.transcript = [] ∧ t.log = []
  step t a := some (step S peer t a)

/-- Before each reply a message was accepted, and after any reply before it. -/
def OnePerMessage (log : List Mark) : Prop :=
  ∀ v w, log = v ++ .replied :: w → ∃ w', w = .accepted :: w'

/-- The session may send: it is open, the gap is met, and the caps are not. -/
def Tables.admits (t : Tables) (session : Text) (now : Instant) (today : Text) : Prop :=
  ∃ row, t.sessions.get? session = some row ∧ row.isOpen = true ∧ row.spaced now = true ∧
    row.msgCount < sessionMsgCap ∧ (t.getCounters today).underCaps = true

/-- The gate may let a draft pass: a slot is granted, the budget is not below the threshold, and a
verdict is to send. -/
def Lets (S : Setting) (peer : Text) (outside : Env Call.Reply) : Prop :=
  (∃ u, outside u .enterSlot = some true) ∧
  (∃ u b, outside u (.budget peer) = some b ∧ budgetTightenThreshold ≤ b) ∧
    ∃ u prompt raw, outside u (.complete prompt) = some raw ∧ (S.parseVerdict raw).action = .send

/-- A tick that takes an inbound row to be fresh finds that a message was accepted since the last
reply, or that the session may not send, or a gate that lets nothing pass. -/
def Owed (S : Setting) (peer : Text) (t : Tables) : Step → Prop
  | .tick now outside =>
    ∀ session, t.activeSession = some session → t.hasFreshInbound = true →
      t.log.head? = some .accepted ∨ ¬t.admits session now (S.dayOf now) ∨ ¬Lets S peer outside
  | _ => True

/-! ## A draft from its making to its status -/

variable {S : Setting} {x : Sending} {u : Trace Call.Reply} {t : Tables} {now : Instant}

/-- No draft gets the status of one that was sent. -/
def Unset (u : Trace Call.Reply) : Prop := ∀ e ∈ u, sets e = false

@[simp]
theorem unset_append {u v : Trace Call.Reply} : Unset (u ++ v) ↔ Unset u ∧ Unset v :=
  List.forall_mem_append

@[simp]
theorem unset_cons {e : Event Call.Reply} : Unset (e :: u) ↔ sets e = false ∧ Unset u :=
  List.forall_mem_cons

@[simp]
theorem unset_nil : Unset [] :=
  nofun

theorem unset_of_ne (h : ∀ e ∈ u, ∀ nr, e.query ≠ .setDraftStatus nr .send) : Unset u := by
  rintro ⟨c, r⟩ he
  cases c with
  | setDraftStatus nr status =>
    cases status with
    | send => exact absurd rfl (h _ he nr)
    | _ => cases r <;> rfl
  | _ => rfl

/-- The calls that make a draft. -/
def Drafting (today : Text) : Call → Prop
  | .relationship _ | .enterSlot | .exitSlot | .complete _ | .saveDraft _ _ _ => True
  | .reserveProvider _ d => d = today
  | _ => False

theorem unset_of_drafting {today : Text} (h : ∀ e ∈ u, Drafting today e.query) : Unset u := by
  refine unset_of_ne fun e he nr heq => ?_
  have hdrafting := h e he
  rw [heq] at hdrafting
  exact hdrafting

theorem only_generateDraft (peer stage summary today : Text) :
    Only (Drafting today) (Setting.generateDraft peer stage summary today) := by
  refine .bind (only_ask.mpr trivial) fun row => only_withSlot trivial trivial fun granted => ?_
  refine only_ite (.bind (only_ask.mpr rfl) fun reserved => only_ite ?_ trivial) trivial
  exact .bind (only_ask.mpr trivial) fun _ => trivial

/-- A draft that is processed is not sent, or its status is set at the end, after a run of
`process_outbound` that says so. -/
theorem runs_attempt {nr : ℕ} {p : Payload} {o : Option Unit} (h : Runs (S.attempt x nr p) u o) :
    Unset u ∨ ∃ s r, u = s ++ [⟨.setDraftStatus nr .send, r⟩] ∧ Unset s ∧
      Runs (x.processOutbound S (makeSendFn x.peer x.session) p) s (some .send) := by
  rcases runs_bind.mp h with ⟨action, s, w, rfl, hs, hset⟩ | ⟨-, hs⟩
  · have hunset : Unset s := unset_of_ne (ne_setDraftStatus hs)
    obtain rfl := runs_ask.mp hset
    cases action with
    | send => exact .inr ⟨s, o, rfl, hunset, hs⟩
    | _ => exact .inl (unset_append.mpr ⟨hunset, by cases o <;> simp [sets]⟩)
  · exact .inl (unset_of_ne (ne_setDraftStatus hs))

/-- So is a draft that is made. -/
theorem runs_compose {o : Option Unit} (h : Runs (S.compose x) u o) :
    Unset u ∨ ∃ pre s nr r p, u = pre ++ (s ++ [⟨.setDraftStatus nr .send, r⟩]) ∧
      (∀ e ∈ pre, Drafting x.today e.query) ∧ Unset s ∧
      Runs (x.processOutbound S (makeSendFn x.peer x.session) p) s (some .send) := by
  rcases runs_ask_bind.mp h with ⟨row, u₁, rfl, h₁⟩ | ⟨-, rfl⟩
  · have hdraft := only_generateDraft x.peer (row.elim "stranger".toList (·.1)) x.summary x.today
    rcases runs_bind.mp h₁ with ⟨body, v, w, rfl, hv, hw⟩ | ⟨-, hv⟩
    · have hmade : Unset v := unset_of_drafting (hdraft.of_runs hv)
      cases body with
      | none =>
        obtain ⟨rfl, -⟩ := hw
        exact .inl (by simp [sets, hmade])
      | some body =>
        dsimp only at hw
        rcases runs_ask_bind.mp hw with ⟨nr, w₁, rfl, hattempt⟩ | ⟨-, rfl⟩
        · rcases runs_attempt hattempt with hunset | ⟨s, r, rfl, hunset, hs⟩
          · exact .inl (by simp [sets, hmade, hunset])
          · refine .inr ⟨⟨.relationship x.peer, some row⟩ :: (v ++
              [⟨.saveDraft x.peer x.session ⟨body, none⟩, some nr⟩]), s, nr, r, _, by simp, ?_, hunset, hs⟩
            refine List.forall_mem_cons.mpr ⟨trivial, List.forall_mem_append.mpr ⟨hdraft.of_runs hv, ?_⟩⟩
            exact List.forall_mem_singleton.mpr trivial
        · exact .inl (by simp [sets, hmade])
    · exact .inl (unset_cons.mpr ⟨rfl, unset_of_drafting (hdraft.of_runs hv)⟩)
  · exact .inl (by simp [sets])

/-! ## What the tables say -/

theorem Tables.after_append (t : Tables) (now : Instant) (u v : Trace Call.Reply) :
    t.after now (u ++ v) = (t.after now u).after now v :=
  List.foldl_append

/-- A slot that is reserved only adds to the counts of its day. -/
theorem underCaps_of_count (t : Tables) (today : Text)
    (h : ((t.count today .tryReserveProvider).1.getCounters today).underCaps = true) :
    (t.getCounters today).underCaps = true := by
  unfold Tables.getCounters Counters.underCaps at *
  cases hrow : t.counters with
  | none => rfl
  | some row =>
    by_cases hday : row.resetDate = today
    · subst hday
      have hcount : (t.count row.resetDate .tryReserveProvider).1.counters =
          some (Counters.update Tables.caps row .tryReserveProvider).1 := by
        unfold Tables.count
        simp [hrow, Counters.ensureCounterRow]
      rw [hcount] at h
      simp only [Counters.update] at h
      split_ifs at h with hroom
      · simp only [Counters.getCounters, ne_eq, not_true, if_false, decide_eq_true_eq] at h ⊢
        omega
      · simpa [Counters.getCounters] using h
    · simp [Counters.getCounters, hday, dailyOutboundCap, dailyProviderCap]

/-- The making of a draft changes no session, and only adds to the counts. -/
theorem after_drafting {today : Text} (t : Tables) (now : Instant)
    (h : ∀ e ∈ u, Drafting today e.query) :
    (t.after now u).sessions = t.sessions ∧
      (((t.after now u).getCounters today).underCaps = true →
        (t.getCounters today).underCaps = true) := by
  induction u generalizing t with
  | nil => exact ⟨rfl, id⟩
  | cons e u ih =>
    obtain ⟨hsessions, hcaps⟩ := ih (t.note now e) fun e he => h e (List.mem_cons_of_mem _ he)
    obtain ⟨hsame, hcount⟩ : (t.note now e).sessions = t.sessions ∧
        (((t.note now e).getCounters today).underCaps = true →
          (t.getCounters today).underCaps = true) := by
      have he := h e List.mem_cons_self
      obtain ⟨c, r⟩ := e
      cases c with
      | reserveProvider peer d =>
        obtain rfl : d = today := he
        cases r with
        | none => exact ⟨rfl, id⟩
        | some r =>
          refine ⟨?_, underCaps_of_count t d⟩
          show (t.count d .tryReserveProvider).1.sessions = t.sessions
          unfold Tables.count
          split <;> rfl
      | saveDraft peer session payload => cases r <;> exact ⟨rfl, id⟩
      | relationship _ | enterSlot | exitSlot | complete _ => exact ⟨rfl, id⟩
      | _ => exact he.elim
    exact ⟨hsessions.trans hsame, fun h => hcount (hcaps h)⟩

/-- An admission that succeeds has found a session that may send. -/
theorem admits_of_admitted (t : Tables) (outside : Env Call.Reply) (before : Trace Call.Reply)
    {a w : Trace Call.Reply} (h : Admitted x a) (hu : u = before ++ (a ++ w))
    (hreply : ∀ v e w, u = v ++ e :: w → e.reply = t.env x.now outside v e.query) :
    (t.after x.now before).admits x.session x.now x.today := by
  cases h with
  | @intro opened spaced counted c hopen hgap hcap hcaps =>
    -- The row is read three times, and nothing is written in between.
    have hrow : ∀ v row w, u = before ++ v ++ ⟨.session x.peer x.session, some (some row)⟩ :: w →
        t.after x.now (before ++ v) = t.after x.now before →
        (t.after x.now before).sessions.get? x.session = some row := by
      intro v row w hu hsame
      have hread := hreply (before ++ v) _ w hu
      obtain ⟨_, -, hget⟩ := Option.map_eq_some_iff.mp hread.symm
      rw [← hsame]
      exact hget
    set e₁ : Event Call.Reply := ⟨.session x.peer x.session, some (some opened)⟩
    set e₂ : Event Call.Reply := ⟨.session x.peer x.session, some (some spaced)⟩
    set e₃ : Event Call.Reply := ⟨.session x.peer x.session, some (some counted)⟩
    have hopened := hrow [] opened _ (by rw [hu]; simp [e₁]; rfl) (by rw [List.append_nil])
    have hspaced := hrow [e₁] spaced _ (by rw [hu]; simp [e₂]; rfl) (by rw [Tables.after_append]; rfl)
    have hcounted := hrow [e₁, e₂] counted _ (by rw [hu]; simp [e₃]; rfl)
      (by rw [Tables.after_append]; rfl)
    have hread := hreply (before ++ [e₁, e₂, e₃]) ⟨.counters x.peer x.today, some c⟩ w (by rw [hu]; simp)
    obtain ⟨_, -, hcounters⟩ := Option.map_eq_some_iff.mp hread.symm
    rw [Tables.after_append] at hcounters
    -- It is the same row each time.
    obtain rfl : spaced = opened := Option.some.inj (hspaced.symm.trans hopened)
    obtain rfl : counted = spaced := Option.some.inj (hcounted.symm.trans hopened)
    have hunder : ((t.after x.now before).getCounters x.today).underCaps = true := by
      have hsame : (t.after x.now before).getCounters x.today = c := hcounters
      rw [hsame]
      exact decide_eq_true hcaps
    exact ⟨counted, hopened, hopen, hgap, hcap, hunder⟩

/-- A review that lets a payload pass was let to by the outside. -/
theorem lets_of_reflected (t : Tables) {outside : Env Call.Reply} {q : Payload} {g : Trace Call.Reply}
    (h : Reflected S x q g) (hreply : ∀ e ∈ g, ∃ v, e.reply = t.env now outside v e.query) :
    Lets S x.peer outside := by
  cases h with
  | @intro stage hint raw b hfilter hhint hbudget hverdict =>
    obtain ⟨v₁, hslot⟩ := hreply ⟨.enterSlot, some true⟩ (by simp)
    obtain ⟨v₂, hread⟩ := hreply ⟨.budget x.peer, some b⟩ (by simp)
    obtain ⟨v₃, hraw⟩ :=
      hreply ⟨.complete (.gate q.body hint x.summary x.reason stage true), some raw⟩ (by simp)
    exact ⟨⟨v₁, hslot.symm⟩, ⟨v₂, b, hread.symm, hbudget⟩, v₃, _, raw, hraw.symm, hverdict⟩

/-- A tick that finds an inbound row in an active session replies once at most, and only where the
session may send and the gate lets the draft pass. -/
theorem tick_replies (S : Setting) (peer : Text) (t : Tables) (now : Instant)
    (outside : Env Call.Reply) {session : Text} (hactive : t.activeSession = some session)
    (hfresh : t.hasFreshInbound = true) :
    Unset (t.tickTrace S peer now outside) ∨
      (t.tickTrace S peer now outside).countP sets ≤ 1 ∧ t.admits session now (S.dayOf now) ∧
        Lets S peer outside := by
  have hrun := runs_run (t.env now outside) (S.tickPeer now peer) []
  have hreply : ∀ v e w, t.tickTrace S peer now outside = v ++ e :: w →
      e.reply = t.env now outside v e.query := fun v e w heq => reply_of_run heq
  have hmem : ∀ e ∈ t.tickTrace S peer now outside, ∃ v, e.reply = t.env now outside v e.query :=
    fun e he => exists_reply_of_mem he
  change Runs _ (t.tickTrace S peer now outside) _ at hrun
  set u := t.tickTrace S peer now outside
  rcases runs_ask_bind.mp hrun with ⟨active, u₁, heq, h₁⟩ | ⟨-, heq⟩
  · -- The session and the transcript are those of the tables.
    have hread := hreply [] _ _ heq
    obtain ⟨_, -, hsame⟩ := Option.map_eq_some_iff.mp hread.symm
    obtain rfl : some session = active := hactive.symm.trans hsame
    dsimp only at h₁
    rcases runs_ask_bind.mp h₁ with ⟨rows, u₂, rfl, h₂⟩ | ⟨-, rfl⟩
    · have hread := hreply [_] _ _ heq
      obtain ⟨_, -, hsame⟩ := Option.map_eq_some_iff.mp hread.symm
      obtain rfl : t.recentTranscript = rows := hsame
      rw [if_pos (c := t.recentTranscript.any (·.1) = true) hfresh] at h₂
      rcases runs_compose h₂ with hunset | ⟨pre, s, nr, r, p, rfl, hpre, hunset, hs⟩
      · refine .inl ?_
        rw [heq]
        simp [sets, hunset]
      · rcases processOutbound_cases hs with
          ⟨-, hne⟩ | ⟨q, a, v, g, s', w, so, hq, hadmitted, hv⟩
        · exact absurd rfl hne
        refine .inr ⟨?_, ?_, ?_⟩
        · have hpre_count : pre.countP sets = 0 :=
            List.countP_eq_zero.mpr fun e he => by
              rw [unset_of_drafting hpre e he]
              exact Bool.false_ne_true
          have hs_count : s.countP sets = 0 :=
            List.countP_eq_zero.mpr fun e he => by rw [hunset e he]; exact Bool.false_ne_true
          have hlast : [(⟨.setDraftStatus nr .send, r⟩ : Event Call.Reply)].countP sets ≤ 1 :=
            List.countP_le_length
          have hhead : ∀ w, (⟨.activeSession peer, some (some session)⟩ ::
              ⟨.transcript peer, some t.recentTranscript⟩ :: w : Trace Call.Reply).countP sets =
                w.countP sets := fun w => by simp [sets]
          rw [heq, hhead, List.countP_append, List.countP_append, hpre_count, hs_count]
          omega
        · rw [hq.trace] at heq
          -- What was called before the admission leaves the sessions as they are.
          obtain ⟨hsessions, hunder⟩ := after_drafting t now hpre
          obtain ⟨row, hrow, hopen, hgap, hcap, hcaps⟩ := admits_of_admitted t outside
            (⟨.activeSession peer, some (some session)⟩ ::
              ⟨.transcript peer, some t.recentTranscript⟩ :: pre) hadmitted
            (heq.trans (by simp; rfl)) hreply
          exact ⟨row, hsessions ▸ hrow, hopen, hgap, hcap, hunder hcaps⟩
        · rw [hq.trace] at heq
          have hreview : ∀ e ∈ g, e ∈ u := fun e he => by rw [heq]; simp [he]
          exact lets_of_reflected t hq.reflected fun e he => hmem e (hreview e he)
    · refine .inl ?_
      rw [heq]
      simp [sets]
  · refine .inl ?_
    rw [heq]
    simp [sets]

/-! ## One reply for each message -/

/-- Where every tick that replies is owed a reply, each reply answers a message that was accepted
after the reply before it. -/
theorem one_reply_per_message (S : Setting) (peer : Text) (t : Tables)
    (h : (machine S peer).Reach (Owed S peer) t) : OnePerMessage t.log := by
  have hinit : ∀ t, (machine S peer).init t → OnePerMessage t.log := by
    rintro t ⟨-, hlog⟩ v w heq
    rw [hlog] at heq
    cases v <;> cases heq
  refine h.invariant (I := fun t => OnePerMessage t.log) hinit fun t a t' hone howed hstep => ?_
  obtain rfl := Option.some.inj hstep
  cases a with
  | accept session sequence text =>
    intro v w heq
    cases v with
    | nil => cases (List.cons.inj heq).1
    | cons m v => exact hone v w (List.cons.inj heq).2
  | other sessions counters drafts => exact hone
  | tick now outside =>
    by_cases hfound : t.activeSession.isSome && t.hasFreshInbound
    · obtain ⟨hsome, hfresh⟩ := Bool.and_eq_true_iff.mp hfound
      obtain ⟨session, hactive⟩ := Option.isSome_iff_exists.mp hsome
      show OnePerMessage (List.replicate (if _ then _ else _) _ ++ t.log)
      rw [if_pos hfound]
      rcases tick_replies S peer t now outside hactive hfresh with hunset | ⟨hle, hadmits, hlets⟩
      · have hzero : (t.tickTrace S peer now outside).countP sets = 0 :=
          List.countP_eq_zero.mpr fun e he => by
            rw [hunset e he]
            exact Bool.false_ne_true
        rw [hzero]
        exact hone
      · -- The reply was owed, since the session may send and the gate lets it pass.
        have hhead : t.log.head? = some .accepted := by
          rcases howed session hactive hfresh with hhead | hnot | hnot
          · exact hhead
          · exact absurd hadmits hnot
          · exact absurd hlets hnot
        obtain ⟨rest, hlog⟩ := List.head?_eq_some_iff.mp hhead
        rcases Nat.le_one_iff_eq_zero_or_eq_one.mp hle with hcount | hcount
        · rw [hcount]
          exact hone
        · rw [hcount]
          intro v w heq
          cases v with
          | nil => exact ⟨rest, (List.cons.inj heq).2.symm.trans hlog⟩
          | cons m v => exact hone v w (List.cons.inj heq).2
    · show OnePerMessage (List.replicate (if _ then _ else _) _ ++ t.log)
      rw [if_neg hfound]
      exact hone

/-- A session that was opened. -/
def opened : Tables :=
  ⟨[], (∅ : Dict Text SessionRow).set "s1".toList ⟨true, 0, none⟩, none, [], []⟩

/-- A message was accepted right before. -/
def JustAccepted (t : Tables) : Step → Prop
  | .tick _ _ => t.log.head? = some .accepted
  | _ => True

instance (t : Tables) (a : Step) : Decidable (JustAccepted t a) := by
  unfold JustAccepted
  split <;> infer_instance

/-- Two messages and two replies. -/
theorem one_reply_per_message_twice :
    ∃ t, (machine lenient "moss".toList).Reach (Owed lenient "moss".toList) t ∧
      (t.log = [.replied, .accepted, .replied, .accepted] ∧ OnePerMessage t.log) := by
  obtain ⟨t, ht, hlog⟩ := Machine.exists_reach_of_runWithin (M := machine lenient "moss".toList)
    (D := JustAccepted) (C := Owed lenient "moss".toList)
    (fun t a h => by
      cases a with
      | tick now outside => exact fun _ _ _ => .inl h
      | _ => trivial)
    (s := opened) ⟨rfl, rfl⟩
    [.accept "s1".toList 1 "hi".toList, .tick 0 unhindered, .accept "s1".toList 2 "well".toList,
      .tick 60000000 unhindered]
    (fun t => t.log = [.replied, .accepted, .replied, .accepted]) (by decide +kernel)
  exact ⟨t, ht, of_decide_eq_true hlog, one_reply_per_message _ _ t ht⟩

/-- One message is replied to by two ticks, a minute apart. -/
theorem replied_twice :
    ∃ t, (machine lenient "moss".toList).Reachable t ∧ ¬OnePerMessage t.log := by
  obtain ⟨t, ht, hlog⟩ := Machine.exists_reach_of_runWithin (M := machine lenient "moss".toList)
    (D := fun _ _ => True) (fun _ _ h => h) (s := opened) ⟨rfl, rfl⟩
    [.accept "s1".toList 1 "hi".toList, .tick 0 unhindered, .tick 60000000 unhindered]
    (fun t => t.log = [.replied, .replied, .accepted]) (by decide +kernel)
  have heq : t.log = [.replied, .replied, .accepted] := of_decide_eq_true hlog
  refine ⟨t, ht, fun hone => ?_⟩
  obtain ⟨w, hw⟩ := hone [] _ heq
  cases hw

end Companion.Kindled.Replies

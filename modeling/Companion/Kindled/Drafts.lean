import Companion.Kindled.Engine

/-!
# Drafts and their status

What a tick (`brain/kindled_link/tick.py`) does with the drafts of outbound messages: `recover` of
`session_engine.py` takes up those that are pending, and `_tick_peer` makes a reply or an opener,
saves it, and passes it on. The `send_fn` of both is that of `_make_send_fn`, which calls
`send_message` of `transport.py`.

`send_message` says by its reply whether the message left, and `_make_send_fn` drops the reply. So a
draft gets the status of one that was sent also where its push failed. `recorded_iff` says when the
status is right.
-/

namespace Companion.Kindled

open Companion.Memory Companion.Effects

/-- `send_message`, which replies whether the message left. A push raises `RelayUnavailableError`.
-/
def sendMessage (peer session : Text) (p : Payload) : Link Bool := do
  let known : Bool ← ask (.sessionKey peer session)
  if known then do
    let sequence : ℕ ← ask (.nextSequence peer session)
    let mailbox : Text ← ask (.mailbox peer)
    Prog.tryExcept
      (do
        ask (.push ⟨peer, session, sequence, mailbox, p.body⟩)
        pure true)
      (pure false)
  else pure false

/-- `_make_send_fn` -/
def makeSendFn (peer session : Text) (p : Payload) : Link Unit := do
  let _ ← sendMessage peer session p
  pure ()

namespace Setting

variable (S : Setting)

/-- A draft is processed, and gets the action as its status. -/
def attempt (x : Sending) (nr : ℕ) (p : Payload) : Link Unit := do
  let action ← x.processOutbound S (makeSendFn x.peer x.session) p
  ask (.setDraftStatus nr action)

/-- One draft of `recover`: it stays pending where no message may be sent. -/
def recoverDraft (now : Instant) (d : Draft) : Link Unit := do
  let x : Sending := ⟨d.peer, d.session, [], "recovery-regate".toList, now, S.dayOf now⟩
  if ← x.sendAllowed then S.attempt x d.nr d.payload else pure ()

/-- `recover` -/
def recover (now : Instant) : Link Unit := do
  let drafts : List Draft ← ask .pendingDrafts
  drafts.forM (S.recoverDraft now)

/-- `generate_draft` -/
def generateDraft (peer stage summary today : Text) : Link (Option Text) := do
  let row : Option (Text × List Text) ← ask (.relationship peer)
  withSlot fun granted =>
    if granted then do
      let reserved : Bool ← ask (.reserveProvider peer today)
      if reserved then do
        let draft : Text ← ask (.complete (.draft stage summary (row.elim [] (·.2))))
        pure (some draft)
      else pure none
    else pure none

/-- A draft is made, saved as pending, and processed. -/
def compose (x : Sending) : Link Unit := do
  let row : Option (Text × List Text) ← ask (.relationship x.peer)
  let stage := row.elim "stranger".toList (·.1)
  match ← generateDraft x.peer stage x.summary x.today with
  | none => pure ()
  | some body => do
    let nr : ℕ ← ask (.saveDraft x.peer x.session ⟨body, none⟩)
    S.attempt x nr ⟨body, none⟩

/-- `_tick_peer`, where the start of a session and the reflection are left out. -/
def tickPeer (now : Instant) (peer : Text) : Link Unit := do
  let active : Option Text ← ask (.activeSession peer)
  match active with
  | none => ask .other
  | some session => do
    let transcript : List (Bool × Text) ← ask (.transcript peer)
    if transcript.any (·.1) then
      let summary := " | ".toList.intercalate (transcript.reverse.map (·.2))
      S.compose ⟨peer, session, summary, "peer-response".toList, now, S.dayOf now⟩
    else do
      let opens : Bool ← ask (.shouldOpen peer session)
      if opens then
        S.compose ⟨peer, session, [], "autonomous-open".toList, now, S.dayOf now⟩
      else pure ()

/-- What a tick does where the link is enabled: it recovers drafts, and takes each peer in turn. -/
def outbound (now : Instant) : Link Unit := do
  S.recover now
  let peers : List Text ← ask .pairedPeers
  peers.forM fun peer => (S.tickPeer now peer).tryExcept (pure ())

/-- `run_kindled_link_tick` -/
def tick (now : Instant) (enabled : Bool) : Link Unit := do
  let due : Bool ← ask .due
  if due then do
    ask .other
    if enabled then S.outbound now else pure ()
    ask .other
  else pure ()

/-- The supervisor's ticks, each of which may raise. -/
def ticks (schedule : List (Instant × Bool)) : Link Unit :=
  schedule.forM fun t => (S.tick t.1 t.2).tryExcept (pure ())

end Setting

/-! ## A message on its way -/

/-- The calls of `send_message`. -/
def Call.transmits : Call → Bool
  | sessionKey _ _ | nextSequence _ _ | mailbox _ | push _ => true
  | _ => false

/-- The envelope that an accepted push takes. -/
def pushed (e : Event Call.Reply) : Option Outgoing :=
  match e with
  | ⟨.push envelope, some _⟩ => some envelope
  | _ => none

/-- The envelopes that the relay accepts. -/
def pushes (u : Trace Call.Reply) : List Outgoing := u.filterMap pushed

theorem only_makeSendFn (peer session : Text) (p : Payload) :
    Only (fun c => c.transmits = true) (makeSendFn peer session p) := by
  refine .bind (.bind (only_ask.mpr rfl) fun known => only_ite ?_ trivial) fun _ => trivial
  refine .bind (only_ask.mpr rfl) fun sequence => .bind (only_ask.mpr rfl) fun mailbox => ?_
  exact .tryExcept (.bind (only_ask.mpr rfl) fun _ => trivial) trivial

/-- A `send_fn` that returns has found no key, or has pushed the message, whether or not the relay
took it. -/
theorem makeSendFn_cases {peer session : Text} {p : Payload} {s : Trace Call.Reply}
    (h : Runs (makeSendFn peer session p) s (some ())) :
    s = [⟨.sessionKey peer session, some false⟩] ∨
      ∃ (n : ℕ) (m : Text) (r : Option Unit), s = [⟨.sessionKey peer session, some true⟩,
        ⟨.nextSequence peer session, some n⟩, ⟨.mailbox peer, some m⟩,
        ⟨.push ⟨peer, session, n, m, p.body⟩, r⟩] := by
  rw [makeSendFn, runs_bind_some] at h
  obtain ⟨left, v, w, rfl, h, rfl, -⟩ := h
  rw [sendMessage, runs_ask_bind_some] at h
  obtain ⟨known, v, rfl, h⟩ := h
  cases known with
  | false =>
    obtain ⟨rfl, -⟩ := h
    exact .inl rfl
  | true =>
    rw [if_pos rfl, runs_ask_bind_some] at h
    obtain ⟨n, v, rfl, h⟩ := h
    rw [runs_ask_bind_some] at h
    obtain ⟨m, v, rfl, h⟩ := h
    rw [runs_tryExcept] at h
    rcases h with ⟨-, h⟩ | ⟨v, w, rfl, h, rfl, -⟩
    · rw [runs_ask_bind_some] at h
      obtain ⟨r, v, rfl, rfl, -⟩ := h
      exact .inr ⟨n, m, some r, rfl⟩
    · rw [runs_ask_bind] at h
      rcases h with ⟨r, w, rfl, -, h⟩ | ⟨-, rfl⟩
      · cases h
      · exact .inr ⟨n, m, none, rfl⟩

/-! ## When the status is right -/

/-- The relay has accepted an envelope to the peer, in the session, with exactly the body of the
draft. -/
def Delivered (d : Draft) (u : Trace Call.Reply) : Prop :=
  ∃ e ∈ pushes u, e.peer = d.peer ∧ e.session = d.session ∧ e.text = d.payload.body

/-- The key is there for every message, every push is accepted, and every revision leaves its text
as it is. -/
structure Faultless (u : Trace Call.Reply) : Prop where
  keyed : ∀ peer session, ⟨.sessionKey peer session, some false⟩ ∉ u
  accepted : ∀ e, ⟨.push e, none⟩ ∉ u
  unrevised : ∀ c body body', ⟨.complete (.revision c body), some body'⟩ ∈ u → body' = body

/-- The counters of the session and of the day are taken, and the disclosure budget is debited. -/
structure Taken (d : Draft) (today : Text) (u : Trace Call.Reply) : Prop where
  reserved : ⟨.reserveOutbound d.peer today, some true⟩ ∈ u
  bumped : ⟨.bump d.peer d.session, some ()⟩ ∈ u
  debited : ∃ amount, ⟨.debit d.peer amount, some ()⟩ ∈ u

theorem pushes_append (u v : Trace Call.Reply) : pushes (u ++ v) = pushes u ++ pushes v :=
  List.filterMap_append

theorem Inner.pushes_eq_nil {u : Trace Call.Reply} (h : Inner u) : pushes u = [] := by
  refine List.filterMap_eq_nil_iff.mpr ?_
  rintro ⟨c, r⟩ he
  have hc := h _ he
  cases c with
  | push e => cases hc
  | _ => rfl

theorem pushes_between {v s w : Trace Call.Reply} (hv : Inner v) (hw : Inner w) :
    pushes (v ++ (s ++ w)) = pushes s := by
  rw [pushes_append, pushes_append, hv.pushes_eq_nil, hw.pushes_eq_nil, List.nil_append,
    List.append_nil]

/-- A call that is not the engine's own is one of its `send_fn`. -/
theorem mem_between {e : Event Call.Reply} {v s w : Trace Call.Reply} (hv : Inner v) (hw : Inner w)
    (he : e.query.inner = false) : e ∈ v ++ (s ++ w) ↔ e ∈ s := by
  have hnot : ∀ {t : Trace Call.Reply}, Inner t → e ∉ t := by
    intro t ht het
    have hin := ht e het
    rw [he] at hin
    cases hin
  simp [hnot hv, hnot hw]

theorem Unrevised.notMem {t : Trace Call.Reply} (h : Unrevised t) (c body : Text) (r : Option Text) :
    ⟨.complete (.revision c body), r⟩ ∉ t := by
  intro he
  cases (h _ he).2

/-- A payload is offered unrevised just in case every revision before it leaves its text as it is.
-/
theorem Offered.body_eq_iff {p q : Payload} {v : Trace Call.Reply} (h : Offered p q v) :
    q.body = p.body ↔
      ∀ c body body', ⟨.complete (.revision c body), some body'⟩ ∈ v → body' = body := by
  rcases h with ⟨rfl, hv⟩ | ⟨c, v₁, v₂, rfl, hv₁, hv₂, -⟩
  · refine iff_of_true rfl ?_
    intro c body body' he
    exact absurd he (hv.notMem c body (some body'))
  · constructor
    · intro heq c' body body' he
      rcases List.mem_append.mp he with he | he
      · exact absurd he (hv₁.notMem c' body (some body'))
      · rcases List.mem_cons.mp he with he | he
        · cases he
          exact heq
        · exact absurd he (hv₂.notMem c' body (some body'))
    · intro hrev
      exact hrev c p.body q.body (by simp)

/-- Where `process_outbound` says that it has sent a payload, its `send_fn` is called once among the
engine's own calls, on a payload with the same body just in case no revision changed it. -/
theorem processOutbound_sent {S : Setting} {x : Sending} {sendFn : Payload → Link Unit} {p : Payload}
    {u : Trace Call.Reply} (h : Runs (x.processOutbound S sendFn p) u (some .send)) :
    ∃ q v s w, u = v ++ (s ++ w) ∧ Inner v ∧ Unrevised w ∧ Runs (sendFn q) s (some ()) ∧
      (q.body = p.body ↔
        ∀ c body body', ⟨.complete (.revision c body), some body'⟩ ∈ v → body' = body) := by
  rcases processOutbound_cases h with ⟨-, ho⟩ | ⟨q, a, v, g, s, w, so, hq, hadmitted, hv⟩
  · exact absurd rfl ho
  · obtain ⟨rfl, hg, hs, hw⟩ := hq
    obtain rfl : so = some () := by
      cases hw
      rfl
    have ha := hadmitted.unrevised
    have hg := hg.unrevised
    refine ⟨q, a ++ v ++ g ++ [⟨.reserveOutbound x.peer x.today, some true⟩], s, w, by simp, ?_,
      hw.unrevised, hs, hv.body_eq_iff.trans ?_⟩
    · simp [ha.inner, hv.inner, hg.inner, Call.inner]
    · -- Neither the admission nor the last review completes the prompt of a revision.
      simp [ha.notMem, hg.notMem]

theorem processOutbound_taken {S : Setting} {x : Sending} {sendFn : Payload → Link Unit} {d : Draft}
    {u : Trace Call.Reply} (hpeer : x.peer = d.peer) (hsession : x.session = d.session)
    (h : Runs (x.processOutbound S sendFn d.payload) u (some .send)) : Taken d x.today u := by
  rcases processOutbound_cases h with ⟨-, ho⟩ | ⟨q, a, v, g, s, w, so, hq, -, -⟩
  · exact absurd rfl ho
  · obtain ⟨rfl, -, -, hw⟩ := hq
    cases hw with
    | @done amount =>
      rw [hpeer, hsession]
      exact ⟨by simp, by simp, amount, by simp⟩

/-- Where `process_outbound` says that it has sent a draft, the relay has got it just in case
nothing failed on the way and no revision changed it. -/
theorem delivered_iff {S : Setting} {x : Sending} {d : Draft} {u : Trace Call.Reply}
    (h : Runs (x.processOutbound S (makeSendFn d.peer d.session) d.payload) u (some .send)) :
    Delivered d u ↔ Faultless u := by
  obtain ⟨q, v, s, w, rfl, hv, hw, hs, hbody⟩ := processOutbound_sent h
  have hpushes := pushes_between (s := s) hv hw.inner
  have hmem : ∀ e : Event Call.Reply, e.query.inner = false → (e ∈ v ++ (s ++ w) ↔ e ∈ s) :=
    fun e => mem_between hv hw.inner
  rcases makeSendFn_cases hs with rfl | ⟨n, m, r, rfl⟩
  · refine iff_of_false ?_ fun hf => ?_
    · rintro ⟨e, he, -⟩
      rw [hpushes] at he
      cases he
    · exact hf.keyed d.peer d.session ((hmem _ rfl).mpr List.mem_cons_self)
  · cases r with
    | none =>
      refine iff_of_false ?_ fun hf => ?_
      · rintro ⟨e, he, -⟩
        rw [hpushes] at he
        cases he
      · exact hf.accepted ⟨d.peer, d.session, n, m, q.body⟩ ((hmem _ rfl).mpr (by simp))
    | some r =>
      -- The message is pushed: its text is that of the draft, or of a revision.
      constructor
      · rintro ⟨e, he, -, -, htext⟩
        rw [hpushes] at he
        obtain rfl := List.mem_singleton.mp he
        refine ⟨?_, ?_, ?_⟩
        · intro peer session he
          simpa using (hmem _ rfl).mp he
        · intro e he
          simpa using (hmem _ rfl).mp he
        · intro c body body' he
          refine hbody.mp htext c body body' ?_
          simpa [hw.notMem] using he
      · intro hf
        refine ⟨⟨d.peer, d.session, n, m, q.body⟩, ?_, rfl, rfl, hbody.mpr ?_⟩
        · rw [hpushes]
          exact List.mem_singleton.mpr rfl
        · intro c body body' he
          exact hf.unrevised c body body' (List.mem_append_left _ he)

/-! ## Every recorded send -/

/-- The draft is saved, or read among the pending ones. -/
def Drafted (d : Draft) (u : Trace Call.Reply) : Prop :=
  ⟨.saveDraft d.peer d.session d.payload, some d.nr⟩ ∈ u ∨
    ∃ drafts, ⟨.pendingDrafts, some drafts⟩ ∈ u ∧ d ∈ drafts

theorem Drafted.append_left {d : Draft} {v : Trace Call.Reply} (h : Drafted d v)
    (u : Trace Call.Reply) : Drafted d (u ++ v) := by
  rcases h with h | ⟨drafts, h, hd⟩
  · exact .inl (List.mem_append_right u h)
  · exact .inr ⟨drafts, List.mem_append_right u h, hd⟩

/-- Wherever a draft gets the status of one that is sent, a run of `process_outbound` on it, which
said so, comes right before. The draft is one of those known, or it is saved or read earlier. -/
def Recorded (S : Setting) (known : Draft → Prop) (u : Trace Call.Reply) : Prop :=
  ∀ v nr r w, u = v ++ ⟨.setDraftStatus nr .send, r⟩ :: w →
    ∃ (d : Draft) (x : Sending) (v₁ s : Trace Call.Reply),
      d.nr = nr ∧ v = v₁ ++ s ∧ (known d ∨ Drafted d v₁) ∧ x.peer = d.peer ∧ x.session = d.session ∧
      Runs (x.processOutbound S (makeSendFn d.peer d.session) d.payload) s (some .send)

variable {S : Setting} {known : Draft → Prop}

theorem Recorded.append (u v : Trace Call.Reply) (hu : Recorded S known u) (hv : Recorded S known v) :
    Recorded S known (u ++ v) := by
  intro a nr r b hab
  have hright : ∀ a', a = u ++ a' → v = a' ++ ⟨.setDraftStatus nr .send, r⟩ :: b →
      ∃ (d : Draft) (x : Sending) (v₁ s : Trace Call.Reply),
        d.nr = nr ∧ a = v₁ ++ s ∧ (known d ∨ Drafted d v₁) ∧ x.peer = d.peer ∧ x.session = d.session ∧
        Runs (x.processOutbound S (makeSendFn d.peer d.session) d.payload) s (some .send) := by
    intro a' ha hb
    obtain ⟨d, x, v₁, s, hnr, rfl, hd, hx⟩ := hv a' nr r b hb
    refine ⟨d, x, u ++ v₁, s, hnr, ha.trans (List.append_assoc ..).symm, ?_, hx⟩
    exact hd.imp_right fun hd => hd.append_left u
  rcases List.append_eq_append_iff.mp hab with ⟨a', ha, hb⟩ | ⟨c, hc, hb⟩
  · exact hright a' ha hb
  · cases c with
    | nil => exact hright [] (by simpa using hc.symm) hb.symm
    | cons e c =>
      obtain ⟨rfl, -⟩ := List.cons.inj hb
      exact hu a nr r c hc

/-- Calls that set no status record nothing. -/
theorem recorded_of_only {u : Trace Call.Reply}
    (h : ∀ e ∈ u, ∀ nr, e.query ≠ .setDraftStatus nr .send) : Recorded S known u := by
  rintro v nr r w rfl
  exact absurd rfl (h ⟨.setDraftStatus nr .send, r⟩ (by simp) nr)

theorem recorded_nil : Recorded S known [] :=
  recorded_of_only nofun

theorem leaves_of_only {p : Link α} (h : Only (fun c => ∀ nr, c ≠ .setDraftStatus nr .send) p) :
    Leaves (Recorded S known) p :=
  fun _ _ hrun => recorded_of_only (h.of_runs hrun)

theorem leaves_ask {c : Call} (h : ∀ nr, c ≠ .setDraftStatus nr .send) :
    Leaves (Recorded S known) (ask c) :=
  leaves_of_only (only_ask.mpr h)

/-- A run of `process_outbound` sets no status itself. -/
theorem ne_setDraftStatus {x : Sending} {peer session : Text} {p : Payload} {u : Trace Call.Reply}
    {o : Option Action} (h : Runs (x.processOutbound S (makeSendFn peer session) p) u o) :
    ∀ e ∈ u, ∀ nr, e.query ≠ .setDraftStatus nr .send := by
  have hinner : ∀ {c : Call}, c.inner = true → ∀ nr, c ≠ .setDraftStatus nr .send := by
    rintro c hc nr rfl
    cases hc
  rcases processOutbound_cases h with ⟨hu, -⟩ | ⟨q, a, v, g, s, w, so, hq, hadmitted, hv⟩
  · exact fun e he => hinner (hu e he)
  · obtain ⟨rfl, hg, hs, hw⟩ := hq
    have hhead : Inner (a ++ v ++ g ++ [⟨.reserveOutbound x.peer x.today, some true⟩]) := by
      simp [hadmitted.unrevised.inner, hv.inner, hg.unrevised.inner, Call.inner]
    intro e he nr
    by_cases hin : e.query.inner = true
    · exact hinner hin nr
    · have hes : e ∈ s := (mem_between hhead hw.inner (eq_false_of_ne_true hin)).mp (by simpa using he)
      have htransmits : e.query.transmits = true := (only_makeSendFn peer session q).of_runs hs e hes
      intro hset
      rw [hset] at htransmits
      cases htransmits

/-- A known draft that is processed is recorded right. -/
theorem leaves_attempt {x : Sending} {nr : ℕ} {p : Payload} (h : known ⟨nr, x.peer, x.session, p⟩) :
    Leaves (Recorded S known) (S.attempt x nr p) := by
  intro u o hrun
  rw [Setting.attempt, runs_bind] at hrun
  rcases hrun with ⟨action, s, w, rfl, hs, hw⟩ | ⟨-, hs⟩
  · rw [runs_ask] at hw
    subst hw
    intro v nr' r w hvw
    -- The status is set by the last call.
    rcases List.eq_nil_or_concat w with rfl | ⟨w, z, rfl⟩
    · obtain ⟨rfl, hset⟩ := List.append_inj' hvw rfl
      cases hset
      exact ⟨⟨nr, x.peer, x.session, p⟩, x, [], s, rfl, rfl, .inl h, rfl, rfl, hs⟩
    · have hcat : s ++ [⟨.setDraftStatus nr action, o⟩] =
          (v ++ ⟨.setDraftStatus nr' .send, r⟩ :: w) ++ [z] := by
        simpa using hvw
      obtain ⟨hlast, -⟩ := List.append_inj' hcat rfl
      exact absurd rfl (ne_setDraftStatus hs ⟨.setDraftStatus nr' .send, r⟩ (by simp [hlast]) nr')
  · exact recorded_of_only (ne_setDraftStatus hs)

theorem leaves_ite {c : Prop} [Decidable c] {p q : Link α} (hp : Leaves (Recorded S known) p)
    (hq : Leaves (Recorded S known) q) : Leaves (Recorded S known) (if c then p else q) := by
  split_ifs
  · exact hp
  · exact hq

theorem leaves_ret (a : α) : Leaves (Recorded S known) (pure a : Link α) :=
  leaves_pure recorded_nil a

/-- What is known of the drafts that were read or saved can be dropped. -/
theorem Recorded.of_drafted (known' : Draft → Prop) {e : Event Call.Reply} {u : Trace Call.Reply}
    (hne : ∀ nr, e.query ≠ .setDraftStatus nr .send)
    (hknown : ∀ d, known' d → known d ∨ Drafted d [e]) (h : Recorded S known' u) :
    Recorded S known (e :: u) := by
  intro v nr r w huv
  cases v with
  | nil =>
    obtain ⟨rfl, -⟩ := List.cons.inj huv
    exact absurd rfl (hne nr)
  | cons e' v =>
    obtain ⟨rfl, hu⟩ := List.cons.inj huv
    obtain ⟨d, x, v₁, s, hnr, rfl, hd, hx⟩ := h v nr r w hu
    refine ⟨d, x, e :: v₁, s, hnr, rfl, ?_, hx⟩
    rcases hd with hd | hd
    · refine (hknown d hd).imp_right ?_
      rintro (hd | ⟨drafts, hd, hmem⟩)
      · exact .inl (List.mem_cons.mpr (.inl (List.mem_singleton.mp hd)))
      · exact .inr ⟨drafts, List.mem_cons.mpr (.inl (List.mem_singleton.mp hd)), hmem⟩
    · exact .inr (hd.append_left [e])

theorem leaves_recover (now : Instant) : Leaves (Recorded S known) (S.recover now) := by
  intro u o h
  rw [Setting.recover, runs_ask_bind] at h
  rcases h with ⟨drafts, w, rfl, h⟩ | ⟨-, rfl⟩
  · refine Recorded.of_drafted (· ∈ drafts) (fun _ => nofun)
      (fun d hd => .inr (.inr ⟨drafts, List.mem_singleton.mpr rfl, hd⟩)) ?_
    refine Leaves.forM recorded_nil Recorded.append (fun d hd => ?_) w o h
    refine .bind Recorded.append ?_ fun allowed => leaves_ite (leaves_attempt hd) (leaves_ret ())
    exact leaves_of_only ((only_sendAllowed _).mono fun c hc nr => by
      rintro rfl
      cases hc)
  · exact recorded_of_only (by simp)

theorem leaves_compose (x : Sending) : Leaves (Recorded S known) (S.compose x) := by
  refine .bind Recorded.append (leaves_ask fun _ => nofun) fun row => ?_
  refine .bind Recorded.append (leaves_of_only ?_) fun draft => ?_
  · refine .bind (only_ask.mpr fun _ => nofun) fun row => ?_
    refine only_withSlot (fun _ => nofun) (fun _ => nofun) fun granted => only_ite ?_ trivial
    refine .bind (only_ask.mpr fun _ => nofun) fun reserved => only_ite ?_ trivial
    exact .bind (only_ask.mpr fun _ => nofun) fun _ => trivial
  · cases draft with
    | none => exact leaves_ret ()
    | some body =>
      intro u o h
      simp only at h
      rw [runs_ask_bind] at h
      rcases h with ⟨nr, w, rfl, h⟩ | ⟨-, rfl⟩
      · refine Recorded.of_drafted (Eq ⟨nr, x.peer, x.session, ⟨body, none⟩⟩)
          (fun _ => nofun) ?_ (leaves_attempt rfl w o h)
        rintro d rfl
        exact .inr (.inl (List.mem_singleton.mpr rfl))
      · exact recorded_of_only (by simp)

theorem leaves_tickPeer (now : Instant) (peer : Text) :
    Leaves (Recorded S known) (S.tickPeer now peer) := by
  refine .bind Recorded.append (leaves_ask fun _ => nofun) fun active => ?_
  cases active with
  | none => exact leaves_ask fun _ => nofun
  | some session =>
    refine .bind Recorded.append (leaves_ask fun _ => nofun) fun transcript => ?_
    refine leaves_ite (leaves_compose _) ?_
    refine .bind Recorded.append (leaves_ask fun _ => nofun) fun opens => ?_
    exact leaves_ite (leaves_compose _) (leaves_ret ())

theorem leaves_tick (now : Instant) (enabled : Bool) :
    Leaves (Recorded S known) (S.tick now enabled) := by
  refine .bind Recorded.append (leaves_ask fun _ => nofun) fun due => leaves_ite ?_ (leaves_ret ())
  refine .bind Recorded.append (leaves_ask fun _ => nofun) fun _ => ?_
  have houtbound : Leaves (Recorded S known) (S.outbound now) := by
    refine .bind Recorded.append (leaves_recover now) fun _ => ?_
    refine .bind Recorded.append (leaves_ask fun _ => nofun) fun peers => ?_
    refine .forM recorded_nil Recorded.append fun peer _ => ?_
    exact .tryExcept Recorded.append (leaves_tickPeer now peer) (leaves_ret ())
  refine leaves_ite ?_ (leaves_ask fun _ => nofun)
  exact .bind Recorded.append houtbound fun _ => leaves_ask fun _ => nofun

/-- In every run of ticks, wherever a draft gets the status of one that was sent, it was saved or
read before, a run of `process_outbound` on it said so and took its counts, and the relay got an
envelope with exactly its body just in case nothing failed on the way and no revision changed it. -/
theorem recorded_iff (S : Setting) (schedule : List (Instant × Bool)) (u : Trace Call.Reply)
    (o : Option Unit) (h : Runs (S.ticks schedule) u o) (v w : Trace Call.Reply) (nr : ℕ)
    (r : Option Unit) (hu : u = v ++ ⟨.setDraftStatus nr .send, r⟩ :: w) :
    ∃ (d : Draft) (x : Sending) (v₁ s : Trace Call.Reply),
      d.nr = nr ∧ v = v₁ ++ s ∧ Drafted d v₁ ∧ x.peer = d.peer ∧ x.session = d.session ∧
      Runs (x.processOutbound S (makeSendFn d.peer d.session) d.payload) s (some .send) ∧
      Taken d x.today s ∧ (Delivered d s ↔ Faultless s) := by
  have hall : Leaves (Recorded S fun _ => False) (S.ticks schedule) := by
    refine .forM recorded_nil Recorded.append fun t _ => ?_
    exact .tryExcept Recorded.append (leaves_tick t.1 t.2) (leaves_ret ())
  obtain ⟨d, x, v₁, s, hnr, hv, hd, hpeer, hsession, hs⟩ := hall u o h v nr r w hu
  exact ⟨d, x, v₁, s, hnr, hv, hd.resolve_left id, hpeer, hsession, hs,
    processOutbound_taken hpeer hsession hs, delivered_iff hs⟩

/-- A peer has written, and is answered in the open session. -/
def answered : Env Call.Reply := fun t c =>
  match c with
  | .pairedPeers => some ["moss".toList]
  | .activeSession _ => some (some "s1".toList)
  | .transcript _ => some [(true, "hi".toList)]
  | c => unhindered t c

/-- The relay is not available. -/
def relayDown : Env Call.Reply := fun t c =>
  match c with
  | .push _ => none
  | c => answered t c

/-- A draft that is answered gets its status in such a run. -/
theorem recorded_iff_answered :
    let u := ((lenient.ticks [(0, true)]).run answered []).1
    ∃ v w r, u = v ++ ⟨.setDraftStatus 1 .send, r⟩ :: w ∧
      ∃ (d : Draft) (x : Sending) (v₁ s : Trace Call.Reply),
        d.nr = 1 ∧ v = v₁ ++ s ∧ Drafted d v₁ ∧ x.peer = d.peer ∧ x.session = d.session ∧
        Runs (x.processOutbound lenient (makeSendFn d.peer d.session) d.payload) s (some .send) ∧
        Taken d x.today s ∧ (Delivered d s ↔ Faultless s) := by
  intro u
  have hset : ∃ e ∈ u, e.query = .setDraftStatus 1 .send := by decide +kernel
  obtain ⟨⟨_, r⟩, he, rfl⟩ := hset
  obtain ⟨v, w, hu⟩ := List.append_of_mem he
  exact ⟨v, w, r, hu, recorded_iff _ _ _ _ (runs_run ..) _ _ _ _ hu⟩

/-- A tick gives a draft the status of one that was sent, and the relay has accepted nothing. -/
theorem recorded_unsent :
    ∃ u o, Runs (lenient.ticks [(0, true)]) u o ∧
      (∃ e ∈ u, e.query = .setDraftStatus 1 .send) ∧ pushes u = [] :=
  ⟨_, _, runs_run relayDown _ [], by decide +kernel, by decide +kernel⟩

end Companion.Kindled

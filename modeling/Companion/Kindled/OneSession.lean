import Companion.Kindled.Handshake
import Companion.Runs
import Mathlib.Logic.Function.Basic

/-!
# At most one open session

Two paired parties over a relay that keeps the order of a mailbox and loses nothing. A tick polls
its mailbox and may start a session; the envelopes of a poll are ingested one by one here, with
steps of the other party in between.

The guard of a start knows the sessions of its own store and nothing of a handshake under way. Where
a start finds nothing in flight and no session on the other side, no store has two open sessions
with one peer (`atMostOne_of_heeded`); a second start before the other side has polled makes two
there (`atMostOne_fails`).
-/

namespace Companion.Kindled.Handshake

open Companion.Memory Companion.Runs

/-- `get_active_session`: whether there is a session that is open. -/
def getActiveSession (s : Store) (peer : KeyId) : Option ((KeyId × ℕ) × SessionRow) :=
  s.sessions.entries.find? fun e => e.1.1 = peer ∧ e.2.isOpen

/-- `latest_cooldown_until`, over the sessions that ended. -/
def latestCooldownUntil (s : Store) (peer : KeyId) : Option Instant :=
  ((s.sessions.entries.filter fun e => e.1.1 = peer ∧ e.2.isOpen = false).filterMap fun e =>
    e.2.cooldownUntil).max?

/-- `SessionEngine.can_start_session`, where the user's activity may make it yield. -/
def canStartSession (s : Store) (peer : KeyId) (yields : Bool) (now : Instant) : Bool :=
  if (s.peers.get? peer).isNone then false
  else if yields then false
  else if (getActiveSession s peer).isSome then false
  else
    match latestCooldownUntil s peer with
    | some cooldown => !decide (now < cooldown)
    | none => true

/-- The branch of `poll_and_ingest` for a `session_open`: the role is chosen by the pending row. -/
def ingestSessionOpen (s : Store) (me : KeyId) (e : SessionOpen) (eph : ℕ) (now : Instant) :
    List Write × Option SessionOpen :=
  if (s.pending.get? (e.sender, e.session)).isNone then onSessionOpen s me e eph now
  else (completeSession s me e now, none)

/-- `end_session` -/
def endSession (s : Store) (peer : KeyId) (session : ℕ) (cooldown : Instant) : Store :=
  if (s.sessions.get? (peer, session)).isSome then
    { s with sessions := s.sessions.set (peer, session) ⟨false, some cooldown⟩ }
  else s

/-- Two parties and their mailboxes at the relay, the oldest envelope first. -/
structure Link where
  store : Bool → Store
  mailbox : Bool → List SessionOpen
  draws : ℕ

/-- The key of a party. -/
def self (x : Bool) : KeyId := ⟨x.toNat, 0⟩

/-- What the tick of a party does. -/
inductive TickStep
  | receive (x : Bool) (now : Instant)
  | start (x : Bool) (yields : Bool) (now : Instant)
  | endSession (x : Bool) (session : ℕ) (cooldown : Instant)

/-- A party commits, and what it sends is last in the mailbox of the other one. -/
def Link.act (w : Link) (x : Bool) (writes : List Write) (sent : Option SessionOpen) : Link where
  store := Function.update w.store x ((w.store x).commit writes)
  mailbox := Function.update w.mailbox (!x) (w.mailbox (!x) ++ sent.toList)
  draws := w.draws + 1

def tickStep (w : Link) : TickStep → Option Link
  | .receive x now =>
    match w.mailbox x with
    | [] => none
    | e :: rest =>
      let reply := ingestSessionOpen (w.store x) (self x) e w.draws now
      some ({ w with mailbox := Function.update w.mailbox x rest }.act x reply.1 reply.2)
  | .start x yields now =>
    if canStartSession (w.store x) (self !x) yields now then
      match openSession (w.store x) (self x) (self !x) w.draws w.draws w.draws now with
      | none => some w
      | some (writes, e) => some (w.act x writes (some e))
    else some w
  | .endSession x session cooldown =>
    some { w with store :=
      Function.update w.store x (endSession (w.store x) (self !x) session cooldown) }

/-- Two parties that know each other, before the first session. -/
structure Fresh (w : Link) : Prop where
  mailbox : ∀ x, w.mailbox x = []
  pending : ∀ x, (w.store x).pending = ∅
  keys : ∀ x, (w.store x).keys = ∅
  sessions : ∀ x, (w.store x).sessions = ∅

def link : Machine Link TickStep where
  init := Fresh
  step := tickStep

/-- The store has no open session with the peer. -/
def NoneOpen (s : Store) (peer : KeyId) : Prop := getActiveSession s peer = none

/-- A start finds no `session_open` in flight, and no session open on the other side. -/
def Heeded (w : Link) : TickStep → Prop
  | .start x yields now => canStartSession (w.store x) (self !x) yields now = true →
    w.mailbox x = [] ∧ w.mailbox (!x) = [] ∧ NoneOpen (w.store !x) (self x)
  | _ => True

instance (w : Link) (a : TickStep) : Decidable (Heeded w a) :=
  match a with
  | .start _ _ _ => inferInstanceAs (Decidable (_ → _ ∧ _ ∧ _ = none))
  | .receive _ _ => .isTrue trivial
  | .endSession _ _ _ => .isTrue trivial

/-- No peer has two open sessions in the store. -/
def AtMostOne (s : Store) : Prop :=
  ∀ p sid sid' row row', s.sessions.get? (p, sid) = some row → row.isOpen = true →
    s.sessions.get? (p, sid') = some row' → row'.isOpen = true → sid = sid'

/-! ## What a function does to the sessions -/

variable {s : Store} {peer : KeyId}

theorem noneOpen_iff :
    NoneOpen s peer ↔
      ∀ sid row, s.sessions.get? (peer, sid) = some row → row.isOpen = false := by
  unfold NoneOpen getActiveSession
  rw [List.find?_eq_none]
  constructor
  · intro h sid row hrow
    have hnot := h _ (Dict.mem_entries_of_get? hrow)
    simpa using hnot
  · rintro h ⟨⟨p, sid⟩, row⟩ he hopen
    simp only [decide_eq_true_eq] at hopen
    obtain ⟨rfl, hopen⟩ := hopen
    rw [h sid row (Dict.get?_of_mem_entries he)] at hopen
    cases hopen

theorem canStartSession_noneOpen {yields : Bool} {now : Instant}
    (h : canStartSession s peer yields now = true) : NoneOpen s peer := by
  unfold canStartSession at h
  unfold NoneOpen
  split_ifs at h with hpeer hyields hactive
  simpa using hactive

/-- A session is created where none is open. -/
theorem AtMostOne.createSession (h : AtMostOne s) (hnone : NoneOpen s peer) (sid : ℕ) :
    AtMostOne ((Write.createSession peer sid).apply s) := by
  simp only [Write.apply]
  split_ifs
  · exact h
  · rw [noneOpen_iff] at hnone
    intro p sid₁ sid₂ row₁ row₂ h₁ hopen₁ h₂ hopen₂
    simp only at h₁ h₂
    rw [Dict.get?_set] at h₁ h₂
    split_ifs at h₁ h₂ with heq₁ heq₂ heq₂
    · exact (Prod.mk.inj heq₁).2.trans (Prod.mk.inj heq₂).2.symm
    · obtain ⟨rfl, -⟩ := Prod.mk.inj heq₁
      rw [hnone sid₂ row₂ h₂] at hopen₂
      cases hopen₂
    · obtain ⟨rfl, -⟩ := Prod.mk.inj heq₂
      rw [hnone sid₁ row₁ h₁] at hopen₁
      cases hopen₁
    · exact h p sid₁ sid₂ row₁ row₂ h₁ hopen₁ h₂ hopen₂

/-- What creates a session has its key saved before it, and clears its handshake after it or not. -/
theorem AtMostOne.commit_created (h : AtMostOne s) (hnone : NoneOpen s peer) {sid : ℕ} {row : KeyRow}
    {writes : List Write} (hwrites : writes = [] ∨ writes = [.clearPending peer sid]) :
    AtMostOne (s.commit (.saveKey peer sid row :: .createSession peer sid :: writes)) := by
  have hsaved : ((Write.saveKey peer sid row).apply s).sessions = s.sessions := by
    simp only [Write.apply]
    split_ifs
    · rfl
    · rfl
  have hcreated : AtMostOne ((Write.createSession peer sid).apply
      ((Write.saveKey peer sid row).apply s)) := by
    refine AtMostOne.createSession ?_ ?_ sid
    · unfold AtMostOne
      rw [hsaved]
      exact h
    · unfold NoneOpen getActiveSession
      rw [hsaved]
      exact hnone
  rcases hwrites with rfl | rfl
  · exact hcreated
  · exact hcreated

/-- What a party ingests from a peer with which it has no session open. -/
theorem AtMostOne.ingestSessionOpen (h : AtMostOne s) {me : KeyId} {e : SessionOpen} {eph : ℕ}
    {now : Instant} (hnone : NoneOpen s e.sender) :
    AtMostOne (s.commit (Handshake.ingestSessionOpen s me e eph now).1) := by
  unfold Handshake.ingestSessionOpen
  split_ifs with hpending
  · rcases onSessionOpen_cases s me e eph now with heq | ⟨-, heq⟩
    · rw [heq]
      exact h
    · rw [heq]
      exact h.commit_created hnone (.inl rfl)
  · rcases completeSession_cases s me e now with heq | ⟨pending, -, -, heq⟩
    · rw [heq]
      exact h
    · rw [heq]
      exact h.commit_created hnone (.inr rfl)

/-- A session that is open after one has ended was open before. -/
theorem get?_endSession {session : ℕ} {cooldown : Instant} {p : KeyId} {sid : ℕ} {row : SessionRow}
    (h : (endSession s peer session cooldown).sessions.get? (p, sid) = some row)
    (hopen : row.isOpen = true) : s.sessions.get? (p, sid) = some row := by
  unfold endSession at h
  split_ifs at h with hsome
  · simp only at h
    rw [Dict.get?_set] at h
    split_ifs at h
    · obtain rfl := Option.some.inj h
      cases hopen
    · exact h
  · exact h

theorem AtMostOne.endSession (h : AtMostOne s) (session : ℕ) (cooldown : Instant) :
    AtMostOne (endSession s peer session cooldown) := by
  intro p sid sid' row row' hrow hopen hrow' hopen'
  exact h p sid sid' row row' (get?_endSession hrow hopen) hopen (get?_endSession hrow' hopen') hopen'

theorem NoneOpen.endSession {p : KeyId} (h : NoneOpen s p) (session : ℕ) (cooldown : Instant) :
    NoneOpen (endSession s peer session cooldown) p := by
  rw [noneOpen_iff] at h ⊢
  intro sid row hrow
  by_contra hopen
  rw [Bool.not_eq_false] at hopen
  rw [h sid row (get?_endSession hrow hopen)] at hopen
  cases hopen

theorem pending_endSession (session : ℕ) (cooldown : Instant) :
    (endSession s peer session cooldown).pending = s.pending := by
  unfold endSession
  split_ifs
  · rfl
  · rfl

/-! ## Every run -/

/-- What is in flight: nothing; or a first leg, where no side has a session open; or its answer,
where the side that it is for has none. -/
def InFlight (w : Link) : Prop :=
  (∀ x, w.mailbox x = []) ∨
    ∃ x e, ((w.store x).pending.get? (self !x, e.session)).isSome ∧ NoneOpen (w.store x) (self !x) ∧
      ((w.mailbox (!x) = [e] ∧ w.mailbox x = [] ∧ e.sender = self x ∧
          NoneOpen (w.store !x) (self x)) ∨
        (w.mailbox x = [e] ∧ w.mailbox (!x) = [] ∧ e.sender = self !x))

/-- The invariant of the two parties. -/
structure Single (w : Link) : Prop where
  atMostOne : ∀ x, AtMostOne (w.store x)
  inFlight : InFlight w

theorem single_fresh {w : Link} (h : Fresh w) : Single w where
  atMostOne x := by
    intro p sid sid' row row' hrow
    rw [h.sessions x] at hrow
    cases hrow
  inFlight := .inl h.mailbox

variable {w w' : Link}

theorem Single.start (h : Single w) {x yields : Bool} {now : Instant}
    (hheeded : Heeded w (.start x yields now)) (hstep : tickStep w (.start x yields now) = some w') :
    Single w' := by
  simp only [tickStep] at hstep
  split_ifs at hstep with hcan
  · obtain ⟨hempty, hempty', hnone⟩ := hheeded hcan
    cases hopen : openSession (w.store x) (self x) (self !x) w.draws w.draws w.draws now with
    | none =>
      rw [hopen] at hstep
      obtain rfl := Option.some.inj hstep
      exact h
    | some out =>
      obtain ⟨writes, e⟩ := out
      rw [hopen] at hstep
      obtain rfl := Option.some.inj hstep
      obtain ⟨-, rfl, rfl⟩ := openSession_some hopen
      refine ⟨fun y => ?_, .inr ⟨x, ⟨self x, self !x, w.draws, w.draws, w.draws, now + envelopeTtl⟩,
        ?_, ?_, .inl ⟨?_, ?_, rfl, ?_⟩⟩⟩
      · by_cases hy : y = x
        · subst hy
          simp only [Link.act, Function.update_self]
          exact h.atMostOne y
        · simp only [Link.act, Function.update_of_ne hy]
          exact h.atMostOne y
      · simp [Link.act, Store.commit, Write.apply, Dict.get?_set]
      · simp only [Link.act, Function.update_self]
        exact canStartSession_noneOpen hcan
      · simp [Link.act, hempty']
      · simp [Link.act, hempty]
      · simpa [Link.act] using hnone
  · obtain rfl := Option.some.inj hstep
    exact h

theorem Single.endSession (h : Single w) {x : Bool} {session : ℕ} {cooldown : Instant}
    (hstep : tickStep w (.endSession x session cooldown) = some w') : Single w' := by
  obtain rfl := Option.some.inj hstep
  have hpending : ∀ y, (Function.update w.store x
      (Handshake.endSession (w.store x) (self !x) session cooldown) y).pending =
        (w.store y).pending := by
    intro y
    by_cases hy : y = x
    · subst hy
      rw [Function.update_self, pending_endSession]
    · rw [Function.update_of_ne hy]
  have hnone : ∀ y p, NoneOpen (w.store y) p → NoneOpen (Function.update w.store x
      (Handshake.endSession (w.store x) (self !x) session cooldown) y) p := by
    intro y p hp
    by_cases hy : y = x
    · subst hy
      rw [Function.update_self]
      exact hp.endSession session cooldown
    · rw [Function.update_of_ne hy]
      exact hp
  refine ⟨fun y => ?_, ?_⟩
  · by_cases hy : y = x
    · subst hy
      simp only [Function.update_self]
      exact (h.atMostOne y).endSession session cooldown
    · simp only [Function.update_of_ne hy]
      exact h.atMostOne y
  · rcases h.inFlight with hempty | ⟨y, e, hrow, hy, hleg⟩
    · exact .inl hempty
    · refine .inr ⟨y, e, ?_, hnone y _ hy, ?_⟩
      · simp only [hpending]
        exact hrow
      · rcases hleg with ⟨hmail, hempty, hsender, hother⟩ | hleg
        · exact .inl ⟨hmail, hempty, hsender, hnone _ _ hother⟩
        · exact .inr hleg

/-- A party ingests the one envelope in flight, from a peer with which it has no session open. -/
theorem Single.atMostOne_receive (h : Single w) {x : Bool} {e : SessionOpen} {now : Instant}
    (hnone : NoneOpen (w.store x) e.sender) (y : Bool) :
    AtMostOne ((Link.act { w with mailbox := Function.update w.mailbox x [] } x
      (ingestSessionOpen (w.store x) (self x) e w.draws now).1
      (ingestSessionOpen (w.store x) (self x) e w.draws now).2).store y) := by
  by_cases hy : y = x
  · subst hy
    simp only [Link.act, Function.update_self]
    exact (h.atMostOne y).ingestSessionOpen hnone
  · simp only [Link.act, Function.update_of_ne hy]
    exact h.atMostOne y

/-- The side that a first leg is for answers it, or drops it. -/
theorem Single.receiveFirst (h : Single w) {x : Bool} {e : SessionOpen} {now : Instant}
    (hrow : ((w.store !x).pending.get? (self x, e.session)).isSome)
    (hnone : NoneOpen (w.store !x) (self x)) (hempty : w.mailbox (!x) = [])
    (hsender : e.sender = self !x) (hother : NoneOpen (w.store x) (self !x)) :
    Single (Link.act { w with mailbox := Function.update w.mailbox x [] } x
      (ingestSessionOpen (w.store x) (self x) e w.draws now).1
      (ingestSessionOpen (w.store x) (self x) e w.draws now).2) := by
  refine ⟨h.atMostOne_receive (hsender ▸ hother), ?_⟩
  have hne : x ≠ !x := by simp
  have hreply : (ingestSessionOpen (w.store x) (self x) e w.draws now).2 = none ∨
      ∃ e', (ingestSessionOpen (w.store x) (self x) e w.draws now).2 = some e' ∧
        e'.session = e.session ∧ e'.sender = self x := by
    unfold ingestSessionOpen
    split_ifs
    · rcases onSessionOpen_cases (w.store x) (self x) e w.draws now with heq | ⟨-, heq⟩
      · rw [heq]
        exact .inl rfl
      · rw [heq]
        exact .inr ⟨_, rfl, rfl, rfl⟩
    · exact .inl rfl
  rcases hreply with heq | ⟨e', heq, hsession, hsender'⟩
  · rw [heq]
    refine .inl fun y => ?_
    by_cases hy : y = x
    · subst hy
      simp [Link.act]
    · obtain rfl : y = !x := Bool.eq_not.mpr hy
      simp [Link.act, hempty]
  · rw [heq]
    refine .inr ⟨!x, e', ?_, ?_, .inr ⟨?_, ?_, ?_⟩⟩
    · simpa [Link.act, hsession] using hrow
    · simpa [Link.act] using hnone
    · simp [Link.act, hempty]
    · simp [Link.act]
    · simpa using hsender'

/-- The side that opened the session completes it, or drops the answer. -/
theorem Single.receiveSecond (h : Single w) {x : Bool} {e : SessionOpen} {now : Instant}
    (hrow : ((w.store x).pending.get? (self !x, e.session)).isSome)
    (hnone : NoneOpen (w.store x) (self !x)) (hempty : w.mailbox (!x) = [])
    (hsender : e.sender = self !x) :
    Single (Link.act { w with mailbox := Function.update w.mailbox x [] } x
      (ingestSessionOpen (w.store x) (self x) e w.draws now).1
      (ingestSessionOpen (w.store x) (self x) e w.draws now).2) := by
  refine ⟨h.atMostOne_receive (hsender ▸ hnone), .inl fun y => ?_⟩
  have hreply : (ingestSessionOpen (w.store x) (self x) e w.draws now).2 = none := by
    unfold ingestSessionOpen
    rw [hsender, if_neg]
    rw [Option.isNone_iff_eq_none]
    exact Option.isSome_iff_ne_none.mp hrow
  rw [hreply]
  have hne : x ≠ !x := by simp
  by_cases hy : y = x
  · subst hy
    simp [Link.act]
  · obtain rfl : y = !x := Bool.eq_not.mpr hy
    simp [Link.act, hempty]

theorem Single.receive (h : Single w) {x : Bool} {now : Instant}
    (hstep : tickStep w (.receive x now) = some w') : Single w' := by
  simp only [tickStep] at hstep
  rcases h.inFlight with hempty | ⟨y, e, hrow, hnone, hleg⟩
  · rw [hempty x] at hstep
    cases hstep
  · rcases hleg with ⟨hmail, hempty, hsender, hother⟩ | ⟨hmail, hempty, hsender⟩
    · by_cases hxy : x = y
      · subst hxy
        rw [hempty] at hstep
        cases hstep
      · obtain rfl : x = !y := Bool.eq_not.mpr hxy
        rw [hmail] at hstep
        obtain rfl := Option.some.inj hstep
        exact h.receiveFirst (x := !y) (by simpa using hrow) (by simpa using hnone)
          (by simpa using hempty) (by simpa using hsender) (by simpa using hother)
    · by_cases hxy : x = y
      · subst hxy
        rw [hmail] at hstep
        obtain rfl := Option.some.inj hstep
        exact h.receiveSecond hrow hnone hempty hsender
      · obtain rfl : x = !y := Bool.eq_not.mpr hxy
        rw [hempty] at hstep
        cases hstep

/-- Where each start finds nothing in flight and no session on the other side, no store has two open
sessions with one peer. -/
theorem atMostOne_of_heeded {w : Link} (h : link.Reach Heeded w) (x : Bool) :
    AtMostOne (w.store x) := by
  have hsingle : Single w := by
    refine h.invariant (I := Single) (fun w hw => single_fresh hw) ?_
    intro w a w' hw hheeded hstep
    cases a with
    | receive x now => exact hw.receive hstep
    | start x yields now => exact hw.start hheeded hstep
    | endSession x session cooldown => exact hw.endSession hstep
  exact hsingle.atMostOne x

/-- Two parties before their first session. -/
def newLink : Link where
  store x := ⟨(∅ : Dict KeyId Peer).set (self !x) ⟨none⟩, ∅, ∅, ∅, ∅⟩
  mailbox _ := []
  draws := 0

theorem fresh_newLink : Fresh newLink :=
  ⟨fun _ => rfl, fun _ => rfl, fun _ => rfl, fun _ => rfl⟩

/-- A party starts a session in each of two ticks, before the other one polls. -/
theorem atMostOne_fails : ∃ w, link.Reachable w ∧ ¬ AtMostOne (w.store true) := by
  obtain ⟨w, hw, hopen⟩ := link.exists_reach_of_runWithin (C := fun _ _ => True)
    (D := fun _ _ => True) (fun _ _ _ => trivial) fresh_newLink
    [.start false false 0, .start false false 3600000000, .receive true 7200000000,
      .receive true 7200000000]
    (fun w => decide ((w.store true).sessions.get? (self false, 0) = some ⟨true, none⟩ ∧
      (w.store true).sessions.get? (self false, 1) = some ⟨true, none⟩)) (by decide +kernel)
  obtain ⟨h0, h1⟩ := of_decide_eq_true hopen
  refine ⟨w, hw, fun hmost => ?_⟩
  exact absurd (hmost (self false) 0 1 _ _ h0 rfl h1 rfl) (by decide)

/-- A session is set up, both sides end it, and the other side starts the next one. -/
theorem atMostOne_of_heeded_newLink :
    ∃ w, link.Reach Heeded w ∧ (getActiveSession (w.store true) (self false)).isSome ∧
      AtMostOne (w.store true) := by
  obtain ⟨w, hw, hopen⟩ := link.exists_reach_of_runWithin (C := Heeded) (D := Heeded)
    (fun _ _ => id) fresh_newLink
    [.start false false 0, .receive true 0, .receive false 0, .endSession false 0 10,
      .endSession true 0 10, .start true false 20, .receive false 20, .receive true 20]
    (fun w => (getActiveSession (w.store true) (self false)).isSome) (by decide +kernel)
  exact ⟨w, hw, hopen, atMostOne_of_heeded hw true⟩

end Companion.Kindled.Handshake

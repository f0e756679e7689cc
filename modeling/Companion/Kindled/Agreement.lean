import Companion.Kindled.Nonces

/-!
# Agreement of a handshake

Where two parties have a session key for each other under one session id, the keys are the same and
the roles opposite, in every run in which each `session_open` that is accepted was addressed to whom
it reached (`agree_of_addressed`). Nothing checks that: `agree_fails` has one run in which a party
completes a session under a key that it did not open it with, and one in which a third party answers
the first leg.

An envelope is the first leg of its session just in case its ephemeral key has the number of the
session.
-/

namespace Companion.Kindled.Handshake

open Companion.Memory Companion.Runs

/-- The role in which an envelope is ingested is chosen by the pending row, as `poll_and_ingest`
does. -/
def Routed (w : World) : Step → Prop
  | .onSessionOpen i _ e _ _ => (w.store i).pending.get? (e.sender, e.session) = none
  | .completeSession i _ e _ _ => (w.store i).pending.get? (e.sender, e.session) ≠ none
  | _ => True

/-- A first leg that is accepted is for the party that ingests it, and a reply for the very key that
the party has then. -/
def Addressed (w : World) : Step → Prop
  | .onSessionOpen i _ e _ now => Accepted (w.store i) e now → e.recipient.party = i
  | .completeSession i g e _ now => Accepted (w.store i) e now → e.recipient = ⟨i, g⟩
  | _ => True

instance (w : World) (a : Step) : Decidable (Routed w a) :=
  match a with
  | .onSessionOpen _ _ _ _ _ => inferInstanceAs (Decidable (_ = none))
  | .completeSession _ _ _ _ _ => inferInstanceAs (Decidable (_ ≠ none))
  | .openSession _ _ _ _ _ => .isTrue trivial
  | .deliverNotice _ _ _ _ => .isTrue trivial
  | .rotate _ _ => .isTrue trivial
  | .sendMessage _ _ _ _ => .isTrue trivial

instance (w : World) (a : Step) : Decidable (Addressed w a) :=
  match a with
  | .onSessionOpen _ _ _ _ _ => inferInstanceAs (Decidable (_ → _))
  | .completeSession _ _ _ _ _ => inferInstanceAs (Decidable (_ → _))
  | .openSession _ _ _ _ _ => .isTrue trivial
  | .deliverNotice _ _ _ _ => .isTrue trivial
  | .rotate _ _ => .isTrue trivial
  | .sendMessage _ _ _ _ => .isTrue trivial

/-- Two parties that hold a key for each other hold the same one, in opposite roles. -/
def Agree (w : World) : Prop :=
  ∀ p q sid row row', (w.store q.party).keys.get? (p, sid) = some row →
    (w.store p.party).keys.get? (q, sid) = some row' → p.party ≠ q.party →
      row.key = row'.key ∧ row.myRole = row'.peerRole ∧ row.peerRole = row'.myRole ∧
        row.myRole ≠ row'.myRole

/-! ## What a party holds -/

/-- What a party holds, of the sessions that it opened and of those that it answered. -/
structure Honest (draws : List ℕ) (sent : List SessionOpen) (i : ℕ) (s : Store) : Prop where
  /-- A peer is another party, under one name. -/
  other : ∀ p, (s.peers.get? p).isSome → p.party ≠ i
  unique : ∀ p q, (s.peers.get? p).isSome → (s.peers.get? q).isSome → p.party = q.party → p = q
  pending : ∀ p sid row, s.pending.get? (p, sid) = some row →
    (s.peers.get? p).isSome ∧ draws[sid]? = some i ∧ row = ⟨sid, sid⟩
  known : ∀ p sid row, s.keys.get? (p, sid) = some row → (s.peers.get? p).isSome
  responder : ∀ p sid row, s.keys.get? (p, sid) = some row → row.myRole = .responder →
    draws[sid]? = some p.party ∧ row.peerRole = .initiator
  initiator : ∀ p sid row, s.keys.get? (p, sid) = some row → row.myRole = .initiator →
    draws[sid]? = some i ∧ row.peerRole = .responder ∧
      ∃ e ∈ sent, e.session = sid ∧ e.sender.party = p.party ∧
        row.key = ⟨s(sid, e.eph), sid, s(e.recipient, e.sender), sid⟩
  /-- A first leg leaves a row, pending or not. -/
  opened : ∀ e ∈ sent, e.eph = e.session → e.sender.party = i →
    ∃ p, (s.peers.get? p).isSome ∧ p.party = e.recipient.party ∧
      (s.pending.get? (p, e.session) ≠ none ∨ s.keys.get? (p, e.session) ≠ none)
  /-- A second leg leaves the key. -/
  answered : ∀ e ∈ sent, e.eph ≠ e.session → e.sender.party = i →
    ∃ p row, s.keys.get? (p, e.session) = some row ∧ draws[e.session]? = some p.party ∧
      row.myRole = .responder ∧
      row.key = ⟨s(e.eph, e.session), e.session, s(e.sender, e.recipient), e.session⟩

variable {draws : List ℕ} {sent : List SessionOpen} {i : ℕ} {s : Store}

theorem Honest.draw (h : Honest draws sent i s) (j : ℕ) : Honest (draws ++ [j]) sent i s :=
  { h with
    pending := fun p sid row hrow => by
      obtain ⟨hpeer, hdraw, heq⟩ := h.pending p sid row hrow
      exact ⟨hpeer, getElem?_append_of_some hdraw, heq⟩
    responder := fun p sid row hrow hrole => by
      obtain ⟨hdraw, hpeer⟩ := h.responder p sid row hrow hrole
      exact ⟨getElem?_append_of_some hdraw, hpeer⟩
    initiator := fun p sid row hrow hrole => by
      obtain ⟨hdraw, hpeer, e, he, hsid, hsender, hkey⟩ := h.initiator p sid row hrow hrole
      exact ⟨getElem?_append_of_some hdraw, hpeer, e, he, hsid, hsender, hkey⟩
    answered := fun e he hleg hsender => by
      obtain ⟨p, row, hrow, hdraw, hrole, hkey⟩ := h.answered e he hleg hsender
      exact ⟨p, row, hrow, getElem?_append_of_some hdraw, hrole, hkey⟩ }

/-- An envelope is with the relay, after its row is in the store. -/
theorem Honest.send (h : Honest draws sent i s) (e : SessionOpen)
    (hopened : e.eph = e.session → e.sender.party = i →
      ∃ p, (s.peers.get? p).isSome ∧ p.party = e.recipient.party ∧
        (s.pending.get? (p, e.session) ≠ none ∨ s.keys.get? (p, e.session) ≠ none))
    (hanswered : e.eph ≠ e.session → e.sender.party = i →
      ∃ p row, s.keys.get? (p, e.session) = some row ∧ draws[e.session]? = some p.party ∧
        row.myRole = .responder ∧
        row.key = ⟨s(e.eph, e.session), e.session, s(e.sender, e.recipient), e.session⟩) :
    Honest draws (e :: sent) i s :=
  { h with
    initiator := fun p sid row hrow hrole => by
      obtain ⟨hdraw, hpeer, e', he', hrest⟩ := h.initiator p sid row hrow hrole
      exact ⟨hdraw, hpeer, e', List.mem_cons_of_mem e he', hrest⟩
    opened := fun e' he' hleg hsender => by
      rcases List.mem_cons.mp he' with rfl | he'
      · exact hopened hleg hsender
      · exact h.opened e' he' hleg hsender
    answered := fun e' he' hleg hsender => by
      rcases List.mem_cons.mp he' with rfl | he'
      · exact hanswered hleg hsender
      · exact h.answered e' he' hleg hsender }

/-! ## What a transaction keeps -/

theorem Honest.savePending (h : Honest draws sent i s) {p : KeyId} {d : ℕ}
    (hpeer : (s.peers.get? p).isSome) (hdraw : draws[d]? = some i) :
    Honest draws sent i ((Write.savePending p d ⟨d, d⟩).apply s) :=
  { h with
    pending := fun q sid row hrow => by
      simp only [Write.apply] at hrow
      rw [Dict.get?_set] at hrow
      split_ifs at hrow with heq
      · obtain ⟨rfl, rfl⟩ := Prod.mk.inj heq
        exact ⟨hpeer, hdraw, (Option.some.inj hrow).symm⟩
      · exact h.pending q sid row hrow
    opened := fun e he hleg hsender => by
      obtain ⟨q, hq, hparty, hrow⟩ := h.opened e he hleg hsender
      refine ⟨q, hq, hparty, hrow.imp_left fun hne => ?_⟩
      simp only [Write.apply]
      rw [Dict.get?_set]
      split_ifs
      · rintro ⟨⟩
      · exact hne }

/-- A key is saved where none is. -/
theorem keys_saveKey_of_none {p : KeyId} {sid : ℕ} {row : KeyRow}
    (h : s.keys.get? (p, sid) = none) :
    ((Write.saveKey p sid row).apply s).keys.get? (p, sid) = some row := by
  simp [Write.apply, h, Dict.get?_set]

theorem keys_createSession (s : Store) (p : KeyId) (sid : ℕ) :
    ((Write.createSession p sid).apply s).keys = s.keys := by
  simp only [Write.apply]
  split_ifs
  · rfl
  · rfl

theorem Honest.saveKey (h : Honest draws sent i s) {p : KeyId} {sid : ℕ} {row : KeyRow}
    (hpeer : (s.peers.get? p).isSome)
    (hresponder : row.myRole = .responder → draws[sid]? = some p.party ∧ row.peerRole = .initiator)
    (hinitiator : row.myRole = .initiator → draws[sid]? = some i ∧ row.peerRole = .responder ∧
      ∃ e ∈ sent, e.session = sid ∧ e.sender.party = p.party ∧
        row.key = ⟨s(sid, e.eph), sid, s(e.recipient, e.sender), sid⟩) :
    Honest draws sent i ((Write.saveKey p sid row).apply s) := by
  have hpeers : ((Write.saveKey p sid row).apply s).peers = s.peers := by
    simp only [Write.apply]
    split_ifs
    · rfl
    · rfl
  refine
    { other := hpeers ▸ h.other
      unique := hpeers ▸ h.unique
      pending := ?_
      known := ?_
      responder := ?_
      initiator := ?_
      opened := ?_
      answered := ?_ }
  · rw [pending_saveKey, hpeers]
    exact h.pending
  · intro q sid' row' hrow'
    rw [hpeers]
    rcases get?_saveKey s p sid row q sid' row' hrow' with hold | ⟨rfl, -, -⟩
    · exact h.known q sid' row' hold
    · exact hpeer
  · intro q sid' row' hrow' hrole
    rcases get?_saveKey s p sid row q sid' row' hrow' with hold | ⟨rfl, rfl, rfl⟩
    · exact h.responder q sid' row' hold hrole
    · exact hresponder hrole
  · intro q sid' row' hrow' hrole
    rcases get?_saveKey s p sid row q sid' row' hrow' with hold | ⟨rfl, rfl, rfl⟩
    · exact h.initiator q sid' row' hold hrole
    · exact hinitiator hrole
  · intro e he hleg hsender
    obtain ⟨q, hq, hparty, hrow⟩ := h.opened e he hleg hsender
    rw [pending_saveKey, hpeers]
    refine ⟨q, hq, hparty, hrow.imp_right fun hne => ?_⟩
    obtain ⟨row', hrow'⟩ := Option.ne_none_iff_exists'.mp hne
    rw [keys_saveKey_of_some hrow']
    rintro ⟨⟩
  · intro e he hleg hsender
    obtain ⟨q, row', hrow', hrest⟩ := h.answered e he hleg hsender
    exact ⟨q, row', keys_saveKey_of_some hrow', hrest⟩

theorem Honest.createSession (h : Honest draws sent i s) (p : KeyId) (sid : ℕ) :
    Honest draws sent i ((Write.createSession p sid).apply s) := by
  simp only [Write.apply]
  split_ifs
  · exact h
  · exact { h with }

theorem Honest.nextSequence (h : Honest draws sent i s) (p : KeyId) (sid : ℕ) :
    Honest draws sent i ((Write.nextSequence p sid).apply s) :=
  { h with }

/-- A pending handshake is cleared when its key is there. -/
theorem Honest.clearPending (h : Honest draws sent i s) {p : KeyId} {sid : ℕ}
    (hkey : s.keys.get? (p, sid) ≠ none) :
    Honest draws sent i ((Write.clearPending p sid).apply s) :=
  { h with
    pending := fun q sid' row hrow => by
      simp only [Write.apply] at hrow
      rw [Dict.get?_pop] at hrow
      split_ifs at hrow
      exact h.pending q sid' row hrow
    opened := fun e he hleg hsender => by
      obtain ⟨q, hq, hparty, hrow⟩ := h.opened e he hleg hsender
      refine ⟨q, hq, hparty, ?_⟩
      simp only [Write.apply]
      rw [Dict.get?_pop]
      split_ifs with heq
      · rw [heq]
        exact .inr hkey
      · exact hrow }

/-- A peer that changes its identity stays the same party. -/
theorem Honest.updateIdentity (h : Honest draws sent i s) {old new : KeyId}
    (hparty : new.party = old.party) :
    Honest draws sent i ((Write.updateIdentity old new).apply s) := by
  simp only [Write.apply]
  cases hupdate : updatePeerIdentity s old new with
  | none => exact h
  | some s' =>
    rw [Option.getD_some]
    -- Every row is one of a peer before, under its new name, which is of the same party.
    have hparties := rename_party hparty
    have hpeers := isSome_peers_updatePeerIdentity hupdate
    have hpending := @get?_pending_updatePeerIdentity s s' old new hupdate
    have hkeys := @get?_keys_updatePeerIdentity s s' old new hupdate
    refine
      { other := ?_
        unique := ?_
        pending := ?_
        known := ?_
        responder := ?_
        initiator := ?_
        opened := ?_
        answered := ?_ }
    · intro p hp
      obtain ⟨p₀, rfl, hp₀⟩ := (hpeers p).mp hp
      rw [hparties]
      exact h.other p₀ hp₀
    · intro p q hp hq hpq
      obtain ⟨p₀, rfl, hp₀⟩ := (hpeers p).mp hp
      obtain ⟨q₀, rfl, hq₀⟩ := (hpeers q).mp hq
      rw [hparties, hparties] at hpq
      rw [h.unique p₀ q₀ hp₀ hq₀ hpq]
    · intro p sid row hrow
      obtain ⟨p₀, rfl, hrow₀⟩ := hpending.mp hrow
      obtain ⟨hp₀, hdraw, heq⟩ := h.pending p₀ sid row hrow₀
      exact ⟨(hpeers _).mpr ⟨p₀, rfl, hp₀⟩, hdraw, heq⟩
    · intro p sid row hrow
      obtain ⟨p₀, rfl, hrow₀⟩ := hkeys.mp hrow
      exact (hpeers _).mpr ⟨p₀, rfl, h.known p₀ sid row hrow₀⟩
    · intro p sid row hrow hrole
      obtain ⟨p₀, rfl, hrow₀⟩ := hkeys.mp hrow
      rw [hparties]
      exact h.responder p₀ sid row hrow₀ hrole
    · intro p sid row hrow hrole
      obtain ⟨p₀, rfl, hrow₀⟩ := hkeys.mp hrow
      rw [hparties]
      exact h.initiator p₀ sid row hrow₀ hrole
    · intro e he hleg hsender
      obtain ⟨p₀, hp₀, hrecipient, hrow⟩ := h.opened e he hleg hsender
      refine ⟨rename old new p₀, (hpeers _).mpr ⟨p₀, rfl, hp₀⟩, (hparties p₀).trans hrecipient, ?_⟩
      rcases hrow with hne | hne
      · obtain ⟨row, hrow⟩ := Option.ne_none_iff_exists'.mp hne
        exact .inl (Option.ne_none_iff_exists'.mpr ⟨row, hpending.mpr ⟨p₀, rfl, hrow⟩⟩)
      · obtain ⟨row, hrow⟩ := Option.ne_none_iff_exists'.mp hne
        exact .inr (Option.ne_none_iff_exists'.mpr ⟨row, hkeys.mpr ⟨p₀, rfl, hrow⟩⟩)
    · intro e he hleg hsender
      obtain ⟨p₀, row, hrow, hdraw, hrest⟩ := h.answered e he hleg hsender
      refine ⟨rename old new p₀, row, hkeys.mpr ⟨p₀, rfl, hrow⟩, ?_, hrest⟩
      rw [hparties]
      exact hdraw

/-! ## Every run -/

/-- The invariant of the parties and the relay. -/
structure Orderly (w : World) : Prop where
  notices : ∀ n ∈ w.notices, n.newKey.party = n.sender.party
  nonce : ∀ e ∈ w.sent, e.nonce = e.session
  leg1 : ∀ e ∈ w.sent, e.eph = e.session → w.draws[e.session]? = some e.sender.party
  leg2 : ∀ e ∈ w.sent, e.eph ≠ e.session → w.draws[e.session]? = some e.recipient.party ∧
    ∃ e₁ ∈ w.sent, e₁.session = e.session ∧ e₁.eph = e₁.session ∧
      e₁.recipient.party = e.sender.party
  honest : ∀ i, Honest w.draws w.sent i (w.store i)

theorem orderly_paired {w : World} (h : Paired w) : Orderly w where
  notices := by simp [h.notices]
  nonce := by simp [h.sent]
  leg1 := by simp [h.sent]
  leg2 := by simp [h.sent]
  honest i :=
    { other := fun p hp => (h.peers i p hp).2
      unique := fun p q hp hq hpq => by
        obtain ⟨hp0, -⟩ := h.peers i p hp
        obtain ⟨hq0, -⟩ := h.peers i q hq
        cases p
        cases q
        simp_all
      pending := fun p sid row hrow => by
        rw [h.pending i] at hrow
        cases hrow
      known := fun p sid row hrow => by
        rw [h.keys i] at hrow
        cases hrow
      responder := fun p sid row hrow => by
        rw [h.keys i] at hrow
        cases hrow
      initiator := fun p sid row hrow => by
        rw [h.keys i] at hrow
        cases hrow
      opened := by simp [h.sent]
      answered := by simp [h.sent] }

variable {w : World}

theorem sent_act_none (w : World) (i : ℕ) (writes : List Write) (n : ℕ) :
    (w.act i writes n none).sent = w.sent := by
  simp only [World.act, Option.toList_none, List.nil_append, ite_self]

/-- A party has drawn and committed. -/
theorem Orderly.commit (h : Orderly w) {i : ℕ} {writes : List Write} {n : ℕ}
    (hcommit : Honest (w.draws ++ [i]) w.sent i ((w.store i).commit (writes.take n))) :
    Orderly (w.act i writes n none) := by
  have hsent := sent_act_none w i writes n
  refine ⟨h.notices, ?_, ?_, ?_, ?_⟩
  · rw [hsent]
    exact h.nonce
  · rw [hsent]
    intro e he hleg
    exact getElem?_append_of_some (h.leg1 e he hleg)
  · rw [hsent]
    intro e he hleg
    obtain ⟨hdraw, hfirst⟩ := h.leg2 e he hleg
    exact ⟨getElem?_append_of_some hdraw, hfirst⟩
  · rw [hsent]
    intro j
    by_cases hji : j = i
    · subst hji
      simpa [World.act] using hcommit
    · simpa [World.act, Function.update_of_ne hji] using (h.honest j).draw i

/-- A first leg is with the relay. -/
theorem Orderly.sendFirst (h : Orderly w) {e : SessionOpen} (hnonce : e.nonce = e.session)
    (hleg : e.eph = e.session) (hdraw : w.draws[e.session]? = some e.sender.party)
    (hrow : ∃ p, ((w.store e.sender.party).peers.get? p).isSome ∧ p.party = e.recipient.party ∧
      ((w.store e.sender.party).pending.get? (p, e.session) ≠ none ∨
        (w.store e.sender.party).keys.get? (p, e.session) ≠ none)) :
    Orderly { w with sent := e :: w.sent } where
  notices := h.notices
  nonce := List.forall_mem_cons.mpr ⟨hnonce, h.nonce⟩
  leg1 := List.forall_mem_cons.mpr ⟨fun _ => hdraw, h.leg1⟩
  leg2 := by
    refine List.forall_mem_cons.mpr ⟨fun hne => absurd hleg hne, fun e' he' hne => ?_⟩
    obtain ⟨hdraw', e₁, he₁, hfirst⟩ := h.leg2 e' he' hne
    exact ⟨hdraw', e₁, List.mem_cons_of_mem e he₁, hfirst⟩
  honest j := by
    refine (h.honest j).send e (fun _ hsender => ?_) fun hne => absurd hleg hne
    subst hsender
    exact hrow

/-- A second leg is with the relay. -/
theorem Orderly.sendSecond (h : Orderly w) {e f : SessionOpen} (hnonce : e.nonce = e.session)
    (hleg : e.eph ≠ e.session) (hdraw : w.draws[e.session]? = some e.recipient.party)
    (hf : f ∈ w.sent) (hsession : f.session = e.session) (hleg₁ : f.eph = f.session)
    (hrecipient : f.recipient.party = e.sender.party)
    (hrow : ∃ p row, (w.store e.sender.party).keys.get? (p, e.session) = some row ∧
      w.draws[e.session]? = some p.party ∧ row.myRole = .responder ∧
      row.key = ⟨s(e.eph, e.session), e.session, s(e.sender, e.recipient), e.session⟩) :
    Orderly { w with sent := e :: w.sent } where
  notices := h.notices
  nonce := List.forall_mem_cons.mpr ⟨hnonce, h.nonce⟩
  leg1 := List.forall_mem_cons.mpr ⟨fun heq => absurd heq hleg, h.leg1⟩
  leg2 := by
    refine List.forall_mem_cons.mpr ⟨fun _ => ?_, fun e' he' hne => ?_⟩
    · exact ⟨hdraw, f, List.mem_cons_of_mem e hf, hsession, hleg₁, hrecipient⟩
    · obtain ⟨hdraw', e₂, he₂, hfirst⟩ := h.leg2 e' he' hne
      exact ⟨hdraw', e₂, List.mem_cons_of_mem e he₂, hfirst⟩
  honest j := by
    refine (h.honest j).send e (fun heq => absurd heq hleg) fun _ hsender => ?_
    subst hsender
    exact hrow

/-- What is sent is sent after the transactions. -/
theorem act_some (w : World) (i : ℕ) (writes : List Write) (n : ℕ) (e : SessionOpen) :
    w.act i writes n (some e) =
      if writes.length < n then
        { w.act i writes n none with sent := e :: (w.act i writes n none).sent }
      else w.act i writes n none := by
  unfold World.act
  split_ifs
  · rfl
  · rfl

theorem Orderly.openSession (h : Orderly w) {w' : World} {i g : ℕ} {peer : KeyId} {n : ℕ}
    {now : Instant} (hstep : step w (.openSession i g peer n now) = some w') : Orderly w' := by
  simp only [step] at hstep
  split_ifs at hstep with hen
  cases hopen : Handshake.openSession (w.store i) ⟨i, g⟩ peer w.draws.length w.draws.length
      w.draws.length now with
  | none =>
    rw [hopen] at hstep
    obtain rfl := Option.some.inj hstep
    exact h
  | some out =>
    obtain ⟨writes, e⟩ := out
    rw [hopen] at hstep
    obtain rfl := Option.some.inj hstep
    obtain ⟨-, rfl, rfl⟩ := openSession_some hopen
    have hdraw := getElem?_draw w.draws i
    have hbase := (h.honest i).draw i
    have hcommit : Orderly (w.act i [.savePending peer w.draws.length
        ⟨w.draws.length, w.draws.length⟩] n none) :=
      h.commit (Store.commit_take hbase (hbase.savePending hen.2 hdraw) (by simp) (fun _ => id) n)
    rw [act_some]
    split_ifs with hn
    · refine hcommit.sendFirst (e := ⟨⟨i, g⟩, peer, w.draws.length, w.draws.length, w.draws.length,
        now + envelopeTtl⟩) rfl rfl hdraw ⟨peer, ?_, rfl, .inl ?_⟩
      · simp only [World.act, Function.update_self, List.take_of_length_le hn.le]
        exact hen.2
      · simp only [World.act, Function.update_self, List.take_of_length_le hn.le]
        simp [Store.commit, Write.apply, Dict.get?_set]
    · exact hcommit

/-- What is accepted where no handshake is pending is a first leg. -/
theorem Orderly.first_of_accepted (h : Orderly w) {i : ℕ} {e : SessionOpen} {now : Instant}
    (he : e ∈ w.sent) (haccepted : Accepted (w.store i) e now) (hrecipient : e.recipient.party = i)
    (hpending : (w.store i).pending.get? (e.sender, e.session) = none) : e.eph = e.session := by
  by_contra hleg
  obtain ⟨hdraw, e₁, he₁, hsession, hleg₁, hrecipient₁⟩ := h.leg2 e he hleg
  -- The party that it is for opened the session, and has a row for it.
  have hsender₁ : e₁.sender.party = i := by
    have hdraw₁ := h.leg1 e₁ he₁ hleg₁
    rw [hsession, hdraw, hrecipient] at hdraw₁
    exact (Option.some.inj hdraw₁).symm
  obtain ⟨p, hp, hparty, hrow⟩ := (h.honest i).opened e₁ he₁ hleg₁ hsender₁
  obtain rfl : p = e.sender :=
    (h.honest i).unique p e.sender hp haccepted.1 (hparty.trans hrecipient₁)
  rw [hsession, hpending, haccepted.2.2] at hrow
  rcases hrow with hne | hne
  · exact hne rfl
  · exact hne rfl

theorem Orderly.onSessionOpen (h : Orderly w) {w' : World} {i g : ℕ} {e : SessionOpen} {n : ℕ}
    {now : Instant} (hrouted : Routed w (.onSessionOpen i g e n now))
    (haddressed : Addressed w (.onSessionOpen i g e n now))
    (hstep : step w (.onSessionOpen i g e n now) = some w') : Orderly w' := by
  simp only [step] at hstep
  split_ifs at hstep with hen
  obtain rfl := Option.some.inj hstep
  have hbase := (h.honest i).draw i
  rcases onSessionOpen_cases (w.store i) ⟨i, g⟩ e w.draws.length now with
    heq | ⟨haccepted, heq⟩
  · rw [heq]
    exact h.commit (by simpa [Store.commit] using hbase)
  · rw [heq]
    have hrecipient := haddressed haccepted
    have hleg := h.first_of_accepted hen.2 haccepted hrecipient hrouted
    have hdraw := h.leg1 e hen.2 hleg
    have hnonce := h.nonce e hen.2
    have hother := (h.honest i).other e.sender haccepted.1
    generalize hrow : (⟨deriveSessionKey w.draws.length e.eph ⟨i, g⟩ e.sender e.session e.nonce,
      .responder, .initiator⟩ : KeyRow) = row
    have hcommit : Orderly (w.act i
        [.saveKey e.sender e.session row, .createSession e.sender e.session] n none) := by
      refine h.commit (Store.commit_take hbase (hbase.saveKey haccepted.1 ?_ ?_) ?_ (fun _ => id) n)
      · rw [← hrow]
        exact fun _ => ⟨getElem?_append_of_some hdraw, rfl⟩
      · rw [← hrow]
        rintro ⟨⟩
      · intro y hy t ht
        obtain rfl := List.mem_singleton.mp hy
        exact ht.createSession e.sender e.session
    rw [act_some]
    split_ifs with hn
    · have hlt : e.session < w.draws.length := (List.getElem?_eq_some_iff.mp hdraw).1
      refine hcommit.sendSecond (e := ⟨⟨i, g⟩, e.sender, e.session, w.draws.length, e.nonce,
        now + envelopeTtl⟩) (f := e) hnonce (by simp only; omega) (getElem?_append_of_some hdraw)
        ?_ rfl hleg hrecipient ⟨e.sender, row, ?_, getElem?_append_of_some hdraw, ?_, ?_⟩
      · rw [sent_act_none]
        exact hen.2
      · simp only [World.act, Function.update_self, List.take_of_length_le hn.le]
        simp only [Store.commit, List.foldl_cons, List.foldl_nil, keys_createSession]
        exact keys_saveKey_of_none haccepted.2.2
      · rw [← hrow]
      · rw [← hrow]
        simp only [deriveSessionKey, hleg, hnonce]
    · exact hcommit

theorem Orderly.completeSession (h : Orderly w) {w' : World} {i g : ℕ} {e : SessionOpen} {n : ℕ}
    {now : Instant} (haddressed : Addressed w (.completeSession i g e n now))
    (hstep : step w (.completeSession i g e n now) = some w') : Orderly w' := by
  simp only [step] at hstep
  split_ifs at hstep with hen
  obtain rfl := Option.some.inj hstep
  have hbase := (h.honest i).draw i
  refine h.commit ?_
  rcases completeSession_cases (w.store i) ⟨i, g⟩ e now with
    heq | ⟨pending, haccepted, hpending, heq⟩
  · rw [heq]
    simpa [Store.commit] using hbase
  · rw [heq]
    obtain ⟨-, hdraw, rfl⟩ := hbase.pending _ _ _ hpending
    have hsaved : Honest (w.draws ++ [i]) w.sent i ((Write.saveKey e.sender e.session
        ⟨deriveSessionKey e.session e.eph ⟨i, g⟩ e.sender e.session e.session, .initiator,
          .responder⟩).apply (w.store i)) := by
      refine hbase.saveKey haccepted.1 (by rintro ⟨⟩) fun _ => ?_
      refine ⟨hdraw, rfl, e, hen.2, rfl, rfl, ?_⟩
      rw [haddressed haccepted]
      rfl
    -- The handshake is cleared where its key is there, which is so once it is saved.
    refine Store.commit_take (P := fun t => Honest (w.draws ++ [i]) w.sent i t ∧
      t.keys.get? (e.sender, e.session) ≠ none) hbase ⟨hsaved, ?_⟩ ?_ (fun t ht => ht.1) n
    · rw [keys_saveKey_of_none haccepted.2.2]
      rintro ⟨⟩
    · intro y hy t ht
      rcases List.mem_cons.mp hy with rfl | hy
      · refine ⟨ht.1.createSession e.sender e.session, ?_⟩
        rw [keys_createSession]
        exact ht.2
      · obtain rfl := List.mem_singleton.mp hy
        exact ⟨ht.1.clearPending ht.2, ht.2⟩

theorem Orderly.deliverNotice (h : Orderly w) {w' : World} {i : ℕ} {notice : Notice} {n : ℕ}
    {now : Instant} (hstep : step w (.deliverNotice i notice n now) = some w') : Orderly w' := by
  simp only [step] at hstep
  split_ifs at hstep with hmem
  obtain rfl := Option.some.inj hstep
  refine ⟨h.notices, h.nonce, h.leg1, h.leg2, fun j => ?_⟩
  by_cases hji : j = i
  · subst hji
    simp only [Function.update_self]
    rcases ingestNotice_cases (w.store j) notice now with heq | ⟨-, heq⟩
    · rw [heq]
      simpa [Store.commit] using h.honest j
    · rw [heq]
      exact Store.commit_take (h.honest j) ((h.honest j).updateIdentity (h.notices notice hmem))
        (by simp) (fun _ => id) n
  · simp only [Function.update_of_ne hji]
    exact h.honest j

theorem Orderly.rotate (h : Orderly w) {w' : World} {i : ℕ} {now : Instant}
    (hstep : step w (.rotate i now) = some w') : Orderly w' := by
  obtain rfl := Option.some.inj hstep
  refine ⟨fun n hn => ?_, h.nonce, h.leg1, h.leg2, h.honest⟩
  rcases List.mem_append.mp hn with hn | hn
  · obtain ⟨peer, -, rfl⟩ := List.mem_map.mp hn
    rfl
  · exact h.notices n hn

theorem Orderly.sendMessage (h : Orderly w) {w' : World} {i : ℕ} {peer : KeyId} {session n : ℕ}
    (hstep : step w (.sendMessage i peer session n) = some w') : Orderly w' := by
  simp only [step] at hstep
  cases hrow : (w.store i).keys.get? (peer, session) with
  | none =>
    rw [hrow] at hstep
    obtain rfl := Option.some.inj hstep
    exact h
  | some row =>
    rw [hrow] at hstep
    obtain rfl := Option.some.inj hstep
    refine ⟨h.notices, h.nonce, h.leg1, h.leg2, fun j => ?_⟩
    by_cases hji : j = i
    · subst hji
      simp only [Function.update_self]
      exact Store.commit_take (h.honest j) ((h.honest j).nextSequence peer session) (by simp)
        (fun _ => id) n
    · simp only [Function.update_of_ne hji]
      exact h.honest j

/-- An initiator and a responder of one session have the same key. -/
theorem Orderly.key_eq (h : Orderly w) {p q : KeyId} {sid : ℕ} {row row' : KeyRow}
    (hrow : (w.store q.party).keys.get? (p, sid) = some row)
    (hrow' : (w.store p.party).keys.get? (q, sid) = some row') (hrole : row.myRole = .initiator)
    (hrole' : row'.myRole = .responder) (hne : p.party ≠ q.party) : row.key = row'.key := by
  obtain ⟨hdraw, -, e, he, rfl, hsender, hkey⟩ := (h.honest q.party).initiator p _ row hrow hrole
  have hleg : e.eph ≠ e.session := by
    intro hleg
    have hdraw' := h.leg1 e he hleg
    rw [hdraw, hsender] at hdraw'
    exact hne (Option.some.inj hdraw').symm
  obtain ⟨q', row'', hrow'', hdraw'', -, hkey''⟩ := (h.honest p.party).answered e he hleg hsender
  have hparty : q'.party = q.party := by
    rw [hdraw] at hdraw''
    exact (Option.some.inj hdraw'').symm
  obtain rfl : q' = q :=
    (h.honest p.party).unique q' q ((h.honest p.party).known q' _ row'' hrow'')
      ((h.honest p.party).known q _ row' hrow') hparty
  obtain rfl : row'' = row' := Option.some.inj (hrow''.symm.trans hrow')
  rw [hkey, hkey'', Sym2.eq_swap, Sym2.eq_swap (a := e.recipient)]

theorem Orderly.agree (h : Orderly w) : Agree w := by
  intro p q sid row row' hrow hrow' hne
  cases hrole : row.myRole with
  | initiator =>
    obtain ⟨hdraw, hpeer, -⟩ := (h.honest q.party).initiator p sid row hrow hrole
    cases hrole' : row'.myRole with
    | initiator =>
      obtain ⟨hdraw', -⟩ := (h.honest p.party).initiator q sid row' hrow' hrole'
      rw [hdraw] at hdraw'
      exact absurd (Option.some.inj hdraw').symm hne
    | responder =>
      obtain ⟨-, hpeer'⟩ := (h.honest p.party).responder q sid row' hrow' hrole'
      exact ⟨h.key_eq hrow hrow' hrole hrole' hne, hpeer'.symm, hpeer, nofun⟩
  | responder =>
    obtain ⟨hdraw, hpeer⟩ := (h.honest q.party).responder p sid row hrow hrole
    cases hrole' : row'.myRole with
    | initiator =>
      obtain ⟨-, hpeer', -⟩ := (h.honest p.party).initiator q sid row' hrow' hrole'
      exact ⟨(h.key_eq hrow' hrow hrole' hrole hne.symm).symm, hpeer'.symm, hpeer, nofun⟩
    | responder =>
      obtain ⟨hdraw', -⟩ := (h.honest p.party).responder q sid row' hrow' hrole'
      rw [hdraw] at hdraw'
      exact absurd (Option.some.inj hdraw') hne

/-- Where every envelope that is accepted was addressed to whom it reached, the two sides of a
session agree, whatever else the relay does and however often the parties rotate and stop. -/
theorem agree_of_addressed {w : World}
    (h : machine.Reach (fun w a => Routed w a ∧ Addressed w a) w) : Agree w := by
  have horderly : Orderly w := by
    refine h.invariant (I := Orderly) (fun w hw => orderly_paired hw) ?_
    intro w a w' hw ⟨hrouted, haddressed⟩ hstep
    cases a with
    | openSession i g peer n now => exact hw.openSession hstep
    | onSessionOpen i g e n now => exact hw.onSessionOpen hrouted haddressed hstep
    | completeSession i g e n now => exact hw.completeSession haddressed hstep
    | deliverNotice i notice n now => exact hw.deliverNotice hstep
    | rotate i now => exact hw.rotate hstep
    | sendMessage i peer session n => exact hw.sendMessage hstep
  exact horderly.agree

/-- Parties that hold keys for each other which come from different ephemeral keys or fingerprints.
-/
def differ (w : World) (p q : KeyId) (sid : ℕ) : Bool :=
  ((w.store q.party).keys.get? (p, sid)).any fun row =>
    ((w.store p.party).keys.get? (q, sid)).any fun row' =>
      row.key.shared ≠ row'.key.shared ∨ row.key.fingerprints ≠ row'.key.fingerprints

theorem not_agree_of_differ {w : World} {p q : KeyId} {sid : ℕ} (h : differ w p q sid = true)
    (hne : p.party ≠ q.party) : ¬ Agree w := by
  intro hagree
  obtain ⟨row, hrow, hany⟩ := (Option.any_eq_true _ _).mp h
  obtain ⟨row', hrow', hkey⟩ := (Option.any_eq_true _ _).mp hany
  have heq := (hagree p q sid row row' hrow hrow' hne).1
  rcases of_decide_eq_true hkey with hshared | hfingerprints
  · exact hshared (by rw [heq])
  · exact hfingerprints (by rw [heq])

/-- The first leg of a first session, from the first party to the second one. -/
def leg1 : SessionOpen := ⟨⟨0, 0⟩, ⟨1, 0⟩, 0, 0, 0, envelopeTtl⟩

/-- What a party answers to it. -/
def leg2 (i : ℕ) : SessionOpen := ⟨⟨i, 0⟩, ⟨0, 0⟩, 0, 1, 0, envelopeTtl⟩

/-- The opener rotates its identity before it completes the session. -/
def rotatedMidway : List Step :=
  [.openSession 0 0 ⟨1, 0⟩ 9 0, .onSessionOpen 1 0 leg1 9 0, .rotate 0 0,
    .completeSession 0 1 (leg2 1) 9 0]

/-- The relay hands the first leg to the third party, and its answer to the opener. -/
def misdelivered : List Step :=
  [.openSession 0 0 ⟨1, 0⟩ 9 0, .onSessionOpen 2 0 leg1 9 0, .onSessionOpen 0 0 (leg2 2) 9 0]

/-- A run that ends in a world in which two sides disagree. -/
def Disagrees (as : List Step) : Prop :=
  ∃ w, machine.Reach Routed w ∧ machine.runWithin Routed circle as = some w ∧ ¬ Agree w

theorem agree_fails : Disagrees rotatedMidway ∧ Disagrees misdelivered := by
  have hrun : ∀ as p, p ≠ (0 : ℕ) →
      (machine.runWithin Routed circle as).any (fun w => differ w ⟨p, 0⟩ ⟨0, 0⟩ 0) = true →
      Disagrees as := by
    intro as p hp hany
    obtain ⟨w, hw, hdiffer⟩ := (Option.any_eq_true _ _).mp hany
    exact ⟨w, .of_runWithin (fun _ _ => id) (.init paired_circle) hw, hw,
      not_agree_of_differ hdiffer hp⟩
  constructor
  · exact hrun rotatedMidway 1 (by decide) (by decide +kernel)
  · exact hrun misdelivered 2 (by decide) (by decide +kernel)

/-- A session is set up before its opener rotates, and the notice reaches the other side. -/
theorem agree_of_addressed_rotated :
    ∃ w, machine.Reach (fun w a => Routed w a ∧ Addressed w a) w ∧
      ((w.store 0).keys.get? (⟨1, 0⟩, 0)).isSome ∧ ((w.store 1).keys.get? (⟨0, 1⟩, 0)).isSome ∧
      Agree w := by
  obtain ⟨w, hw, hkeys⟩ := machine.exists_reach_of_runWithin
    (C := fun w a => Routed w a ∧ Addressed w a) (D := fun w a => Routed w a ∧ Addressed w a)
    (fun _ _ => id) paired_circle
    [.openSession 0 0 ⟨1, 0⟩ 9 0, .onSessionOpen 1 0 leg1 9 0, .completeSession 0 0 (leg2 1) 9 0,
      .rotate 0 0, .deliverNotice 1 ⟨⟨0, 0⟩, ⟨1, 0⟩, ⟨0, 1⟩, envelopeTtl⟩ 9 0]
    (fun w => ((w.store 0).keys.get? (⟨1, 0⟩, 0)).isSome &&
      ((w.store 1).keys.get? (⟨0, 1⟩, 0)).isSome) (by decide +kernel)
  rw [Bool.and_eq_true] at hkeys
  exact ⟨w, hw, hkeys.1, hkeys.2, agree_of_addressed hw⟩

end Companion.Kindled.Handshake

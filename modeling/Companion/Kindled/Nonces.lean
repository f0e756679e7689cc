import Companion.Kindled.Network

/-!
# Nonces are used once

No two messages are encrypted under the same session key with the same nonce (`encrypted_nodup`), in
any run of any number of parties, whatever the relay does and wherever they stop.

A session key is derived from two ephemeral keys, each of which goes into one row of one store: that
of an initiator has the number of its session, and that of a responder is drawn after the other one.
So the key and the role name the row (`Rooted.row_unique`), and the sequence of a row only grows.
-/

namespace Companion.Kindled.Handshake

open Companion.Memory Companion.Runs

/-- Distinct roles and sequences make distinct nonces. -/
theorem aeadNonce_inj {role role' : Role} {m n k : ℕ} (h : aeadNonce role m = some k)
    (h' : aeadNonce role' n = some k) : role = role' ∧ m = n := by
  unfold aeadNonce at h h'
  split_ifs at h h' with hm hn
  have hk := Option.some.inj h
  have hk' := Option.some.inj h'
  cases role with
  | initiator =>
    cases role' with
    | initiator => exact ⟨rfl, hk.trans hk'.symm⟩
    | responder =>
      simp only at hk hk'
      omega
  | responder =>
    cases role' with
    | initiator =>
      simp only at hk hk'
      omega
    | responder =>
      simp only at hk hk'
      exact ⟨rfl, by omega⟩

/-! ## Where the rows of a store come from -/

/-- The rows of the store of a party go back to its own draws. -/
structure Rooted (draws : List ℕ) (i : ℕ) (s : Store) : Prop where
  /-- The ephemeral key of a pending handshake has the number of its session. -/
  pending : ∀ p sid row, s.pending.get? (p, sid) = some row → draws[sid]? = some i ∧ row.eph = sid
  /-- The own ephemeral key of an initiator has the number of the session, and that of a responder
  is drawn after the other one. -/
  row : ∀ p sid row, s.keys.get? (p, sid) = some row → row.key.session = sid ∧
    ∃ own other, row.key.shared = s(own, other) ∧ draws[own]? = some i ∧ other < draws.length ∧
      (row.myRole = .initiator → own = sid) ∧ (row.myRole = .responder → other < own)
  /-- A session that the party opened is with one peer, pending or established. -/
  opened : ∀ p p' sid, s.pending.get? (p, sid) ≠ none →
    (s.pending.get? (p', sid) ≠ none ∨
      ∃ row, s.keys.get? (p', sid) = some row ∧ row.myRole = .initiator) → p = p'
  initiated : ∀ p p' sid row row', s.keys.get? (p, sid) = some row → row.myRole = .initiator →
    s.keys.get? (p', sid) = some row' → row'.myRole = .initiator → p = p'
  /-- What a responder drew goes into one row. -/
  responded : ∀ p p' sid row row', s.keys.get? (p, sid) = some row → row.myRole = .responder →
    s.keys.get? (p', sid) = some row' → row'.myRole = .responder →
      row.key.shared = row'.key.shared → p = p'

variable {draws : List ℕ} {i : ℕ} {s : Store}

/-- More draws change nothing. -/
theorem Rooted.draw (h : Rooted draws i s) (j : ℕ) : Rooted (draws ++ [j]) i s := by
  refine { h with pending := fun p sid row hrow => ?_, row := fun p sid row hrow => ?_ }
  · obtain ⟨hdraw, heph⟩ := h.pending p sid row hrow
    exact ⟨getElem?_append_of_some hdraw, heph⟩
  · obtain ⟨hsid, own, other, hshared, hown, hother, hroles⟩ := h.row p sid row hrow
    refine ⟨hsid, own, other, hshared, getElem?_append_of_some hown, ?_, hroles⟩
    rw [List.length_append]
    omega

/-- The key and the role of a row name the party, the peer and the session. -/
theorem Rooted.row_unique {j : ℕ} {s' : Store} (h : Rooted draws i s) (h' : Rooted draws j s')
    (hsame : i = j → s = s') {p p' : KeyId} {sid sid' : ℕ} {row row' : KeyRow}
    (hrow : s.keys.get? (p, sid) = some row) (hrow' : s'.keys.get? (p', sid') = some row')
    (hkey : row.key = row'.key) (hrole : row.myRole = row'.myRole) :
    i = j ∧ p = p' ∧ sid = sid' := by
  obtain ⟨hsid, own, other, hshared, hown, hother, hinit, hresp⟩ := h.row p sid row hrow
  obtain ⟨hsid', own', other', hshared', hown', hother', hinit', hresp'⟩ := h'.row p' sid' row' hrow'
  have hsids : sid = sid' := by rw [← hsid, ← hsid', hkey]
  subst hsids
  cases hr : row.myRole with
  | initiator =>
    have hr' : row'.myRole = .initiator := hrole.symm.trans hr
    have hij : i = j := by
      rw [hinit hr] at hown
      rw [hinit' hr'] at hown'
      exact Option.some.inj (hown.symm.trans hown')
    obtain rfl := hsame hij
    exact ⟨hij, h.initiated p p' sid row row' hrow hr hrow' hr', rfl⟩
  | responder =>
    have hr' : row'.myRole = .responder := hrole.symm.trans hr
    have hlt := hresp hr
    have hlt' := hresp' hr'
    have hpair : s(own, other) = s(own', other') := by rw [← hshared, ← hshared', hkey]
    -- Each side drew after the other one, so that the own ephemeral keys are the same.
    have howns : own = own' := by
      rcases Sym2.eq_iff.mp hpair with ⟨heq, -⟩ | ⟨h1, h2⟩
      · exact heq
      · omega
    have hij : i = j := by
      rw [howns] at hown
      exact Option.some.inj (hown.symm.trans hown')
    obtain rfl := hsame hij
    exact ⟨hij, h.responded p p' sid row row' hrow hr hrow' hr' (by rw [hkey]), rfl⟩

/-! ## What a transaction keeps -/

theorem Rooted.savePending (h : Rooted draws i s) {p : KeyId} {d nonce : ℕ}
    (hdraw : draws[d]? = some i)
    (hkeys : ∀ q row, s.keys.get? (q, d) = some row → row.myRole ≠ .initiator)
    (hpending : ∀ q, s.pending.get? (q, d) = none) :
    Rooted draws i ((Write.savePending p d ⟨d, nonce⟩).apply s) := by
  have hget : ∀ q sid, (s.pending.set (p, d) ⟨d, nonce⟩).get? (q, sid) ≠ none →
      (q = p ∧ sid = d) ∨ (sid ≠ d ∧ s.pending.get? (q, sid) ≠ none) := by
    intro q sid hne
    rw [Dict.get?_set] at hne
    split_ifs at hne with heq
    · exact .inl (Prod.mk.inj heq)
    · refine .inr ⟨?_, hne⟩
      rintro rfl
      exact hne (hpending q)
  refine { h with pending := fun q sid row hrow => ?_, opened := fun q q' sid hq hq' => ?_ }
  · simp only [Write.apply] at hrow
    rw [Dict.get?_set] at hrow
    split_ifs at hrow with heq
    · obtain ⟨-, rfl⟩ := Prod.mk.inj heq
      cases hrow
      exact ⟨hdraw, rfl⟩
    · exact h.pending q sid row hrow
  · rcases hget q sid hq with ⟨rfl, rfl⟩ | ⟨hne, hq⟩
    · rcases hq' with hq' | ⟨row, hrow, hinit⟩
      · rcases hget q' sid hq' with ⟨rfl, -⟩ | ⟨hne, -⟩
        · rfl
        · exact absurd rfl hne
      · exact absurd hinit (hkeys q' row hrow)
    · refine h.opened q q' sid hq (hq'.imp_left fun hq' => ?_)
      rcases hget q' sid hq' with ⟨-, rfl⟩ | ⟨-, hq'⟩
      · exact absurd rfl hne
      · exact hq'

/-- A row that is saved is new, or nothing is. -/
theorem get?_saveKey (s : Store) (p : KeyId) (sid : ℕ) (row : KeyRow) (q : KeyId) (sid' : ℕ)
    (row' : KeyRow) (h : ((Write.saveKey p sid row).apply s).keys.get? (q, sid') = some row') :
    s.keys.get? (q, sid') = some row' ∨ (q = p ∧ sid' = sid ∧ row' = row) := by
  simp only [Write.apply] at h
  split_ifs at h with hsome
  · exact .inl h
  · simp only at h
    rw [Dict.get?_set] at h
    split_ifs at h with heq
    · obtain ⟨rfl, rfl⟩ := Prod.mk.inj heq
      cases h
      exact .inr ⟨rfl, rfl, rfl⟩
    · exact .inl h

theorem pending_saveKey (s : Store) (p : KeyId) (sid : ℕ) (row : KeyRow) :
    ((Write.saveKey p sid row).apply s).pending = s.pending := by
  simp only [Write.apply]
  split_ifs
  · rfl
  · rfl

/-- What is there stays when a key is saved. -/
theorem keys_saveKey_of_some {p q : KeyId} {sid sid' : ℕ} {row row' : KeyRow}
    (h : s.keys.get? (q, sid') = some row') :
    ((Write.saveKey p sid row).apply s).keys.get? (q, sid') = some row' := by
  simp only [Write.apply]
  split_ifs with hsome
  · exact h
  · simp only
    rw [Dict.get?_set, if_neg]
    · exact h
    · intro heq
      rw [← heq, h] at hsome
      exact hsome rfl

/-- A responder saves a key with an ephemeral key that no row has. -/
theorem Rooted.saveResponder (h : Rooted draws i s) {p : KeyId} {sid d other : ℕ} {row : KeyRow}
    (hsession : row.key.session = sid) (hshared : row.key.shared = s(d, other))
    (hrole : row.myRole = .responder) (hdraw : draws[d]? = some i) (hlt : other < d)
    (hnew : ∀ q sid' row', s.keys.get? (q, sid') = some row' → row'.key.shared ≠ s(d, other)) :
    Rooted draws i ((Write.saveKey p sid row).apply s) := by
  have hlen : d < draws.length := (List.getElem?_eq_some_iff.mp hdraw).1
  have hold : ∀ q sid' row', ((Write.saveKey p sid row).apply s).keys.get? (q, sid') = some row' →
      row'.myRole = .initiator → s.keys.get? (q, sid') = some row' := by
    intro q sid' row' hrow' hinit
    rcases get?_saveKey s p sid row q sid' row' hrow' with hrow' | ⟨-, -, rfl⟩
    · exact hrow'
    · rw [hrole] at hinit
      cases hinit
  exact
    { pending := by
        rw [pending_saveKey]
        exact h.pending
      row := fun q sid' row' hrow' => by
        rcases get?_saveKey s p sid row q sid' row' hrow' with hrow' | ⟨-, rfl, rfl⟩
        · exact h.row q sid' row' hrow'
        · refine ⟨hsession, d, other, hshared, hdraw, hlt.trans hlen, fun hinit => ?_, fun _ => hlt⟩
          rw [hrole] at hinit
          cases hinit
      opened := fun q q' sid' hq hq' => by
        rw [pending_saveKey] at hq hq'
        refine h.opened q q' sid' hq (hq'.imp_right ?_)
        rintro ⟨row', hrow', hinit⟩
        exact ⟨row', hold q' sid' row' hrow' hinit, hinit⟩
      initiated := fun q q' sid' row₁ row₂ h₁ hinit₁ h₂ hinit₂ =>
        h.initiated q q' sid' row₁ row₂ (hold q sid' row₁ h₁ hinit₁) hinit₁
          (hold q' sid' row₂ h₂ hinit₂) hinit₂
      responded := fun q q' sid' row₁ row₂ h₁ hresp₁ h₂ hresp₂ heq => by
        rcases get?_saveKey s p sid row q sid' row₁ h₁ with hrow₁ | ⟨hq, -, hrow₁⟩
        · rcases get?_saveKey s p sid row q' sid' row₂ h₂ with hrow₂ | ⟨-, -, rfl⟩
          · exact h.responded q q' sid' row₁ row₂ hrow₁ hresp₁ hrow₂ hresp₂ heq
          · exact absurd (heq.trans hshared) (hnew q sid' row₁ hrow₁)
        · rcases get?_saveKey s p sid row q' sid' row₂ h₂ with hrow₂ | ⟨hq', -, -⟩
          · rw [hrow₁] at heq
            exact absurd (heq.symm.trans hshared) (hnew q' sid' row₂ hrow₂)
          · exact hq.trans hq'.symm }

/-- An initiator saves a key for a handshake that is pending. -/
theorem Rooted.saveInitiator (h : Rooted draws i s) {p : KeyId} {sid other : ℕ} {row : KeyRow}
    {pending : Pending} (hpending : s.pending.get? (p, sid) = some pending)
    (hsession : row.key.session = sid) (hshared : row.key.shared = s(pending.eph, other))
    (hrole : row.myRole = .initiator) (hlt : other < draws.length) :
    Rooted draws i ((Write.saveKey p sid row).apply s) := by
  obtain ⟨hdraw, heph⟩ := h.pending p sid pending hpending
  have hsome : s.pending.get? (p, sid) ≠ none := by
    rw [hpending]
    exact nofun
  have hold : ∀ q sid' row', ((Write.saveKey p sid row).apply s).keys.get? (q, sid') = some row' →
      row'.myRole = .responder → s.keys.get? (q, sid') = some row' := by
    intro q sid' row' hrow' hresp
    rcases get?_saveKey s p sid row q sid' row' hrow' with hrow' | ⟨-, -, rfl⟩
    · exact hrow'
    · rw [hrole] at hresp
      cases hresp
  exact
    { pending := by
        rw [pending_saveKey]
        exact h.pending
      row := fun q sid' row' hrow' => by
        rcases get?_saveKey s p sid row q sid' row' hrow' with hrow' | ⟨-, rfl, rfl⟩
        · exact h.row q sid' row' hrow'
        · refine ⟨hsession, sid', other, heph ▸ hshared, hdraw, hlt, fun _ => rfl, fun hresp => ?_⟩
          rw [hrole] at hresp
          cases hresp
      opened := fun q q' sid' hq hq' => by
        rw [pending_saveKey] at hq hq'
        rcases hq' with hq' | ⟨row', hrow', hinit⟩
        · exact h.opened q q' sid' hq (.inl hq')
        · rcases get?_saveKey s p sid row q' sid' row' hrow' with hrow' | ⟨rfl, rfl, -⟩
          · exact h.opened q q' sid' hq (.inr ⟨row', hrow', hinit⟩)
          · exact h.opened q q' sid' hq (.inl hsome)
      initiated := fun q q' sid' row₁ row₂ h₁ hinit₁ h₂ hinit₂ => by
        rcases get?_saveKey s p sid row q sid' row₁ h₁ with hrow₁ | ⟨hq, hsid, -⟩
        · rcases get?_saveKey s p sid row q' sid' row₂ h₂ with hrow₂ | ⟨hq', hsid, -⟩
          · exact h.initiated q q' sid' row₁ row₂ hrow₁ hinit₁ hrow₂ hinit₂
          · rw [hq']
            exact (h.opened p q sid hsome (.inr ⟨row₁, hsid ▸ hrow₁, hinit₁⟩)).symm
        · rcases get?_saveKey s p sid row q' sid' row₂ h₂ with hrow₂ | ⟨hq', -, -⟩
          · rw [hq]
            exact h.opened p q' sid hsome (.inr ⟨row₂, hsid ▸ hrow₂, hinit₂⟩)
          · exact hq.trans hq'.symm
      responded := fun q q' sid' row₁ row₂ h₁ hresp₁ h₂ hresp₂ =>
        h.responded q q' sid' row₁ row₂ (hold q sid' row₁ h₁ hresp₁) hresp₁
          (hold q' sid' row₂ h₂ hresp₂) hresp₂ }

theorem Rooted.createSession (h : Rooted draws i s) (p : KeyId) (sid : ℕ) :
    Rooted draws i ((Write.createSession p sid).apply s) := by
  simp only [Write.apply]
  split_ifs
  · exact h
  · exact { h with }

theorem Rooted.nextSequence (h : Rooted draws i s) (p : KeyId) (sid : ℕ) :
    Rooted draws i ((Write.nextSequence p sid).apply s) :=
  { h with }

theorem Rooted.clearPending (h : Rooted draws i s) (p : KeyId) (sid : ℕ) :
    Rooted draws i ((Write.clearPending p sid).apply s) := by
  have hget : ∀ q sid' row, (s.pending.pop (p, sid)).get? (q, sid') = some row →
      s.pending.get? (q, sid') = some row := by
    intro q sid' row hrow
    rw [Dict.get?_pop] at hrow
    split_ifs at hrow
    exact hrow
  have hget' : ∀ q sid', (s.pending.pop (p, sid)).get? (q, sid') ≠ none →
      s.pending.get? (q, sid') ≠ none := by
    intro q sid' hne
    obtain ⟨row, hrow⟩ := Option.ne_none_iff_exists'.mp hne
    rw [hget q sid' row hrow]
    rintro ⟨⟩
  exact
    { h with
      pending := fun q sid' row hrow => h.pending q sid' row (hget q sid' row hrow)
      opened := fun q q' sid' hq hq' =>
        h.opened q q' sid' (hget' q sid' hq) (hq'.imp_left (hget' q' sid')) }

/-- Rows that are renamed together stay together. -/
theorem Rooted.updateIdentity (h : Rooted draws i s) (old new : KeyId) :
    Rooted draws i ((Write.updateIdentity old new).apply s) := by
  simp only [Write.apply]
  cases hupdate : updatePeerIdentity s old new with
  | none => exact h
  | some s' =>
    have hp := @get?_pending_updatePeerIdentity s s' old new hupdate
    have hk := @get?_keys_updatePeerIdentity s s' old new hupdate
    have hp' : ∀ q sid, s'.pending.get? (q, sid) ≠ none →
        ∃ q₀, rename old new q₀ = q ∧ s.pending.get? (q₀, sid) ≠ none := by
      intro q sid hne
      obtain ⟨row, hrow⟩ := Option.ne_none_iff_exists'.mp hne
      obtain ⟨q₀, hq, hrow₀⟩ := hp.mp hrow
      refine ⟨q₀, hq, ?_⟩
      rw [hrow₀]
      exact nofun
    exact
      { pending := fun q sid row hrow => by
          obtain ⟨q₀, -, hrow₀⟩ := hp.mp hrow
          exact h.pending q₀ sid row hrow₀
        row := fun q sid row hrow => by
          obtain ⟨q₀, -, hrow₀⟩ := hk.mp hrow
          exact h.row q₀ sid row hrow₀
        opened := fun q q' sid hq hq' => by
          obtain ⟨q₀, rfl, hq₀⟩ := hp' q sid hq
          rcases hq' with hq' | ⟨row, hrow, hinit⟩
          · obtain ⟨r₀, rfl, hr₀⟩ := hp' q' sid hq'
            rw [h.opened q₀ r₀ sid hq₀ (.inl hr₀)]
          · obtain ⟨r₀, rfl, hr₀⟩ := hk.mp hrow
            rw [h.opened q₀ r₀ sid hq₀ (.inr ⟨row, hr₀, hinit⟩)]
        initiated := fun q q' sid row₁ row₂ h₁ hinit₁ h₂ hinit₂ => by
          obtain ⟨q₀, rfl, hq₀⟩ := hk.mp h₁
          obtain ⟨r₀, rfl, hr₀⟩ := hk.mp h₂
          rw [h.initiated q₀ r₀ sid row₁ row₂ hq₀ hinit₁ hr₀ hinit₂]
        responded := fun q q' sid row₁ row₂ h₁ hresp₁ h₂ hresp₂ heq => by
          obtain ⟨q₀, rfl, hq₀⟩ := hk.mp h₁
          obtain ⟨r₀, rfl, hr₀⟩ := hk.mp h₂
          rw [h.responded q₀ r₀ sid row₁ row₂ hq₀ hresp₁ hr₀ hresp₂ heq] }

/-- Some of the transactions of a function, of which the first needs care. -/
theorem Rooted.commit_take (h : Rooted draws i s) {x : Write} {writes : List Write}
    (hx : Rooted draws i (x.apply s))
    (hwrites : ∀ y ∈ writes, ∀ t, Rooted draws i t → Rooted draws i (y.apply t)) (n : ℕ) :
    Rooted draws i (s.commit ((x :: writes).take n)) :=
  Store.commit_take h hx hwrites (fun _ => id) n

/-! ## What the functions keep -/

theorem Rooted.openSession (h : Rooted draws i s) {me peer : KeyId} {now : Instant}
    {writes : List Write} {e : SessionOpen}
    (hopen : Handshake.openSession s me peer draws.length draws.length draws.length now =
      some (writes, e)) (n : ℕ) :
    Rooted (draws ++ [i]) i (s.commit (writes.take n)) := by
  obtain ⟨-, rfl, -⟩ := openSession_some hopen
  refine Rooted.commit_take (h.draw i) ?_ (by simp) n
  refine Rooted.savePending (h.draw i) (getElem?_draw draws i) ?_ ?_
  · intro q row hrow hinit
    obtain ⟨-, own, other, -, hown, -, hsid, -⟩ := h.row q _ row hrow
    have hlt := (List.getElem?_eq_some_iff.mp hown).1
    rw [hsid hinit] at hlt
    omega
  · intro q
    rw [Option.eq_none_iff_forall_ne_some]
    intro row hrow
    obtain ⟨hdraw, -⟩ := h.pending q _ row hrow
    have hlt := (List.getElem?_eq_some_iff.mp hdraw).1
    omega

theorem Rooted.onSessionOpen (h : Rooted draws i s) (me : KeyId) {e : SessionOpen}
    (he : e.eph < draws.length) (now : Instant) (n : ℕ) :
    Rooted (draws ++ [i]) i
      (s.commit ((Handshake.onSessionOpen s me e draws.length now).1.take n)) := by
  have h' := h.draw i
  rcases onSessionOpen_cases s me e draws.length now with heq | ⟨-, heq⟩
  · rw [heq]
    simpa [Store.commit] using h'
  · rw [heq]
    refine Rooted.commit_take h' ?_ ?_ n
    · refine Rooted.saveResponder h' rfl rfl rfl (getElem?_draw draws i) he ?_
      -- The rows that are there go back to earlier draws.
      intro q sid row hrow hshared
      obtain ⟨-, own, other, hpair, hown, hother, -⟩ := h.row q sid row hrow
      have hlt := (List.getElem?_eq_some_iff.mp hown).1
      rcases Sym2.eq_iff.mp (hpair.symm.trans hshared) with ⟨h1, -⟩ | ⟨-, h2⟩
      · omega
      · omega
    · intro y hy t ht
      obtain rfl := List.mem_singleton.mp hy
      exact ht.createSession e.sender e.session

theorem Rooted.completeSession (h : Rooted draws i s) (me : KeyId) {e : SessionOpen}
    (he : e.eph < draws.length) (now : Instant) (n : ℕ) :
    Rooted draws i (s.commit ((Handshake.completeSession s me e now).take n)) := by
  rcases completeSession_cases s me e now with heq | ⟨pending, -, hpending, heq⟩
  · rw [heq]
    simpa [Store.commit] using h
  · rw [heq]
    refine Rooted.commit_take h (h.saveInitiator hpending rfl rfl rfl he) ?_ n
    intro y hy t ht
    rcases List.mem_cons.mp hy with rfl | hy
    · exact ht.createSession e.sender e.session
    · obtain rfl := List.mem_singleton.mp hy
      exact ht.clearPending e.sender e.session

theorem Rooted.ingestNotice (h : Rooted draws i s) (notice : Notice) (now : Instant) (n : ℕ) :
    Rooted draws i (s.commit ((Handshake.ingestNotice s notice now).take n)) := by
  rcases ingestNotice_cases s notice now with heq | ⟨-, heq⟩
  · rw [heq]
    simpa [Store.commit] using h
  · rw [heq]
    exact Rooted.commit_take h (h.updateIdentity _ _) (by simp) n

/-! ## Sequences grow -/

/-- A message was encrypted with the key of a row, and its sequence is not to come again. -/
def Used (s : Store) (key : SessionKey) (nonce : ℕ) : Prop :=
  ∃ p row sequence, s.keys.get? (p, key.session) = some row ∧ row.key = key ∧
    aeadNonce row.myRole sequence = some nonce ∧
    sequence ≤ (s.outboundSeq.get? (p, key.session)).getD 0

variable {key : SessionKey} {nonce : ℕ}

/-- No transaction takes the sequence of a row back. -/
theorem Used.apply (h : Used s key nonce) (x : Write) : Used (x.apply s) key nonce := by
  obtain ⟨p, row, sequence, hrow, hkey, hnonce, hle⟩ := h
  cases x with
  | savePending q sid pending => exact ⟨p, row, sequence, hrow, hkey, hnonce, hle⟩
  | clearPending q sid => exact ⟨p, row, sequence, hrow, hkey, hnonce, hle⟩
  | createSession q sid =>
    simp only [Write.apply]
    split_ifs
    · exact ⟨p, row, sequence, hrow, hkey, hnonce, hle⟩
    · exact ⟨p, row, sequence, hrow, hkey, hnonce, hle⟩
  | saveKey q sid row' =>
    refine ⟨p, row, sequence, keys_saveKey_of_some hrow, hkey, hnonce, ?_⟩
    simp only [Write.apply]
    split_ifs
    · exact hle
    · exact hle
  | nextSequence q sid =>
    refine ⟨p, row, sequence, hrow, hkey, hnonce, ?_⟩
    simp only [Write.apply, Store.nextSequence]
    rw [Dict.get?_set]
    split_ifs with heq
    · rw [← heq, Option.getD_some]
      omega
    · exact hle
  | updateIdentity old new =>
    simp only [Write.apply]
    cases hupdate : updatePeerIdentity s old new with
    | none => exact ⟨p, row, sequence, hrow, hkey, hnonce, hle⟩
    | some s' =>
      obtain ⟨-, hkeys, hseq, -⟩ := updatePeerIdentity_some hupdate
      refine ⟨rename old new p, row, sequence, ?_, hkey, hnonce, ?_⟩
      · exact (Dict.get?_rekey hkeys).mpr ⟨(p, key.session), rfl, hrow⟩
      · cases hcount : s.outboundSeq.get? (p, key.session) with
        | none =>
          rw [hcount, Option.getD_none] at hle
          omega
        | some count =>
          have hcount' : s'.outboundSeq.get? (rename old new p, key.session) = some count :=
            (Dict.get?_rekey hseq).mpr ⟨(p, key.session), rfl, hcount⟩
          rw [Option.getD_some, hcount', Option.getD_some]
          rwa [hcount] at hle

theorem Used.commit (h : Used s key nonce) (writes : List Write) :
    Used (s.commit writes) key nonce :=
  Store.commit_of_forall (P := fun t => Used t key nonce) writes h fun x _ t ht => ht.apply x

/-- A message takes the next sequence of its row. -/
theorem used_nextSequence {p : KeyId} {row : KeyRow}
    (hrow : s.keys.get? (p, row.key.session) = some row)
    (hnonce : aeadNonce row.myRole (s.nextSequence p row.key.session) = some nonce) :
    Used ((Write.nextSequence p row.key.session).apply s) row.key nonce := by
  refine ⟨p, row, s.nextSequence p row.key.session, hrow, rfl, hnonce, ?_⟩
  simp only [Write.apply]
  rw [Dict.get?_set, if_pos rfl, Option.getD_some]

/-! ## Every run -/

/-- The invariant of the parties and the relay. -/
structure Once (w : World) : Prop where
  rooted : ∀ i, Rooted w.draws i (w.store i)
  sent : ∀ e ∈ w.sent, e.eph < w.draws.length
  used : ∀ m ∈ w.encrypted, ∃ i, Used (w.store i) m.1 m.2
  nodup : w.encrypted.Nodup

theorem once_paired {w : World} (h : Paired w) : Once w where
  rooted i :=
    { pending := fun p sid row hrow => by
        rw [h.pending i] at hrow
        cases hrow
      row := fun p sid row hrow => by
        rw [h.keys i] at hrow
        cases hrow
      opened := fun p p' sid hne => by
        rw [h.pending i] at hne
        exact absurd rfl hne
      initiated := fun p p' sid row row' hrow => by
        rw [h.keys i] at hrow
        cases hrow
      responded := fun p p' sid row row' hrow => by
        rw [h.keys i] at hrow
        cases hrow }
  sent := by simp [h.sent]
  used := by simp [h.encrypted]
  nodup := by simp [h.encrypted]

variable {w : World}

/-- A party commits and its row is still there. -/
theorem Once.used_update (h : Once w) (i : ℕ) (writes : List Write) {m : SessionKey × ℕ}
    (hm : m ∈ w.encrypted) :
    ∃ j, Used (Function.update w.store i ((w.store i).commit writes) j) m.1 m.2 := by
  obtain ⟨j, hj⟩ := h.used m hm
  refine ⟨j, ?_⟩
  by_cases hji : j = i
  · subst hji
    rw [Function.update_self]
    exact hj.commit writes
  · rw [Function.update_of_ne hji]
    exact hj

/-- The party that acts has drawn, and the others have not. -/
theorem Once.act (h : Once w) (i : ℕ) {writes : List Write} {n : ℕ} {reply : Option SessionOpen}
    (hrooted : Rooted (w.draws ++ [i]) i ((w.store i).commit (writes.take n)))
    (hreply : ∀ e ∈ reply, e.eph = w.draws.length) : Once (w.act i writes n reply) where
  rooted j := by
    by_cases hji : j = i
    · subst hji
      simpa [World.act] using hrooted
    · simpa [World.act, Function.update_of_ne hji] using (h.rooted j).draw i
  sent e he := by
    simp only [World.act, List.length_append, List.length_singleton] at he ⊢
    have hold : e ∈ w.sent → e.eph < w.draws.length + 1 := fun he => (h.sent e he).trans (by omega)
    split_ifs at he with hn
    · rcases List.mem_append.mp he with he | he
      · rw [hreply e (by simpa using he)]
        omega
      · exact hold he
    · exact hold he
  used m hm := h.used_update i (writes.take n) hm
  nodup := h.nodup

theorem Once.openSession (h : Once w) {w' : World} {i g : ℕ} {peer : KeyId} {n : ℕ} {now : Instant}
    (hstep : step w (.openSession i g peer n now) = some w') : Once w' := by
  simp only [step] at hstep
  split_ifs at hstep
  cases hopen : Handshake.openSession (w.store i) ⟨i, g⟩ peer w.draws.length w.draws.length
      w.draws.length now with
  | none =>
    rw [hopen] at hstep
    obtain rfl := Option.some.inj hstep
    exact h
  | some out =>
    obtain ⟨writes, e⟩ := out
    rw [hopen] at hstep
    obtain rfl := Option.some.inj hstep
    refine h.act i ((h.rooted i).openSession hopen n) ?_
    intro e' he'
    obtain rfl := Option.some.inj he'
    obtain ⟨-, -, rfl⟩ := openSession_some hopen
    rfl

theorem Once.onSessionOpen (h : Once w) {w' : World} {i g : ℕ} {e : SessionOpen} {n : ℕ}
    {now : Instant} (hstep : step w (.onSessionOpen i g e n now) = some w') : Once w' := by
  simp only [step] at hstep
  split_ifs at hstep with hen
  obtain rfl := Option.some.inj hstep
  refine h.act i ((h.rooted i).onSessionOpen ⟨i, g⟩ (h.sent e hen.2) now n) ?_
  intro e' he'
  rcases onSessionOpen_cases (w.store i) ⟨i, g⟩ e w.draws.length now with heq | ⟨-, heq⟩
  · rw [heq] at he'
    cases he'
  · rw [heq] at he'
    obtain rfl := Option.some.inj he'
    rfl

theorem Once.completeSession (h : Once w) {w' : World} {i g : ℕ} {e : SessionOpen} {n : ℕ}
    {now : Instant} (hstep : step w (.completeSession i g e n now) = some w') : Once w' := by
  simp only [step] at hstep
  split_ifs at hstep with hen
  obtain rfl := Option.some.inj hstep
  exact h.act i (((h.rooted i).completeSession ⟨i, g⟩ (h.sent e hen.2) now n).draw i) (by simp)

theorem Once.deliverNotice (h : Once w) {w' : World} {i : ℕ} {notice : Notice} {n : ℕ}
    {now : Instant} (hstep : step w (.deliverNotice i notice n now) = some w') : Once w' := by
  simp only [step] at hstep
  split_ifs at hstep
  obtain rfl := Option.some.inj hstep
  refine ⟨fun j => ?_, h.sent, fun m hm => h.used_update i _ hm, h.nodup⟩
  by_cases hji : j = i
  · subst hji
    simpa using (h.rooted j).ingestNotice notice now n
  · simpa [Function.update_of_ne hji] using h.rooted j

/-- The next sequence of a row is one under which no message was encrypted. -/
theorem Once.new_nonce (h : Once w) {i : ℕ} {peer : KeyId} {session : ℕ} {row : KeyRow} {nonce : ℕ}
    (hrow : (w.store i).keys.get? (peer, session) = some row)
    (hnonce : aeadNonce row.myRole ((w.store i).nextSequence peer session) = some nonce) :
    (row.key, nonce) ∉ w.encrypted := by
  intro hm
  obtain ⟨j, p, row', sequence, hrow', hkey, hnonce', hle⟩ := h.used _ hm
  obtain ⟨hrole, hseq⟩ := aeadNonce_inj hnonce' hnonce
  have hsid : row.key.session = session := ((h.rooted i).row peer session row hrow).1
  obtain ⟨rfl, rfl, -⟩ := (h.rooted j).row_unique (h.rooted i) (fun hji => by rw [hji]) hrow' hrow
    hkey hrole
  simp only [hsid] at hle
  unfold Store.nextSequence at hseq
  omega

theorem Once.sendMessage (h : Once w) {w' : World} {i : ℕ} {peer : KeyId} {session n : ℕ}
    (hstep : step w (.sendMessage i peer session n) = some w') : Once w' := by
  simp only [step] at hstep
  cases hrow : (w.store i).keys.get? (peer, session) with
  | none =>
    rw [hrow] at hstep
    obtain rfl := Option.some.inj hstep
    exact h
  | some row =>
    rw [hrow] at hstep
    obtain rfl := Option.some.inj hstep
    have hrooted : ∀ j, Rooted w.draws j (Function.update w.store i
        ((w.store i).commit ([Write.nextSequence peer session].take n)) j) := by
      intro j
      by_cases hji : j = i
      · subst hji
        rw [Function.update_self]
        exact Rooted.commit_take (h.rooted j) ((h.rooted j).nextSequence peer session) (by simp) n
      · rw [Function.update_of_ne hji]
        exact h.rooted j
    have hold : ∀ m ∈ w.encrypted, ∃ j, Used (Function.update w.store i
        ((w.store i).commit ([Write.nextSequence peer session].take n)) j) m.1 m.2 :=
      fun m hm => h.used_update i _ hm
    simp only [List.length_singleton]
    split_ifs with hn
    · cases hnonce : aeadNonce row.myRole ((w.store i).nextSequence peer session) with
      | none => exact ⟨hrooted, h.sent, hold, h.nodup⟩
      | some nonce =>
        have hnew : Used (Function.update w.store i
            ((w.store i).commit ([Write.nextSequence peer session].take n)) i) row.key nonce := by
          obtain rfl : row.key.session = session := ((h.rooted i).row peer session row hrow).1
          rw [Function.update_self, List.take_of_length_le (by simpa using hn.le)]
          exact used_nextSequence hrow hnonce
        refine ⟨hrooted, h.sent, ?_, ?_⟩
        · intro m hm
          rcases List.mem_cons.mp hm with rfl | hm
          · exact ⟨i, hnew⟩
          · exact hold m hm
        · exact List.nodup_cons.mpr ⟨h.new_nonce hrow hnonce, h.nodup⟩
    · exact ⟨hrooted, h.sent, hold, h.nodup⟩

/-- Whatever the parties and the relay do, no nonce is used twice under one key. -/
theorem encrypted_nodup {w : World} (h : machine.Reachable w) : w.encrypted.Nodup := by
  have honce : Once w := by
    refine h.invariant (I := Once) (fun w hw => once_paired hw) ?_
    intro w a w' hw _ hstep
    cases a with
    | openSession i g peer n now => exact hw.openSession hstep
    | onSessionOpen i g e n now => exact hw.onSessionOpen hstep
    | completeSession i g e n now => exact hw.completeSession hstep
    | deliverNotice i notice n now => exact hw.deliverNotice hstep
    | rotate i now =>
      obtain rfl := Option.some.inj hstep
      exact ⟨hw.rooted, hw.sent, hw.used, hw.nodup⟩
    | sendMessage i peer session n => exact hw.sendMessage hstep
  exact honce.nodup

/-- Both sides send in both directions of one session. -/
theorem encrypted_nodup_circle :
    ∃ w, machine.Reachable w ∧ w.encrypted.length = 4 ∧ w.encrypted.Nodup := by
  let leg1 : SessionOpen := ⟨⟨0, 0⟩, ⟨1, 0⟩, 0, 0, 0, envelopeTtl⟩
  let leg2 : SessionOpen := ⟨⟨1, 0⟩, ⟨0, 0⟩, 0, 1, 0, envelopeTtl⟩
  obtain ⟨w, hw, hlen⟩ := machine.exists_reach_of_runWithin (C := fun _ _ => True)
    (D := fun _ _ => True) (fun _ _ _ => trivial) paired_circle
    [.openSession 0 0 ⟨1, 0⟩ 9 0, .onSessionOpen 1 0 leg1 9 0, .completeSession 0 0 leg2 9 0,
      .sendMessage 0 ⟨1, 0⟩ 0 9, .sendMessage 1 ⟨0, 0⟩ 0 9, .sendMessage 0 ⟨1, 0⟩ 0 9,
      .sendMessage 1 ⟨0, 0⟩ 0 9]
    (fun w => decide (w.encrypted.length = 4)) (by decide +kernel)
  exact ⟨w, hw, by simpa using hlen, encrypted_nodup hw⟩

end Companion.Kindled.Handshake

import Companion.Kindled.Relay
import Companion.Runs
import Mathlib

/-!
# The owner of a mailbox

A client of the relay (`brain/kindled_link/relay_client.py`) that rotates its identity
(`KindledIdentity.rotate`) and keeps its mailbox, among others that push, challenge, and send
requests which they sign with their own keys.

The relay keeps the first owner that registers a mailbox, and the client does not look at the owner
that a registration replies. So an identity that follows upon a rotation is refused its own mailbox
(`rotated_refused`), and `fetch_iff` says which identities are served.
-/

namespace Companion.Kindled.Mailbox

open Companion.Memory Companion.Runs

/-- A nonce that the client was given, and has not answered. -/
structure Challenge where
  nonce : Text
  key : Text
  expiry : Instant
  deriving DecidableEq

/-- The relay and a client. -/
structure State where
  relay : Relay
  now : Instant
  /-- The identities that the client has had, the current one first. -/
  keys : List Text
  /-- Those whose `register()` has returned. -/
  registered : List Text
  /-- The identity whose `register()` was the first that the relay accepted. -/
  first : Option Text
  challenges : List Challenge
  /-- What was accepted for the mailbox, in order. -/
  deposited : List Parcel
  /-- The ids that the client has acknowledged. -/
  acked : List ℕ

namespace State

/-- What was accepted for the mailbox and not yet acknowledged. -/
def undelivered (s : State) : List Parcel := s.deposited.filter (·.id ∉ s.acked)

end State

/-- The steps of the client, which may still act for an earlier identity, and of others. -/
inductive Step
  | wait (d : ℕ)
  | rotate (key : Text)
  | register (key : Text)
  | challenge (key nonce : Text)
  | fetch (key nonce : Text)
  | ack (key nonce : Text) (ids : List ℕ)
  | push (e : Envelope)
  | otherRegister (mailbox key : Text)
  | otherChallenge (mailbox nonce : Text)
  | otherFetch (mailbox : Text) (nonce : Option Text) (signature : Option Signature) (key : Option Text)
  | otherAck (mailbox : Text) (nonce : Option Text) (signature : Option Signature) (key : Option Text)
      (ids : List ℕ)

section

variable (caps : Caps) (mailbox : Text)

/-- The client sends a signed request: its challenge is answered. -/
def State.answer (s : State) (nonce : Text) : State :=
  { s with challenges := s.challenges.filter (·.nonce ≠ nonce) }

def step (s : State) : Step → Option State
  | .wait d => some { s with now := s.now + d }
  | .rotate key => if key ∈ s.keys then none else some { s with keys := key :: s.keys }
  | .register key =>
    if key ∈ s.keys then
      match s.relay.register caps mailbox key with
      | .ok (relay, _) =>
        some { s with
          relay := relay
          registered := key :: s.registered
          first := some (s.first.getD key) }
      | .error _ => some s
    else none
  | .challenge key nonce =>
    -- A nonce is drawn at random.
    if key ∈ s.keys ∧ ∀ c ∈ s.challenges, c.nonce ≠ nonce then
      match s.relay.handleChallenge s.now mailbox nonce with
      | (relay, .ok nonce) =>
        some { s with
          relay := relay
          challenges := ⟨nonce, key, s.now + nonceTtl⟩ :: s.challenges }
      | (relay, .error _) => some { s with relay := relay }
    else none
  | .fetch key nonce =>
    if ∃ c ∈ s.challenges, c.nonce = nonce ∧ c.key = key then
      let reply := s.relay.handleFetch s.now mailbox (some nonce) (some ⟨key, mailbox, nonce⟩) (some key)
      some { s.answer nonce with relay := reply.1 }
    else none
  | .ack key nonce ids =>
    -- Only what was fetched is acknowledged.
    if (∃ c ∈ s.challenges, c.nonce = nonce ∧ c.key = key) ∧ ∀ id ∈ ids, id ∈ s.deposited.map (·.id) then
      match s.relay.handleAck s.now mailbox (some nonce) (some ⟨key, mailbox, nonce⟩) (some key) ids with
      | (relay, none) => some { s.answer nonce with relay := relay, acked := s.acked ++ ids }
      | (relay, some _) => some { s.answer nonce with relay := relay }
    else none
  | .push e =>
    match s.relay.push caps e with
    | (relay, .ok id) =>
      some { s with
        relay := relay
        deposited := if e.mailbox = mailbox then s.deposited ++ [⟨id, e⟩] else s.deposited }
    | (relay, .error _) => some { s with relay := relay }
  | .otherRegister other key =>
    if other ≠ mailbox then
      match s.relay.register caps other key with
      | .ok (relay, _) => some { s with relay := relay }
      | .error _ => some s
    else none
  | .otherChallenge other nonce =>
    some { s with relay := (s.relay.handleChallenge s.now other nonce).1 }
  | .otherFetch other nonce signature key =>
    if ∀ x ∈ signature, x.signer ∉ s.keys then
      some { s with relay := (s.relay.handleFetch s.now other nonce signature key).1 }
    else none
  | .otherAck other nonce signature key ids =>
    if ∀ x ∈ signature, x.signer ∉ s.keys then
      some { s with relay := (s.relay.handleAck s.now other nonce signature key ids).1 }
    else none

/-- A relay that starts, and a client with its first identity. -/
def start (key : Text) : State := ⟨.fresh, 0, [key], [], none, [], [], []⟩

def machine (key : Text) : Machine State Step where
  init s := s = start key
  step := step caps mailbox

end

/-! ## The invariant -/

/-- What holds of the mailbox in every state reached. -/
structure Inv (mailbox : Text) (s : State) : Prop where
  owner : s.relay.owners.get? mailbox = s.first
  first_mem : ∀ key ∈ s.first, key ∈ s.keys
  registered : s.registered ≠ [] → s.first ≠ none
  unlisted : s.first ≠ none → s.relay.unregistered.get? mailbox = none
  queue : s.relay.queue mailbox = s.undelivered
  deposited_lt : ∀ p ∈ s.deposited, p.id < s.relay.nextId
  acked_mem : ∀ id ∈ s.acked, id ∈ s.deposited.map (·.id)
  challenged : s.challenges ≠ [] → s.first ≠ none
  soon : ∀ c ∈ s.challenges, c.expiry ≤ s.now + nonceTtl
  live : ∀ c ∈ s.challenges, s.now < c.expiry → s.relay.Live mailbox c.nonce c.expiry

variable {mailbox : Text} {s : State}

theorem inv_start (mailbox key : Text) : Inv mailbox (start key) where
  owner := rfl
  first_mem := nofun
  registered h := absurd rfl h
  unlisted h := absurd rfl h
  queue := rfl
  deposited_lt := nofun
  acked_mem := nofun
  challenged h := absurd rfl h
  soon := nofun
  live := nofun

/-- What keeps the mailbox keeps the invariant. -/
theorem Inv.of_keeps (hi : Inv mailbox s) {r : Relay} (h : Relay.Keeps mailbox s.now s.relay r) :
    Inv mailbox { s with relay := r } where
  owner := h.owner.trans hi.owner
  first_mem := hi.first_mem
  registered := hi.registered
  unlisted hfirst := h.unregistered (hi.owner ▸ hfirst) (hi.unlisted hfirst)
  queue := h.queue.trans hi.queue
  deposited_lt p hp := lt_of_lt_of_le (hi.deposited_lt p hp) h.nextId
  acked_mem := hi.acked_mem
  challenged := hi.challenged
  soon := hi.soon
  live c hc hnow := by
    have hfirst := hi.challenged (List.ne_nil_of_mem hc)
    exact h.live (hi.owner ▸ hfirst) (hi.unlisted hfirst) c.nonce c.expiry hnow (hi.soon c hc)
      (hi.live c hc hnow)

theorem Inv.wait (hi : Inv mailbox s) (d : ℕ) : Inv mailbox { s with now := s.now + d } where
  owner := hi.owner
  first_mem := hi.first_mem
  registered := hi.registered
  unlisted := hi.unlisted
  queue := hi.queue
  deposited_lt := hi.deposited_lt
  acked_mem := hi.acked_mem
  challenged := hi.challenged
  soon c hc := by
    have hsoon := hi.soon c hc
    show c.expiry ≤ s.now + d + nonceTtl
    linarith [Int.natCast_nonneg d]
  live c hc hnow := by
    have hnow : s.now + d < c.expiry := hnow
    exact hi.live c hc (by linarith [Int.natCast_nonneg d])

theorem Inv.rotate (hi : Inv mailbox s) (key : Text) :
    Inv mailbox { s with keys := key :: s.keys } :=
  { hi with first_mem := fun k hk => List.mem_cons_of_mem key (hi.first_mem k hk) }

/-- The first registration makes its identity the owner, and a later one changes nothing. -/
theorem Inv.register (hi : Inv mailbox s) {caps : Caps} {key owner : Text} {r : Relay}
    (hkey : key ∈ s.keys) (h : s.relay.register caps mailbox key = .ok (r, owner)) :
    Inv mailbox { s with
      relay := r
      registered := key :: s.registered
      first := some (s.first.getD key) } := by
  unfold Relay.register at h
  have howner := hi.owner
  split at h
  next found hfound =>
    obtain ⟨rfl, rfl⟩ := Prod.mk.inj (Except.ok.inj h)
    have hfirst : s.first = some found := hi.owner.symm.trans hfound
    have hsame : some (s.first.getD key) = s.first := by rw [hfirst]; rfl
    rw [hsame]
    exact { hi with registered := fun _ => by simp [hfirst] }
  next hnone =>
    have hfirst : s.first = none := hi.owner.symm.trans hnone
    -- No challenge was given for a mailbox without an owner.
    have hchallenges : s.challenges = [] := by
      by_contra hne
      exact hi.challenged hne hfirst
    split_ifs at h
    obtain ⟨rfl, rfl⟩ := Prod.mk.inj (Except.ok.inj h)
    rw [hfirst]
    exact
      { owner := by rw [Dict.get?_set, if_pos rfl]; rfl
        first_mem := by
          rintro _ ⟨⟩
          exact hkey
        registered := fun _ => nofun
        unlisted := fun _ => by rw [Dict.get?_pop, if_pos rfl]
        queue := hi.queue
        deposited_lt := hi.deposited_lt
        acked_mem := hi.acked_mem
        challenged := fun _ => nofun
        soon := hi.soon
        live := by simp [hchallenges] }

theorem Inv.challenge (hi : Inv mailbox s) {key nonce : Text}
    (hreg : s.relay.isRegistered mailbox = true) :
    Inv mailbox { s with
      relay := s.relay.issueNonce s.now mailbox nonce
      challenges := ⟨nonce, key, s.now + nonceTtl⟩ :: s.challenges } := by
  have hkeeps : Relay.Keeps mailbox s.now s.relay (s.relay.issueNonce s.now mailbox nonce) :=
    Relay.keeps_issueNonce nonce
  have hkept := hi.of_keeps hkeeps
  refine { hkept with challenged := fun _ hnone => ?_, soon := ?_, live := ?_ }
  · have hnone : s.first = none := hnone
    rw [Relay.isRegistered, hi.owner, hnone] at hreg
    cases hreg
  · exact List.forall_mem_cons.mpr ⟨le_rfl, hkept.soon⟩
  · refine List.forall_mem_cons.mpr ⟨fun _ => ⟨s.now + nonceTtl, le_rfl, ?_⟩, hkept.live⟩
    rw [Relay.expiry_issueNonce, if_pos ⟨rfl, rfl⟩]

/-- With fewer challenges unanswered the invariant holds all the more. -/
theorem Inv.drop (hi : Inv mailbox s) (nonce : Text) : Inv mailbox (s.answer nonce) :=
  { hi with
    challenged := fun hne hfirst => by
      obtain ⟨c, hc⟩ := List.exists_mem_of_ne_nil _ hne
      exact hi.challenged (List.ne_nil_of_mem (List.mem_of_mem_filter hc)) hfirst
    soon := fun c hc => hi.soon c (List.mem_of_mem_filter hc)
    live := fun c hc => hi.live c (List.mem_of_mem_filter hc) }

/-- A request of the client uses up its own nonce alone. -/
theorem Inv.request (hi : Inv mailbox s) (nonce key : Text) :
    Inv mailbox { s.answer nonce with
      relay := (s.relay.checkAuth s.now mailbox (some nonce) (some ⟨key, mailbox, nonce⟩)
        (some key)).1 } := by
  rcases Relay.checkAuth_cases (r := s.relay) s.now mailbox (some nonce)
    (some ⟨key, mailbox, nonce⟩) (some key) with ⟨error, heq | heq⟩ | ⟨owner, n, hn, -, -, -, heq⟩
  · rw [heq]
    exact hi.drop nonce
  · rw [heq]
    exact (hi.drop nonce).of_keeps Relay.keeps_pruneNonces
  · obtain rfl := Option.some.inj hn
    rw [heq]
    have hpruned : Inv mailbox { s.answer nonce with relay := s.relay.pruneNonces s.now mailbox } :=
      (hi.drop nonce).of_keeps Relay.keeps_pruneNonces
    have heq := Relay.discardNonce_eq (r := s.relay.pruneNonces s.now mailbox) mailbox nonce
    exact
      { owner := by
          rw [heq]
          exact hpruned.owner
        first_mem := hpruned.first_mem
        registered := hpruned.registered
        unlisted := by
          rw [heq]
          exact hpruned.unlisted
        queue := by
          rw [heq]
          exact hpruned.queue
        deposited_lt := by
          rw [heq]
          exact hpruned.deposited_lt
        acked_mem := hpruned.acked_mem
        challenged := hpruned.challenged
        soon := hpruned.soon
        live := fun c hc hnow => by
          have hne : c.nonce ≠ nonce := of_decide_eq_true (List.mem_filter.mp hc).2
          exact Relay.live_discardNonce (hpruned.live c hc hnow) fun h => hne h.2 }

theorem Inv.ack (hi : Inv mailbox s) {ids : List ℕ} (hids : ∀ id ∈ ids, id ∈ s.deposited.map (·.id)) :
    Inv mailbox { s with relay := s.relay.ack mailbox ids, acked := s.acked ++ ids } :=
  { hi with
    queue := by
      show (s.relay.ack mailbox ids).queue mailbox = s.deposited.filter (·.id ∉ s.acked ++ ids)
      rw [Relay.queue_ack, if_pos rfl, hi.queue, State.undelivered, List.filter_filter]
      refine List.filter_congr fun p _ => ?_
      simp [not_or, and_comm]
    acked_mem := fun id hid => (List.mem_append.mp hid).elim (hi.acked_mem id) (hids id) }

/-- An envelope that is accepted is queued last, and was not acknowledged. -/
theorem Inv.push (hi : Inv mailbox s) {caps : Caps} {e : Envelope} {id : ℕ}
    (h : (s.relay.push caps e).2 = .ok id) :
    Inv mailbox { s with
      relay := (s.relay.push caps e).1
      deposited := if e.mailbox = mailbox then s.deposited ++ [⟨id, e⟩] else s.deposited } := by
  by_cases hm : e.mailbox = mailbox
  · subst hm
    rw [if_pos rfl]
    obtain ⟨r, hkeeps, rfl, hr⟩ := Relay.push_ok s.now h
    rw [hr]
    have hkept := hi.of_keeps hkeeps
    exact
      { hkept with
        queue := by
          show ((r.mailboxes.set e.mailbox _).get? e.mailbox).getD [] =
            (s.deposited ++ [(⟨r.nextId, e⟩ : Parcel)]).filter (·.id ∉ s.acked)
          have hnew : r.nextId ∉ s.acked := by
            intro hmem
            obtain ⟨p, hp, heq⟩ := List.mem_map.mp (hkept.acked_mem _ hmem)
            have hlt : p.id < r.nextId := hkept.deposited_lt p hp
            omega
          have hqueue : r.queue e.mailbox = s.deposited.filter (·.id ∉ s.acked) := hkept.queue
          rw [Dict.get?_set, if_pos rfl, Option.getD_some, hqueue, List.filter_append]
          simp [hnew]
        deposited_lt := by
          intro p hp
          show p.id < r.nextId + 1
          rcases List.mem_append.mp hp with hp | hp
          · exact Nat.lt_succ_of_lt (hkept.deposited_lt p hp)
          · rw [List.mem_singleton.mp hp]
            exact Nat.lt_succ_self _
        acked_mem := fun id hid => by
          rw [List.map_append]
          exact List.mem_append_left _ (hkept.acked_mem id hid) }
  · rw [if_neg hm]
    exact hi.of_keeps (Relay.keeps_push (.inl (Ne.symm hm)))

/-- Another's request changes nothing for the mailbox, since its owner is an identity of the client.
-/
theorem Inv.keeps_other (hi : Inv mailbox s) (other : Text) (nonce : Option Text)
    {signature : Option Signature} (key : Option Text) (h : ∀ x ∈ signature, x.signer ∉ s.keys) :
    Relay.Keeps mailbox s.now s.relay (s.relay.checkAuth s.now other nonce signature key).1 ∧
      (mailbox = other → (s.relay.checkAuth s.now other nonce signature key).2 ≠ none) := by
  have hfails : mailbox = other → (s.relay.checkAuth s.now other nonce signature key).2 ≠ none := by
    rintro rfl
    rcases Relay.checkAuth_cases (r := s.relay) s.now mailbox nonce signature key with
      ⟨error, heq | heq⟩ | ⟨owner, n, -, -, hsig, howner, -⟩
    · rw [heq]
      exact nofun
    · rw [heq]
      exact nofun
    · have hforeign : owner ∉ s.keys := h (⟨owner, mailbox, n⟩ : Signature) hsig
      exact absurd (hi.first_mem owner (hi.owner.symm.trans howner)) hforeign
  refine ⟨?_, hfails⟩
  by_cases hm : mailbox = other
  · exact Relay.keeps_checkAuth (.inr (hfails hm))
  · exact Relay.keeps_checkAuth (.inl hm)

theorem handleFetch_fst (r : Relay) (now : Instant) (mailbox : Text) (nonce : Option Text)
    (signature : Option Signature) (key : Option Text) :
    (r.handleFetch now mailbox nonce signature key).1 =
      (r.checkAuth now mailbox nonce signature key).1 := by
  unfold Relay.handleFetch
  split
  next heq => rw [heq]
  next heq => rw [heq]

/-- Every step keeps the invariant. -/
theorem Inv.step (hi : Inv mailbox s) {caps : Caps} {a : Step} {s' : State}
    (h : step caps mailbox s a = some s') : Inv mailbox s' := by
  cases a with
  | wait d =>
    cases h
    exact hi.wait d
  | rotate key =>
    simp only [Mailbox.step] at h
    split_ifs at h
    cases h
    exact hi.rotate key
  | register key =>
    simp only [Mailbox.step] at h
    split_ifs at h with hkey
    split at h
    next r owner hr =>
      cases h
      exact hi.register hkey hr
    next =>
      cases h
      exact hi
  | challenge key nonce =>
    simp only [Mailbox.step, Relay.handleChallenge] at h
    split_ifs at h with hdraw hreg
    · cases h
      exact hi.challenge hreg
    · cases h
      exact hi
  | fetch key nonce =>
    simp only [Mailbox.step] at h
    split_ifs at h
    cases h
    rw [handleFetch_fst]
    exact hi.request nonce key
  | ack key nonce ids =>
    simp only [Mailbox.step, Relay.handleAck] at h
    have hrequest := hi.request nonce key
    split_ifs at h with hids
    generalize s.relay.checkAuth s.now mailbox (some nonce) (some ⟨key, mailbox, nonce⟩)
      (some key) = reply at h hrequest
    obtain ⟨r, _ | error⟩ := reply
    · cases h
      exact hrequest.ack hids.2
    · cases h
      exact hrequest
  | push e =>
    simp only [Mailbox.step] at h
    cases hpush : (s.relay.push caps e).2 with
    | ok id =>
      -- The packet is in the queue, with the next id.
      have hkept := hi.push hpush
      generalize s.relay.push caps e = reply at h hpush hkept
      obtain ⟨r, result⟩ := reply
      obtain rfl : result = _ := hpush
      cases h
      exact hkept
    | error error =>
      -- A push that is refused leaves the mailbox.
      have hkept := hi.of_keeps (Relay.keeps_push (.inr ⟨error, hpush⟩))
      generalize s.relay.push caps e = reply at h hpush hkept
      obtain ⟨r, result⟩ := reply
      obtain rfl : result = _ := hpush
      cases h
      exact hkept
  | otherRegister other key =>
    simp only [Mailbox.step] at h
    split_ifs at h with hne
    split at h
    next r owner hr =>
      cases h
      exact hi.of_keeps (Relay.keeps_register (Ne.symm hne) hr)
    next =>
      cases h
      exact hi
  | otherChallenge other nonce =>
    simp only [Mailbox.step, Relay.handleChallenge] at h
    cases h
    split_ifs
    · exact hi.of_keeps (Relay.keeps_issueNonce nonce)
    · exact hi
  | otherFetch other nonce signature key =>
    simp only [Mailbox.step] at h
    split_ifs at h with hsig
    cases h
    rw [handleFetch_fst]
    exact hi.of_keeps (hi.keeps_other other nonce key hsig).1
  | otherAck other nonce signature key ids =>
    simp only [Mailbox.step, Relay.handleAck] at h
    split_ifs at h with hsig
    cases h
    obtain ⟨hkeeps, hfails⟩ := hi.keeps_other other nonce key hsig
    generalize s.relay.checkAuth s.now other nonce signature key = reply at hkeeps hfails
    obtain ⟨r, _ | error⟩ := reply
    · -- A check that passes was of another mailbox.
      have hne : mailbox ≠ other := fun heq => hfails heq rfl
      exact hi.of_keeps (hkeeps.trans (Relay.keeps_ack hne))
    · exact hi.of_keeps hkeeps

/-! ## Who is served -/

/-- In every state reached in which an identity of the client has registered, the current one or
another, the mailbox is open to challenges, and a fetch of this identity that answers one in time
yields everything undelivered just in case it was the first to register. -/
theorem fetch_iff (caps : Caps) (mailbox first : Text) (s : State)
    (hs : (machine caps mailbox first).Reachable s) (key : Text)
    (hreg : key ∈ s.registered) :
    s.relay.isRegistered mailbox = true ∧
      ∀ c ∈ s.challenges, s.now < c.expiry →
        ((s.relay.handleFetch s.now mailbox (some c.nonce) (some ⟨key, mailbox, c.nonce⟩)
            (some key)).2 = .ok s.undelivered ↔
          s.first = some key) := by
  have hi : Inv mailbox s := by
    refine Machine.Reach.invariant ?_ (fun s a s' hi _ h => hi.step h) hs
    rintro s rfl
    exact inv_start mailbox first
  have hfirst : s.first ≠ none := hi.registered (List.ne_nil_of_mem hreg)
  refine ⟨?_, fun c hc hnow => ⟨fun hok => ?_, fun howner => ?_⟩⟩
  · rw [Relay.isRegistered, hi.owner]
    exact Option.isSome_iff_ne_none.mpr hfirst
  · -- What is served has passed the comparison with the owner.
    rcases Relay.checkAuth_cases (r := s.relay) s.now mailbox (some c.nonce)
      (some ⟨key, mailbox, c.nonce⟩) (some key) with
      ⟨error, heq | heq⟩ | ⟨owner, n, -, hown, -, howner, -⟩
    · rw [Relay.handleFetch, heq] at hok
      cases hok
    · rw [Relay.handleFetch, heq] at hok
      cases hok
    · rw [← hi.owner, howner, ← hown]
  · obtain ⟨e, hle, hlive⟩ := hi.live c hc hnow
    have howner : s.relay.owners.get? mailbox = some key := hi.owner.trans howner
    have hauth := Relay.checkAuth_owner howner hlive (lt_of_lt_of_le hnow hle)
    rw [Relay.handleFetch, hauth, Relay.discardNonce_eq, Relay.pruneNonces_eq]
    exact congrArg Except.ok hi.queue

/-- The first identity of a client registers, and is sent an envelope before it answers its
challenge. -/
def served : List Step :=
  [.register "k0".toList, .push ⟨"m".toList, 10, "hi".toList⟩, .challenge "k0".toList "n".toList]

/-- The client rotates its identity in between. -/
def rotated : List Step :=
  [.register "k0".toList, .push ⟨"m".toList, 10, "hi".toList⟩, .rotate "k1".toList,
    .register "k1".toList, .challenge "k1".toList "n".toList]

theorem fetch_iff_served :
    ∃ s, (machine .standard "m".toList "k0".toList).Reachable s ∧ "k0".toList ∈ s.registered ∧
      s.relay.isRegistered "m".toList = true ∧
      ∀ c ∈ s.challenges, s.now < c.expiry →
        ((s.relay.handleFetch s.now "m".toList (some c.nonce)
            (some ⟨"k0".toList, "m".toList, c.nonce⟩) (some "k0".toList)).2 = .ok s.undelivered ↔
          s.first = some "k0".toList) := by
  obtain ⟨s, hs, hreg⟩ := Machine.exists_reach_of_runWithin
    (M := machine .standard "m".toList "k0".toList) (D := fun _ _ => True) (fun _ _ h => h) rfl served
    (fun s => "k0".toList ∈ s.registered) (by decide +kernel)
  exact ⟨s, hs, of_decide_eq_true hreg, fetch_iff _ _ _ s hs _ (of_decide_eq_true hreg)⟩

/-- An identity that follows upon a rotation, and has registered and answers its challenge at once,
is refused its own mailbox. -/
theorem rotated_refused :
    ∃ s, (machine .standard "m".toList "k0".toList).Reachable s ∧
      (s.keys.head? = some "k1".toList ∧ "k1".toList ∈ s.registered ∧ s.undelivered ≠ [] ∧
        ∃ c ∈ s.challenges, c.key = "k1".toList ∧ s.now < c.expiry ∧
          (s.relay.handleFetch s.now "m".toList (some c.nonce)
            (some ⟨"k1".toList, "m".toList, c.nonce⟩) (some "k1".toList)).2.toOption = none) := by
  obtain ⟨s, hs, hp⟩ := Machine.exists_reach_of_runWithin
    (M := machine .standard "m".toList "k0".toList) (D := fun _ _ => True) (fun _ _ h => h) rfl rotated
    (fun s => decide (s.keys.head? = some "k1".toList ∧ "k1".toList ∈ s.registered ∧
      s.undelivered ≠ [] ∧ ∃ c ∈ s.challenges, c.key = "k1".toList ∧ s.now < c.expiry ∧
        (s.relay.handleFetch s.now "m".toList (some c.nonce)
          (some ⟨"k1".toList, "m".toList, c.nonce⟩) (some "k1".toList)).2.toOption = none))
    (by decide +kernel)
  exact ⟨s, hs, of_decide_eq_true hp⟩

end Companion.Kindled.Mailbox

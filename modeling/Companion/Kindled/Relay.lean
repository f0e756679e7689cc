import Companion.Dict
import Companion.Memory.Text
import Mathlib.Algebra.Order.Ring.Int

/-!
# The relay

`_Store` and `_check_auth` of `relay/dev_relay.py`: mailboxes with their owners, nonces and queues.

Each operation has lemmas for what it does to the owner, the live nonces and the queue of one
mailbox (`owner_`, `expiry_`, `queue_`). A public key is its text in hexadecimal, and a signature
names its signer and what is signed.
-/

namespace Companion.Kindled

open Companion.Memory

/-- An envelope: its `relay_mailbox`, the length of its canonical JSON, and the rest. -/
structure Envelope where
  mailbox : Text
  size : ℕ
  content : Text
  deriving DecidableEq

/-- An envelope with its tracking id. -/
structure Parcel where
  id : ℕ
  envelope : Envelope
  deriving DecidableEq

/-- A signature over the purpose, a mailbox and a nonce. -/
structure Signature where
  signer : Text
  mailbox : Text
  nonce : Text
  deriving DecidableEq

/-- An error reply. -/
structure Rejected where
  status : ℕ
  detail : Text
  deriving DecidableEq

/-- The abuse caps of `create_app`. -/
structure Caps where
  maxBytes : ℕ
  maxDepth : ℕ
  maxRegistered : ℕ
  maxUnregistered : ℕ

/-- `RELAY_MAX_ENVELOPE_BYTES` and the other defaults. -/
def Caps.standard : Caps := ⟨64 * 1024, 256, 1024, 256⟩

/-- `_NONCE_TTL_SECONDS` -/
def nonceTtl : Instant := 120 * 1000000

/-- `_Store` -/
structure Relay where
  mailboxes : Dict Text (List Parcel)
  nextId : ℕ
  owners : Dict Text Text
  unregistered : Dict Text Unit
  /-- The nonces of a mailbox, with the times at which they expire. -/
  nonces : Dict Text (Dict Text Instant)

namespace Relay

/-- The store of a relay that starts. -/
def fresh : Relay := ⟨∅, 1, ∅, ∅, ∅⟩

variable (r : Relay)

/-- `_prune_nonces` -/
def pruneNonces (now : Instant) (mailbox : Text) : Relay :=
  match r.nonces.get? mailbox with
  | none => r
  | some live =>
    let kept := live.filterMap fun _ expiry => if expiry ≤ now then none else some expiry
    if live.entries = [] then r
    else if kept.entries = [] then { r with nonces := r.nonces.pop mailbox }
    else { r with nonces := r.nonces.set mailbox kept }

/-- `issue_nonce` -/
def issueNonce (now : Instant) (mailbox nonce : Text) : Relay :=
  let r := r.pruneNonces now mailbox
  let live := (r.nonces.get? mailbox).getD ∅
  { r with nonces := r.nonces.set mailbox (live.set nonce (now + nonceTtl)) }

/-- When a nonce of a mailbox expires, where it is known. -/
def expiry (mailbox nonce : Text) : Option Instant :=
  (r.nonces.get? mailbox).bind (·.get? nonce)

/-- `discard_nonce` -/
def discardNonce (mailbox nonce : Text) : Relay :=
  match r.nonces.get? mailbox with
  | none => r
  | some live =>
    let kept := live.pop nonce
    if kept.entries = [] then { r with nonces := r.nonces.pop mailbox }
    else { r with nonces := r.nonces.set mailbox kept }

/-- `is_registered` -/
def isRegistered (mailbox : Text) : Bool := (r.owners.get? mailbox).isSome

/-- `_is_known` -/
def isKnown (mailbox : Text) : Bool :=
  r.isRegistered mailbox || (r.unregistered.get? mailbox).isSome

/-- `fetch` -/
def queue (mailbox : Text) : List Parcel := (r.mailboxes.get? mailbox).getD []

/-- `register`, with the owner that it replies. -/
def register (caps : Caps) (mailbox key : Text) : Except Rejected (Relay × Text) :=
  match r.owners.get? mailbox with
  | some owner => .ok (r, owner)
  | none =>
    if caps.maxRegistered ≤ r.owners.entries.length then
      .error ⟨429, "registered mailbox cap reached".toList⟩
    else
      .ok ({ r with
        unregistered := r.unregistered.pop mailbox
        owners := r.owners.set mailbox key }, key)

/-- `_evict_oldest_empty_unregistered`, or none where no slot was freed. -/
def evictOldestEmptyUnregistered : Option Relay :=
  (r.unregistered.entries.find? fun e => r.queue e.1 = []).map fun e =>
    { r with
      unregistered := r.unregistered.pop e.1
      mailboxes := r.mailboxes.pop e.1
      nonces := r.nonces.pop e.1 }

/-- The part of `push` that makes room for a new mailbox. -/
def makeRoom (caps : Caps) (mailbox : Text) : Option Relay :=
  if r.isKnown mailbox then some r
  else
    (if caps.maxUnregistered ≤ r.unregistered.entries.length then r.evictOldestEmptyUnregistered
      else some r).map fun r => { r with unregistered := r.unregistered.set mailbox () }

/-- `push`, with the tracking id. -/
def push (caps : Caps) (e : Envelope) : Relay × Except Rejected ℕ :=
  if caps.maxBytes < e.size then (r, .error ⟨413, "envelope too large".toList⟩)
  else
    match r.makeRoom caps e.mailbox with
    | none => (r, .error ⟨429, "unregistered mailbox pool full".toList⟩)
    | some r =>
      if caps.maxDepth ≤ (r.queue e.mailbox).length then
        (r, .error ⟨429, "mailbox queue full".toList⟩)
      else
        ({ r with
          nextId := r.nextId + 1
          mailboxes := r.mailboxes.set e.mailbox (r.queue e.mailbox ++ [⟨r.nextId, e⟩]) },
          .ok r.nextId)

/-- `ack` -/
def ack (mailbox : Text) (ids : List ℕ) : Relay :=
  { r with mailboxes := r.mailboxes.set mailbox ((r.queue mailbox).filter (·.id ∉ ids)) }

/-- `_check_auth`, with the error that it raises. -/
def checkAuth (now : Instant) (mailbox : Text) (nonce : Option Text) (signature : Option Signature)
    (key : Option Text) : Relay × Option Rejected :=
  match r.owners.get? mailbox, nonce, signature, key with
  | some owner, some nonce, some signature, some key =>
    if key ≠ owner then (r, some ⟨401, "not mailbox owner".toList⟩)
    else
      let r := r.pruneNonces now mailbox
      if (r.expiry mailbox nonce).isNone then (r, some ⟨401, "bad nonce".toList⟩)
      else if signature ≠ ⟨key, mailbox, nonce⟩ then (r, some ⟨401, "bad signature".toList⟩)
      else (r.discardNonce mailbox nonce, none)
  | _, _, _, _ => (r, some ⟨401, "auth required".toList⟩)

/-- The endpoint `/mailbox/fetch`. -/
def handleFetch (now : Instant) (mailbox : Text) (nonce : Option Text) (signature : Option Signature)
    (key : Option Text) : Relay × Except Rejected (List Parcel) :=
  match r.checkAuth now mailbox nonce signature key with
  | (r, some error) => (r, .error error)
  | (r, none) => (r, .ok (r.queue mailbox))

/-- The endpoint `/mailbox/ack`. -/
def handleAck (now : Instant) (mailbox : Text) (nonce : Option Text) (signature : Option Signature)
    (key : Option Text) (ids : List ℕ) : Relay × Option Rejected :=
  match r.checkAuth now mailbox nonce signature key with
  | (r, some error) => (r, some error)
  | (r, none) => (r.ack mailbox ids, none)

/-- The endpoint `/mailbox/challenge`, with the nonce that is drawn. -/
def handleChallenge (now : Instant) (mailbox nonce : Text) : Relay × Except Rejected Text :=
  if r.isRegistered mailbox then (r.issueNonce now mailbox nonce, .ok nonce)
  else (r, .error ⟨404, "mailbox not registered".toList⟩)

variable {r}

/-! ## Nonces -/

theorem get?_of_entries_nil {d : Dict Text Instant} (h : d.entries = []) (nonce : Text) :
    d.get? nonce = none := by
  rw [Dict.get?, h]
  rfl

/-- Nonces that are replaced by others, where an empty set of them is dropped. -/
theorem expiry_setNonces {kept : Dict Text Instant} (mailbox mailbox' nonce : Text) :
    (if kept.entries = [] then { r with nonces := r.nonces.pop mailbox }
      else { r with nonces := r.nonces.set mailbox kept } : Relay).expiry mailbox' nonce =
      if mailbox' = mailbox then kept.get? nonce else r.expiry mailbox' nonce := by
  split_ifs with hkept hm hm
  · rw [expiry, Dict.get?_pop, if_pos hm, get?_of_entries_nil hkept]
    rfl
  · rw [expiry, Dict.get?_pop, if_neg hm]
    rfl
  · rw [expiry, Dict.get?_set, if_pos hm]
    rfl
  · rw [expiry, Dict.get?_set, if_neg hm]
    rfl

/-- A nonce is pruned from its time of expiry on. -/
theorem expiry_pruneNonces (now : Instant) (mailbox mailbox' nonce : Text) :
    (r.pruneNonces now mailbox).expiry mailbox' nonce =
      if mailbox' = mailbox then (r.expiry mailbox' nonce).filter (now < ·)
      else r.expiry mailbox' nonce := by
  unfold pruneNonces
  split
  next hnone =>
    split_ifs with hm
    · subst hm
      simp [expiry, hnone]
    · rfl
  next live hlive =>
    dsimp only
    by_cases hempty : live.entries = []
    · rw [if_pos hempty]
      split_ifs with hm
      · subst hm
        simp [expiry, hlive, get?_of_entries_nil hempty]
      · rfl
    · rw [if_neg hempty, expiry_setNonces]
      split_ifs with hm
      · subst hm
        rw [Dict.get?_filterMap, expiry, hlive]
        cases hexp : live.get? nonce with
        | none => simp [hexp]
        | some e =>
          by_cases he : e ≤ now
          · have hdead : ¬now < e := Int.not_lt.mpr he
            simp [hexp, he, hdead, Option.filter]
          · have hlives : now < e := Int.not_le.mp he
            simp [hexp, he, hlives, Option.filter]
      · rfl

theorem expiry_issueNonce (now : Instant) (mailbox mailbox' nonce nonce' : Text) :
    (r.issueNonce now mailbox nonce).expiry mailbox' nonce' =
      if mailbox' = mailbox ∧ nonce' = nonce then some (now + nonceTtl)
      else (r.pruneNonces now mailbox).expiry mailbox' nonce' := by
  unfold issueNonce
  dsimp only
  rw [expiry, Dict.get?_set]
  by_cases hm : mailbox' = mailbox
  · subst hm
    rw [if_pos rfl, Option.bind_some, Dict.get?_set]
    by_cases hn : nonce' = nonce
    · simp [hn]
    · simp only [hn, if_false, and_false, expiry]
      cases (r.pruneNonces now mailbox').nonces.get? mailbox' with
      | none => rfl
      | some live => rfl
  · simp [hm, expiry]

theorem expiry_discardNonce (mailbox mailbox' nonce nonce' : Text) :
    (r.discardNonce mailbox nonce).expiry mailbox' nonce' =
      if mailbox' = mailbox ∧ nonce' = nonce then none else r.expiry mailbox' nonce' := by
  unfold discardNonce
  split
  next hnone =>
    split_ifs with hm
    · rw [expiry, hm.1, hnone]
      rfl
    · rfl
  next live hlive =>
    dsimp only
    rw [expiry_setNonces]
    by_cases hm : mailbox' = mailbox
    · subst hm
      rw [if_pos rfl, Dict.get?_pop, expiry, hlive]
      by_cases hn : nonce' = nonce
      · simp [hn]
      · simp [hn]
    · simp [hm]

/-- What an authentication does: it raises, or the owner has signed a nonce that is live, which is
then discarded. -/
theorem checkAuth_cases (now : Instant) (mailbox : Text) (nonce : Option Text)
    (signature : Option Signature) (key : Option Text) :
    (∃ error, r.checkAuth now mailbox nonce signature key = (r, some error) ∨
        r.checkAuth now mailbox nonce signature key = (r.pruneNonces now mailbox, some error)) ∨
      ∃ owner n, nonce = some n ∧ key = some owner ∧ signature = some ⟨owner, mailbox, n⟩ ∧
        r.owners.get? mailbox = some owner ∧
        r.checkAuth now mailbox nonce signature key =
          ((r.pruneNonces now mailbox).discardNonce mailbox n, none) := by
  unfold checkAuth
  split
  next owner n sig key howner =>
    by_cases hkey : key ≠ owner
    · exact .inl ⟨_, .inl (if_pos hkey)⟩
    · rw [if_neg hkey]
      dsimp only
      split_ifs with hlive hsig
      · exact .inl ⟨_, .inr rfl⟩
      · exact .inl ⟨_, .inr rfl⟩
      · obtain rfl := not_not.mp hkey
        exact .inr ⟨key, n, rfl, rfl, congrArg some (not_not.mp hsig), howner, rfl⟩
  next => exact .inl ⟨_, .inl rfl⟩

/-- The owner passes with a signed nonce that is live. -/
theorem checkAuth_owner {now e : Instant} {mailbox nonce owner : Text}
    (howner : r.owners.get? mailbox = some owner) (hlive : r.expiry mailbox nonce = some e)
    (hnow : now < e) :
    r.checkAuth now mailbox (some nonce) (some ⟨owner, mailbox, nonce⟩) (some owner) =
      ((r.pruneNonces now mailbox).discardNonce mailbox nonce, none) := by
  have hpruned : (r.pruneNonces now mailbox).expiry mailbox nonce = some e := by
    rw [expiry_pruneNonces, if_pos rfl, hlive]
    simp [Option.filter, hnow]
  simp [checkAuth, howner, hpruned]

/-! ## What another mailbox keeps -/

/-- The nonce is known, and expires at that time or later. -/
def Live (r : Relay) (mailbox nonce : Text) (e : Instant) : Prop :=
  ∃ e', e ≤ e' ∧ r.expiry mailbox nonce = some e'

/-- A mailbox keeps its owner, its queue and its live nonces. Only an owned mailbox is sure to keep
its nonces. -/
structure Keeps (mailbox : Text) (now : Instant) (r r' : Relay) : Prop where
  owner : r'.owners.get? mailbox = r.owners.get? mailbox
  unregistered : r.owners.get? mailbox ≠ none → r.unregistered.get? mailbox = none →
    r'.unregistered.get? mailbox = none
  queue : r'.queue mailbox = r.queue mailbox
  nextId : r.nextId ≤ r'.nextId
  live : r.owners.get? mailbox ≠ none → r.unregistered.get? mailbox = none →
    ∀ n e, now < e → e ≤ now + nonceTtl → r.Live mailbox n e → r'.Live mailbox n e

variable {r' : Relay} {mailbox mailbox' : Text} {now : Instant}

theorem Keeps.refl : Keeps mailbox now r r :=
  ⟨rfl, fun _ h => h, rfl, le_rfl, fun _ _ _ _ _ _ h => h⟩

theorem Keeps.trans {r'' : Relay} (h : Keeps mailbox now r r') (h' : Keeps mailbox now r' r'') :
    Keeps mailbox now r r'' where
  owner := h'.owner.trans h.owner
  unregistered howned hun := h'.unregistered (h.owner ▸ howned) (h.unregistered howned hun)
  queue := h'.queue.trans h.queue
  nextId := h.nextId.trans h'.nextId
  live howned hun n e hnow hle he :=
    h'.live (h.owner ▸ howned) (h.unregistered howned hun) n e hnow hle
      (h.live howned hun n e hnow hle he)

/-- An operation on the nonces alone. -/
theorem Keeps.of_nonces (heq : r' = { r with nonces := r'.nonces })
    (h : ∀ n e, now < e → e ≤ now + nonceTtl → r.Live mailbox n e → r'.Live mailbox n e) :
    Keeps mailbox now r r' where
  owner := by rw [heq]
  unregistered _ hun := by rwa [heq]
  queue := by
    rw [heq]
    rfl
  nextId := by rw [heq]
  live _ _ := h

theorem pruneNonces_eq (now : Instant) (mailbox : Text) :
    r.pruneNonces now mailbox = { r with nonces := (r.pruneNonces now mailbox).nonces } := by
  unfold pruneNonces
  split
  · rfl
  · dsimp only
    split_ifs
    · rfl
    · rfl
    · rfl

theorem issueNonce_eq (now : Instant) (mailbox nonce : Text) :
    r.issueNonce now mailbox nonce = { r with nonces := (r.issueNonce now mailbox nonce).nonces } := by
  unfold issueNonce
  rw [pruneNonces_eq]

theorem discardNonce_eq (mailbox nonce : Text) :
    r.discardNonce mailbox nonce = { r with nonces := (r.discardNonce mailbox nonce).nonces } := by
  unfold discardNonce
  split
  · rfl
  · dsimp only
    split_ifs
    · rfl
    · rfl

theorem keeps_pruneNonces : Keeps mailbox now r (r.pruneNonces now mailbox') := by
  refine .of_nonces (pruneNonces_eq ..) fun n e hnow _ he => ?_
  obtain ⟨e', hle, he⟩ := he
  refine ⟨e', hle, ?_⟩
  have hlate : now < e' := lt_of_lt_of_le hnow hle
  rw [expiry_pruneNonces, he]
  simp [Option.filter, hlate]

theorem keeps_issueNonce (nonce : Text) : Keeps mailbox now r (r.issueNonce now mailbox' nonce) := by
  refine .of_nonces (issueNonce_eq ..) fun n e hnow hle he => ?_
  by_cases hm : mailbox = mailbox' ∧ n = nonce
  · exact ⟨now + nonceTtl, hle, by rw [expiry_issueNonce, if_pos hm]⟩
  · obtain ⟨e', hle', he⟩ := he
    have hlate : now < e' := lt_of_lt_of_le hnow hle'
    refine ⟨e', hle', ?_⟩
    rw [expiry_issueNonce, if_neg hm, expiry_pruneNonces, he]
    simp [Option.filter, hlate]

/-- Another nonce is discarded, or one of another mailbox. -/
theorem live_discardNonce {nonce n : Text} {e : Instant} (h : r.Live mailbox n e)
    (hne : ¬(mailbox = mailbox' ∧ n = nonce)) : (r.discardNonce mailbox' nonce).Live mailbox n e := by
  obtain ⟨e', hle, he⟩ := h
  exact ⟨e', hle, by rw [expiry_discardNonce, if_neg hne, he]⟩

theorem keeps_discardNonce {nonce : Text} (hne : mailbox ≠ mailbox') :
    Keeps mailbox now r (r.discardNonce mailbox' nonce) :=
  .of_nonces (discardNonce_eq ..) fun _ _ _ _ he => live_discardNonce he fun h => hne h.1

theorem queue_ack (ids : List ℕ) : (r.ack mailbox ids).queue mailbox' =
    if mailbox' = mailbox then (r.queue mailbox).filter (·.id ∉ ids) else r.queue mailbox' := by
  unfold ack queue
  rw [Dict.get?_set]
  split_ifs
  · rfl
  · rfl

theorem keeps_ack {ids : List ℕ} (hne : mailbox ≠ mailbox') :
    Keeps mailbox now r (r.ack mailbox' ids) where
  owner := rfl
  unregistered _ hun := hun
  queue := by rw [queue_ack, if_neg hne]
  nextId := le_rfl
  live _ _ _ _ _ _ he := he

/-- A registration of another mailbox. -/
theorem keeps_register {caps : Caps} {key owner : Text} (hne : mailbox ≠ mailbox')
    (h : r.register caps mailbox' key = .ok (r', owner)) : Keeps mailbox now r r' := by
  unfold register at h
  split at h
  · cases h
    exact .refl
  · split_ifs at h
    cases h
    refine ⟨?_, fun _ hun => ?_, rfl, le_rfl, fun _ _ _ _ _ _ he => he⟩
    · rw [Dict.get?_set, if_neg hne]
    · rw [Dict.get?_pop, if_neg hne, hun]

/-- An eviction drops an empty queue. -/
theorem keeps_evict (h : r.evictOldestEmptyUnregistered = some r') : Keeps mailbox now r r' := by
  obtain ⟨⟨victim, _⟩, hfind, rfl⟩ := Option.map_eq_some_iff.mp h
  have hempty : r.queue victim = [] := by simpa using List.find?_some hfind
  have hlisted : r.unregistered.get? victim = some () :=
    Dict.get?_of_mem_entries (List.mem_of_find?_eq_some hfind)
  refine ⟨rfl, fun _ hun => ?_, ?_, le_rfl, fun _ hun n e _ _ he => ?_⟩
  · rw [Dict.get?_pop]
    split_ifs
    · rfl
    · exact hun
  · show ((r.mailboxes.pop victim).get? mailbox).getD [] = r.queue mailbox
    rw [Dict.get?_pop]
    split_ifs with hm
    · subst hm
      exact hempty.symm
    · rfl
  · -- A mailbox that is not listed is not evicted.
    have hne : mailbox ≠ victim := by
      rintro rfl
      rw [hlisted] at hun
      cases hun
    obtain ⟨e', hle, he⟩ := he
    refine ⟨e', hle, ?_⟩
    show ((r.nonces.pop victim).get? mailbox).bind (·.get? n) = some e'
    rw [Dict.get?_pop, if_neg hne]
    exact he

/-- A mailbox without an owner is listed. -/
theorem keeps_list (hnone : r.owners.get? mailbox' = none) :
    Keeps mailbox now r { r with unregistered := r.unregistered.set mailbox' () } where
  owner := rfl
  unregistered howned hun := by
    have hne : mailbox ≠ mailbox' := by
      rintro rfl
      exact howned hnone
    rw [Dict.get?_set, if_neg hne]
    exact hun
  queue := rfl
  nextId := le_rfl
  live _ _ _ _ _ _ he := he

theorem keeps_makeRoom {caps : Caps} (h : r.makeRoom caps mailbox' = some r') : Keeps mailbox now r r' := by
  unfold makeRoom at h
  by_cases hknown : r.isKnown mailbox' = true
  · rw [if_pos hknown] at h
    cases h
    exact .refl
  · rw [if_neg hknown] at h
    obtain ⟨r₁, hroom, rfl⟩ := Option.map_eq_some_iff.mp h
    have hkeeps : ∀ m, Keeps m now r r₁ := by
      intro m
      split_ifs at hroom
      · exact keeps_evict hroom
      · cases hroom
        exact .refl
    have hnone : r.owners.get? mailbox' = none := by
      simp only [isKnown, isRegistered, Bool.or_eq_true, not_or] at hknown
      simpa using hknown.1
    exact (hkeeps mailbox).trans (keeps_list ((hkeeps mailbox').owner.trans hnone))

theorem nextId_makeRoom {caps : Caps} (h : r.makeRoom caps mailbox = some r') :
    r'.nextId = r.nextId := by
  unfold makeRoom at h
  split_ifs at h with hknown hfull
  · cases h
    rfl
  · obtain ⟨r₁, hevict, rfl⟩ := Option.map_eq_some_iff.mp h
    obtain ⟨victim, -, rfl⟩ := Option.map_eq_some_iff.mp hevict
    rfl
  · cases h
    rfl

/-- A push to another mailbox, or one that is refused. -/
theorem keeps_push {caps : Caps} {e : Envelope}
    (h : mailbox ≠ e.mailbox ∨ ∃ error, (r.push caps e).2 = .error error) :
    Keeps mailbox now r (r.push caps e).1 := by
  unfold push at h ⊢
  split_ifs with hsize
  · exact .refl
  · rw [if_neg hsize] at h
    cases hroom : r.makeRoom caps e.mailbox with
    | none => exact .refl
    | some r₁ =>
      have hkeeps : Keeps mailbox now r r₁ := keeps_makeRoom hroom
      simp only [hroom] at h ⊢
      split_ifs with hdepth
      · exact hkeeps
      · rw [if_neg hdepth] at h
        have hne : mailbox ≠ e.mailbox := h.resolve_right fun ⟨_, h⟩ => nomatch h
        refine hkeeps.trans ⟨rfl, fun _ hun => hun, ?_, Nat.le_succ _, fun _ _ _ _ _ _ he => he⟩
        show ((r₁.mailboxes.set _ _).get? mailbox).getD [] = r₁.queue mailbox
        rw [Dict.get?_set, if_neg hne]
        rfl

/-- A push that is accepted puts the envelope last, with a new id. -/
theorem push_ok (now : Instant) {caps : Caps} {e : Envelope} {id : ℕ}
    (h : (r.push caps e).2 = .ok id) :
    ∃ r₁, Keeps e.mailbox now r r₁ ∧ id = r₁.nextId ∧ (r.push caps e).1 =
      { r₁ with
        nextId := r₁.nextId + 1
        mailboxes := r₁.mailboxes.set e.mailbox (r₁.queue e.mailbox ++ [⟨id, e⟩]) } := by
  unfold push at h ⊢
  split_ifs with hsize
  · rw [if_pos hsize] at h
    cases h
  · rw [if_neg hsize] at h
    cases hroom : r.makeRoom caps e.mailbox with
    | none =>
      simp only [hroom] at h
      cases h
    | some r₁ =>
      simp only [hroom] at h ⊢
      split_ifs at h ⊢ with hdepth
      cases h
      exact ⟨r₁, keeps_makeRoom hroom, rfl, rfl⟩

/-- An authentication for another mailbox, or one that fails. -/
theorem keeps_checkAuth {nonce : Option Text} {signature : Option Signature} {key : Option Text}
    (h : mailbox ≠ mailbox' ∨ (r.checkAuth now mailbox' nonce signature key).2 ≠ none) :
    Keeps mailbox now r (r.checkAuth now mailbox' nonce signature key).1 := by
  rcases checkAuth_cases (r := r) now mailbox' nonce signature key with
    ⟨error, heq | heq⟩ | ⟨owner, n, -, -, -, -, heq⟩
  · rw [heq]
    exact .refl
  · rw [heq]
    exact keeps_pruneNonces
  · rw [heq] at h ⊢
    have hne : mailbox ≠ mailbox' := h.resolve_right fun h => h rfl
    exact keeps_pruneNonces.trans (keeps_discardNonce hne)

end Relay

end Companion.Kindled

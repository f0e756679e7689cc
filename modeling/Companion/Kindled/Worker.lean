import Companion.Kindled.Relay
import Companion.Threads
import Mathlib

/-!
# The hosted relay

The worker of `relay/cf-worker`: `Store` over a D1 database, `checkAuth` and `handle`, for any
number of requests at once. A call of a request is one SQL statement, which is atomic, and the
requests interleave at each `await`.

The worker checks and then acts, in two statements. Another request may act in between on what was
checked: the nonce is discarded already, the pool or the queue is full, the mailbox has come to be
known, or the one to be evicted has been registered. `Undisturbed` says that a statement that acts
finds what its check has found. `issued`, `spent`, `owned` and `stored` are bookkeeping of the
model.
-/

namespace Companion.Kindled.Worker

open Companion.Memory Companion.Effects Companion.Threads Companion.Runs

/-- `NONCE_TTL_MS` -/
def nonceTtlMs : ℤ := 120000

/-- A row of `mailboxes`. The owner is its `identity_pub`, which is NULL where `registered` is 0. -/
structure MailboxRow where
  owner : Option Text
  createdAt : ℤ
  deriving DecidableEq

/-- A row of `envelopes`. -/
structure EnvelopeRow where
  envelope : Envelope
  queuedAt : ℤ
  deriving DecidableEq

/-- The tables by their primary keys, and what has been done with them. -/
structure Db where
  mailboxes : Dict Text MailboxRow
  envelopes : Dict Text EnvelopeRow
  nonces : Dict (Text × Text) ℤ
  /-- The nonces that were issued. -/
  issued : List (Text × Text)
  /-- Those by which a request was authorised. -/
  spent : List (Text × Text)
  /-- The owners that mailboxes have had. -/
  owned : List (Text × Text)
  /-- The envelopes that were stored. -/
  stored : List (Text × Envelope)
  deriving DecidableEq

namespace Db

def empty : Db := ⟨∅, ∅, ∅, [], [], [], []⟩

variable (d : Db)

def ownerOf (mailbox : Text) : Option Text := (d.mailboxes.get? mailbox).bind (·.owner)

def countRegistered : ℕ := d.mailboxes.countP (·.owner.isSome)

def countUnregistered : ℕ := d.mailboxes.countP (·.owner.isNone)

def depth (mailbox : Text) : ℕ := d.envelopes.countP (·.envelope.mailbox = mailbox)

/-- The rows of a mailbox by `queued_at`. -/
def queue (mailbox : Text) : List (Text × Envelope) :=
  ((d.envelopes.entries.filter fun e => e.2.envelope.mailbox = mailbox).insertionSort
    fun e e' => e.2.queuedAt ≤ e'.2.queuedAt).map fun e => (e.1, e.2.envelope)

/-- The upsert of `register`: a row that is registered is left as it is. -/
def upsertOwner (mailbox key : Text) (now : ℤ) : Db :=
  if (d.ownerOf mailbox).isSome then d
  else
    { d with
      mailboxes := d.mailboxes.set mailbox
        ⟨some key, ((d.mailboxes.get? mailbox).map (·.createdAt)).getD now⟩
      owned := (mailbox, key) :: d.owned }

/-- The mailbox that the `SELECT` of `evictOldestEmptyUnregistered` finds. -/
def oldestEmptyUnregistered : Option Text :=
  ((d.mailboxes.entries.filter fun e => e.2.owner.isNone ∧ d.depth e.1 = 0).insertionSort
    fun e e' => e.2.createdAt ≤ e'.2.createdAt).head?.map Prod.fst

end Db

/-- The SQL statements. -/
inductive Statement
  | ownerOf (mailbox : Text)
  | countRegistered
  | upsertOwner (mailbox key : Text) (now : ℤ)
  | deleteExpired (now : ℤ)
  | insertNonce (mailbox nonce : Text) (expiresAt : ℤ)
  | nonceLive (mailbox nonce : Text) (now : ℤ)
  | deleteNonce (mailbox nonce : Text)
  | known (mailbox : Text)
  | countUnregistered
  | oldestEmptyUnregistered
  | deleteMailbox (mailbox : Text)
  | deleteNonces (mailbox : Text)
  | insertUnregistered (mailbox : Text) (now : ℤ)
  | depth (mailbox : Text)
  | insertEnvelope (id : Text) (envelope : Envelope) (now : ℤ)
  | envelopes (mailbox : Text)
  | deleteEnvelopes (mailbox : Text) (ids : List Text)
  deriving DecidableEq

/-- What a statement replies. -/
abbrev Statement.Reply : Statement → Type
  | ownerOf _ => Option Text
  | countRegistered => ℕ
  | nonceLive _ _ _ => Bool
  | known _ => Bool
  | countUnregistered => ℕ
  | oldestEmptyUnregistered => Option Text
  | depth _ => ℕ
  | envelopes _ => List (Text × Envelope)
  | _ => Unit

/-- A statement, with its reply. A row whose primary key is there raises, but `crypto.randomUUID()`
draws no id that is there. -/
def exec (d : Db) : (q : Statement) → Option (Db × Option q.Reply)
  | .ownerOf mailbox => some (d, some (d.ownerOf mailbox))
  | .countRegistered => some (d, some d.countRegistered)
  | .upsertOwner mailbox key now => some (d.upsertOwner mailbox key now, some ())
  | .deleteExpired now =>
    some ({ d with nonces := d.nonces.filterMap fun _ e => if e ≤ now then none else some e }, some ())
  | .insertNonce mailbox nonce expiresAt =>
    some ({ d with
      nonces := d.nonces.set (mailbox, nonce) expiresAt
      issued := (mailbox, nonce) :: d.issued }, some ())
  | .nonceLive mailbox nonce now => some (d, some ((d.nonces.get? (mailbox, nonce)).any (now < ·)))
  | .deleteNonce mailbox nonce =>
    some ({ d with
      nonces := d.nonces.pop (mailbox, nonce)
      spent := (mailbox, nonce) :: d.spent }, some ())
  | .known mailbox => some (d, some (d.mailboxes.get? mailbox).isSome)
  | .countUnregistered => some (d, some d.countUnregistered)
  | .oldestEmptyUnregistered => some (d, some d.oldestEmptyUnregistered)
  | .deleteMailbox mailbox => some ({ d with mailboxes := d.mailboxes.pop mailbox }, some ())
  | .deleteNonces mailbox =>
    some ({ d with
      nonces := d.nonces.filterMap fun k e => if k.1 = mailbox then none else some e }, some ())
  | .insertUnregistered mailbox now =>
    if (d.mailboxes.get? mailbox).isSome then some (d, none)
    else some ({ d with mailboxes := d.mailboxes.set mailbox ⟨none, now⟩ }, some ())
  | .depth mailbox => some (d, some (d.depth mailbox))
  | .insertEnvelope id envelope now =>
    if (d.envelopes.get? id).isSome then none
    else
      some ({ d with
        envelopes := d.envelopes.set id ⟨envelope, now⟩
        stored := (id, envelope) :: d.stored }, some ())
  | .envelopes mailbox => some (d, some (d.queue mailbox))
  | .deleteEnvelopes mailbox ids =>
    some ({ d with
      envelopes := d.envelopes.filterMap fun id e =>
        if e.envelope.mailbox = mailbox ∧ id ∈ ids then none else some e }, some ())

/-! ## The programs -/

/-- A text that is there and is not empty. -/
def truthy (text : Option Text) : Option Text := text.filter (· ≠ [])

/-- The fields of a body that `checkAuth` reads. -/
structure Auth where
  mailbox : Text
  nonce : Option Text
  signature : Option Signature
  key : Option Text
  deriving DecidableEq

/-- A request, with the time and the random text that it is served with. -/
inductive Request
  | register (mailbox key : Text) (now : ℤ)
  | challenge (mailbox nonce : Text) (now : ℤ)
  | envelope (e : Envelope) (id : Text) (now : ℤ)
  | fetch (auth : Auth) (now : ℤ)
  | ack (auth : Auth) (ids : List Text) (now : ℤ)
  deriving DecidableEq

/-- What a request is answered with status 200. -/
inductive Answer
  | owner (key : Text)
  | nonce (nonce : Text)
  | id (id : Text)
  | envelopes (items : List (Text × Envelope))
  | ok
  deriving DecidableEq

/-- A program of statements. An exception that is not a `RelayReject` is answered with status 500.
-/
abbrev Handler := Prog Statement.Reply (Except Rejected Answer)

abbrev ask (q : Statement) : Prog Statement.Reply q.Reply := Prog.ask q

/-- `Store.register` -/
def register (caps : Caps) (mailbox key : Text) (now : ℤ) : Handler := do
  let existing : Option Text ← ask (.ownerOf mailbox)
  match truthy existing with
  | some owner => pure (.ok (.owner owner))
  | none => do
    let count : ℕ ← ask .countRegistered
    if caps.maxRegistered ≤ count then
      pure (.error ⟨429, "registered mailbox cap reached".toList⟩)
    else do
      ask (.upsertOwner mailbox key now)
      let winner : Option Text ← ask (.ownerOf mailbox)
      pure (.ok (.owner (winner.getD key)))

/-- `Store.issueNonce`, behind `isRegistered` -/
def challenge (mailbox nonce : Text) (now : ℤ) : Handler := do
  let owner : Option Text ← ask (.ownerOf mailbox)
  if owner.isNone then pure (.error ⟨404, "mailbox not registered".toList⟩)
  else do
    ask (.deleteExpired now)
    ask (.insertNonce mailbox nonce (now + nonceTtlMs))
    pure (.ok (.nonce nonce))

/-- `evictOldestEmptyUnregistered` -/
def evictOldestEmptyUnregistered : Prog Statement.Reply Bool := do
  let oldest : Option Text ← ask .oldestEmptyUnregistered
  match oldest with
  | none => pure false
  | some mailbox => do
    ask (.deleteMailbox mailbox)
    ask (.deleteNonces mailbox)
    pure true

/-- The part of `Store.push` that puts a new mailbox into the pool, and whether it did. -/
def makeRoom (caps : Caps) (mailbox : Text) (now : ℤ) : Prog Statement.Reply Bool := do
  let known : Bool ← ask (.known mailbox)
  if known then pure true
  else do
    let count : ℕ ← ask .countUnregistered
    let room : Bool ← (if caps.maxUnregistered ≤ count then evictOldestEmptyUnregistered else pure true)
    if room then do
      ask (.insertUnregistered mailbox now)
      pure true
    else pure false

/-- `Store.push` -/
def push (caps : Caps) (e : Envelope) (id : Text) (now : ℤ) : Handler :=
  if caps.maxBytes < e.size then pure (.error ⟨413, "envelope too large".toList⟩)
  else do
    let room : Bool ← makeRoom caps e.mailbox now
    if !room then pure (.error ⟨429, "unregistered mailbox pool full".toList⟩)
    else do
      let depth : ℕ ← ask (.depth e.mailbox)
      if caps.maxDepth ≤ depth then pure (.error ⟨429, "mailbox queue full".toList⟩)
      else do
        ask (.insertEnvelope id e now)
        pure (.ok (.id id))

/-- `checkAuth`, with the error that it throws. -/
def checkAuth (auth : Auth) (now : ℤ) : Prog Statement.Reply (Option Rejected) := do
  let owner : Option Text ← ask (.ownerOf auth.mailbox)
  match truthy owner, truthy auth.nonce, auth.signature, truthy auth.key with
  | some owner, some nonce, some signature, some key =>
    if key ≠ owner then pure (some ⟨401, "not mailbox owner".toList⟩)
    else do
      let live : Bool ← ask (.nonceLive auth.mailbox nonce now)
      if !live then pure (some ⟨401, "bad nonce".toList⟩)
      else if signature ≠ ⟨key, auth.mailbox, nonce⟩ then
        pure (some ⟨401, "bad signature".toList⟩)
      else do
        ask (.deleteNonce auth.mailbox nonce)
        pure none
  | _, _, _, _ => pure (some ⟨401, "auth required".toList⟩)

/-- `/mailbox/fetch` -/
def fetch (auth : Auth) (now : ℤ) : Handler := do
  match ← checkAuth auth now with
  | some error => pure (.error error)
  | none => do
    let items : List (Text × Envelope) ← ask (.envelopes auth.mailbox)
    pure (.ok (.envelopes items))

/-- `/mailbox/ack` -/
def ack (auth : Auth) (ids : List Text) (now : ℤ) : Handler := do
  match ← checkAuth auth now with
  | some error => pure (.error error)
  | none =>
    if ids = [] then pure (.ok .ok)
    else do
      ask (.deleteEnvelopes auth.mailbox ids)
      pure (.ok .ok)

/-- `handle` -/
def handle (caps : Caps) : Request → Handler
  | .register mailbox key now => register caps mailbox key now
  | .challenge mailbox nonce now => challenge mailbox nonce now
  | .envelope e id now => push caps e id now
  | .fetch auth now => fetch auth now
  | .ack auth ids now => ack auth ids now

/-- The requests over a database that is empty at the start. -/
abbrev machine (caps : Caps) :=
  Threads.machine (handle caps) exec fun d : Db => d = .empty

/-- A statement that acts finds what its check has found: the nonce has not been discarded for
another request, the pool or the queue has room, the mailbox is not known, and the one that is
evicted is not registered. -/
def Undisturbed (caps : Caps) (d : Db) : Statement → Prop
  -- A nonce that was never discarded may have gone because it has expired.
  | .deleteNonce mailbox nonce =>
    (d.nonces.get? (mailbox, nonce)).isSome ∨ (mailbox, nonce) ∉ d.spent
  | .upsertOwner mailbox _ _ =>
    (d.ownerOf mailbox).isSome ∨ d.countRegistered < caps.maxRegistered
  | .insertUnregistered mailbox _ =>
    (d.mailboxes.get? mailbox).isNone ∧ d.countUnregistered < caps.maxUnregistered
  | .insertEnvelope _ e _ => d.depth e.mailbox < caps.maxDepth
  | .deleteMailbox mailbox => d.ownerOf mailbox = none
  | _ => True

instance (caps : Caps) (d : Db) (q : Statement) : Decidable (Undisturbed caps d q) := by
  unfold Undisturbed
  split <;> infer_instance

/-- What the database keeps of what has been done with it. -/
structure Kept (caps : Caps) (d : Db) : Prop where
  /-- A nonce authorises as many requests as it was issued times, at most. -/
  nonces : ∀ n, d.spent.count n ≤ d.issued.count n
  /-- An owner does not change. -/
  owners : ∀ mailbox key, (mailbox, key) ∈ d.owned → d.ownerOf mailbox = some key
  registered : d.countRegistered ≤ caps.maxRegistered
  unregistered : d.countUnregistered ≤ caps.maxUnregistered
  depth : ∀ mailbox, d.depth mailbox ≤ caps.maxDepth

/-- The answer of a request that has been served, or none where it is answered with status 500. -/
def Answered (t : Thread Request Statement.Reply (Except Rejected Answer))
    (answer : Option (Except Rejected Answer)) : Prop :=
  Runs t.rest [] answer

/-- What the hosted relay is to keep. -/
structure Safe (caps : Caps) (p : Pool Db Request Statement.Reply (Except Rejected Answer)) :
    Prop where
  kept : Kept caps p.state
  /-- A push is answered with 413 or 429, or its envelope has been stored. -/
  pushes : ∀ t ∈ p.threads, ∀ e id now answer, t.request = .envelope e id now →
    Answered t answer →
    (∃ error, answer = some (.error error) ∧ (error.status = 413 ∨ error.status = 429)) ∨
      (id, e) ∈ p.state.stored

/-! ## The statements -/

variable {caps : Caps} {d d' : Db}

/-- A nonce that is there was not spent since it was issued. -/
structure Inv (caps : Caps) (d : Db) : Prop extends Kept caps d where
  live : ∀ n, (d.nonces.get? n).isSome → d.spent.count n < d.issued.count n

theorem inv_empty (caps : Caps) : Inv caps .empty where
  nonces _ := Nat.le_refl _
  owners _ _ h := absurd h List.not_mem_nil
  registered := Nat.zero_le _
  unregistered := Nat.zero_le _
  depth _ := Nat.zero_le _
  live _ h := nomatch h

/-- Nonces are taken away. -/
theorem Inv.dropNonces (hi : Inv caps d) {nonces : Dict (Text × Text) ℤ}
    (h : ∀ n, (nonces.get? n).isSome → (d.nonces.get? n).isSome) :
    Inv caps { d with nonces := nonces } :=
  ⟨⟨hi.nonces, hi.owners, hi.registered, hi.unregistered, hi.depth⟩, fun n hn => hi.live n (h n hn)⟩

theorem isSome_filterMap {κ α : Type} [DecidableEq κ] {f : κ → α → Option α} {nonces : Dict κ α} {n : κ}
    (h : ((nonces.filterMap f).get? n).isSome) : (nonces.get? n).isSome := by
  rw [Dict.get?_filterMap] at h
  cases hget : nonces.get? n with
  | none =>
    rw [hget] at h
    exact h
  | some v => rfl

theorem Inv.insertNonce (hi : Inv caps d) (n : Text × Text) (expiresAt : ℤ) :
    Inv caps { d with nonces := d.nonces.set n expiresAt, issued := n :: d.issued } := by
  have hcount : ∀ n', d.issued.count n' ≤ (n :: d.issued).count n' :=
    fun n' => (List.sublist_cons_self n d.issued).count_le n'
  refine ⟨⟨fun n' => (hi.nonces n').trans (hcount n'), hi.owners, hi.registered, hi.unregistered,
    hi.depth⟩, fun n' hn' => ?_⟩
  show d.spent.count n' < (n :: d.issued).count n'
  by_cases heq : n' = n
  · subst heq
    have hle := hi.nonces n'
    rw [List.count_cons_self]
    omega
  · replace hn' : ((d.nonces.set n expiresAt).get? n').isSome := hn'
    rw [Dict.get?_set, if_neg heq] at hn'
    exact (hi.live n' hn').trans_le (hcount n')

/-- An issued nonce that is there, or was not spent yet, is spent. -/
theorem Inv.deleteNonce (hi : Inv caps d) {n : Text × Text} (hissued : n ∈ d.issued)
    (h : (d.nonces.get? n).isSome ∨ n ∉ d.spent) :
    Inv caps { d with nonces := d.nonces.pop n, spent := n :: d.spent } := by
  have hlt : d.spent.count n < d.issued.count n := by
    rcases h with h | h
    · exact hi.live n h
    · rw [List.count_eq_zero_of_not_mem h]
      exact List.count_pos_iff.mpr hissued
  refine ⟨⟨fun n' => ?_, hi.owners, hi.registered, hi.unregistered, hi.depth⟩, fun n' hn' => ?_⟩
  · show (n :: d.spent).count n' ≤ d.issued.count n'
    by_cases heq : n' = n
    · subst heq
      rw [List.count_cons_self]
      omega
    · rw [List.count_cons_of_ne (Ne.symm heq)]
      exact hi.nonces n'
  · replace hn' : ((d.nonces.pop n).get? n').isSome := hn'
    rw [Dict.get?_pop] at hn'
    split_ifs at hn' with heq
    · cases hn'
    · show (n :: d.spent).count n' < d.issued.count n'
      rw [List.count_cons_of_ne (Ne.symm heq)]
      exact hi.live n' hn'

theorem ownerOf_set (d : Db) (row : MailboxRow) (mailbox mailbox' : Text) (owned : List (Text × Text)) :
    ({ d with mailboxes := d.mailboxes.set mailbox row, owned := owned } : Db).ownerOf mailbox' =
      if mailbox' = mailbox then row.owner else d.ownerOf mailbox' := by
  unfold Db.ownerOf
  show ((d.mailboxes.set mailbox row).get? mailbox').bind _ = _
  rw [Dict.get?_set]
  split_ifs <;> rfl

/-- A mailbox gets its first owner, and the pool of the registered has room. -/
theorem Inv.upsertOwner (hi : Inv caps d) {mailbox : Text} (key : Text) (now : ℤ)
    (h : (d.ownerOf mailbox).isSome ∨ d.countRegistered < caps.maxRegistered) :
    Inv caps (d.upsertOwner mailbox key now) := by
  unfold Db.upsertOwner
  split_ifs with howned
  · exact hi
  have hroom := h.resolve_left howned
  set row : MailboxRow := ⟨some key, ((d.mailboxes.get? mailbox).map (·.createdAt)).getD now⟩
  have hregistered := Dict.countP_set_le (·.owner.isSome) d.mailboxes mailbox row
  have hunregistered := Dict.countP_set_le (·.owner.isNone) d.mailboxes mailbox row
  refine ⟨⟨hi.nonces, fun mailbox' key' hmem => ?_, ?_, ?_, hi.depth⟩, hi.live⟩
  · rw [ownerOf_set]
    rcases List.mem_cons.mp hmem with heq | hmem
    · obtain ⟨rfl, rfl⟩ := Prod.mk.inj heq
      exact if_pos rfl
    · have hold := hi.owners mailbox' key' hmem
      have hne : mailbox' ≠ mailbox := by
        rintro rfl
        rw [hold] at howned
        exact howned rfl
      rw [if_neg hne, hold]
  · have hle : (d.mailboxes.set mailbox row).countP (·.owner.isSome) ≤ d.countRegistered + 1 :=
      hregistered
    show (d.mailboxes.set mailbox row).countP (·.owner.isSome) ≤ caps.maxRegistered
    omega
  · exact hunregistered.trans hi.unregistered

theorem Inv.insertUnregistered (hi : Inv caps d) {mailbox : Text} (now : ℤ)
    (hnone : (d.mailboxes.get? mailbox).isNone) (hroom : d.countUnregistered < caps.maxUnregistered) :
    Inv caps { d with mailboxes := d.mailboxes.set mailbox ⟨none, now⟩ } := by
  have hregistered := Dict.countP_set_le (·.owner.isSome) d.mailboxes mailbox ⟨none, now⟩
  have hunregistered := Dict.countP_set_le (·.owner.isNone) d.mailboxes mailbox ⟨none, now⟩
  refine ⟨⟨hi.nonces, fun mailbox' key' hmem => ?_, hregistered.trans hi.registered, ?_, hi.depth⟩,
    hi.live⟩
  · have hold := hi.owners mailbox' key' hmem
    have hne : mailbox' ≠ mailbox := by
      rintro rfl
      rw [Db.ownerOf, Option.isNone_iff_eq_none.mp hnone] at hold
      cases hold
    have hset := ownerOf_set d ⟨none, now⟩ mailbox mailbox' d.owned
    rw [if_neg hne] at hset
    exact hset.trans hold
  · exact hunregistered.trans hroom

/-- A mailbox without an owner is evicted. -/
theorem Inv.deleteMailbox (hi : Inv caps d) {mailbox : Text} (h : d.ownerOf mailbox = none) :
    Inv caps { d with mailboxes := d.mailboxes.pop mailbox } := by
  refine ⟨⟨hi.nonces, fun mailbox' key' hmem => ?_, ?_, ?_, hi.depth⟩, hi.live⟩
  · have hold := hi.owners mailbox' key' hmem
    have hne : mailbox' ≠ mailbox := by
      rintro rfl
      rw [h] at hold
      cases hold
    unfold Db.ownerOf
    show ((d.mailboxes.pop mailbox).get? mailbox').bind _ = _
    rw [Dict.get?_pop, if_neg hne]
    exact hold
  · exact (Dict.countP_pop_le _ _ _).trans hi.registered
  · exact (Dict.countP_pop_le _ _ _).trans hi.unregistered

theorem Inv.insertEnvelope (hi : Inv caps d) (id : Text) (e : Envelope) (now : ℤ)
    (hroom : d.depth e.mailbox < caps.maxDepth) :
    Inv caps { d with
      envelopes := d.envelopes.set id ⟨e, now⟩
      stored := (id, e) :: d.stored } := by
  refine ⟨⟨hi.nonces, hi.owners, hi.registered, hi.unregistered, fun mailbox => ?_⟩, hi.live⟩
  have hle := Dict.countP_set_le (·.envelope.mailbox = mailbox) d.envelopes id ⟨e, now⟩
  refine hle.trans ?_
  by_cases hm : e.mailbox = mailbox
  · subst hm
    simp only [decide_true, if_true]
    exact hroom
  · simp only [hm, decide_false, Bool.false_eq_true, if_false]
    exact hi.depth mailbox

theorem Inv.deleteEnvelopes (hi : Inv caps d) (mailbox : Text) (ids : List Text) :
    Inv caps { d with
      envelopes := d.envelopes.filterMap fun id e =>
        if e.envelope.mailbox = mailbox ∧ id ∈ ids then none else some e } := by
  refine ⟨⟨hi.nonces, hi.owners, hi.registered, hi.unregistered, fun mailbox' => ?_⟩, hi.live⟩
  refine (Dict.countP_filterMap_le _ (fun id e e' h => ?_) d.envelopes).trans (hi.depth mailbox')
  split_ifs at h
  exact (Option.some.inj h).symm

/-- What was issued or stored stays in the list of it. -/
theorem issued_stored_exec {q : Statement} {r : Option q.Reply} (h : exec d q = some (d', r)) :
    d.issued ⊆ d'.issued ∧ d.stored ⊆ d'.stored := by
  cases q with
  | upsertOwner mailbox key now =>
    cases h
    unfold Db.upsertOwner
    split_ifs
    · exact ⟨List.Subset.refl _, List.Subset.refl _⟩
    · exact ⟨List.Subset.refl _, List.Subset.refl _⟩
  | insertNonce mailbox nonce expiresAt =>
    cases h
    exact ⟨List.subset_cons_self _ _, List.Subset.refl _⟩
  | insertUnregistered mailbox now =>
    simp only [exec] at h
    split_ifs at h <;> cases h <;> exact ⟨List.Subset.refl _, List.Subset.refl _⟩
  | insertEnvelope id e now =>
    simp only [exec] at h
    split_ifs at h
    cases h
    exact ⟨List.Subset.refl _, List.subset_cons_self _ _⟩
  | _ =>
    cases h
    exact ⟨List.Subset.refl _, List.Subset.refl _⟩

/-- A statement that is not disturbed keeps the invariant. A nonce is discarded by a request that
has found it live, so it was issued. -/
theorem Inv.exec {q : Statement} {r : Option q.Reply} (hi : Inv caps d)
    (hq : Undisturbed caps d q)
    (hissued : ∀ mailbox nonce, q = .deleteNonce mailbox nonce → (mailbox, nonce) ∈ d.issued)
    (h : exec d q = some (d', r)) : Inv caps d' := by
  cases q with
  | upsertOwner mailbox key now =>
    cases h
    exact hi.upsertOwner key now hq
  | deleteExpired now =>
    cases h
    exact hi.dropNonces fun n hn => isSome_filterMap hn
  | insertNonce mailbox nonce expiresAt =>
    cases h
    exact hi.insertNonce (mailbox, nonce) expiresAt
  | deleteNonce mailbox nonce =>
    cases h
    exact hi.deleteNonce (hissued mailbox nonce rfl) hq
  | deleteMailbox mailbox =>
    cases h
    exact hi.deleteMailbox hq
  | deleteNonces mailbox =>
    cases h
    exact hi.dropNonces fun n hn => isSome_filterMap hn
  | insertUnregistered mailbox now =>
    simp only [Worker.exec] at h
    split_ifs at h
    · cases h
      exact hi
    · cases h
      exact hi.insertUnregistered now hq.1 hq.2
  | insertEnvelope id e now =>
    simp only [Worker.exec] at h
    split_ifs at h
    cases h
    exact hi.insertEnvelope id e now hq
  | deleteEnvelopes mailbox ids =>
    cases h
    exact hi.deleteEnvelopes mailbox ids
  | ownerOf _ | countRegistered | nonceLive _ _ _ | known _ | countUnregistered
  | oldestEmptyUnregistered | depth _ | envelopes _ =>
    cases h
    exact hi

/-- What a call has left: it has not raised, an envelope is stored, and a live nonce was issued. -/
structure Left (d : Db) (event : Event Statement.Reply) : Prop where
  reply : event.reply ≠ none
  stored : ∀ id e now, event.query = .insertEnvelope id e now → (id, e) ∈ d.stored
  issued : ∀ mailbox nonce now, event = ⟨.nonceLive mailbox nonce now, some true⟩ →
    (mailbox, nonce) ∈ d.issued

theorem Left.exec {event : Event Statement.Reply} (hl : Left d event) {q : Statement}
    {r : Option q.Reply} (h : exec d q = some (d', r)) : Left d' event := by
  obtain ⟨hissued, hstored⟩ := issued_stored_exec h
  exact ⟨hl.reply, fun id e now heq => hstored (hl.stored id e now heq),
    fun mailbox nonce now heq => hissued (hl.issued mailbox nonce now heq)⟩

/-- A statement that is neither of the two leaves nothing to be kept. -/
theorem left_of_ne {q : Statement} {r : q.Reply}
    (hinsert : ∀ id e now, q ≠ .insertEnvelope id e now)
    (hlive : ∀ mailbox nonce now, q ≠ .nonceLive mailbox nonce now) : Left d ⟨q, some r⟩ where
  reply := Option.some_ne_none r
  stored id e now heq := absurd heq (hinsert id e now)
  issued mailbox nonce now heq := absurd (congrArg Event.query heq) (hlive mailbox nonce now)

theorem left_exec {q : Statement} {r : Option q.Reply} (hi : Inv caps d)
    (hq : Undisturbed caps d q) (h : exec d q = some (d', r)) : Left d' ⟨q, r⟩ := by
  cases q with
  | insertUnregistered mailbox now =>
    simp only [Worker.exec] at h
    rw [if_neg] at h
    · cases h
      exact left_of_ne (by simp) (by simp)
    · rw [Option.isNone_iff_eq_none.mp hq.1]
      exact Bool.false_ne_true
  | insertEnvelope id e now =>
    simp only [Worker.exec] at h
    split_ifs at h
    cases h
    refine ⟨Option.some_ne_none (), fun id' e' now' heq => ?_, fun mailbox nonce now' heq => ?_⟩
    · cases heq
      exact List.mem_cons_self
    · cases congrArg Event.query heq
  | nonceLive mailbox nonce now =>
    cases h
    refine ⟨Option.some_ne_none _, fun id' e' now' heq => ?_, fun mailbox' nonce' now' heq => ?_⟩
    · cases heq
    · -- A nonce that is live is there, and one that is there was issued more often than it was
      -- spent.
      injection heq with hquery hreply
      cases hquery
      obtain ⟨expiresAt, hget, -⟩ := (Option.any_eq_true _ _).mp (Option.some.inj hreply)
      have hlt := hi.live (mailbox, nonce) (by rw [hget]; rfl)
      exact List.count_pos_iff.mp (Nat.zero_lt_of_lt hlt)
  | _ =>
    cases h
    exact left_of_ne (by simp) (by simp)

/-! ## The requests -/

/-- A nonce is discarded only after it was found live. -/
def Checked (u : Trace Statement.Reply) : Prop :=
  ∀ v w mailbox nonce r, u = v ++ ⟨.deleteNonce mailbox nonce, r⟩ :: w →
    ∃ now, ⟨.nonceLive mailbox nonce now, some true⟩ ∈ v

theorem Checked.append {u v : Trace Statement.Reply} (hu : Checked u) (hv : Checked v) :
    Checked (u ++ v) := by
  intro x w mailbox nonce r heq
  rcases List.append_eq_append_iff.mp heq with ⟨y, rfl, hy⟩ | ⟨y, rfl, hy⟩
  · obtain ⟨now, hmem⟩ := hv y w mailbox nonce r hy
    exact ⟨now, List.mem_append_right u hmem⟩
  · cases y with
    | nil =>
      obtain ⟨now, hmem⟩ := hv [] w mailbox nonce r hy.symm
      exact absurd hmem List.not_mem_nil
    | cons event y =>
      obtain ⟨rfl, -⟩ := List.cons.inj hy
      exact hu x y mailbox nonce r rfl

/-- Not a discarding of a nonce. -/
def NoDiscard : Statement → Prop
  | .deleteNonce _ _ => False
  | _ => True

theorem leaves_checked_of_only {α : Type} {p : Prog Statement.Reply α} (h : Only NoDiscard p) :
    Leaves Checked p := by
  rintro u o hrun v w mailbox nonce r rfl
  exact (h.of_runs hrun _ (List.mem_append_right v List.mem_cons_self)).elim

theorem leaves_checked_ask {q : Statement} (hq : NoDiscard q) : Leaves Checked (ask q) :=
  leaves_checked_of_only (only_ask.mpr hq)

theorem leaves_checked_pure {α : Type} (a : α) : Leaves Checked (pure a) :=
  leaves_checked_of_only (only_pure a)

theorem leaves_checked_bind {α β : Type} {p : Prog Statement.Reply α}
    {f : α → Prog Statement.Reply β} (hp : Leaves Checked p) (hf : ∀ a, Leaves Checked (f a)) :
    Leaves Checked (p >>= f) :=
  hp.bind (fun _ _ => Checked.append) hf

/-- After a nonce is found live, it and no other may be discarded. -/
theorem checked_live {mailbox nonce : Text} {now : ℤ} {w : Trace Statement.Reply}
    (hw : ∀ e ∈ w, ∀ mailbox' nonce', e.query = .deleteNonce mailbox' nonce' →
      mailbox' = mailbox ∧ nonce' = nonce) :
    Checked (⟨.nonceLive mailbox nonce now, some true⟩ :: w) := by
  intro v x mailbox' nonce' r heq
  cases v with
  | nil => cases (List.cons.inj heq).1
  | cons e v =>
    obtain ⟨rfl, rfl⟩ := List.cons.inj heq
    obtain ⟨rfl, rfl⟩ :=
      hw _ (List.mem_append_right v List.mem_cons_self) mailbox' nonce' rfl
    exact ⟨now, List.mem_cons_self⟩

theorem leaves_checked_checkAuth (auth : Auth) (now : ℤ) :
    Leaves Checked (checkAuth auth now) := by
  refine leaves_checked_bind (leaves_checked_ask trivial) fun owner => ?_
  split
  next owner nonce signature key _ _ _ _ =>
    by_cases hkey : key ≠ owner
    · rw [if_pos hkey]
      exact leaves_checked_pure _
    rw [if_neg hkey]
    intro u o h
    rcases runs_ask_bind.mp h with ⟨live, w, rfl, hw⟩ | ⟨-, rfl⟩
    · cases live with
      | false =>
        obtain ⟨rfl, -⟩ := runs_pure.mp hw
        exact leaves_checked_ask (q := .nonceLive auth.mailbox nonce now) trivial _ _ (runs_ask.mpr rfl)
      | true =>
        refine checked_live fun e he mailbox' nonce' hdiscard => ?_
        have honly : Only (fun q => ∀ mailbox' nonce', q = .deleteNonce mailbox' nonce' →
            mailbox' = auth.mailbox ∧ nonce' = nonce)
            (if signature ≠ ⟨key, auth.mailbox, nonce⟩ then
              pure (some ⟨401, "bad signature".toList⟩)
            else do
              ask (.deleteNonce auth.mailbox nonce)
              pure none : Prog Statement.Reply (Option Rejected)) := by
          split_ifs
          · exact only_pure _
          · refine Only.bind (only_ask.mpr fun mailbox' nonce' heq => ?_) fun _ => only_pure _
            cases heq
            exact ⟨rfl, rfl⟩
        exact honly.of_runs hw e he mailbox' nonce' hdiscard
    · exact leaves_checked_ask (q := .nonceLive auth.mailbox nonce now) trivial _ _ (runs_ask.mpr rfl)
  next => exact leaves_checked_pure _

theorem onlyNoDiscard_makeRoom (caps : Caps) (mailbox : Text) (now : ℤ) :
    Only NoDiscard (makeRoom caps mailbox now) := by
  have hevict : Only NoDiscard evictOldestEmptyUnregistered := by
    refine Only.bind (only_ask.mpr trivial) fun oldest => ?_
    cases oldest with
    | none => exact only_pure _
    | some mailbox =>
      exact .bind (only_ask.mpr trivial) fun _ => .bind (only_ask.mpr trivial) fun _ => only_pure _
  refine Only.bind (only_ask.mpr trivial) fun known => ?_
  split_ifs
  · exact only_pure _
  refine Only.bind (only_ask.mpr trivial) fun count => ?_
  refine Only.bind ?_ fun room => ?_
  · split_ifs
    · exact hevict
    · exact only_pure _
  · split_ifs
    · exact .bind (only_ask.mpr trivial) fun _ => only_pure _
    · exact only_pure _

/-- Each request discards a nonce only after it was found live. -/
theorem leaves_checked_handle (caps : Caps) (request : Request) :
    Leaves Checked (handle caps request) := by
  cases request with
  | register mailbox key now =>
    refine leaves_checked_of_only (Only.bind (only_ask.mpr trivial) fun existing => ?_)
    split
    · exact only_pure _
    refine Only.bind (only_ask.mpr trivial) fun count => ?_
    split_ifs
    · exact only_pure _
    · exact .bind (only_ask.mpr trivial) fun _ => .bind (only_ask.mpr trivial) fun _ => only_pure _
  | challenge mailbox nonce now =>
    refine leaves_checked_of_only (Only.bind (only_ask.mpr trivial) fun owner => ?_)
    split_ifs
    · exact only_pure _
    · exact .bind (only_ask.mpr trivial) fun _ => .bind (only_ask.mpr trivial) fun _ => only_pure _
  | envelope e id now =>
    refine leaves_checked_of_only ?_
    show Only NoDiscard (push caps e id now)
    unfold push
    split_ifs
    · exact only_pure _
    refine Only.bind (onlyNoDiscard_makeRoom caps e.mailbox now) fun room => ?_
    split_ifs
    · exact only_pure _
    refine Only.bind (only_ask.mpr trivial) fun depth => ?_
    split_ifs
    · exact only_pure _
    · exact .bind (only_ask.mpr trivial) fun _ => only_pure _
  | fetch auth now =>
    refine leaves_checked_bind (leaves_checked_checkAuth auth now) fun error => ?_
    cases error with
    | some error => exact leaves_checked_pure _
    | none =>
      exact leaves_checked_bind (leaves_checked_ask trivial) fun items => leaves_checked_pure _
  | ack auth ids now =>
    refine leaves_checked_bind (leaves_checked_checkAuth auth now) fun error => ?_
    cases error with
    | some error => exact leaves_checked_pure _
    | none =>
      dsimp only
      split_ifs
      · exact leaves_checked_pure _
      · exact leaves_checked_bind (leaves_checked_ask trivial) fun _ => leaves_checked_pure _

theorem onlyCallsRaise_makeRoom (caps : Caps) (mailbox : Text) (now : ℤ) :
    OnlyCallsRaise (makeRoom caps mailbox now) := by
  have hevict : OnlyCallsRaise evictOldestEmptyUnregistered := by
    refine (onlyCallsRaise_ask _).bind fun oldest => ?_
    cases oldest with
    | none => exact onlyCallsRaise_pure _
    | some mailbox =>
      exact (onlyCallsRaise_ask _).bind fun _ => (onlyCallsRaise_ask _).bind fun _ =>
        onlyCallsRaise_pure _
  refine (onlyCallsRaise_ask _).bind fun known => ?_
  split_ifs
  · exact onlyCallsRaise_pure _
  refine (onlyCallsRaise_ask _).bind fun count => OnlyCallsRaise.bind ?_ fun room => ?_
  · split_ifs
    · exact hevict
    · exact onlyCallsRaise_pure _
  · split_ifs
    · exact (onlyCallsRaise_ask _).bind fun _ => onlyCallsRaise_pure _
    · exact onlyCallsRaise_pure _

/-- A push that raises has made a statement that does. -/
theorem onlyCallsRaise_push (caps : Caps) (e : Envelope) (id : Text) (now : ℤ) :
    OnlyCallsRaise (push caps e id now) := by
  unfold push
  split_ifs
  · exact onlyCallsRaise_pure _
  refine (onlyCallsRaise_makeRoom caps e.mailbox now).bind fun room => ?_
  split_ifs
  · exact onlyCallsRaise_pure _
  refine (onlyCallsRaise_ask _).bind fun depth => ?_
  split_ifs
  · exact onlyCallsRaise_pure _
  · exact (onlyCallsRaise_ask _).bind fun _ => onlyCallsRaise_pure _

/-- A push that is answered is refused, or has stored its envelope. -/
theorem runs_push {e : Envelope} {id : Text} {now : ℤ} {u : Trace Statement.Reply}
    {answer : Except Rejected Answer} (h : Runs (push caps e id now) u (some answer)) :
    (∃ error, answer = .error error ∧ (error.status = 413 ∨ error.status = 429)) ∨
      ∃ r, ⟨.insertEnvelope id e now, r⟩ ∈ u := by
  unfold push at h
  by_cases hsize : caps.maxBytes < e.size
  · rw [if_pos hsize] at h
    obtain ⟨-, heq⟩ := runs_pure.mp h
    exact .inl ⟨_, Option.some.inj heq, .inl rfl⟩
  rw [if_neg hsize] at h
  obtain ⟨room, v, w, rfl, -, hroom⟩ := runs_bind_some.mp h
  cases room with
  | false =>
    obtain ⟨-, heq⟩ := runs_pure.mp hroom
    exact .inl ⟨_, Option.some.inj heq, .inr rfl⟩
  | true =>
    obtain ⟨depth, x, rfl, hrest⟩ := runs_ask_bind_some.mp hroom
    by_cases hdepth : caps.maxDepth ≤ depth
    · rw [if_pos hdepth] at hrest
      obtain ⟨-, heq⟩ := runs_pure.mp hrest
      exact .inl ⟨_, Option.some.inj heq, .inr rfl⟩
    rw [if_neg hdepth] at hrest
    obtain ⟨r, y, rfl, -⟩ := runs_ask_bind_some.mp hrest
    exact .inr ⟨some r, List.mem_append_right v (List.mem_cons_of_mem _ List.mem_cons_self)⟩

/-- Where no statement is disturbed, the hosted relay keeps what it is to keep. -/
theorem hosted_relay_safe (caps : Caps)
    (p : Pool Db Request Statement.Reply (Except Rejected Answer))
    (h : (machine caps).Reach (Meets (Undisturbed caps)) p) : Safe caps p := by
  have hboth : Inv caps p.state ∧ ∀ t ∈ p.threads, ∀ e ∈ t.trace, Left p.state e := by
    refine reach_invariant ?_ ?_ h
    · rintro _ rfl
      exact inv_empty caps
    · intro d q d' r hi hq ⟨request, u, r', v, o, hu, hrun⟩ hexec
      have hissued : ∀ mailbox nonce, q = .deleteNonce mailbox nonce → (mailbox, nonce) ∈ d.issued := by
        rintro mailbox nonce rfl
        obtain ⟨now, hlive⟩ := leaves_checked_handle caps request _ o hrun u v mailbox nonce r' rfl
        exact (hu _ hlive).issued mailbox nonce now rfl
      exact ⟨hi.exec hq hissued hexec, left_exec hi hq hexec, fun e he => he.exec hexec⟩
  obtain ⟨hi, hleft⟩ := hboth
  refine ⟨hi.toKept, fun t ht e id now answer hrequest hend => ?_⟩
  have hrun := runs_of_ended h ht hend
  rw [hrequest] at hrun
  cases answer with
  | none =>
    obtain ⟨event, hevent, hraised⟩ := onlyCallsRaise_push caps e id now t.trace hrun
    exact absurd hraised (hleft t ht event hevent).reply
  | some answer =>
    rcases runs_push hrun with ⟨error, rfl, herror⟩ | ⟨r, hmem⟩
    · exact .inl ⟨error, rfl, herror⟩
    · exact .inr ((hleft t ht _ hmem).stored id e now rfl)

/-- A fetch by the owner of a mailbox. -/
def ownFetch : Request :=
  .fetch ⟨"a".toList, some "n".toList, some ⟨"k".toList, "a".toList, "n".toList⟩,
    some "k".toList⟩ 2

/-- A mailbox is registered, and a nonce is issued for it. -/
def challenged : List (Act Request) :=
  [.start (.register "a".toList "k".toList 0), .turn 0, .turn 0, .turn 0, .turn 0,
    .start (.challenge "a".toList "n".toList 1), .turn 1, .turn 1, .turn 1]

/-- The mailbox is pushed to, and its owner fetches. -/
def served : List (Act Request) :=
  challenged ++ [.start (.envelope ⟨"a".toList, 1, []⟩ "i".toList 2), .turn 2, .turn 2, .turn 2,
    .start ownFetch, .turn 3, .turn 3, .turn 3, .turn 3]

theorem hosted_relay_safe_served :
    ∃ p, (machine .standard).Reach (Meets (Undisturbed .standard)) p ∧
      (p.state.spent = [("a".toList, "n".toList)] ∧ Safe .standard p) := by
  obtain ⟨p, hp, hspent⟩ := Machine.exists_reach_of_runWithin (M := machine .standard)
    (D := Meets (Undisturbed .standard)) (fun _ _ h => h) (s := ⟨.empty, []⟩) ⟨rfl, rfl⟩ served
    (fun p => p.state.spent = [("a".toList, "n".toList)]) (by decide +kernel)
  exact ⟨p, hp, of_decide_eq_true hspent, hosted_relay_safe _ _ hp⟩

/-- A request is answered with status 500. -/
def hasRaised (t : Thread Request Statement.Reply (Except Rejected Answer)) : Bool :=
  match t.rest with
  | .raise => true
  | _ => false

theorem answered_of_hasRaised {t : Thread Request Statement.Reply (Except Rejected Answer)}
    (h : hasRaised t = true) : Answered t none := by
  unfold hasRaised at h
  split at h
  next hrest =>
    unfold Answered
    rw [hrest]
    exact ⟨rfl, rfl⟩
  next => cases h

/-- Two fetches check the nonce before either discards it, and two pushes check an unknown mailbox
before either inserts it. -/
def raced : List (Act Request) :=
  challenged ++ [.start ownFetch, .start ownFetch, .turn 2, .turn 3, .turn 2, .turn 3, .turn 2, .turn 3,
    .start (.envelope ⟨"b".toList, 1, []⟩ "i".toList 3),
    .start (.envelope ⟨"b".toList, 1, []⟩ "j".toList 3),
    .turn 4, .turn 5, .turn 4, .turn 5, .turn 4, .turn 5]

/-- The nonce authorises both fetches, and the second push is answered with status 500. -/
theorem hosted_relay_raced :
    ∃ p, (machine .standard).Reachable p ∧ ¬Kept .standard p.state ∧
      ∃ t ∈ p.threads, t.request = .envelope ⟨"b".toList, 1, []⟩ "j".toList 3 ∧ Answered t none ∧
        ("j".toList, ⟨"b".toList, 1, []⟩) ∉ p.state.stored := by
  obtain ⟨p, hp, hraced⟩ := Machine.exists_reach_of_runWithin (M := machine .standard)
    (D := fun _ _ => True) (fun _ _ h => h) (s := ⟨.empty, []⟩) ⟨rfl, rfl⟩ raced
    (fun p => p.state.issued.count ("a".toList, "n".toList) = 1 ∧
      p.state.spent.count ("a".toList, "n".toList) = 2 ∧
      p.state.stored = [] ∧ (p.threads[5]?).any fun t =>
        t.request = .envelope ⟨"b".toList, 1, []⟩ "j".toList 3 && hasRaised t) (by decide +kernel)
  obtain ⟨hissued, hspent, hstored, hthread⟩ := of_decide_eq_true hraced
  obtain ⟨t, ht, heq⟩ := (Option.any_eq_true _ _).mp hthread
  obtain ⟨hrequest, hraised⟩ := Bool.and_eq_true_iff.mp heq
  refine ⟨p, hp, fun hkept => ?_, t, List.mem_of_getElem? ht, of_decide_eq_true hrequest,
    answered_of_hasRaised hraised, ?_⟩
  · have hle := hkept.nonces ("a".toList, "n".toList)
    omega
  · rw [hstored]
    exact List.not_mem_nil

end Companion.Kindled.Worker

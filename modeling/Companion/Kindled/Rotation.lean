import Companion.Dict
import Companion.Memory.Text
import Companion.Runs
import Mathlib.Logic.Function.Basic

/-!
# Rotation notices

A party rotates its key and queues a notice for each paired peer, as `kindled_rotate_identity` does;
its ticks drain the queue (`_drain_pending_rotation_notices`); a relay keeps what is pushed, in
order; and each peer polls and follows the notices (`_handle_key_rotation_notice`). The loops are
taken apart, so that rotations, drains and polls interleave anywhere, and a new drain may begin
where the one before it stopped.

The keys of the party are numbered, so that a number stands for the key pair, its fingerprint and
its key id. A notice is verified only under the key that signed it. So where none is overwritten in
the queue, none expires in it and each poll takes them in order, they lead the peer to the current
key (`converged`).
-/

namespace Companion.Kindled.Rotation

open Companion.Memory Companion.Runs

/-- A `key_rotation_notice`: a new key, signed by the one that it replaces. -/
structure Notice where
  sender : ℕ
  newKey : ℕ
  expiresAt : Instant
  deriving DecidableEq

/-- What the party pushes to a peer, under one of its keys. -/
inductive Envelope
  | notice (n : Notice)
  | other (sender : ℕ) (isSessionOpen : Bool)

def Envelope.sender : Envelope → ℕ
  | notice n => n.sender
  | other sender _ => sender

def Envelope.isSessionOpen : Envelope → Bool
  | notice _ => false
  | other _ isSessionOpen => isSessionOpen

/-- An envelope at the relay. -/
structure Item where
  id : ℕ
  envelope : Envelope

/-- What a peer's row says of the party: `peer_id` and `identity_pub`, and `previous_identity_pub`.
-/
structure PeerRow where
  identity : ℕ
  previous : Option ℕ

/-- The time to live of a notice. -/
def noticeTtl : Instant := 7 * 24 * 3600 * 1000000

/-- `_SKEW` -/
def skew : Instant := 5 * 60 * 1000000

/-- `_expired` -/
def expired (n : Notice) (now : Instant) : Bool := n.expiresAt + skew < now

/-- `_handle_key_rotation_notice` -/
def handleKeyRotationNotice (row : PeerRow) (n : Notice) (now : Instant) : PeerRow :=
  if n.sender ≠ row.identity then row
  else if expired n now then row
  else if n.newKey = row.identity then row
  else if some n.newKey = row.previous then row
  else ⟨n.newKey, some row.identity⟩

/-- What an item does to the row. -/
def ingest (now : Instant) (row : PeerRow) (item : Item) : PeerRow :=
  match item.envelope with
  | .notice n => handleKeyRotationNotice row n now
  | .other _ _ => row

/-- `KINDLED_LINK_INBOUND_FLOOD_CAP` -/
def inboundFloodCap : ℕ := 20

/-- The items by their sender, in the order of the first one of each. -/
def groups (items : List Item) : Dict ℕ (List Item) :=
  items.foldl (fun d it => d.set it.envelope.sender ((d.get? it.envelope.sender).getD [] ++ [it])) ∅

/-- The items in the order in which a poll takes them: by their sender, those within the flood cap,
and the `session_open` envelopes before the others. -/
def processed (items : List Item) : List Item :=
  (groups items).entries.flatMap fun g =>
    let clamped := g.2.take inboundFloodCap
    clamped.filter (·.envelope.isSessionOpen) ++ clamped.filter (!·.envelope.isSessionOpen)

/-- `poll_and_ingest`: the row after it, and the items that are not acked. -/
def pollAndIngest (row : PeerRow) (items : List Item) (now : Instant) : PeerRow × List Item :=
  let done := processed items
  (done.foldl (ingest now) row, items.filter fun it => it.id ∉ done.map Item.id)

/-- The party, the relay and the peers. -/
structure World where
  /-- The key on disk. -/
  generation : ℕ
  /-- `list_paired_peers` -/
  peers : List ℕ
  /-- The notices that a rotation under way has still to queue. -/
  queueing : List (ℕ × Notice)
  /-- `pending_rotation_notices` -/
  queue : Dict ℕ Notice
  /-- The rows that a drain has read and not handled yet. -/
  draining : List (ℕ × Notice)
  /-- The peer to which a drain has pushed the notice, before it clears the row. -/
  clearing : Option ℕ
  mailbox : ℕ → List Item
  pushes : ℕ
  row : ℕ → PeerRow

inductive Step
  /-- `KindledIdentity.rotate`, with the notices that come from it. -/
  | rotate (now : Instant)
  /-- `queue_rotation_notice` -/
  | queue
  /-- `pop_pending_rotation_notices`, at the beginning of a drain. -/
  | pop
  /-- The next notice of a drain, and whether the relay takes it. -/
  | drain (now : Instant) (pushed : Bool)
  /-- `clear_rotation_notice`, after a push. -/
  | clear
  /-- Any other envelope to a peer. -/
  | send (peer sender : ℕ) (isSessionOpen : Bool)
  | poll (peer : ℕ) (now : Instant)

/-- An envelope is last in the mailbox of a peer. -/
def World.push (w : World) (peer : ℕ) (e : Envelope) : World :=
  { w with
    mailbox := Function.update w.mailbox peer (w.mailbox peer ++ [⟨w.pushes, e⟩])
    pushes := w.pushes + 1 }

def step (w : World) : Step → Option World
  | .rotate now =>
    if w.queueing = [] then
      some { w with
        generation := w.generation + 1
        queueing := w.peers.map fun p => (p, ⟨w.generation, w.generation + 1, now + noticeTtl⟩) }
    else none
  | .queue =>
    match w.queueing with
    | [] => none
    | (peer, n) :: rest => some { w with queueing := rest, queue := w.queue.set peer n }
  | .pop => some { w with draining := w.queue.entries, clearing := none }
  | .drain now pushed =>
    match w.clearing, w.draining with
    | none, (peer, n) :: rest =>
      if n.expiresAt < now then some { w with draining := rest, queue := w.queue.pop peer }
      else if pushed then
        some { w.push peer (.notice n) with draining := rest, clearing := some peer }
      else some { w with draining := rest }
    | _, _ => none
  | .clear =>
    match w.clearing with
    | none => none
    | some peer => some { w with queue := w.queue.pop peer, clearing := none }
  | .send peer sender isSessionOpen =>
    if sender ≤ w.generation then some (w.push peer (.other sender isSessionOpen)) else none
  | .poll peer now =>
    let out := pollAndIngest (w.row peer) (w.mailbox peer) now
    some { w with
      row := Function.update w.row peer out.1
      mailbox := Function.update w.mailbox peer out.2 }

/-- The peers know the first key of the party. -/
structure Fresh (w : World) : Prop where
  generation : w.generation = 0
  peers : w.peers.Nodup
  queueing : w.queueing = []
  queue : w.queue = ∅
  draining : w.draining = []
  clearing : w.clearing = none
  mailbox : ∀ p, w.mailbox p = []
  row : ∀ p ∈ w.peers, w.row p = ⟨0, none⟩

def machine : Machine World Step where
  init := Fresh
  step := step

/-- The notices in a mailbox, with their ids. -/
def notices (items : List Item) : List (ℕ × Notice) :=
  items.filterMap fun it =>
    match it.envelope with
    | .notice n => some (it.id, n)
    | .other _ _ => none

/-- The relay delivers in time: a poll finds no notice that has expired. -/
def InTime (w : World) : Step → Prop
  | .poll peer now => ∀ n ∈ notices (w.mailbox peer), expired n.2 now = false
  | _ => True

/-- No notice is queued over another one, none expires in the queue, and a poll takes all of them in
order. -/
def Heeded (w : World) : Step → Prop
  | .queue => ∀ e ∈ w.queueing.head?, w.queue.get? e.1 = none
  | .drain now _ => ∀ e ∈ w.draining.head?, now ≤ e.2.expiresAt
  | .poll peer _ => notices (processed (w.mailbox peer)) = notices (w.mailbox peer)
  | _ => True

instance (w : World) (a : Step) : Decidable (InTime w a) :=
  match a with
  | .poll peer now =>
    inferInstanceAs (Decidable (∀ n ∈ notices (w.mailbox peer), expired n.2 now = false))
  | .rotate _ => .isTrue trivial
  | .queue => .isTrue trivial
  | .pop => .isTrue trivial
  | .drain _ _ => .isTrue trivial
  | .clear => .isTrue trivial
  | .send _ _ _ => .isTrue trivial

instance (w : World) (a : Step) : Decidable (Heeded w a) :=
  match a with
  | .queue => inferInstanceAs (Decidable (∀ e ∈ w.queueing.head?, w.queue.get? e.1 = none))
  | .drain now _ => inferInstanceAs (Decidable (∀ e ∈ w.draining.head?, now ≤ e.2.expiresAt))
  | .poll peer _ =>
    inferInstanceAs (Decidable (notices (processed (w.mailbox peer)) = notices (w.mailbox peer)))
  | .rotate _ => .isTrue trivial
  | .pop => .isTrue trivial
  | .clear => .isTrue trivial
  | .send _ _ _ => .isTrue trivial

/-- No notice for the peer is still to be queued, drained or polled. -/
def Drained (w : World) (peer : ℕ) : Prop :=
  w.queueing = [] ∧ w.queue.get? peer = none ∧ notices (w.mailbox peer) = []

/-! ## Where notices lead -/

/-- The notices lead from one key to another, where those that are behind change nothing. -/
def Leads : ℕ → List Notice → ℕ → Prop
  | k, [], g => k = g
  | k, n :: ns, g => n.newKey = n.sender + 1 ∧ n.sender ≤ k ∧ Leads (max k n.newKey) ns g

/-- A rotation leads one key further. -/
theorem Leads.rotate {k g : ℕ} {ns : List Notice} (h : Leads k ns g) (expiresAt : Instant) :
    Leads k (ns ++ [⟨g, g + 1, expiresAt⟩]) (g + 1) := by
  induction ns generalizing k with
  | nil =>
    obtain rfl : k = g := h
    exact ⟨rfl, Nat.le_refl k, Nat.max_eq_right (Nat.le_succ k)⟩
  | cons n ns ih =>
    obtain ⟨hnew, hle, hrest⟩ := h
    exact ⟨hnew, hle, ih hrest⟩

/-- A notice may come twice. -/
theorem Leads.twice {k g : ℕ} {ns ms : List Notice} {n : Notice} (h : Leads k (ns ++ n :: ms) g) :
    Leads k (ns ++ n :: n :: ms) g := by
  induction ns generalizing k with
  | nil =>
    obtain ⟨hnew, hle, hrest⟩ := h
    refine ⟨hnew, hle, hnew, Nat.le_trans hle (Nat.le_max_left _ _), ?_⟩
    rw [Nat.max_assoc, Nat.max_self]
    exact hrest
  | cons m ns ih =>
    obtain ⟨hnew, hle, hrest⟩ := h
    exact ⟨hnew, hle, ih hrest⟩

/-- The peer never stores a key behind the one that it replaced. -/
def PeerRow.Forward (row : PeerRow) : Prop := ∀ m ∈ row.previous, m < row.identity

/-- A notice that the peer can verify takes it to the new key, and one behind changes nothing. -/
theorem handleKeyRotationNotice_eq {row : PeerRow} {n : Notice} (now : Instant) (hrow : row.Forward)
    (hnew : n.newKey = n.sender + 1) (hle : n.sender ≤ row.identity) (htime : expired n now = false) :
    (handleKeyRotationNotice row n now).identity = max row.identity n.newKey ∧
      (handleKeyRotationNotice row n now).Forward := by
  unfold handleKeyRotationNotice
  by_cases hsender : n.sender = row.identity
  · have hprevious : some n.newKey ≠ row.previous := by
      intro heq
      have hlt := hrow n.newKey heq.symm
      omega
    rw [if_neg (not_not.mpr hsender), htime, if_neg (by simp), if_neg (by omega), if_neg hprevious]
    refine ⟨?_, ?_⟩
    · simp only
      omega
    · rintro m hm
      obtain rfl := Option.some.inj hm
      simp only
      omega
  · rw [if_pos hsender]
    refine ⟨?_, hrow⟩
    omega

/-- A peer that takes notices in order follows them. -/
theorem Leads.foldl {g : ℕ} {now : Instant} {ns ms : List Notice} {row : PeerRow}
    (h : Leads row.identity (ns ++ ms) g) (hrow : row.Forward)
    (htime : ∀ n ∈ ns, expired n now = false) :
    let row' := ns.foldl (fun row n => handleKeyRotationNotice row n now) row
    Leads row'.identity ms g ∧ row'.Forward := by
  induction ns generalizing row with
  | nil => exact ⟨h, hrow⟩
  | cons n ns ih =>
    obtain ⟨hnew, hle, hrest⟩ := h
    obtain ⟨hidentity, hforward⟩ := handleKeyRotationNotice_eq now hrow hnew hle
      (htime n (by simp))
    exact ih (hidentity ▸ hrest) hforward fun m hm => htime m (List.mem_cons_of_mem n hm)

/-- Other envelopes do nothing to the row. -/
theorem foldl_ingest (now : Instant) (items : List Item) (row : PeerRow) :
    items.foldl (ingest now) row =
      ((notices items).map Prod.snd).foldl (fun row n => handleKeyRotationNotice row n now) row := by
  induction items generalizing row with
  | nil => rfl
  | cons it items ih =>
    obtain ⟨id, e⟩ := it
    rw [List.foldl_cons, ih]
    cases e with
    | notice n => rfl
    | other sender isSessionOpen => rfl

/-- A poll that takes every notice leaves none. -/
theorem notices_pollAndIngest {row : PeerRow} {items : List Item} {now : Instant}
    (h : notices (processed items) = notices items) :
    notices (pollAndIngest row items now).2 = [] := by
  rw [List.eq_nil_iff_forall_not_mem]
  rintro ⟨id, n⟩ hmem
  have hsome : ∀ {its : List Item}, (id, n) ∈ notices its ↔
      (⟨id, .notice n⟩ : Item) ∈ its := by
    intro its
    unfold notices
    rw [List.mem_filterMap]
    constructor
    · rintro ⟨⟨id', e⟩, hit, heq⟩
      cases e with
      | notice n' =>
        obtain ⟨rfl, rfl⟩ := Prod.mk.inj (Option.some.inj heq)
        exact hit
      | other sender isSessionOpen => cases heq
    · exact fun hit => ⟨_, hit, rfl⟩
  obtain ⟨hit, hacked⟩ := List.mem_filter.mp (hsome.mp hmem)
  have hdone : (id, n) ∈ notices (processed items) := h ▸ hsome.mpr hit
  exact of_decide_eq_true hacked (List.mem_map.mpr ⟨_, hsome.mp hdone, rfl⟩)

/-! ## Every run -/

/-- The notices of a rotation under way that a peer has still to be queued. -/
def unqueued (queueing : List (ℕ × Notice)) (peer : ℕ) : List Notice :=
  (queueing.filter fun e => e.1 = peer).map Prod.snd

/-- The notices in a mailbox. -/
def arrived (items : List Item) : List Notice := (notices items).map Prod.snd

/-- The invariant of the party and its peers. -/
structure Aligned (w : World) : Prop where
  peers : w.peers.Nodup
  /-- What a drain has read is still in the queue. -/
  popped : ∀ e ∈ w.draining, w.queue.get? e.1 = some e.2
  uncleared : ∀ p ∈ w.clearing, w.queue.get? p ≠ none
  distinct : (w.clearing.toList ++ w.draining.map Prod.fst).Nodup
  forward : ∀ p ∈ w.peers, (w.row p).Forward
  leads : ∀ p ∈ w.peers, Leads (w.row p).identity
    (arrived (w.mailbox p) ++ ((w.queue.get? p).toList ++ unqueued w.queueing p)) w.generation
  /-- What is pushed is not needed any more. -/
  pushed : ∀ p ∈ w.peers, p ∈ w.clearing →
    Leads (w.row p).identity (arrived (w.mailbox p) ++ unqueued w.queueing p) w.generation

theorem aligned_fresh {w : World} (h : Fresh w) : Aligned w where
  peers := h.peers
  popped := by simp [h.draining]
  uncleared := by simp [h.clearing]
  distinct := by simp [h.clearing, h.draining]
  forward p hp := by
    rw [h.row p hp]
    rintro _ ⟨⟩
  leads p hp := by
    simp [h.row p hp, h.generation, arrived, notices, h.mailbox p, h.queue, unqueued, h.queueing, Leads]
  pushed p _ hclearing := by
    rw [h.clearing] at hclearing
    cases hclearing

variable {w w' : World}

/-- A rotation has one notice for each peer. -/
theorem unqueued_rotate {peers : List ℕ} (hpeers : peers.Nodup) {p : ℕ} (hp : p ∈ peers)
    (n : Notice) :
    unqueued (peers.map fun p => (p, n)) p = [n] := by
  unfold unqueued
  rw [List.filter_map, List.map_map]
  have hfilter : peers.filter ((fun e : ℕ × Notice => decide (e.1 = p)) ∘ fun p => (p, n)) =
      [p] := by
    have hcomp : ((fun e : ℕ × Notice => decide (e.1 = p)) ∘ fun p => (p, n)) = (· == p) := by
      funext q
      simp [beq_eq_decide]
    rw [hcomp, List.filter_beq, List.count_eq_one_of_mem hpeers hp]
    rfl
  rw [hfilter]
  rfl

theorem Aligned.rotate (h : Aligned w) {now : Instant} (hstep : step w (.rotate now) = some w') :
    Aligned w' := by
  simp only [step] at hstep
  split_ifs at hstep with hnone
  obtain rfl := Option.some.inj hstep
  have hold : ∀ p, unqueued w.queueing p = [] := by
    intro p
    simp [unqueued, hnone]
  refine { h with leads := fun p hp => ?_, pushed := fun p hp hclearing => ?_ }
  · have hleads := h.leads p hp
    rw [hold p, List.append_nil] at hleads
    have hnew := hleads.rotate (now + noticeTtl)
    rw [List.append_assoc] at hnew
    simpa only [unqueued_rotate h.peers hp] using hnew
  · have hleads := h.pushed p hp hclearing
    rw [hold p, List.append_nil] at hleads
    simpa only [unqueued_rotate h.peers hp] using hleads.rotate (now + noticeTtl)

theorem Aligned.queue (h : Aligned w) (hheeded : Heeded w .queue)
    (hstep : step w .queue = some w') : Aligned w' := by
  simp only [step] at hstep
  cases hqueueing : w.queueing with
  | nil =>
    rw [hqueueing] at hstep
    cases hstep
  | cons e rest =>
    obtain ⟨peer, n⟩ := e
    rw [hqueueing] at hstep
    obtain rfl := Option.some.inj hstep
    -- Nothing is queued for the peer yet, so that nothing is overwritten.
    have hfree : w.queue.get? peer = none := by
      refine hheeded (peer, n) ?_
      rw [hqueueing]
      rfl
    have hne : ∀ p, w.queue.get? p ≠ none → p ≠ peer := by
      rintro p hp rfl
      exact hp hfree
    -- The number goes from those that are still to be queued to the queue.
    have hunqueued : ∀ p, unqueued w.queueing p =
        (if p = peer then [n] else []) ++ unqueued rest p := by
      intro p
      rw [hqueueing]
      unfold unqueued
      by_cases hp : p = peer
      · simp [hp]
      · rw [List.filter_cons_of_neg (by simpa using Ne.symm hp), if_neg hp]
        rfl
    refine
      { h with
        popped := fun e he => ?_
        uncleared := fun p hp => ?_
        leads := fun p hp => ?_
        pushed := fun p hp hclearing => ?_ }
    · have hpopped := h.popped e he
      simp only
      rw [Dict.get?_set, if_neg (hne e.1 (by simp [hpopped])), hpopped]
    · simp only
      rw [Dict.get?_set, if_neg (hne p (h.uncleared p hp))]
      exact h.uncleared p hp
    · have hleads := h.leads p hp
      rw [hunqueued] at hleads
      simp only
      rw [Dict.get?_set]
      by_cases hpeer : p = peer
      · subst hpeer
        rw [hfree, if_pos rfl] at hleads
        rw [if_pos rfl]
        exact hleads
      · rw [if_neg hpeer] at hleads
        rw [if_neg hpeer]
        exact hleads
    · have hleads := h.pushed p hp hclearing
      rw [hunqueued, if_neg (hne p (h.uncleared p hclearing))] at hleads
      exact hleads

/-- A new drain reads the queue. -/
theorem Aligned.pop (h : Aligned w) (hstep : step w .pop = some w') : Aligned w' := by
  obtain rfl := Option.some.inj hstep
  refine
    { h with
      popped := fun e he => Dict.get?_of_mem_entries he
      uncleared := nofun
      distinct := w.queue.nodup
      pushed := fun p hp hclearing => ?_ }
  cases hclearing

theorem arrived_append (items : List Item) (id : ℕ) (e : Envelope) :
    arrived (items ++ [⟨id, e⟩]) =
      arrived items ++ match e with
        | .notice n => [n]
        | .other _ _ => [] := by
  unfold arrived notices
  rw [List.filterMap_append, List.map_append]
  cases e with
  | notice n => rfl
  | other sender isSessionOpen => rfl

theorem Aligned.drain (h : Aligned w) {now : Instant} {pushed : Bool}
    (hheeded : Heeded w (.drain now pushed)) (hstep : step w (.drain now pushed) = some w') :
    Aligned w' := by
  simp only [step] at hstep
  cases hclearing : w.clearing with
  | some peer =>
    rw [hclearing] at hstep
    cases hstep
  | none =>
    cases hdraining : w.draining with
    | nil =>
      rw [hclearing, hdraining] at hstep
      cases hstep
    | cons e rest =>
      obtain ⟨peer, n⟩ := e
      rw [hclearing, hdraining] at hstep
      simp only at hstep
      have hpopped := h.popped
      have hdistinct := h.distinct
      rw [hclearing, hdraining] at hdistinct
      rw [hdraining] at hpopped
      have hslot : w.queue.get? peer = some n := hpopped (peer, n) (by simp)
      have hlive : now ≤ n.expiresAt := by
        refine hheeded (peer, n) ?_
        rw [hdraining]
        rfl
      rw [if_neg (Int.not_lt.mpr hlive)] at hstep
      split_ifs at hstep
      · obtain rfl := Option.some.inj hstep
        refine
          { h with
            popped := fun e he => hpopped e (List.mem_cons_of_mem _ he)
            uncleared := fun p hp => ?_
            distinct := hdistinct
            leads := fun p hp => ?_
            pushed := fun p hp hpeer => ?_ }
        · obtain rfl := Option.some.inj hp
          simp [World.push, hslot]
        · simp only [World.push]
          by_cases hpeer : p = peer
          · -- The notice is in the mailbox and still in the queue.
            subst hpeer
            have hleads := h.leads p hp
            rw [hslot] at hleads ⊢
            rw [Function.update_self, arrived_append, List.append_assoc]
            exact hleads.twice
          · rw [Function.update_of_ne hpeer]
            exact h.leads p hp
        · obtain rfl := Option.some.inj hpeer
          have hleads := h.leads peer hp
          rw [hslot] at hleads
          simp only [World.push]
          rw [Function.update_self, arrived_append, List.append_assoc]
          exact hleads
      · obtain rfl := Option.some.inj hstep
        refine
          { h with
            popped := fun e he => hpopped e (List.mem_cons_of_mem _ he)
            uncleared := by simp
            distinct := hdistinct.of_cons
            pushed := fun p hp hpeer => ?_ }
        cases hpeer

theorem Aligned.clear (h : Aligned w) (hstep : step w .clear = some w') : Aligned w' := by
  simp only [step] at hstep
  cases hclearing : w.clearing with
  | none =>
    rw [hclearing] at hstep
    cases hstep
  | some peer =>
    rw [hclearing] at hstep
    obtain rfl := Option.some.inj hstep
    have hdistinct := h.distinct
    rw [hclearing] at hdistinct
    obtain ⟨hnotin, hnodup⟩ := List.nodup_cons.mp hdistinct
    refine
      { h with
        popped := fun e he => ?_
        uncleared := nofun
        distinct := hnodup
        leads := fun p hp => ?_
        pushed := fun p hp hpeer => ?_ }
    · have hne : e.1 ≠ peer := by
        rintro rfl
        exact hnotin (List.mem_map_of_mem he)
      simp only
      rw [Dict.get?_pop, if_neg hne]
      exact h.popped e he
    · simp only
      rw [Dict.get?_pop]
      split_ifs with hpeer
      · subst hpeer
        exact h.pushed p hp (by rw [hclearing]; rfl)
      · exact h.leads p hp
    · cases hpeer

theorem Aligned.send (h : Aligned w) {peer sender : ℕ} {isSessionOpen : Bool}
    (hstep : step w (.send peer sender isSessionOpen) = some w') : Aligned w' := by
  simp only [step] at hstep
  split_ifs at hstep
  obtain rfl := Option.some.inj hstep
  have harrived : ∀ p, arrived ((w.push peer (.other sender isSessionOpen)).mailbox p) =
      arrived (w.mailbox p) := by
    intro p
    simp only [World.push]
    by_cases hp : p = peer
    · subst hp
      rw [Function.update_self, arrived_append, List.append_nil]
    · rw [Function.update_of_ne hp]
  refine { h with leads := fun p hp => ?_, pushed := fun p hp hpeer => ?_ }
  · rw [harrived]
    exact h.leads p hp
  · rw [harrived]
    exact h.pushed p hp hpeer

theorem Aligned.poll (h : Aligned w) {peer : ℕ} {now : Instant} (htime : InTime w (.poll peer now))
    (hheeded : Heeded w (.poll peer now)) (hstep : step w (.poll peer now) = some w') :
    Aligned w' := by
  obtain rfl := Option.some.inj hstep
  have hrow : (pollAndIngest (w.row peer) (w.mailbox peer) now).1 =
      (arrived (w.mailbox peer)).foldl (fun row n => handleKeyRotationNotice row n now)
        (w.row peer) := by
    simp only [pollAndIngest]
    rw [foldl_ingest, hheeded]
    rfl
  have harrived : arrived (pollAndIngest (w.row peer) (w.mailbox peer) now).2 = [] := by
    unfold arrived
    rw [notices_pollAndIngest hheeded]
    rfl
  have hlive : ∀ n ∈ arrived (w.mailbox peer), expired n now = false := by
    intro n hn
    obtain ⟨e, he, rfl⟩ := List.mem_map.mp hn
    exact htime e he
  refine
    { h with
      forward := fun p hp => ?_
      leads := fun p hp => ?_
      pushed := fun p hp hpeer => ?_ }
  · simp only
    by_cases hpeer : p = peer
    · subst hpeer
      rw [Function.update_self, hrow]
      exact ((h.leads p hp).foldl (h.forward p hp) hlive).2
    · rw [Function.update_of_ne hpeer]
      exact h.forward p hp
  · simp only
    by_cases hpeer : p = peer
    · subst hpeer
      rw [Function.update_self, Function.update_self, hrow, harrived]
      exact ((h.leads p hp).foldl (h.forward p hp) hlive).1
    · rw [Function.update_of_ne hpeer, Function.update_of_ne hpeer]
      exact h.leads p hp
  · simp only
    have hpushed := h.pushed p hp hpeer
    by_cases hpeer : p = peer
    · subst hpeer
      rw [Function.update_self, Function.update_self, hrow, harrived]
      exact (hpushed.foldl (h.forward p hp) hlive).1
    · rw [Function.update_of_ne hpeer, Function.update_of_ne hpeer]
      exact hpushed

/-- However rotations, drains, failed pushes and polls interleave: where none of the notices was
overwritten, expired in the queue or taken out of order, a peer that has polled all of them knows
the current key. -/
theorem converged {w : World} (h : machine.Reach (fun w a => InTime w a ∧ Heeded w a) w) {p : ℕ}
    (hp : p ∈ w.peers) (hdrained : Drained w p) : (w.row p).identity = w.generation := by
  have haligned : Aligned w := by
    refine h.invariant (I := Aligned) (fun w hw => aligned_fresh hw) ?_
    intro w a w' hw ⟨htime, hheeded⟩ hstep
    cases a with
    | rotate now => exact hw.rotate hstep
    | queue => exact hw.queue hheeded hstep
    | pop => exact hw.pop hstep
    | drain now pushed => exact hw.drain hheeded hstep
    | clear => exact hw.clear hstep
    | send peer sender isSessionOpen => exact hw.send hstep
    | poll peer now => exact hw.poll htime hheeded hstep
  obtain ⟨hqueueing, hqueue, hmailbox⟩ := hdrained
  have hleads := haligned.leads p hp
  rw [hqueueing, hqueue] at hleads
  unfold arrived at hleads
  rw [hmailbox] at hleads
  exact hleads

instance (w : World) (peer : ℕ) : Decidable (Drained w peer) :=
  inferInstanceAs (Decidable (_ = [] ∧ _ = none ∧ _ = []))

/-- A party with one peer. -/
def acquainted : World where
  generation := 0
  peers := [0]
  queueing := []
  queue := ∅
  draining := []
  clearing := none
  mailbox _ := []
  pushes := 0
  row _ := ⟨0, none⟩

theorem fresh_acquainted : Fresh acquainted where
  generation := rfl
  peers := by decide
  queueing := rfl
  queue := rfl
  draining := rfl
  clearing := rfl
  mailbox _ := rfl
  row _ _ := rfl

/-- The relay is down until the notice has expired in the queue. -/
def expiredInQueue : List Step :=
  [.rotate 0, .queue, .pop, .drain 0 false, .pop, .drain (8 * 24 * 3600 * 1000000) true]

/-- A second rotation comes before the notice of the first one is drained. -/
def overwritten : List Step :=
  [.rotate 0, .queue, .rotate 1, .queue, .pop, .drain 2 true, .clear, .poll 0 3]

/-- An envelope under a new key is pushed before the notice of it, so that the group of that key
comes first. -/
def outOfOrder : List Step :=
  [.rotate 0, .send 0 1 false, .queue, .pop, .drain 0 true, .clear, .rotate 1, .queue, .pop,
    .drain 1 true, .clear, .poll 0 2]

/-- A run that ends with nothing under way and a row of an old key. -/
def Stale (as : List Step) : Prop :=
  ∃ w, machine.Reach InTime w ∧ machine.runWithin InTime acquainted as = some w ∧ 0 ∈ w.peers ∧
    Drained w 0 ∧ (w.row 0).identity ≠ w.generation

theorem not_converged : Stale expiredInQueue ∧ Stale overwritten ∧ Stale outOfOrder := by
  have hrun : ∀ as, (machine.runWithin InTime acquainted as).any (fun w =>
      decide (0 ∈ w.peers ∧ Drained w 0 ∧ (w.row 0).identity ≠ w.generation)) = true → Stale as := by
    intro as hany
    obtain ⟨w, hw, hstale⟩ := (Option.any_eq_true _ _).mp hany
    exact ⟨w, .of_runWithin (fun _ _ => id) (.init fresh_acquainted) hw, hw,
      of_decide_eq_true hstale⟩
  exact ⟨hrun _ (by decide +kernel), hrun _ (by decide +kernel), hrun _ (by decide +kernel)⟩

/-- Two rotations, of which each is drained, after a failed push and with another envelope between.
-/
theorem converged_twice :
    ∃ w, machine.Reach (fun w a => InTime w a ∧ Heeded w a) w ∧ w.generation = 2 ∧
      (w.row 0).identity = w.generation := by
  obtain ⟨w, hw, hend⟩ := machine.exists_reach_of_runWithin
    (C := fun w a => InTime w a ∧ Heeded w a) (D := fun w a => InTime w a ∧ Heeded w a)
    (fun _ _ => id) fresh_acquainted
    [.rotate 0, .queue, .pop, .drain 0 false, .pop, .drain 1 true, .clear, .send 0 1 true,
      .rotate 2, .queue, .pop, .drain 2 true, .clear, .poll 0 3]
    (fun w => decide (0 ∈ w.peers ∧ Drained w 0 ∧ w.generation = 2)) (by decide +kernel)
  obtain ⟨hpeer, hdrained, hgeneration⟩ := of_decide_eq_true hend
  exact ⟨w, hw, hgeneration, converged hw hpeer hdrained⟩

end Companion.Kindled.Rotation

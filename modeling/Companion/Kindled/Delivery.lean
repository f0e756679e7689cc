import Companion.Kindled.Relay

/-!
# What the relay has taken, it delivers

Any sequence of `register`, `issue_nonce`, `push`, `fetch` and `ack` calls on one `_Store` of
`relay/dev_relay.py`.

An eviction and a promotion change the pools and no queue, so the queue of a mailbox changes at a
push to it and at an ack of it alone. `sublist_run` is the form of this that the deliveries follow
from: what a queue holds in order it still holds in that order, but for what an ack names.
-/

namespace Companion.Kindled.Delivery

open Companion.Memory

/-- A call on the store. A fetch replies the queue, and leaves the store as it is. -/
inductive Call
  | register (mailbox key : Text)
  | issueNonce (now : Instant) (mailbox nonce : Text)
  | push (e : Envelope)
  | fetch (mailbox : Text)
  | ack (mailbox : Text) (ids : List ℕ)
  deriving DecidableEq

/-- The store after a call. -/
def after (caps : Caps) (r : Relay) : Call → Relay
  | .register mailbox key =>
    match r.register caps mailbox key with
    | .ok (r, _) => r
    | .error _ => r
  | .issueNonce now mailbox nonce => r.issueNonce now mailbox nonce
  | .push e => (r.push caps e).1
  | .fetch _ => r
  | .ack mailbox ids => r.ack mailbox ids

/-- The store after a list of calls. -/
def run (caps : Caps) (r : Relay) (calls : List Call) : Relay := calls.foldl (after caps) r

/-- No ack among the calls names the id. -/
def Unacked (id : ℕ) (calls : List Call) : Prop :=
  ∀ mailbox ids, Call.ack mailbox ids ∈ calls → id ∉ ids

/-- The pools are disjoint, and the pools and the queues are within their caps. -/
structure Bounded (caps : Caps) (r : Relay) : Prop where
  disjoint : ∀ mailbox, r.owners.get? mailbox ≠ none → r.unregistered.get? mailbox = none
  registered : r.owners.entries.length ≤ caps.maxRegistered
  unregistered : r.unregistered.entries.length ≤ caps.maxUnregistered
  depth : ∀ mailbox, (r.queue mailbox).length ≤ caps.maxDepth

/-- The ids of a queue are distinct, and were all given out. -/
structure Numbered (r : Relay) : Prop where
  nodup : ∀ mailbox, ((r.queue mailbox).map (·.id)).Nodup
  lt : ∀ mailbox, ∀ p ∈ r.queue mailbox, p.id < r.nextId

variable {caps : Caps} {r r' : Relay}

theorem Unacked.of_subset {id : ℕ} {calls later : List Call} (h : Unacked id calls)
    (hsub : later ⊆ calls) : Unacked id later :=
  fun mailbox ids hmem => h mailbox ids (hsub hmem)

theorem run_append (r : Relay) (calls later : List Call) :
    run caps r (calls ++ later) = run caps (run caps r calls) later :=
  List.foldl_append

theorem run_cons (r : Relay) (c : Call) (later : List Call) :
    run caps r (c :: later) = run caps (after caps r c) later := rfl

/-! ## The pools -/

theorem bounded_fresh (caps : Caps) : Bounded caps .fresh where
  disjoint _ _ := rfl
  registered := Nat.zero_le _
  unregistered := Nat.zero_le _
  depth _ := Nat.zero_le _

/-- The queues are as they were. -/
theorem Bounded.depth_of_queue (hb : Bounded caps r) (hqueue : ∀ m, r'.queue m = r.queue m)
    (mailbox : Text) : (r'.queue mailbox).length ≤ caps.maxDepth := by
  rw [hqueue]
  exact hb.depth mailbox

theorem Bounded.issueNonce (hb : Bounded caps r) (now : Instant) (mailbox nonce : Text) :
    Bounded caps (r.issueNonce now mailbox nonce) := by
  rw [Relay.issueNonce_eq]
  exact ⟨hb.disjoint, hb.registered, hb.unregistered, hb.depth⟩

theorem Bounded.ack (hb : Bounded caps r) (mailbox : Text) (ids : List ℕ) :
    Bounded caps (r.ack mailbox ids) := by
  refine ⟨hb.disjoint, hb.registered, hb.unregistered, fun mailbox' => ?_⟩
  rw [Relay.queue_ack]
  split_ifs with hm
  · exact (List.length_filter_le _ _).trans (hb.depth mailbox)
  · exact hb.depth mailbox'

/-- A promotion frees a slot of the other pool. -/
theorem Bounded.register {mailbox key owner : Text} (hb : Bounded caps r)
    (h : r.register caps mailbox key = .ok (r', owner)) : Bounded caps r' := by
  unfold Relay.register at h
  split at h
  · cases h
    exact hb
  next hnone =>
    split_ifs at h with hfull
    cases h
    refine ⟨fun m hm => ?_, ?_, (List.length_filter_le _ _).trans hb.unregistered, hb.depth⟩
    · by_cases heq : m = mailbox
      · rw [Dict.get?_pop, if_pos heq]
      · rw [Dict.get?_set, if_neg heq] at hm
        rw [Dict.get?_pop, if_neg heq]
        exact hb.disjoint m hm
    · have hlength := Dict.length_set hnone key
      show (r.owners.set mailbox key).entries.length ≤ caps.maxRegistered
      omega

/-- An eviction frees a slot, and changes no queue. -/
theorem Bounded.evict (hb : Bounded caps r) (h : r.evictOldestEmptyUnregistered = some r') :
    Bounded caps r' ∧ r'.unregistered.entries.length < r.unregistered.entries.length := by
  have hkeeps : ∀ m, Relay.Keeps m 0 r r' := fun _ => Relay.keeps_evict h
  obtain ⟨⟨victim, _⟩, hfind, rfl⟩ := Option.map_eq_some_iff.mp h
  have hmem := List.mem_of_find?_eq_some hfind
  have hlength : (r.unregistered.pop victim).entries.length < r.unregistered.entries.length :=
    Dict.length_pop_lt hmem
  refine ⟨⟨fun m hm => ?_, hb.registered, hlength.le.trans hb.unregistered, ?_⟩, hlength⟩
  · rw [Dict.get?_pop]
    split_ifs
    · rfl
    · exact hb.disjoint m hm
  · exact hb.depth_of_queue fun m => (hkeeps m).queue

/-- There is room for one more mailbox in the pool, or one is evicted. -/
theorem Bounded.makeRoom {mailbox : Text} (hb : Bounded caps r)
    (h : r.makeRoom caps mailbox = some r') : Bounded caps r' := by
  unfold Relay.makeRoom at h
  by_cases hknown : r.isKnown mailbox = true
  · rw [if_pos hknown] at h
    cases h
    exact hb
  rw [if_neg hknown] at h
  obtain ⟨r₁, hroom, rfl⟩ := Option.map_eq_some_iff.mp h
  obtain ⟨howner, hlisted⟩ : r.owners.get? mailbox = none ∧ r.unregistered.get? mailbox = none := by
    simpa [Relay.isKnown, Relay.isRegistered] using hknown
  obtain ⟨hb₁, hkeeps, hlt⟩ : Bounded caps r₁ ∧ r₁.owners.get? mailbox = none ∧
      r₁.unregistered.entries.length < caps.maxUnregistered := by
    split_ifs at hroom with hfull
    · obtain ⟨hb₁, hlt⟩ := hb.evict hroom
      have hkeeps : Relay.Keeps mailbox 0 r r₁ := Relay.keeps_evict hroom
      exact ⟨hb₁, hkeeps.owner.trans howner, lt_of_lt_of_le hlt hb.unregistered⟩
    · cases hroom
      exact ⟨hb, howner, not_le.mp hfull⟩
  refine ⟨fun m hm => ?_, hb₁.registered, ?_, hb₁.depth⟩
  · have hne : m ≠ mailbox := by
      rintro rfl
      exact hm hkeeps
    rw [Dict.get?_set, if_neg hne]
    exact hb₁.disjoint m hm
  · have hlength := Dict.length_set_le r₁.unregistered mailbox ()
    show (r₁.unregistered.set mailbox ()).entries.length ≤ caps.maxUnregistered
    omega

/-- What a push does: it is refused and changes no queue, or it puts the envelope last in a queue
that has room, under a new id. -/
theorem push_cases (r : Relay) (e : Envelope) (hb : Bounded caps r) :
    ∃ r₁, Bounded caps r₁ ∧ r₁.nextId = r.nextId ∧ (∀ m, r₁.queue m = r.queue m) ∧
      ((∃ error, r.push caps e = (r₁, .error error)) ∨
        (r.queue e.mailbox).length < caps.maxDepth ∧
        r.push caps e = ({ r₁ with
          nextId := r.nextId + 1
          mailboxes := r₁.mailboxes.set e.mailbox (r.queue e.mailbox ++ [⟨r.nextId, e⟩]) },
          .ok r.nextId)) := by
  unfold Relay.push
  split_ifs with hsize
  · exact ⟨r, hb, rfl, fun _ => rfl, .inl ⟨_, rfl⟩⟩
  cases hroom : r.makeRoom caps e.mailbox with
  | none => exact ⟨r, hb, rfl, fun _ => rfl, .inl ⟨_, rfl⟩⟩
  | some r₁ =>
    have hkeeps : ∀ m, Relay.Keeps m 0 r r₁ := fun _ => Relay.keeps_makeRoom hroom
    have hqueue : ∀ m, r₁.queue m = r.queue m := fun m => (hkeeps m).queue
    have hnext : r₁.nextId = r.nextId := Relay.nextId_makeRoom hroom
    refine ⟨r₁, hb.makeRoom hroom, hnext, hqueue, ?_⟩
    dsimp only
    split_ifs with hdepth
    · exact .inl ⟨_, rfl⟩
    · rw [hqueue] at hdepth
      rw [hqueue, hnext]
      exact .inr ⟨not_le.mp hdepth, rfl⟩

theorem queue_accept (r₁ : Relay) (n : ℕ) (mailbox mailbox' : Text) (ps : List Parcel) :
    ({ r₁ with nextId := n, mailboxes := r₁.mailboxes.set mailbox ps } : Relay).queue mailbox' =
      if mailbox' = mailbox then ps else r₁.queue mailbox' := by
  unfold Relay.queue
  rw [Dict.get?_set]
  split_ifs
  · rfl
  · rfl

theorem Bounded.push (hb : Bounded caps r) (e : Envelope) : Bounded caps (r.push caps e).1 := by
  obtain ⟨r₁, hb₁, -, hqueue, ⟨error, heq⟩ | ⟨hroom, heq⟩⟩ := push_cases r e hb
  · rw [heq]
    exact hb₁
  · rw [heq]
    refine ⟨hb₁.disjoint, hb₁.registered, hb₁.unregistered, fun m => ?_⟩
    rw [queue_accept]
    split_ifs
    · rw [List.length_append]
      exact hroom
    · exact hb₁.depth m

theorem Bounded.after (hb : Bounded caps r) (c : Call) : Bounded caps (after caps r c) := by
  cases c with
  | register mailbox key =>
    simp only [Delivery.after]
    split
    next h => exact hb.register h
    next => exact hb
  | issueNonce now mailbox nonce => exact hb.issueNonce now mailbox nonce
  | push e => exact hb.push e
  | fetch mailbox => exact hb
  | ack mailbox ids => exact hb.ack mailbox ids

/-! ## The queues -/

theorem numbered_fresh : Numbered .fresh where
  nodup _ := List.nodup_nil
  lt _ _ hp := absurd hp List.not_mem_nil

/-- A registration and a nonce change no queue. -/
theorem Numbered.of_queue (hn : Numbered r) (hqueue : ∀ m, r'.queue m = r.queue m)
    (hnext : r'.nextId = r.nextId) : Numbered r' where
  nodup m := by
    rw [hqueue]
    exact hn.nodup m
  lt m p hp := by
    rw [hqueue] at hp
    rw [hnext]
    exact hn.lt m p hp

theorem queue_register {mailbox key owner : Text}
    (h : r.register caps mailbox key = .ok (r', owner)) :
    (∀ m, r'.queue m = r.queue m) ∧ r'.nextId = r.nextId := by
  unfold Relay.register at h
  split at h
  · cases h
    exact ⟨fun _ => rfl, rfl⟩
  · split_ifs at h
    cases h
    exact ⟨fun _ => rfl, rfl⟩

/-- What a call does to the queues: nothing, or it is a push that is accepted, or an ack. -/
theorem queue_after (hb : Bounded caps r) (c : Call) :
    ((∀ m, (after caps r c).queue m = r.queue m) ∧ (after caps r c).nextId = r.nextId) ∨
      (∃ e, c = .push e ∧ (after caps r c).nextId = r.nextId + 1 ∧
        ∀ m, (after caps r c).queue m =
          if m = e.mailbox then r.queue m ++ [⟨r.nextId, e⟩] else r.queue m) ∨
      ∃ mailbox ids, c = .ack mailbox ids ∧ (after caps r c).nextId = r.nextId ∧
        ∀ m, (after caps r c).queue m =
          if m = mailbox then (r.queue m).filter (·.id ∉ ids) else r.queue m := by
  cases c with
  | register mailbox key =>
    left
    simp only [after]
    split
    next h => exact queue_register h
    next => exact ⟨fun _ => rfl, rfl⟩
  | issueNonce now mailbox nonce =>
    left
    simp only [after]
    rw [Relay.issueNonce_eq]
    exact ⟨fun _ => rfl, rfl⟩
  | push e =>
    obtain ⟨r₁, -, hnext, hqueue, ⟨error, heq⟩ | ⟨-, heq⟩⟩ := push_cases r e hb
    · left
      simp only [after, heq]
      exact ⟨hqueue, hnext⟩
    · refine .inr (.inl ⟨e, rfl, ?_, fun m => ?_⟩)
      · simp only [after, heq]
      · simp only [after, heq]
        rw [queue_accept, hqueue]
        split_ifs with hm
        · rw [hm]
        · rfl
  | fetch mailbox => exact .inl ⟨fun _ => rfl, rfl⟩
  | ack mailbox ids =>
    refine .inr (.inr ⟨mailbox, ids, rfl, rfl, fun m => ?_⟩)
    simp only [after]
    rw [Relay.queue_ack]
    split_ifs with hm
    · rw [hm]
    · rfl

theorem Numbered.after (hn : Numbered r) (hb : Bounded caps r) (c : Call) :
    Numbered (after caps r c) := by
  rcases queue_after hb c with ⟨hqueue, hnext⟩ | ⟨e, -, hnext, hqueue⟩ | ⟨mailbox, ids, -, hnext, hqueue⟩
  · exact hn.of_queue hqueue hnext
  · refine ⟨fun m => ?_, fun m p hp => ?_⟩
    · rw [hqueue]
      split_ifs
      · -- The new id is above those in the queue.
        have hfresh : r.nextId ∉ (r.queue m).map (·.id) := by
          intro hmem
          obtain ⟨p, hp, heq⟩ := List.mem_map.mp hmem
          have hlt := hn.lt m p hp
          omega
        rw [List.map_append, List.map_singleton, ← List.concat_eq_append]
        exact (hn.nodup m).concat hfresh
      · exact hn.nodup m
    · rw [hnext]
      rw [hqueue] at hp
      split_ifs at hp
      · rcases List.mem_append.mp hp with hp | hp
        · exact Nat.lt_succ_of_lt (hn.lt m p hp)
        · obtain rfl := List.mem_singleton.mp hp
          exact Nat.lt_succ_self _
      · exact Nat.lt_succ_of_lt (hn.lt m p hp)
  · refine ⟨fun m => ?_, fun m p hp => ?_⟩
    · rw [hqueue]
      split_ifs
      · exact (hn.nodup m).sublist (List.filter_sublist.map _)
      · exact hn.nodup m
    · rw [hnext]
      rw [hqueue] at hp
      split_ifs at hp
      · exact hn.lt m p (List.mem_of_mem_filter hp)
      · exact hn.lt m p hp

/-- Parcels that a call does not acknowledge stay, in the same order. -/
theorem sublist_after {mailbox : Text} {ps : List Parcel} {c : Call} (hb : Bounded caps r)
    (hps : ps.Sublist (r.queue mailbox)) (hc : ∀ p ∈ ps, Unacked p.id [c]) :
    ps.Sublist ((after caps r c).queue mailbox) := by
  rcases queue_after hb c with ⟨hqueue, -⟩ | ⟨e, -, -, hqueue⟩ | ⟨m, ids, rfl, -, hqueue⟩
  · rw [hqueue]
    exact hps
  · rw [hqueue]
    split_ifs
    · exact hps.trans (List.sublist_append_left _ _)
    · exact hps
  · rw [hqueue]
    split_ifs
    · have hkept : ps.filter (·.id ∉ ids) = ps := by
        refine List.filter_eq_self.mpr fun p hp => ?_
        simpa using hc p hp m ids List.mem_cons_self
      rw [← hkept]
      exact hps.filter _
    · exact hps

/-! ## Runs -/

theorem invariants_run (hb : Bounded caps r) (hn : Numbered r) (calls : List Call) :
    Bounded caps (run caps r calls) ∧ Numbered (run caps r calls) := by
  induction calls generalizing r with
  | nil => exact ⟨hb, hn⟩
  | cons c calls ih => exact ih (hb.after c) (hn.after hb c)

theorem sublist_run {mailbox : Text} {ps : List Parcel} {calls : List Call} (hb : Bounded caps r)
    (hps : ps.Sublist (r.queue mailbox)) (hcalls : ∀ p ∈ ps, Unacked p.id calls) :
    ps.Sublist ((run caps r calls).queue mailbox) := by
  induction calls generalizing r with
  | nil => exact hps
  | cons c calls ih =>
    have hhead : ∀ p ∈ ps, Unacked p.id [c] := fun p hp =>
      (hcalls p hp).of_subset (List.cons_subset_cons c (List.nil_subset calls))
    have htail : ∀ p ∈ ps, Unacked p.id calls := fun p hp =>
      (hcalls p hp).of_subset (List.subset_cons_self c calls)
    exact ih (hb.after c) (sublist_after hb hps hhead) htail

/-- A push that returns an id puts the envelope last in the queue. -/
theorem queue_push {e : Envelope} {id : ℕ} (hb : Bounded caps r)
    (h : (r.push caps e).2 = .ok id) :
    (after caps r (.push e)).queue e.mailbox = r.queue e.mailbox ++ [⟨id, e⟩] := by
  obtain ⟨r₁, -, -, -, ⟨error, heq⟩ | ⟨-, heq⟩⟩ := push_cases r e hb
  · rw [heq] at h
    cases h
  · rw [heq] at h
    cases h
    simp only [after, heq]
    rw [queue_accept, if_pos rfl]

/-- In a queue without a second parcel of its id, a parcel is the only one with that id. -/
theorem filter_id_eq {ps : List Parcel} {p : Parcel} (hnodup : (ps.map (·.id)).Nodup)
    (hp : p ∈ ps) : ps.filter (·.id = p.id) = [p] := by
  induction ps with
  | nil => cases hp
  | cons q ps ih =>
    rw [List.map_cons, List.nodup_cons] at hnodup
    obtain ⟨hfresh, hnodup⟩ := hnodup
    rcases List.mem_cons.mp hp with rfl | hp
    · have hrest : ps.filter (·.id = p.id) = [] := by
        refine List.filter_eq_nil_iff.mpr fun q hq => ?_
        have hne : q.id ≠ p.id := fun heq => hfresh (heq ▸ List.mem_map_of_mem hq)
        simpa using hne
      rw [List.filter_cons_of_pos (by simp), hrest]
    · have hne : q.id ≠ p.id := fun heq => hfresh (heq ▸ List.mem_map_of_mem hp)
      rw [List.filter_cons_of_neg (by simpa using hne)]
      exact ih hnodup hp

/-- A push among the calls that returned the id, which no later ack names. -/
def Owed (caps : Caps) (e : Envelope) (id : ℕ) (before later : List Call) : Prop :=
  ((run caps .fresh before).push caps e).2 = .ok id ∧ Unacked id later

/-- The pools stay disjoint, and they and the queues within the caps; and what is owed to a mailbox
each fetch returns, once and in the order of the pushes. -/
theorem stored_until_acked (caps : Caps) (calls : List Call) :
    Bounded caps (run caps .fresh calls) ∧
      ∀ before e later id, calls = before ++ .push e :: later → Owed caps e id before later →
        ((run caps .fresh calls).queue e.mailbox).filter (·.id = id) = [⟨id, e⟩] ∧
        ∀ middle e' later' id', later = middle ++ .push e' :: later' → e'.mailbox = e.mailbox →
          Owed caps e' id' (before ++ .push e :: middle) later' →
          [⟨id, e⟩, ⟨id', e'⟩].Sublist ((run caps .fresh calls).queue e.mailbox) := by
  have hinv := fun calls => invariants_run (bounded_fresh caps) numbered_fresh calls
  refine ⟨(hinv calls).1, ?_⟩
  rintro before e later id rfl ⟨hpush, hunacked⟩
  have hb := (hinv before).1
  -- The parcel is in the queue after the push, and so after each of the calls that follow.
  have hqueue : ∀ later, Unacked id later →
      [⟨id, e⟩].Sublist ((run caps .fresh (before ++ .push e :: later)).queue e.mailbox) := by
    intro later hunacked
    rw [run_append, run_cons]
    refine sublist_run (hb.after _) ?_ (List.forall_mem_singleton.mpr hunacked)
    rw [queue_push hb hpush]
    exact List.sublist_append_right _ _
  constructor
  · have hnodup := (hinv (before ++ .push e :: later)).2.nodup e.mailbox
    exact filter_id_eq hnodup ((hqueue later hunacked).subset List.mem_cons_self)
  · rintro middle e' later' id' rfl hm ⟨hpush', hunacked'⟩
    have hb' := (hinv (before ++ .push e :: middle)).1
    have hfirst := hqueue middle (hunacked.of_subset (List.subset_append_left _ _))
    have hpushed := queue_push hb' hpush'
    rw [hm] at hpushed
    have hlater : Unacked id later' :=
      hunacked.of_subset fun c hc => List.mem_append_right _ (List.mem_cons_of_mem _ hc)
    have hsplit : before ++ .push e :: (middle ++ .push e' :: later') =
        (before ++ .push e :: middle) ++ .push e' :: later' := by simp
    rw [hsplit, run_append, run_cons]
    refine sublist_run (hb'.after _) ?_ ?_
    · rw [hpushed]
      exact hfirst.append (List.Sublist.refl [(⟨id', e'⟩ : Parcel)])
    · exact List.forall_mem_cons.mpr ⟨hlater, List.forall_mem_singleton.mpr hunacked'⟩

/-- A pool of one that is full, a mailbox that is promoted, and an ack of another parcel. -/
def promoted : List Call :=
  [.register ['m'] ['k'], .push ⟨['n'], 1, ['b']⟩, .ack ['m'] [2], .push ⟨['m'], 1, ['c']⟩,
    .fetch ['m']]

theorem stored_until_acked_promoted :
    ((run ⟨10, 2, 1, 1⟩ .fresh (.push ⟨['m'], 1, ['a']⟩ :: promoted)).queue ['m']).filter
        (·.id = 1) = [⟨1, ⟨['m'], 1, ['a']⟩⟩] ∧
      [⟨1, ⟨['m'], 1, ['a']⟩⟩, ⟨3, ⟨['m'], 1, ['c']⟩⟩].Sublist
        ((run ⟨10, 2, 1, 1⟩ .fresh (.push ⟨['m'], 1, ['a']⟩ :: promoted)).queue ['m']) := by
  have h := (stored_until_acked ⟨10, 2, 1, 1⟩ (.push ⟨['m'], 1, ['a']⟩ :: promoted)).2
    [] ⟨['m'], 1, ['a']⟩ promoted 1 rfl ⟨by decide, by simp [Unacked, promoted]⟩
  exact ⟨h.1, h.2 (promoted.take 3) ⟨['m'], 1, ['c']⟩ [.fetch ['m']] 3 rfl rfl
    ⟨by decide, by simp [Unacked]⟩⟩

end Companion.Kindled.Delivery

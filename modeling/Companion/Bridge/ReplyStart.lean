import Companion.Runs
import Mathlib.Algebra.BigOperators.Group.List.Basic
import Mathlib.Data.List.Count

/-!
# Telling a measurement that a reply starts

`ReplyWatch` and `_StartHook` of `brain/bridge/cli_throttle.py`: a measurement takes a snapshot of
the counters, registers a callback on it, and is told of the first reply that starts. The counters
and the list of hooks are under `_lock`, the flag of a hook under its own guard, and a step here is
one such section: the copy that `note_user_message` takes of the list, each `fire` of the copy, each
run of a callback, the append of `on_reply_start`, its second look at the counter, its own `fire`,
and the removal by `unregister`. Any thread may take the next step, so that what holds in every
state that is reached holds of every interleaving, also of those in which a callback calls back into
the module.

`Accounted` is the account of one hook: what its flag has paid for, and where the run that is still
owed will come from. `told` reads the three parts of the promise off it.
-/

namespace Companion.Bridge.ReplyStart

open Companion.Runs

/-! ## Watches, hooks and replies -/

/-- A `ReplyWatch`: what its constructor has read. -/
structure Watch where
  started : ℕ
  idle : Bool
  deriving DecidableEq

/-- How far a call of `on_reply_start` has come. -/
inductive Phase
  /-- The hook is in the list. -/
  | appended
  /-- The watch was not clear, and `fire` is called. -/
  | firing
  /-- This `fire` has set the flag, and runs the callback. -/
  | calling
  /-- The caller has `unregister`. -/
  | returned
  deriving DecidableEq

/-- A `_StartHook`, with the watch it is registered on. -/
structure Hook where
  watch : Watch
  phase : Phase
  fired : Bool
  /-- How often the callback has run. -/
  runs : ℕ
  /-- The counter of replies when the first call of `unregister` took effect. -/
  unregisteredAt : Option ℕ
  deriving DecidableEq

/-- What a call of `note_user_message` has still to do for the hook `h` of its copy. -/
inductive Pending
  | fire (h : ℕ)
  | call (h : ℕ)
  deriving DecidableEq

def Pending.hook : Pending → ℕ
  | .fire h | .call h => h

/-- The globals of the module, the objects made, and the calls of `note_user_message`, each with
what is left of its copy. A call without anything left has returned. -/
structure State where
  inflightReplies : ℕ
  repliesStarted : ℕ
  startHooks : List ℕ
  watches : List Watch
  hooks : List Hook
  messages : List (List Pending)
  deriving DecidableEq

def State.initial : State := ⟨0, 0, [], [], [], []⟩

inductive Act
  | noteUserMessage
  /-- The call `j` of `note_user_message` goes on with its copy. -/
  | deliver (j : ℕ)
  | noteReplyEnd
  | replyWatch
  /-- `on_reply_start` on the watch `w` appends a hook. -/
  | onReplyStart (w : ℕ)
  /-- The call that appended the hook `h` looks at the counter again. -/
  | stillClear (h : ℕ)
  /-- The call that appended the hook `h` goes on with its own `fire`. -/
  | fireOwn (h : ℕ)
  | unregister (h : ℕ)
  deriving DecidableEq

/-- The section of `note_user_message` under the lock. -/
def noteUserMessage (s : State) : State :=
  { s with
    inflightReplies := s.inflightReplies + 1
    repliesStarted := s.repliesStarted + 1
    messages := s.messages ++ [s.startHooks.map .fire] }

/-- The next step of a call of `note_user_message` that has its copy. `fire` returns where the flag
is set, and otherwise sets it and runs the callback. -/
def deliver (s : State) (j : ℕ) : Option State :=
  match s.messages[j]? with
  | some (.fire h :: rest) =>
    s.hooks[h]?.map fun k =>
      if k.fired then { s with messages := s.messages.set j rest }
      else
        { s with
          hooks := s.hooks.set h { k with fired := true }
          messages := s.messages.set j (.call h :: rest) }
  | some (.call h :: rest) =>
    s.hooks[h]?.map fun k =>
      { s with
        hooks := s.hooks.set h { k with runs := k.runs + 1 }
        messages := s.messages.set j rest }
  | _ => none

def noteReplyEnd (s : State) : State := { s with inflightReplies := s.inflightReplies - 1 }

def replyWatch (s : State) : State :=
  { s with watches := s.watches ++ [⟨s.repliesStarted, s.inflightReplies = 0⟩] }

/-- The first section of `on_reply_start`. -/
def onReplyStart (s : State) (w : Watch) : State :=
  { s with
    startHooks := s.startHooks ++ [s.hooks.length]
    hooks := s.hooks ++ [⟨w, .appended, false, 0, none⟩] }

/-- `ReplyWatch.__call__`. -/
def stillClear (s : State) (w : Watch) : Bool := w.idle && s.repliesStarted == w.started

/-- What the look at the counter leads to. -/
def recheck (s : State) (h : ℕ) (k : Hook) : State :=
  { s with
    hooks := s.hooks.set h { k with phase := if stillClear s k.watch then .returned else .firing } }

/-- The sections of the hook's own `fire`. -/
def fireOwn (s : State) (h : ℕ) (k : Hook) : Option State :=
  match k.phase with
  | .firing =>
    some { s with
      hooks := s.hooks.set h
        (if k.fired then { k with phase := .returned }
        else { k with fired := true, phase := .calling }) }
  | .calling =>
    some { s with hooks := s.hooks.set h { k with runs := k.runs + 1, phase := .returned } }
  | _ => none

/-- `unregister`, which leaves a list without the hook as it is. -/
def unregister (s : State) (h : ℕ) (k : Hook) : State :=
  { s with
    startHooks := s.startHooks.erase h
    hooks := s.hooks.set h
      { k with unregisteredAt := k.unregisteredAt.or (some s.repliesStarted) } }

def step (s : State) : Act → Option State
  | .noteUserMessage => some (noteUserMessage s)
  | .deliver j => deliver s j
  | .noteReplyEnd => some (noteReplyEnd s)
  | .replyWatch => some (replyWatch s)
  | .onReplyStart w => s.watches[w]?.map (onReplyStart s)
  | .stillClear h =>
    s.hooks[h]?.bind fun k => if k.phase = .appended then some (recheck s h k) else none
  | .fireOwn h => s.hooks[h]?.bind (fireOwn s h)
  | .unregister h =>
    s.hooks[h]?.bind fun k => if k.phase = .returned then some (unregister s h k) else none

def machine : Machine State Act where
  init s := s = .initial
  step := step

/-! ## What the callback is promised -/

/-- The counter at the end of the time in which a start counts for the hook: at its unregistration,
or now. -/
def Hook.until (k : Hook) (started : ℕ) : ℕ := k.unregisteredAt.getD started

/-- A reply was in flight at the snapshot, or one was counted between it and the unregistration. -/
def Hook.Due (k : Hook) (started : ℕ) : Prop :=
  k.watch.idle = false ∨ k.watch.started < k.until started

instance (k : Hook) (started : ℕ) : Decidable (k.Due started) :=
  inferInstanceAs (Decidable (_ ∨ _))

/-- A reply start is told once, never twice, and never without one. -/
structure Told (s : State) : Prop where
  atMostOnce : ∀ k ∈ s.hooks, k.runs ≤ 1
  /-- The call of `on_reply_start` has returned, and no call of `note_user_message` that copied the
  hook has it still before it. -/
  once : ∀ (h : ℕ) (k : Hook), s.hooks[h]? = some k → k.phase = .returned →
    (∀ m ∈ s.messages, ∀ p ∈ m, p.hook ≠ h) → k.Due s.repliesStarted → k.runs = 1
  never : ∀ k ∈ s.hooks, ¬ k.Due s.repliesStarted → k.runs = 0

/-! ## The account of a hook -/

/-- The run that the hook's own `fire` has still to do. -/
def Hook.own (k : Hook) : ℕ := if k.phase = .calling then 1 else 0

/-- The account of a hook: whether it is listed, and how many calls of `note_user_message` have its
`fire` before them, or its callback. -/
structure Accounted (k : Hook) (started : ℕ) (listed : Prop) (fires calls : ℕ) : Prop where
  listed_iff : listed ↔ k.unregisteredAt = none
  kept : k.phase ≠ .returned → k.unregisteredAt = none
  snapshot_le : k.watch.started ≤ k.until started
  /-- The flag pays for one run. -/
  paid : k.runs + k.own + calls = if k.fired then 1 else 0
  due : k.fired = true ∨ k.phase = .firing ∨ 0 < fires → k.Due started
  owed : k.Due started → k.fired = true ∨ k.phase = .appended ∨ k.phase = .firing ∨ 0 < fires

section

variable {k : Hook} {started fires calls : ℕ} {listed : Prop}

/-- A reply starts, and its call has the hook in its copy as often as the list has it. -/
theorem Accounted.noteUserMessage {copies : ℕ} (h : Accounted k started listed fires calls)
    (hcopies : 0 < copies ↔ listed) :
    Accounted k (started + 1) listed (fires + copies) calls := by
  obtain ⟨hlisted, hkept, hle, hpaid, hdue, howed⟩ := h
  refine ⟨hlisted, hkept, ?_, hpaid, ?_, ?_⟩
  · unfold Hook.until at hle ⊢
    cases hat : k.unregisteredAt <;> simp only [hat, Option.getD] at hle ⊢ <;> omega
  all_goals
    unfold Hook.Due Hook.until at hdue howed ⊢
    unfold Hook.until at hle
    cases hat : k.unregisteredAt with
    | none =>
      -- The hook is listed, so that the call has it in its copy, and it is due by this reply.
      have hpos : 0 < copies := hcopies.mpr (hlisted.mpr hat)
      simp only [hat, Option.getD] at hle ⊢
      omega
    | some u =>
      -- What starts now does not count for a hook that was taken off before.
      have hzero : copies = 0 := by
        have hunlisted : ¬ listed := fun hl => by simp [hlisted.mp hl] at hat
        have := mt hcopies.mp hunlisted
        omega
      rw [hat] at hdue howed
      simpa only [hzero, Nat.add_zero] using by assumption

/-- A `fire` of a copy that finds the flag set. -/
theorem Accounted.skip (h : Accounted k started listed (fires + 1) calls) (hfired : k.fired = true) :
    Accounted k started listed fires calls :=
  { h with
    due := fun _ => h.due (.inl hfired)
    owed := fun _ => .inl hfired }

/-- A `fire` of a copy that sets the flag. -/
theorem Accounted.fire (h : Accounted k started listed (fires + 1) calls)
    (hfired : ¬ k.fired = true) :
    Accounted { k with fired := true } started listed fires (calls + 1) := by
  have hdue : k.Due started := h.due (.inr (.inr (Nat.succ_pos fires)))
  refine ⟨h.listed_iff, h.kept, h.snapshot_le, ?_, fun _ => hdue, fun _ => .inl rfl⟩
  have hpaid := h.paid
  rw [if_neg hfired] at hpaid
  show k.runs + k.own + (calls + 1) = 1
  omega

/-- A callback that a call of `note_user_message` runs. -/
theorem Accounted.call (h : Accounted k started listed fires (calls + 1)) :
    Accounted { k with runs := k.runs + 1 } started listed fires calls := by
  refine ⟨h.listed_iff, h.kept, h.snapshot_le, ?_, h.due, h.owed⟩
  rw [← h.paid]
  show k.runs + 1 + k.own + calls = k.runs + k.own + (calls + 1)
  omega

/-- The second look at the counter, by a call that has only appended its hook. -/
theorem Accounted.recheck {clear : Bool} (h : Accounted k started listed fires calls)
    (hphase : k.phase = .appended)
    (hclear : clear = (k.watch.idle && started == k.watch.started)) :
    Accounted { k with phase := if clear then .returned else .firing } started listed fires
      calls := by
  have hat : k.unregisteredAt = none := h.kept (by rw [hphase]; decide)
  -- What the watch says of the counter is what makes the hook due, as it is still listed.
  have hdue : k.Due started ↔ clear = false := by
    have hle := h.snapshot_le
    unfold Hook.until at hle
    unfold Hook.Due Hook.until
    rw [hat] at hle ⊢
    rw [hclear, Bool.and_eq_false_iff, beq_eq_false_iff_ne]
    exact or_congr_right ⟨fun hlt => Nat.ne_of_gt hlt, fun hne => Nat.lt_of_le_of_ne hle hne.symm⟩
  have hown : k.own = 0 := if_neg (by rw [hphase]; decide)
  refine ⟨h.listed_iff, fun _ => hat, h.snapshot_le, ?_, ?_, ?_⟩
  · have hpaid := h.paid
    rw [hown] at hpaid
    rw [← hpaid]
    cases clear <;> rfl
  · rintro (hfired | hfiring | hpos)
    · exact h.due (.inl hfired)
    · exact hdue.mpr (by cases clear <;> simp_all)
    · exact h.due (.inr (.inr hpos))
  · intro hd
    have hc := hdue.mp hd
    exact .inr (.inr (.inl (by rw [hc]; rfl)))

/-- The call's own `fire`, where a call of `note_user_message` came first. -/
theorem Accounted.skipOwn (h : Accounted k started listed fires calls) (hphase : k.phase = .firing)
    (hfired : k.fired = true) :
    Accounted { k with phase := .returned } started listed fires calls := by
  refine ⟨h.listed_iff, fun hne => absurd rfl hne, h.snapshot_le, ?_, fun _ => h.due (.inl hfired),
    fun _ => .inl hfired⟩
  rw [← h.paid]
  show k.runs + 0 + calls = k.runs + (if k.phase = .calling then 1 else 0) + calls
  rw [hphase, if_neg (by decide)]

/-- The call's own `fire`, where it comes first. -/
theorem Accounted.fireOwn (h : Accounted k started listed fires calls) (hphase : k.phase = .firing)
    (hfired : ¬ k.fired = true) :
    Accounted { k with fired := true, phase := .calling } started listed fires calls := by
  have hat : k.unregisteredAt = none := h.kept (by rw [hphase]; decide)
  have hdue : k.Due started := h.due (.inr (.inl hphase))
  refine ⟨h.listed_iff, fun _ => hat, h.snapshot_le, ?_, fun _ => hdue, fun _ => .inl rfl⟩
  have hpaid := h.paid
  rw [if_neg hfired] at hpaid
  show k.runs + 1 + calls = 1
  omega

/-- The callback, on the thread of `on_reply_start`. -/
theorem Accounted.callOwn (h : Accounted k started listed fires calls)
    (hphase : k.phase = .calling) :
    Accounted { k with runs := k.runs + 1, phase := .returned } started listed fires calls := by
  have hown : k.own = 1 := if_pos hphase
  -- The flag is set: the run that is still owed is the one it has paid for.
  have hfired : k.fired = true := by
    have hpaid := h.paid
    split_ifs at hpaid with hf
    · exact hf
    · omega
  refine ⟨h.listed_iff, fun hne => absurd rfl hne, h.snapshot_le, ?_, fun _ => h.due (.inl hfired),
    fun _ => .inl hfired⟩
  rw [← h.paid, hown]
  show k.runs + 1 + 0 + calls = k.runs + 1 + calls
  rfl

/-- The first call of `unregister` ends the time in which a start counts, and a later one finds it
ended. -/
theorem Accounted.unregister (h : Accounted k started listed fires calls)
    (hphase : k.phase = .returned) :
    Accounted { k with unregisteredAt := k.unregisteredAt.or (some started) } started False fires
      calls := by
  have huntil : (k.unregisteredAt.or (some started)).getD started = k.until started := by
    unfold Hook.until
    cases k.unregisteredAt <;> rfl
  have hdue : ∀ b, Hook.Due { k with unregisteredAt := k.unregisteredAt.or (some started) } b ↔
      k.watch.idle = false ∨
        k.watch.started < (k.unregisteredAt.or (some started)).getD b := fun b => Iff.rfl
  refine ⟨?_, fun hne => absurd hphase hne, ?_, h.paid, ?_, ?_⟩
  · cases k.unregisteredAt <;> simp
  · show k.watch.started ≤ (k.unregisteredAt.or (some started)).getD started
    rw [huntil]
    exact h.snapshot_le
  · rw [hdue, huntil]
    exact h.due
  · rw [hdue, huntil]
    exact h.owed

end

/-! ## The account along a run -/

namespace State

variable {s : State}

/-- How many calls of `note_user_message` have `p` before them. -/
def pending (s : State) (p : Pending) : ℕ := s.messages.flatten.count p

/-- What every state that is reached satisfies. -/
structure Inv (s : State) : Prop where
  watches : ∀ w ∈ s.watches, w.started ≤ s.repliesStarted
  nodup : s.startHooks.Nodup
  listed_lt : ∀ h ∈ s.startHooks, h < s.hooks.length
  pending_lt : ∀ m ∈ s.messages, ∀ p ∈ m, p.hook < s.hooks.length
  accounted : ∀ (h : ℕ) (k : Hook), s.hooks[h]? = some k →
    Accounted k s.repliesStarted (h ∈ s.startHooks) (s.pending (.fire h)) (s.pending (.call h))

end State

/-- What is before the calls when one of them goes on. -/
theorem count_flatten_set {α : Type*} [DecidableEq α] {l : List (List α)} {j : ℕ} {m : List α}
    (h : l[j]? = some m) (m' : List α) (a : α) :
    (l.set j m').flatten.count a + m.count a = l.flatten.count a + m'.count a := by
  obtain ⟨hj, rfl⟩ := List.getElem?_eq_some_iff.mp h
  rw [List.set_eq_take_append_cons_drop, if_pos hj]
  conv_rhs => rw [← List.take_append_drop j l, List.drop_eq_getElem_cons hj]
  simp only [List.flatten_append, List.flatten_cons, List.count_append]
  omega

namespace State

variable {s : State}

/-- A hook that a step changes, and one that it does not. -/
theorem Inv.set_hook {hooks : List Hook} {h : ℕ} {k' : Hook} {P : ℕ → Hook → Prop}
    (hne : ∀ (i : ℕ) (k : Hook), i ≠ h → hooks[i]? = some k → P i k) (heq : P h k') :
    ∀ (i : ℕ) (k : Hook), (hooks.set h k')[i]? = some k → P i k := by
  intro i k hi
  by_cases hih : h = i
  · subst hih
    rw [List.getElem?_set_self'] at hi
    obtain ⟨-, -, rfl⟩ := Option.map_eq_some_iff.mp hi
    exact heq
  · rw [List.getElem?_set_ne hih] at hi
    exact hne i k (fun h' => hih h'.symm) hi

theorem Inv.noteUserMessage (hs : s.Inv) : (noteUserMessage s).Inv := by
  refine ⟨fun w hw => Nat.le_succ_of_le (hs.watches w hw), hs.nodup, hs.listed_lt, ?_, ?_⟩
  · intro m hm p hp
    obtain hm | hm := List.mem_append.mp hm
    · exact hs.pending_lt m hm p hp
    · obtain rfl := List.mem_singleton.mp hm
      obtain ⟨h, hh, rfl⟩ := List.mem_map.mp hp
      exact hs.listed_lt h hh
  · intro h k hk
    have hfires : (ReplyStart.noteUserMessage s).pending (.fire h) =
        s.pending (.fire h) + (s.startHooks.map Pending.fire).count (.fire h) := by
      simp [State.pending, ReplyStart.noteUserMessage]
    have hcalls : (ReplyStart.noteUserMessage s).pending (.call h) = s.pending (.call h) := by
      simp [State.pending, ReplyStart.noteUserMessage, List.count_eq_zero]
    rw [hfires, hcalls]
    refine (hs.accounted h k hk).noteUserMessage ?_
    rw [List.count_pos_iff, List.mem_map]
    simp

/-- A call of `note_user_message` goes on, and may change the hook `i` that is next in its copy. -/
theorem Inv.goOn {i j : ℕ} {k' : Hook} {p : Pending} {rest m : List Pending} (hs : s.Inv)
    (hj : s.messages[j]? = some (p :: rest)) (hp : p.hook = i)
    (hm : ∀ q ∈ m, q.hook = i ∨ q ∈ rest) (hcount : ∀ q, q.hook ≠ i → m.count q = rest.count q)
    (hacc : ∀ n : Pending → ℕ,
      (∀ q, n q + (rest.count q + if p = q then 1 else 0) = s.pending q + m.count q) →
      Accounted k' s.repliesStarted (i ∈ s.startHooks) (n (.fire i)) (n (.call i))) :
    Inv { s with hooks := s.hooks.set i k', messages := s.messages.set j m } := by
  have hlt := hs.pending_lt _ (List.mem_of_getElem? hj)
  have hpending : ∀ q, (s.messages.set j m).flatten.count q +
      (rest.count q + if p = q then 1 else 0) = s.pending q + m.count q := by
    intro q
    have h := count_flatten_set hj m q
    simp only [List.count_cons, beq_iff_eq] at h
    exact h
  refine ⟨hs.watches, hs.nodup, ?_, ?_, Inv.set_hook ?_ (hacc _ hpending)⟩
  · simpa only [List.length_set] using hs.listed_lt
  · intro m' hm' q hq
    rw [List.length_set]
    obtain hm' | rfl := List.mem_or_eq_of_mem_set hm'
    · exact hs.pending_lt m' hm' q hq
    · obtain heq | hrest := hm q hq
      · rw [heq, ← hp]
        exact hlt p List.mem_cons_self
      · exact hlt q (List.mem_cons_of_mem _ hrest)
  · -- The calls have the other hooks before them as often as they had.
    intro i' k hi' hk
    have hsame : ∀ q, q.hook = i' → (s.messages.set j m).flatten.count q = s.pending q := by
      intro q hq
      have h := hpending q
      have hne : p ≠ q := by
        rintro rfl
        exact hi' (hq.symm.trans hp)
      rw [if_neg hne, hcount q (by rw [hq]; exact hi')] at h
      omega
    have h := hs.accounted i' k hk
    rw [← hsame (.fire i') rfl, ← hsame (.call i') rfl] at h
    exact h

theorem Inv.deliver {s' : State} {j : ℕ} (hs : s.Inv) (h : deliver s j = some s') : s'.Inv := by
  unfold ReplyStart.deliver at h
  split at h
  · rename_i i rest hj
    obtain ⟨k, hk, hs'⟩ := Option.map_eq_some_iff.mp h
    have hacc := hs.accounted i k hk
    split_ifs at hs' with hfired
    · -- The flag is set already, and the hook stays as it is.
      have hset : s' = { s with hooks := s.hooks.set i k, messages := s.messages.set j rest } := by
        obtain ⟨hi, rfl⟩ := List.getElem?_eq_some_iff.mp hk
        rw [List.set_getElem_self, hs']
      rw [hset]
      refine hs.goOn hj rfl (fun q hq => .inr hq) (fun _ _ => rfl) fun n hn => ?_
      have hf := hn (.fire i)
      have hc := hn (.call i)
      rw [if_pos rfl] at hf
      rw [if_neg Pending.noConfusion] at hc
      rw [show s.pending (.fire i) = n (.fire i) + 1 by omega,
        show s.pending (.call i) = n (.call i) by omega] at hacc
      exact hacc.skip hfired
    · subst hs'
      refine hs.goOn hj rfl (fun q hq => ?_) (fun q hq => ?_) fun n hn => ?_
      · obtain rfl | hq := List.mem_cons.mp hq
        · exact .inl rfl
        · exact .inr hq
      · exact List.count_cons_of_ne fun h => hq (by rw [← h]; rfl)
      · have hf := hn (.fire i)
        have hc := hn (.call i)
        rw [if_pos rfl, List.count_cons_of_ne Pending.noConfusion] at hf
        rw [if_neg Pending.noConfusion, List.count_cons_self] at hc
        rw [show s.pending (.fire i) = n (.fire i) + 1 by omega] at hacc
        rw [show n (.call i) = s.pending (.call i) + 1 by omega]
        exact hacc.fire hfired
  · rename_i i rest hj
    obtain ⟨k, hk, rfl⟩ := Option.map_eq_some_iff.mp h
    have hacc := hs.accounted i k hk
    refine hs.goOn hj rfl (fun q hq => .inr hq) (fun _ _ => rfl) fun n hn => ?_
    have hf := hn (.fire i)
    have hc := hn (.call i)
    rw [if_neg Pending.noConfusion] at hf
    rw [if_pos rfl] at hc
    rw [show s.pending (.fire i) = n (.fire i) by omega,
      show s.pending (.call i) = n (.call i) + 1 by omega] at hacc
    exact hacc.call
  · cases h

theorem Inv.replyWatch (hs : s.Inv) : (replyWatch s).Inv := by
  refine { hs with watches := fun w hw => ?_ }
  obtain hw | hw := List.mem_append.mp hw
  · exact hs.watches w hw
  · obtain rfl := List.mem_singleton.mp hw
    exact Nat.le_refl _

/-- A hook that is new is not before any call. -/
theorem Inv.onReplyStart {w : Watch} (hs : s.Inv) (hw : w ∈ s.watches) :
    (onReplyStart s w).Inv := by
  have hfresh : s.hooks.length ∉ s.startHooks := fun h => Nat.lt_irrefl _ (hs.listed_lt _ h)
  have hlen : (ReplyStart.onReplyStart s w).hooks.length = s.hooks.length + 1 :=
    List.length_append
  refine ⟨hs.watches, ?_, ?_, ?_, ?_⟩
  · exact List.nodup_append.mpr ⟨hs.nodup, List.pairwise_singleton _ _, fun h hh h' hh' => by
      rw [List.mem_singleton.mp hh']
      rintro rfl
      exact hfresh hh⟩
  · intro h hh
    rw [hlen]
    obtain hh | hh := List.mem_append.mp hh
    · exact Nat.lt_succ_of_lt (hs.listed_lt h hh)
    · rw [List.mem_singleton.mp hh]
      exact Nat.lt_succ_self _
  · intro m hm p hp
    rw [hlen]
    exact Nat.lt_succ_of_lt (hs.pending_lt m hm p hp)
  · intro h k hk
    have hzero : ∀ p : Pending, p.hook = s.hooks.length → s.pending p = 0 := by
      intro p hp
      refine List.count_eq_zero.mpr fun hmem => ?_
      obtain ⟨m, hm, hpm⟩ := List.mem_flatten.mp hmem
      exact Nat.lt_irrefl _ (hp ▸ hs.pending_lt m hm p hpm)
    by_cases hh : h < s.hooks.length
    · have hk' : s.hooks[h]? = some k := (List.getElem?_append_left hh).symm.trans hk
      have hold := hs.accounted h k hk'
      have hiff : h ∈ (ReplyStart.onReplyStart s w).startHooks ↔ h ∈ s.startHooks := by
        show h ∈ s.startHooks ++ [s.hooks.length] ↔ _
        rw [List.mem_append, List.mem_singleton]
        exact or_iff_left (Nat.ne_of_lt hh)
      exact { hold with listed_iff := hiff.trans hold.listed_iff }
    · have hlt := (List.getElem?_eq_some_iff.mp hk).1
      obtain rfl : h = s.hooks.length := by omega
      have hkeq : k = ⟨w, .appended, false, 0, none⟩ :=
        (Option.some.inj (List.getElem?_concat_length.symm.trans hk)).symm
      subst hkeq
      have hf := hzero (.fire s.hooks.length) rfl
      have hc := hzero (.call s.hooks.length) rfl
      refine ⟨?_, fun _ => rfl, hs.watches w hw, ?_, ?_, fun _ => .inr (.inl rfl)⟩
      · exact iff_of_true (List.mem_append_right _ (List.mem_singleton_self _)) rfl
      · show 0 + 0 + s.pending (.call s.hooks.length) = 0
        rw [hc]
      · rintro (hfired | hfiring | hpos)
        · exact Bool.noConfusion hfired
        · exact Phase.noConfusion hfiring
        · exact absurd hpos (by
            show ¬ 0 < s.pending (.fire s.hooks.length)
            rw [hf]
            exact Nat.lt_irrefl 0)

/-- A step of the call that appended a hook, which changes this hook and nothing else. -/
theorem Inv.set_own {h : ℕ} {k' : Hook} (hs : s.Inv)
    (hacc : Accounted k' s.repliesStarted (h ∈ s.startHooks) (s.pending (.fire h))
      (s.pending (.call h))) : Inv { s with hooks := s.hooks.set h k' } := by
  refine ⟨hs.watches, hs.nodup, ?_, ?_, Inv.set_hook (fun i k _ => hs.accounted i k) hacc⟩
  · simpa only [List.length_set] using hs.listed_lt
  · simpa only [List.length_set] using hs.pending_lt

theorem Inv.fireOwn {s' : State} {h : ℕ} {k : Hook} (hs : s.Inv) (hk : s.hooks[h]? = some k)
    (h' : fireOwn s h k = some s') : s'.Inv := by
  have hacc := hs.accounted h k hk
  unfold ReplyStart.fireOwn at h'
  split at h'
  · rename_i hphase
    obtain rfl := Option.some.inj h'
    refine hs.set_own ?_
    split_ifs with hfired
    · exact hacc.skipOwn hphase hfired
    · exact hacc.fireOwn hphase hfired
  · rename_i hphase
    obtain rfl := Option.some.inj h'
    exact hs.set_own (hacc.callOwn hphase)
  · cases h'

theorem Inv.unregister {h : ℕ} {k : Hook} (hs : s.Inv) (hk : s.hooks[h]? = some k)
    (hphase : k.phase = .returned) : (unregister s h k).Inv := by
  have hmem : ∀ i, i ∈ s.startHooks.erase h ↔ i ≠ h ∧ i ∈ s.startHooks := fun i =>
    hs.nodup.mem_erase_iff
  refine ⟨hs.watches, hs.nodup.erase h, ?_, ?_, Inv.set_hook ?_ ?_⟩
  · intro i hi
    show i < (s.hooks.set h _).length
    rw [List.length_set]
    exact hs.listed_lt i ((hmem i).mp hi).2
  · simpa only [ReplyStart.unregister, List.length_set] using hs.pending_lt
  · intro i k' hi hk'
    have hold := hs.accounted i k' hk'
    exact { hold with listed_iff := ((hmem i).trans (and_iff_right hi)).trans hold.listed_iff }
  · have hnew := (hs.accounted h k hk).unregister hphase
    have hgone : h ∈ s.startHooks.erase h ↔ False := by simp [hmem]
    exact { hnew with listed_iff := hgone.trans hnew.listed_iff }

/-- Every step keeps the accounts. -/
theorem Inv.step {s' : State} {a : Act} (hs : s.Inv) (h : step s a = some s') : s'.Inv := by
  cases a with
  | noteUserMessage =>
    obtain rfl := Option.some.inj h
    exact hs.noteUserMessage
  | deliver j => exact hs.deliver h
  | noteReplyEnd =>
    obtain rfl := Option.some.inj h
    exact { hs with }
  | replyWatch =>
    obtain rfl := Option.some.inj h
    exact hs.replyWatch
  | onReplyStart w =>
    obtain ⟨x, hx, rfl⟩ := Option.map_eq_some_iff.mp h
    exact hs.onReplyStart (List.mem_of_getElem? hx)
  | stillClear i =>
    obtain ⟨k, hk, hsome⟩ := Option.bind_eq_some_iff.mp h
    obtain ⟨hphase, hsome⟩ := Option.ite_none_right_eq_some.mp hsome
    obtain rfl := Option.some.inj hsome
    exact hs.set_own ((hs.accounted i k hk).recheck hphase rfl)
  | fireOwn i =>
    obtain ⟨k, hk, hsome⟩ := Option.bind_eq_some_iff.mp h
    exact hs.fireOwn hk hsome
  | unregister i =>
    obtain ⟨k, hk, hsome⟩ := Option.bind_eq_some_iff.mp h
    obtain ⟨hphase, hsome⟩ := Option.ite_none_right_eq_some.mp hsome
    obtain rfl := Option.some.inj hsome
    exact hs.unregister hk hphase

/-- The accounts are right after every interleaving. -/
theorem inv_of_reachable (hs : machine.Reachable s) : s.Inv := by
  refine hs.invariant ?_ fun _ _ _ hi _ h => hi.step h
  rintro _ rfl
  exact ⟨by simp [State.initial], List.nodup_nil, by simp [State.initial], by simp [State.initial],
    by simp [State.initial]⟩

end State

/-- After every interleaving of replies that start and end with snapshots, registrations and
unregistrations, each callback has run at most once; exactly once where a reply was in flight at its
snapshot, or was counted between the snapshot and the unregistration, and the calls have returned;
and never where neither is so. -/
theorem told {s : State} (hs : machine.Reachable s) : Told s := by
  have hinv := State.inv_of_reachable hs
  have hpaid : ∀ k ∈ s.hooks, ∃ h, Accounted k s.repliesStarted (h ∈ s.startHooks)
      (s.pending (.fire h)) (s.pending (.call h)) := fun k hk => by
    obtain ⟨h, hh⟩ := List.mem_iff_getElem?.mp hk
    exact ⟨h, hinv.accounted h k hh⟩
  refine ⟨fun k hk => ?_, fun h k hk hphase hreturned hdue => ?_, fun k hk hdue => ?_⟩
  · obtain ⟨h, hacc⟩ := hpaid k hk
    have := hacc.paid
    split_ifs at this <;> omega
  · have hacc := hinv.accounted h k hk
    have hzero : ∀ p : Pending, p.hook = h → s.pending p = 0 := by
      intro p hp
      refine List.count_eq_zero.mpr fun hmem => ?_
      obtain ⟨m, hm, hpm⟩ := List.mem_flatten.mp hmem
      exact hreturned m hm p hpm hp
    -- Nothing is left that could still set the flag, so that it is set; and its run is over.
    have hfired : k.fired = true := by
      obtain hf | happended | hfiring | hpos := hacc.owed hdue
      · exact hf
      · rw [hphase] at happended
        cases happended
      · rw [hphase] at hfiring
        cases hfiring
      · rw [hzero _ rfl] at hpos
        exact absurd hpos (Nat.lt_irrefl 0)
    have hpaid := hacc.paid
    have hown : k.own = 0 := if_neg (by rw [hphase]; decide)
    rw [hown, hzero _ rfl, if_pos hfired] at hpaid
    exact hpaid
  · obtain ⟨h, hacc⟩ := hpaid k hk
    have hpaid := hacc.paid
    rw [if_neg fun hf => hdue (hacc.due (.inl hf))] at hpaid
    omega

/-- A reply that starts between the append of a hook and the second look at the counter, and whose
call reaches the flag first. -/
theorem told_between : ∃ s, machine.Reachable s ∧ Told s ∧ s.hooks.map Hook.runs = [1] := by
  obtain ⟨s, hs, hruns⟩ := Machine.exists_reach_of_runWithin (M := machine)
    (D := fun _ _ => True) (fun _ _ h => h) (s := State.initial) rfl
    [.replyWatch, .onReplyStart 0, .noteUserMessage, .stillClear 0, .deliver 0, .fireOwn 0,
      .unregister 0, .deliver 0, .noteReplyEnd]
    (fun s => s.hooks.map Hook.runs == [1]) (by decide +kernel)
  exact ⟨s, hs, told hs, eq_of_beq hruns⟩

end Companion.Bridge.ReplyStart

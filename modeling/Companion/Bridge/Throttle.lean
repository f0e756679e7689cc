import Companion.Runs
import Mathlib.Algebra.Order.Field.Rat
import Mathlib.Data.List.Count
import Mathlib.Data.Rat.Defs

/-!
# The cap on background calls

The throttle of `brain/bridge/cli_throttle.py`: the calls of `acquire_background`, each released
once if it grants (`background_slot`), between the chat turns that `note_user_message` and
`note_reply_end` mark. A call reads the shutdown flag, then the idle check in one section of
`_lock`, then the cap and the counter in another; anything may happen in between.

A cap that cannot be read grants without counting, and every release counts down. `Harmless` says of
a release that it does not do so for a slot that is still held; `sound_iff_harmless` that a run
keeps to the cap as long as its releases are harmless, and that the first one which is not frees the
slot of another.
-/

namespace Companion.Bridge.Throttle

open Companion.Runs

/-! ## The throttle -/

/-- How far a call of `acquire_background` has come. -/
inductive Phase
  /-- `_shutdown` was not set. -/
  | begun
  /-- `is_chat_idle` has returned true. -/
  | idle
  /-- It has returned true, and counted the slot. -/
  | granted
  /-- It has returned true from its exception handler. -/
  | allowed
  | denied
  | released
  deriving DecidableEq

/-- The globals of the module, and the calls in the order in which they came. -/
structure State where
  shutdown : Bool
  /-- `_last_message_mono`, or none where it is `-inf`. -/
  lastMessage : Option ℚ
  inflightReplies : ℕ
  inflightBackground : ℕ
  calls : List Phase
  deriving DecidableEq

def State.initial : State := ⟨false, none, 0, 0, []⟩

/-- A step. The clock's readings are in the labels, as is what a tunable reads, or none where the
read raises. -/
inductive Act
  | requestShutdown
  | clearShutdown
  | noteUserMessage (now : ℚ)
  | noteReplyEnd (now : ℚ)
  /-- A call of `acquire_background` reads the flag. -/
  | acquire
  /-- The call `i` does the idle check. -/
  | isChatIdle (i : ℕ) (now : ℚ) (lull : Option ℚ)
  /-- The call `i` takes a slot, where the cap is read or not. -/
  | takeSlot (i : ℕ) (capRead : Bool)
  /-- The holder of the slot of call `i` calls `release_background`. -/
  | releaseBackground (i : ℕ)
  deriving DecidableEq

/-- No reply is in flight, and the lull has elapsed. -/
def chatIdle (s : State) (now : ℚ) (lull : Option ℚ) : Bool :=
  match lull with
  | none => false
  | some lull =>
    s.inflightReplies = 0 &&
      match s.lastMessage with
      | none => true
      | some last => lull ≤ now - last

/-- The section of `acquire_background` under the lock, for the call `i`. -/
def takeSlot (cap : ℤ) (s : State) (i : ℕ) (capRead : Bool) : State :=
  if capRead then
    if cap ≤ s.inflightBackground then { s with calls := s.calls.set i .denied }
    else
      { s with
        inflightBackground := s.inflightBackground + 1
        calls := s.calls.set i .granted }
  else { s with calls := s.calls.set i .allowed }

def step (cap : ℤ) (s : State) : Act → Option State
  | .requestShutdown => some { s with shutdown := true }
  | .clearShutdown => some { s with shutdown := false }
  | .noteUserMessage now =>
    some { s with lastMessage := some now, inflightReplies := s.inflightReplies + 1 }
  | .noteReplyEnd now =>
    some { s with lastMessage := some now, inflightReplies := s.inflightReplies - 1 }
  | .acquire => some { s with calls := s.calls ++ [if s.shutdown then .denied else .begun] }
  | .isChatIdle i now lull =>
    if s.calls[i]? = some .begun then
      some { s with calls := s.calls.set i (if chatIdle s now lull then .idle else .denied) }
    else none
  | .takeSlot i capRead =>
    if s.calls[i]? = some .idle then some (takeSlot cap s i capRead) else none
  | .releaseBackground i =>
    if s.calls[i]? = some .granted ∨ s.calls[i]? = some .allowed then
      some { s with
        inflightBackground := s.inflightBackground - 1
        calls := s.calls.set i .released }
    else none

def machine (cap : ℤ) : Machine State Act where
  init s := s = .initial
  step := step cap

/-! ## What the cap is for -/

/-- The slots that were counted when they were granted, and are still held. -/
def held (s : State) : ℕ := s.calls.count .granted

/-- A slot is counted only while fewer than the cap are held, and the release of one that was not
counted leaves the counter. -/
def Sound (cap : ℤ) (s s' : State) : Act → Prop
  | .takeSlot i _ => s'.calls[i]? = some .granted → held s < cap
  | .releaseBackground i =>
    s.calls[i]? = some .allowed → s'.inflightBackground = s.inflightBackground
  | _ => True

/-- A slot that was not counted is released while no other is held. -/
def Harmless (s : State) : Act → Prop
  | .releaseBackground i => s.calls[i]? = some .allowed → held s = 0
  | _ => True

instance (s : State) (a : Act) : Decidable (Harmless s a) := by
  unfold Harmless
  split <;> infer_instance

variable {cap : ℤ} {s s' : State} {a : Act}

/-- The slots that are held after a call's phase changes. -/
theorem held_set {p : Phase} (t : State) {i : ℕ} (q : Phase) (h : s.calls[i]? = some p)
    (ht : t.calls = s.calls.set i q) :
    held t = held s - (if p = .granted then 1 else 0) + (if q = .granted then 1 else 0) := by
  obtain ⟨hi, hp⟩ := List.getElem?_eq_some_iff.mp h
  rw [held, ht, List.count_set hi, hp, held]
  simp

/-- The counter has the slots that are held. -/
def Counted (s : State) : Prop := s.inflightBackground = held s

/-- Taking a slot keeps the counter right, whichever way it comes out. -/
theorem Counted.of_takeSlot {i : ℕ} (capRead : Bool) (hs : Counted s)
    (h : s.calls[i]? = some .idle) : Counted (takeSlot cap s i capRead) := by
  unfold Counted at hs ⊢
  unfold takeSlot
  -- A slot is counted only where the cap was read and is not reached.
  split_ifs with hread hfull
  · rw [held_set _ .denied h rfl]
    exact hs
  · rw [held_set _ .granted h rfl]
    show s.inflightBackground + 1 = _
    rw [hs]
    rfl
  · rw [held_set _ .allowed h rfl]
    exact hs

/-- A step that is harmless keeps the counter right. -/
theorem Counted.of_step (hs : Counted s) (ha : Harmless s a) (h : step cap s a = some s') :
    Counted s' := by
  cases a with
  | requestShutdown | clearShutdown | noteUserMessage | noteReplyEnd =>
    obtain rfl := Option.some.inj h
    exact hs
  | acquire =>
    obtain rfl := Option.some.inj h
    have hne : (if s.shutdown then Phase.denied else .begun) ≠ Phase.granted := by
      split <;> decide
    show s.inflightBackground = (s.calls ++ [_]).count Phase.granted
    rw [List.count_append, List.count_singleton, if_neg (by simpa using hne)]
    exact hs
  | isChatIdle i now lull =>
    obtain ⟨hi, hsome⟩ := Option.ite_none_right_eq_some.mp h
    obtain rfl := Option.some.inj hsome
    have hne : (if chatIdle s now lull then Phase.idle else .denied) ≠ Phase.granted := by
      split <;> decide
    unfold Counted
    rw [held_set _ _ hi rfl, if_neg hne]
    exact hs
  | takeSlot i capRead =>
    obtain ⟨hi, hsome⟩ := Option.ite_none_right_eq_some.mp h
    obtain rfl := Option.some.inj hsome
    exact hs.of_takeSlot capRead hi
  | releaseBackground i =>
    obtain ⟨hi, hsome⟩ := Option.ite_none_right_eq_some.mp h
    obtain rfl := Option.some.inj hsome
    rcases hi with hi | hi
    · unfold Counted
      rw [held_set _ .released hi rfl, ← hs]
      rfl
    · -- Nothing is held, so that the counter is at its floor.
      have hzero : s.inflightBackground = 0 := hs.trans (ha hi)
      unfold Counted
      rw [held_set _ .released hi rfl, ← hs]
      show s.inflightBackground - 1 = s.inflightBackground - 0 + 0
      rw [hzero]

/-- Where the counter is right, a step is sound just in case it is harmless. -/
theorem Counted.sound_iff (hs : Counted s) (h : step cap s a = some s') :
    Sound cap s s' a ↔ Harmless s a := by
  cases a with
  | takeSlot i capRead =>
    obtain ⟨hi, hsome⟩ := Option.ite_none_right_eq_some.mp h
    obtain rfl := Option.some.inj hsome
    refine iff_of_true (fun hgranted => ?_) trivial
    have hlt : i < s.calls.length := (List.getElem?_eq_some_iff.mp hi).1
    unfold takeSlot at hgranted
    split_ifs at hgranted with hread hfull
    · simp [hlt] at hgranted
    · rw [← hs]
      exact lt_of_not_ge hfull
    · simp [hlt] at hgranted
  | releaseBackground i =>
    obtain ⟨-, hsome⟩ := Option.ite_none_right_eq_some.mp h
    obtain rfl := Option.some.inj hsome
    -- The counter stays at its floor just where no slot is counted.
    have hfloor : s.inflightBackground - 1 = s.inflightBackground ↔ held s = 0 := by
      rw [← hs]
      omega
    exact forall_congr' fun _ => hfloor
  | _ => exact Iff.rfl

/-- In a run whose releases are harmless, a step that follows is sound just in case it is harmless
too: fewer than the cap are held when a slot is counted, and no release frees the slot of another,
until a slot that was not counted is released while one that was is held. -/
theorem sound_iff_harmless (h : (machine cap).Reach Harmless s) (hstep : step cap s a = some s') :
    Sound cap s s' a ↔ Harmless s a := by
  have hcounted : Counted s :=
    h.invariant (fun s hinit => by obtain rfl : s = .initial := hinit; rfl)
      fun s a s' hs ha hs' => hs.of_step ha hs'
  exact hcounted.sound_iff hstep

/-- A slot that was granted without being counted, beside one that was counted. -/
def State.twoSlots : State := ⟨false, none, 0, 1, [.allowed, .granted]⟩

/-- The cap cannot be read for the first call, and can for the second. -/
def twoAcquired : List Act :=
  [.acquire, .isChatIdle 0 0 (some 60), .takeSlot 0 false,
    .acquire, .isChatIdle 1 0 (some 60), .takeSlot 1 true]

theorem reach_twoSlots : (machine 1).Reach Harmless .twoSlots :=
  have hrun : (machine 1).runWithin Harmless .initial twoAcquired = some .twoSlots := by decide
  .of_runWithin (fun _ _ h => h) (.init rfl) hrun

theorem sound_iff_harmless_twoSlots :
    Sound 1 .twoSlots ⟨false, none, 0, 0, [.released, .granted]⟩ (.releaseBackground 0) ↔
      Harmless .twoSlots (.releaseBackground 0) :=
  sound_iff_harmless reach_twoSlots rfl

/-- The release of the first slot frees that of the second, and a third is then granted. -/
theorem two_held_at_once :
    (∃ s s' i, (machine 1).Reachable s ∧ step 1 s (.releaseBackground i) = some s' ∧
      s.calls[i]? = some .allowed ∧ s'.inflightBackground < s.inflightBackground) ∧
    ∃ s s' i, (machine 1).Reachable s ∧ step 1 s (.takeSlot i true) = some s' ∧
      s'.calls[i]? = some .granted ∧ ¬(held s : ℤ) < 1 := by
  have hreach : (machine 1).Reachable .twoSlots := reach_twoSlots.mono fun _ _ _ => trivial
  constructor
  · exact ⟨.twoSlots, ⟨false, none, 0, 0, [.released, .granted]⟩, 0, hreach, rfl, rfl, by decide⟩
  · refine ⟨⟨false, none, 0, 0, [.released, .granted, .idle]⟩,
      ⟨false, none, 0, 1, [.released, .granted, .granted]⟩, 2, ?_, rfl, rfl, by decide⟩
    have hrun : (machine 1).runWithin (fun _ _ => True) .twoSlots
        [.releaseBackground 0, .acquire, .isChatIdle 2 0 (some 60)] =
          some ⟨false, none, 0, 0, [.released, .granted, .idle]⟩ := by decide
    exact .of_runWithin (fun _ _ h => h) hreach hrun

end Companion.Bridge.Throttle

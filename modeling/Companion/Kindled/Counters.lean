import Companion.Memory.Text
import Companion.Runs
import Mathlib.Algebra.Order.Ring.Int
import Mathlib.Data.List.Count

/-!
# The daily counters of a peer

The `peer_counters` row of one peer (`brain/kindled_link/store.py`), with any number of callers,
each with its own label for today.

`_ensure_counter_row` reads the label of the row, and what it writes is a transaction of its own
that runs up to the commit of the call. So a call is two steps, and others may act in between. The
row has the counts of one label. A call with a label that another label has replaced starts the
counts of its label again from zero, and so may a call whose read is stale.
-/

namespace Companion.Kindled.Counters

open Companion.Memory Companion.Runs

/-- A row of `peer_counters`. -/
structure Row where
  resetDate : Text
  outbound : ℕ
  provider : ℕ
  deriving DecidableEq

/-- The calls that write. -/
inductive Call
  | tryReserveOutbound
  | tryReserveProvider
  | releaseProviderSlot
  | incrOutbound
  | incrProvider
  deriving DecidableEq

/-- The two caps. -/
structure Caps where
  outbound : ℕ
  provider : ℕ

/-- `get_counters` -/
def getCounters (row : Option Row) (today : Text) : ℕ × ℕ :=
  match row with
  | none => (0, 0)
  | some r => if r.resetDate ≠ today then (0, 0) else (r.outbound, r.provider)

/-- The write of `_ensure_counter_row`, whose read saw the label `seen`, or no row. The `INSERT`
raises where there is a row by now, and the `UPDATE` has no condition on the label. -/
def ensureCounterRow (seen : Option Text) (today : Text) (row : Option Row) : Option Row :=
  match seen, row with
  | none, none => some ⟨today, 0, 0⟩
  | none, some _ => none
  | some _, none => none
  | some label, some r => if label ≠ today then some ⟨today, 0, 0⟩ else some r

/-- The `UPDATE` of a call, and whether a slot was reserved. -/
def update (caps : Caps) (r : Row) : Call → Row × Bool
  | .tryReserveOutbound =>
    if r.outbound < caps.outbound then ({ r with outbound := r.outbound + 1 }, true) else (r, false)
  | .tryReserveProvider =>
    if r.provider < caps.provider then ({ r with provider := r.provider + 1 }, true) else (r, false)
  | .releaseProviderSlot => ({ r with provider := r.provider - 1 }, false)
  | .incrOutbound => ({ r with outbound := r.outbound + 1 }, false)
  | .incrProvider => ({ r with provider := r.provider + 1 }, false)

/-- A call between its read and its write. -/
structure Pending where
  call : Call
  today : Text
  /-- The label that the read saw, where there was a row. -/
  seen : Option Text
  deriving DecidableEq

/-- The row, the calls that are under way, and what was made with each label. -/
structure State where
  row : Option Row
  pending : List Pending
  /-- The labels of the outbound slots that were reserved. -/
  outbound : List Text
  /-- The labels of the provider slots that were reserved. -/
  provider : List Text
  /-- The labels of the provider slots that were released. -/
  released : List Text
  /-- The labels that another label has replaced in the row. -/
  replaced : List Text
  deriving DecidableEq

namespace State

/-- The label of the row. -/
def label (s : State) : Option Text := s.row.map (·.resetDate)

/-- A call has come to its end. -/
def finish (s : State) (p : Pending) : State := { s with pending := s.pending.erase p }

/-- The labels that are replaced where the row gets a new label. -/
def replacing (s : State) (today : Text) : List Text :=
  match s.label with
  | none => s.replaced
  | some label => if label = today then s.replaced else label :: s.replaced

/-- What a call leaves that has committed. -/
def commit (s : State) (caps : Caps) (p : Pending) (r : Row) : State where
  row := some (update caps r p.call).1
  pending := s.pending.erase p
  outbound := if p.call = .tryReserveOutbound ∧ (update caps r p.call).2 then p.today :: s.outbound
    else s.outbound
  provider := if p.call = .tryReserveProvider ∧ (update caps r p.call).2 then p.today :: s.provider
    else s.provider
  released := if p.call = .releaseProviderSlot then p.today :: s.released else s.released
  replaced := s.replacing r.resetDate

end State

/-- The steps of the callers: a read, the write of a call, and one that raises or never comes. -/
inductive Step
  | get (today : Text)
  | read (call : Call) (today : Text)
  | write (p : Pending)
  | fail (p : Pending)
  deriving DecidableEq

/-- The state after a step. -/
def step (caps : Caps) (s : State) : Step → Option State
  | .get _ => some s
  | .read call today => some { s with pending := ⟨call, today, s.label⟩ :: s.pending }
  | .write p =>
    if p ∈ s.pending then
      match ensureCounterRow p.seen p.today s.row with
      | none => some (s.finish p)
      | some r => some (s.commit caps p r)
    else none
  | .fail p => if p ∈ s.pending then some (s.finish p) else none

def machine (caps : Caps) : Machine State Step where
  init s := s = ⟨none, [], [], [], [], []⟩
  step := step caps

/-- A call whose read saw its own label finds it in the row at its write. One whose read saw another
finds at its write that its label is not in the row, and that no other has replaced it. -/
def Fresh (s : State) : Step → Prop
  | .write p =>
    match p.seen with
    | none => True
    | some label =>
      if label = p.today then s.label = some p.today
      else s.label ≠ some p.today ∧ p.today ∉ s.replaced
  | _ => True

instance (s : State) (a : Step) : Decidable (Fresh s a) := by
  unfold Fresh
  split
  · split
    · infer_instance
    · split <;> infer_instance
  · infer_instance

/-- For each label, the reservations less the releases are within the caps. -/
def WithinCaps (caps : Caps) (s : State) : Prop :=
  ∀ d, s.provider.count d ≤ caps.provider + s.released.count d ∧
    s.outbound.count d ≤ caps.outbound

/-- What was reserved with the label of the row is in its counts, and nothing was reserved with a
label that no row has had. -/
structure Inv (caps : Caps) (s : State) : Prop where
  within : WithinCaps caps s
  provider : ∀ r, s.row = some r →
    s.provider.count r.resetDate ≤ r.provider + s.released.count r.resetDate
  outbound : ∀ r, s.row = some r → s.outbound.count r.resetDate ≤ r.outbound
  unused : ∀ d, s.label ≠ some d → d ∉ s.replaced → d ∉ s.provider ∧ d ∉ s.outbound
  empty : s.row = none → s.replaced = []

variable {caps : Caps} {s s' : State} {p : Pending} {r : Row}

theorem inv_start (caps : Caps) : Inv caps ⟨none, [], [], [], [], []⟩ where
  within _ := ⟨Nat.zero_le _, Nat.zero_le _⟩
  provider _ h := nomatch h
  outbound _ h := nomatch h
  unused _ _ _ := ⟨List.not_mem_nil, List.not_mem_nil⟩
  empty _ := rfl

/-- The calls that are under way do not matter. -/
theorem Inv.of_pending (hi : Inv caps s) (pending : List Pending) :
    Inv caps { s with pending := pending } :=
  ⟨hi.within, hi.provider, hi.outbound, hi.unused, hi.empty⟩

/-- The row is new, or has a label that is new to it, so that nothing was reserved with it. -/
theorem Inv.reset {today : Text} (hi : Inv caps s) (hlabel : s.label ≠ some today)
    (hreplaced : today ∉ s.replaced) :
    Inv caps { s with row := some ⟨today, 0, 0⟩, replaced := s.replacing today } := by
  obtain ⟨hprovider, houtbound⟩ := hi.unused today hlabel hreplaced
  refine ⟨hi.within, ?_, ?_, fun d hd hd' => ?_, fun h => nomatch h⟩
  · rintro _ ⟨⟩
    have hzero : s.provider.count today = 0 := List.count_eq_zero.mpr hprovider
    exact hzero.le.trans (Nat.zero_le _)
  · rintro _ ⟨⟩
    exact (List.count_eq_zero.mpr houtbound).le
  · -- A label that is neither the new one nor a replaced one was not that of the row before.
    have hne : today ≠ d := fun heq => hd (congrArg some heq)
    simp only [State.replacing] at hd'
    cases hrow : s.label with
    | none =>
      rw [hrow] at hd'
      exact hi.unused d (by rw [hrow]; exact nofun) hd'
    | some label =>
      have hlabel' : label ≠ today := fun heq => hlabel (hrow.trans (congrArg some heq))
      simp only [hrow, hlabel', if_false, List.mem_cons, not_or] at hd'
      refine hi.unused d ?_ hd'.2
      rw [hrow]
      exact fun heq => hd'.1 (Option.some.inj heq).symm

/-- The row that a call finds or makes has the label of the call. -/
theorem Inv.ensured (hi : Inv caps s) (hfresh : Fresh s (.write p))
    (h : ensureCounterRow p.seen p.today s.row = some r) :
    r.resetDate = p.today ∧
      Inv caps { s with row := some r, replaced := s.replacing r.resetDate } := by
  unfold ensureCounterRow at h
  simp only [Fresh] at hfresh
  split at h
  next hseen hrow =>
    cases h
    have hlabel : s.label = none := by rw [State.label, hrow]; rfl
    refine ⟨rfl, hi.reset ?_ ?_⟩
    · rw [hlabel]
      exact nofun
    · rw [hi.empty hrow]
      exact List.not_mem_nil
  next => cases h
  next => cases h
  next label r₀ hseen hrow =>
    rw [hseen] at hfresh
    simp only at hfresh
    by_cases hown : label = p.today
    · rw [if_neg (not_not.mpr hown)] at h
      cases h
      rw [if_pos hown] at hfresh
      have hdate : r.resetDate = p.today := by
        rw [State.label, hrow] at hfresh
        exact Option.some.inj hfresh
      have hreplacing : s.replacing r.resetDate = s.replaced := by
        rw [State.replacing, hfresh, hdate]
        exact if_pos rfl
      refine ⟨hdate, ?_⟩
      rw [hreplacing, ← hrow]
      exact hi
    · rw [if_pos hown] at h
      cases h
      rw [if_neg hown] at hfresh
      exact ⟨rfl, hi.reset hfresh.1 hfresh.2⟩

/-- A list to which a label may have been added. -/
structure Adds (today : Text) (added : ℕ) (labels labels' : List Text) : Prop where
  self : labels'.count today = labels.count today + added
  other : ∀ d, d ≠ today → labels'.count d = labels.count d

theorem adds_ite (today : Text) (labels : List Text) (b : Prop) [Decidable b] :
    Adds today (if b then 1 else 0) labels (if b then today :: labels else labels) := by
  by_cases h : b
  · rw [if_pos h, if_pos h]
    exact ⟨List.count_cons_self, fun d hd => List.count_cons_of_ne (Ne.symm hd)⟩
  · rw [if_neg h, if_neg h]
    exact ⟨rfl, fun _ _ => rfl⟩

/-- Other labels are not added. -/
theorem Adds.not_mem {today d : Text} {n : ℕ} {labels labels' : List Text}
    (h : Adds today n labels labels') (hd : d ≠ today) (hmem : d ∉ labels) : d ∉ labels' := by
  rw [← List.count_eq_zero, h.other d hd]
  exact List.count_eq_zero.mpr hmem

theorem resetDate_update (caps : Caps) (r : Row) (c : Call) :
    (update caps r c).1.resetDate = r.resetDate := by
  cases c with
  | tryReserveOutbound => simp only [update]; split_ifs <;> rfl
  | tryReserveProvider => simp only [update]; split_ifs <;> rfl
  | releaseProviderSlot => rfl
  | incrOutbound => rfl
  | incrProvider => rfl

/-- An outbound slot that is reserved is counted, and the count is then within the cap. -/
theorem outbound_update (caps : Caps) (r : Row) (c : Call) :
    r.outbound + (if c = .tryReserveOutbound ∧ (update caps r c).2 then 1 else 0) ≤
        (update caps r c).1.outbound ∧
      (c = .tryReserveOutbound ∧ (update caps r c).2 →
        (update caps r c).1.outbound ≤ caps.outbound) := by
  cases c with
  | tryReserveOutbound =>
    by_cases hroom : r.outbound < caps.outbound
    · simp [update, hroom] <;> omega
    · simp [update, hroom]
  | tryReserveProvider =>
    by_cases hroom : r.provider < caps.provider
    · simp [update, hroom]
    · simp [update, hroom]
  | releaseProviderSlot => simp [update]
  | incrOutbound => simp [update]
  | incrProvider => simp [update]

/-- So is a provider slot, but for those that are released. -/
theorem provider_update (caps : Caps) (r : Row) (c : Call) :
    r.provider + (if c = .tryReserveProvider ∧ (update caps r c).2 then 1 else 0) ≤
        (update caps r c).1.provider + (if c = .releaseProviderSlot then 1 else 0) ∧
      (c = .tryReserveProvider ∧ (update caps r c).2 →
        (update caps r c).1.provider ≤ caps.provider) := by
  cases c with
  | tryReserveOutbound =>
    by_cases hroom : r.outbound < caps.outbound
    · simp [update, hroom]
    · simp [update, hroom]
  | tryReserveProvider =>
    by_cases hroom : r.provider < caps.provider
    · simp [update, hroom] <;> omega
    · simp [update, hroom]
  | releaseProviderSlot =>
    simp [update] <;> omega
  | incrOutbound => simp [update]
  | incrProvider => simp [update]

/-- A call counts what it reserves in the row of its own label. -/
theorem Inv.updated (hi : Inv caps s) (hrow : s.row = some r) (hdate : r.resetDate = p.today) :
    Inv caps { s.commit caps p r with replaced := s.replaced } := by
  have hprovider := hi.provider r hrow
  have houtbound := hi.outbound r hrow
  have hlabel : s.label = some p.today := by rw [State.label, hrow, ← hdate]; rfl
  rw [hdate] at hprovider houtbound
  have hout := adds_ite p.today s.outbound
    (p.call = .tryReserveOutbound ∧ (update caps r p.call).2)
  have hprov := adds_ite p.today s.provider
    (p.call = .tryReserveProvider ∧ (update caps r p.call).2)
  have hrel := adds_ite p.today s.released (p.call = .releaseProviderSlot)
  have hdate' : (update caps r p.call).1.resetDate = p.today :=
    (resetDate_update caps r p.call).trans hdate
  obtain ⟨houtCount, houtCap⟩ := outbound_update caps r p.call
  obtain ⟨hprovCount, hprovCap⟩ := provider_update caps r p.call
  refine ⟨fun d => ?_, ?_, ?_, fun d hd hd' => ?_, fun h => nomatch h⟩
  · obtain ⟨hprovWithin, houtWithin⟩ := hi.within d
    show (ite _ _ _ : List Text).count d ≤ _ + (ite _ _ _ : List Text).count d ∧
      (ite _ _ _ : List Text).count d ≤ _
    by_cases hd : d = p.today
    · subst hd
      rw [hout.self, hprov.self, hrel.self]
      constructor
      · split_ifs at hprovCount ⊢ with hreserved
        all_goals first | (have hcap := hprovCap hreserved; omega) | omega
      · split_ifs at houtCount ⊢ with hreserved
        · have hcap := houtCap hreserved
          omega
        · omega
    · rw [hout.other d hd, hprov.other d hd, hrel.other d hd]
      exact ⟨hprovWithin, houtWithin⟩
  · rintro _ ⟨⟩
    show (ite _ _ _ : List Text).count _ ≤ _ + (ite _ _ _ : List Text).count _
    rw [hdate', hprov.self, hrel.self]
    omega
  · rintro _ ⟨⟩
    show (ite _ _ _ : List Text).count _ ≤ _
    rw [hdate', hout.self]
    omega
  · have hne : d ≠ p.today := by
      rintro rfl
      exact hd (congrArg some hdate')
    obtain ⟨hunProv, hunOut⟩ := hi.unused d (by rw [hlabel]; simpa using hne.symm) hd'
    exact ⟨hprov.not_mem hne hunProv, hout.not_mem hne hunOut⟩

theorem Inv.step {a : Step} (hi : Inv caps s) (hfresh : Fresh s a)
    (h : step caps s a = some s') : Inv caps s' := by
  cases a with
  | get today =>
    cases h
    exact hi
  | read call today =>
    cases h
    exact hi.of_pending _
  | fail p =>
    simp only [Counters.step] at h
    split_ifs at h
    cases h
    exact hi.of_pending _
  | write p =>
    simp only [Counters.step] at h
    split_ifs at h
    cases hrow : ensureCounterRow p.seen p.today s.row with
    | none =>
      rw [hrow] at h
      cases h
      exact hi.of_pending _
    | some r =>
      rw [hrow] at h
      cases h
      obtain ⟨hdate, hensured⟩ := hi.ensured hfresh hrow
      exact hensured.updated rfl hdate

/-- What `get_counters` replies for a label that was not replaced covers what was reserved with it.
-/
theorem Inv.le_getCounters (hi : Inv caps s) {today : Text} (h : today ∉ s.replaced) :
    s.outbound.count today ≤ (getCounters s.row today).1 ∧
      s.provider.count today ≤ (getCounters s.row today).2 + s.released.count today := by
  by_cases hlabel : s.label = some today
  · obtain ⟨r, hrow, rfl⟩ := Option.map_eq_some_iff.mp hlabel
    have hget : getCounters s.row r.resetDate = (r.outbound, r.provider) := by
      rw [hrow]
      exact if_neg (not_not.mpr rfl)
    rw [hget]
    exact ⟨hi.outbound r hrow, hi.provider r hrow⟩
  · obtain ⟨hprovider, houtbound⟩ := hi.unused today hlabel h
    rw [List.count_eq_zero.mpr hprovider, List.count_eq_zero.mpr houtbound]
    exact ⟨Nat.zero_le _, Nat.zero_le _⟩

/-- In a run in which each call finds the label that it has read, or one that its own may replace,
the reservations with a label, less the releases with it, are within the caps. -/
theorem reservations_within_caps (caps : Caps) (s : State)
    (hs : (machine caps).Reach Fresh s) : WithinCaps caps s := by
  have hinv : Inv caps s := hs.invariant (by rintro _ rfl; exact inv_start caps)
    fun _ _ _ hi hfresh hstep => Inv.step hi hfresh hstep
  exact hinv.within

/-- A call from its read to its write, with no other in between. -/
def alone (call : Call) (seen : Option Text) (today : Text) : List Step :=
  [.read call today, .write ⟨call, today, seen⟩]

/-- A slot of the day before midnight, and one of the day after. -/
theorem reservations_within_caps_midnight :
    ∃ s, (machine ⟨1, 1⟩).Reach Fresh s ∧
      (s.outbound = ["d2".toList, "d1".toList] ∧ WithinCaps ⟨1, 1⟩ s) := by
  obtain ⟨s, hs, hp⟩ := Machine.exists_reach_of_runWithin (M := machine ⟨1, 1⟩) (D := Fresh)
    (fun _ _ h => h) rfl
    (alone .tryReserveOutbound none "d1".toList ++
      alone .tryReserveOutbound (some "d1".toList) "d2".toList)
    (fun s => s.outbound = ["d2".toList, "d1".toList]) (by decide)
  exact ⟨s, hs, of_decide_eq_true hp, reservations_within_caps _ s hs⟩

/-- A caller whose tick began before midnight reserves after one that has used the next label. -/
theorem cap_exceeded : ∃ s, (machine ⟨1, 1⟩).Reachable s ∧ ¬WithinCaps ⟨1, 1⟩ s := by
  obtain ⟨s, hs, hp⟩ := Machine.exists_reach_of_runWithin (M := machine ⟨1, 1⟩)
    (D := fun _ _ => True) (fun _ _ h => h) rfl
    (alone .tryReserveOutbound none "d1".toList ++
      alone .tryReserveOutbound (some "d1".toList) "d2".toList ++
      alone .tryReserveOutbound (some "d2".toList) "d1".toList)
    (fun s => s.outbound.count "d1".toList = 2) (by decide)
  have hcount : s.outbound.count "d1".toList = 2 := of_decide_eq_true hp
  refine ⟨s, hs, fun hwithin => ?_⟩
  have hle := (hwithin "d1".toList).2
  rw [hcount] at hle
  exact absurd hle (by decide)

end Companion.Kindled.Counters

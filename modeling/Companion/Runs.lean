import Mathlib.Order.Basic

/-!
# Machines and their runs

A machine is a set of initial states with a partial step function: `step s a` is the state that the
labelled step `a` leads to, or `none` where `a` is not enabled. All that a step leaves open (which
party moves, what a model answers, which write fails, where a process stops) is in its label, so
that a machine can be evaluated.

`Reach C s` says that a run reaches `s` each of whose steps meets the condition `C` in the state it
starts from. `Reach.invariant` is the induction over runs, and `exists_reach_of_runWithin` turns an
evaluated run into a state that is reached.
-/

namespace Companion.Runs

variable {σ α : Type*}

/-- A machine over states `σ` and step labels `α`. -/
structure Machine (σ α : Type*) where
  /-- The states a run may start in. -/
  init : σ → Prop
  /-- The state a step leads to, or `none` where it is not enabled. -/
  step : σ → α → Option σ

namespace Machine

/-- The states reached by runs whose steps all meet `C`. -/
inductive Reach (M : Machine σ α) (C : σ → α → Prop) : σ → Prop
  | init {s : σ} : M.init s → Reach M C s
  | step {s s' : σ} {a : α} : Reach M C s → C s a → M.step s a = some s' → Reach M C s'

/-- The states reached by any run. -/
abbrev Reachable (M : Machine σ α) : σ → Prop := M.Reach fun _ _ => True

variable {M : Machine σ α} {C D : σ → α → Prop}

/-- A weaker condition admits every run that a stronger one does. -/
theorem Reach.mono (hCD : ∀ s a, C s a → D s a) {s : σ} (h : M.Reach C s) : M.Reach D s := by
  induction h with
  | init h0 => exact .init h0
  | step _ hC hstep ih => exact .step ih (hCD _ _ hC) hstep

/-- What holds initially, and is preserved by every step that meets the condition, holds in every
state reached. -/
theorem Reach.invariant {I : σ → Prop} (hinit : ∀ s, M.init s → I s)
    (hstep : ∀ s a s', I s → C s a → M.step s a = some s' → I s') {s : σ} (h : M.Reach C s) :
    I s := by
  induction h with
  | init h0 => exact hinit _ h0
  | step _ hC hs ih => exact hstep _ _ _ ih hC hs

/-- The state after a list of steps, or `none` where one of them is not enabled or does not meet
`D`. -/
def runWithin (M : Machine σ α) (D : σ → α → Prop) [∀ s a, Decidable (D s a)] :
    σ → List α → Option σ
  | s, [] => some s
  | s, a :: as => if D s a then (M.step s a).bind fun s' => M.runWithin D s' as else none

variable [∀ s a, Decidable (D s a)]

theorem runWithin_append (s : σ) (as bs : List α) :
    M.runWithin D s (as ++ bs) = (M.runWithin D s as).bind fun s' => M.runWithin D s' bs := by
  induction as generalizing s with
  | nil => rfl
  | cons a as ih =>
    rw [List.cons_append, runWithin, runWithin]
    split_ifs
    · simp only [ih, Option.bind_assoc]
    · rfl

/-- A run within `D` whose first state is reached reaches its last state. -/
theorem Reach.of_runWithin (hDC : ∀ s a, D s a → C s a) {s s' : σ} {as : List α} (h : M.Reach C s)
    (hrun : M.runWithin D s as = some s') : M.Reach C s' := by
  induction as generalizing s with
  | nil =>
    obtain rfl : s = s' := Option.some.inj hrun
    exact h
  | cons a as ih =>
    rw [runWithin] at hrun
    split_ifs at hrun with hD
    obtain ⟨t, ht, hrest⟩ := Option.bind_eq_some_iff.mp hrun
    exact ih (.step h (hDC _ _ hD) ht) hrest

/-- A run within `D` that ends in a state with the property `p` shows such a state to be reached. -/
theorem exists_reach_of_runWithin (hDC : ∀ s a, D s a → C s a) {s : σ} (h : M.init s)
    (as : List α) (p : σ → Bool) (hrun : (M.runWithin D s as).any p = true) :
    ∃ s', M.Reach C s' ∧ p s' = true := by
  obtain ⟨s', hs', hp⟩ := (Option.any_eq_true _ _).mp hrun
  exact ⟨s', .of_runWithin hDC (.init h) hs', hp⟩

end Machine

end Companion.Runs

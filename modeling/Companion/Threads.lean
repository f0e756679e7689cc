import Companion.Effects
import Companion.Runs

/-!
# Requests that run concurrently

Requests, each served by a program of calls (`Companion.Effects`), over one shared state. A call is
atomic; between two calls of a request any others may act. `exec s q` is the state that a call
leaves and its reply, or none where the outside does not let the call come out so.

What holds of the state is shown call by call (`reach_invariant`). What one request does is a run of
its program, whatever the others do in between (`runs_of_reach`), so that it is verified by the
rules of `Runs` alone.
-/

namespace Companion.Threads

open Companion.Effects Companion.Runs

variable {σ ρ Q : Type} {R : Q → Type} {α : Type}

/-- A request that is being served: what it has called so far, and what it has still to do. -/
structure Thread (ρ : Type) {Q : Type} (R : Q → Type) (α : Type) where
  request : ρ
  trace : Trace R
  rest : Prog R α

/-- The shared state, and the requests in the order in which they came. -/
structure Pool (σ ρ : Type) {Q : Type} (R : Q → Type) (α : Type) where
  state : σ
  threads : List (Thread ρ R α)

/-- A request comes, or one makes its next call. -/
inductive Act (ρ : Type)
  | start (request : ρ)
  | turn (i : ℕ)
  deriving DecidableEq

variable (handle : ρ → Prog R α) (exec : σ → (q : Q) → Option (σ × Option (R q)))

/-- The next call of a request. -/
def turn (p : Pool σ ρ R α) (i : ℕ) (t : Thread ρ R α) : Option (Pool σ ρ R α) :=
  match t.rest with
  | .call q k =>
    (exec p.state q).map fun result =>
      ⟨result.1, p.threads.set i ⟨t.request, t.trace ++ [⟨q, result.2⟩], k result.2⟩⟩
  | _ => none

def step (p : Pool σ ρ R α) : Act ρ → Option (Pool σ ρ R α)
  | .start request => some { p with threads := p.threads ++ [⟨request, [], handle request⟩] }
  | .turn i => (p.threads[i]?).bind fun t => turn exec p i t

/-- The requests over a state that meets `init`. -/
def machine (init : σ → Prop) : Machine (Pool σ ρ R α) (Act ρ) where
  init p := init p.state ∧ p.threads = []
  step := step handle exec

/-- The next call of the thread meets the condition in this state. -/
def Thread.Meets (C : σ → Q → Prop) (s : σ) (t : Thread ρ R α) : Prop :=
  match t.rest with
  | .call q _ => C s q
  | _ => True

/-- Each call meets the condition in the state that it finds. -/
def Meets (C : σ → Q → Prop) (p : Pool σ ρ R α) : Act ρ → Prop
  | .start _ => True
  | .turn i => ∀ t ∈ p.threads[i]?, t.Meets C p.state

instance (C : σ → Q → Prop) [∀ s q, Decidable (C s q)] (s : σ) (t : Thread ρ R α) :
    Decidable (t.Meets C s) := by
  unfold Thread.Meets
  split <;> infer_instance

instance (C : σ → Q → Prop) [∀ s q, Decidable (C s q)] (p : Pool σ ρ R α) (a : Act ρ) :
    Decidable (Meets C p a) := by
  unfold Meets
  split <;> infer_instance

variable {handle exec} {init : σ → Prop} {C : σ → Q → Prop} {p p' : Pool σ ρ R α}

/-- What a turn does: a thread makes its next call. -/
theorem step_turn (handle : ρ → Prog R α) {i : ℕ} (h : step handle exec p (.turn i) = some p') :
    ∃ t q k s r, p.threads[i]? = some t ∧ t.rest = .call q k ∧ exec p.state q = some (s, r) ∧
      p' = ⟨s, p.threads.set i ⟨t.request, t.trace ++ [⟨q, r⟩], k r⟩⟩ := by
  obtain ⟨t, ht, hturn⟩ := Option.bind_eq_some_iff.mp h
  unfold turn at hturn
  split at hturn
  next q k hrest =>
    obtain ⟨⟨s, r⟩, hexec, rfl⟩ := Option.map_eq_some_iff.mp hturn
    exact ⟨t, q, k, s, r, ht, hrest, hexec, rfl⟩
  next => cases hturn

/-- The call of a turn meets the condition that the turn meets. -/
theorem Meets.call {i : ℕ} {t : Thread ρ R α} {q : Q} {k : Option (R q) → Prog R α}
    (h : Meets C p (.turn i)) (ht : p.threads[i]? = some t) (hrest : t.rest = .call q k) :
    C p.state q := by
  have hmeets : t.Meets C p.state := h t ht
  rw [Thread.Meets, hrest] at hmeets
  exact hmeets


/-- With what it has still to do, what a thread has called is a run of its program. -/
theorem runs_of_reach (h : (machine handle exec init).Reach (Meets C) p) :
    ∀ t ∈ p.threads, ∀ v o, Runs t.rest v o → Runs (handle t.request) (t.trace ++ v) o := by
  induction h with
  | init h0 =>
    rw [h0.2]
    exact fun t ht => absurd ht List.not_mem_nil
  | @step p p' a _ _ hstep hp =>
    cases a with
    | start request =>
      obtain rfl := Option.some.inj hstep
      intro t ht v o hv
      rcases List.mem_append.mp ht with ht | ht
      · exact hp t ht v o hv
      · obtain rfl := List.mem_singleton.mp ht
        exact hv
    | turn i =>
      obtain ⟨t, q, k, s, r, ht, hrest, -, rfl⟩ := step_turn handle hstep
      intro t' ht' v o hv
      rcases List.mem_or_eq_of_mem_set ht' with ht' | rfl
      · exact hp t' ht' v o hv
      · have hrun : Runs t.rest (⟨q, r⟩ :: v) o := by
          rw [hrest]
          exact ⟨r, v, rfl, hv⟩
        have hthread := hp t (List.mem_of_getElem? ht) _ o hrun
        rwa [List.append_cons] at hthread

/-- A request comes to the call `q` after calls that all meet `E`. -/
def Comes (handle : ρ → Prog R α) (E : Event R → Prop) (q : Q) : Prop :=
  ∃ request u r v o, (∀ e ∈ u, E e) ∧ Runs (handle request) (u ++ ⟨q, r⟩ :: v) o

/-- What holds initially, and is preserved by every call that meets the condition, holds of the
state that is reached. What holds of a call when it is made, and is preserved by all others, holds
of every call that a thread has made, so that each may rely on what its request has called before.
-/
theorem reach_invariant {I : σ → Prop} {E : σ → Event R → Prop} (hinit : ∀ s, init s → I s)
    (hexec : ∀ s q s' r, I s → C s q → Comes handle (E s) q → exec s q = some (s', r) →
      I s' ∧ E s' ⟨q, r⟩ ∧ ∀ e, E s e → E s' e)
    (h : (machine handle exec init).Reach (Meets C) p) :
    I p.state ∧ ∀ t ∈ p.threads, ∀ e ∈ t.trace, E p.state e := by
  induction h with
  | init h0 =>
    refine ⟨hinit _ h0.1, ?_⟩
    rw [h0.2]
    exact fun t ht => absurd ht List.not_mem_nil
  | @step p p' a hreach hC hstep hp =>
    obtain ⟨hI, hE⟩ := hp
    cases a with
    | start request =>
      obtain rfl := Option.some.inj hstep
      refine ⟨hI, fun t ht e he => ?_⟩
      rcases List.mem_append.mp ht with ht | ht
      · exact hE t ht e he
      · obtain rfl := List.mem_singleton.mp ht
        exact absurd he List.not_mem_nil
    | turn i =>
      obtain ⟨t, q, k, s, r, ht, hrest, hs, rfl⟩ := step_turn handle hstep
      have hmem := List.mem_of_getElem? ht
      have hcomes : Comes handle (E p.state) q := by
        obtain ⟨v, o, hv⟩ := exists_runs (k r)
        have hrun : Runs t.rest (⟨q, r⟩ :: v) o := by
          rw [hrest]
          exact ⟨r, v, rfl, hv⟩
        exact ⟨t.request, t.trace, r, v, o, hE t hmem, runs_of_reach hreach t hmem _ o hrun⟩
      obtain ⟨hI', hnew, hold⟩ := hexec p.state q s r hI (hC.call ht hrest) hcomes hs
      refine ⟨hI', fun t' ht' e he => ?_⟩
      rcases List.mem_or_eq_of_mem_set ht' with ht' | rfl
      · exact hold e (hE t' ht' e he)
      · rcases List.mem_append.mp he with he | he
        · exact hold e (hE t hmem e he)
        · obtain rfl := List.mem_singleton.mp he
          exact hnew

/-- A thread whose program has ended has made a run of its program to that end. -/
theorem runs_of_ended (h : (machine handle exec init).Reach (Meets C) p) {t : Thread ρ R α}
    (ht : t ∈ p.threads) {o : Option α} (hend : Runs t.rest [] o) :
    Runs (handle t.request) t.trace o := by
  have hrun := runs_of_reach h t ht [] o hend
  rwa [List.append_nil] at hrun

end Companion.Threads

import Mathlib.Logic.Basic
import Mathlib.Data.List.Basic

/-!
# Programs that ask the outside world

A program of calls to an environment that is not modelled: a provider, a relay, a store that others
write to. A call has a reply, or raises; a program ends with a value, or raises. `run` is a program
in one environment, which may answer by all that it was asked before.

`Runs p u o` says that the program may make the calls `u`, each with its reply, and come to the
outcome `o`. It has one rule for each way to make a program (`runs_bind`, `runs_ask`,
`runs_tryExcept`, `runs_ensuring`), so that a program is verified along its text, and what is shown
of it holds in every environment (`runs_run`).
-/

namespace Companion.Effects

variable {Q : Type} {R : Q → Type} {α β : Type}

/-- A program whose calls are `Q`, with replies `R`. -/
inductive Prog (R : Q → Type) (α : Type)
  | ret (a : α)
  | raise
  | call (q : Q) (k : Option (R q) → Prog R α)

/-- A call with its reply, or none where it raised. -/
structure Event (R : Q → Type) where
  query : Q
  reply : Option (R query)

abbrev Trace (R : Q → Type) := List (Event R)

/-- What a call is answered, by all that was called before. -/
abbrev Env (R : Q → Type) := Trace R → (q : Q) → Option (R q)

namespace Prog

/-- One program after another. -/
def bind : Prog R α → (α → Prog R β) → Prog R β
  | ret a, f => f a
  | raise, _ => raise
  | call q k, f => call q fun r => (k r).bind f

instance : Monad (Prog R) where
  pure := ret
  bind := bind

/-- A call whose exception is passed on. -/
def ask (q : Q) : Prog R (R q) :=
  call q fun
    | some r => ret r
    | none => raise

/-- `try: p except Exception: handler` -/
def tryExcept : Prog R α → Prog R α → Prog R α
  | ret a, _ => ret a
  | raise, handler => handler
  | call q k, handler => call q fun r => (k r).tryExcept handler

/-- `try: p finally: cleanup` -/
def ensuring : Prog R α → Prog R Unit → Prog R α
  | ret a, cleanup => cleanup.bind fun _ => ret a
  | raise, cleanup => cleanup.bind fun _ => raise
  | call q k, cleanup => call q fun r => (k r).ensuring cleanup

/-- The calls and the outcome in an environment, after a trace. -/
def run (env : Env R) : Prog R α → Trace R → Trace R × Option α
  | ret a, _ => ([], some a)
  | raise, _ => ([], none)
  | call q k, t =>
    let rest := (k (env t q)).run env (t ++ [⟨q, env t q⟩])
    (⟨q, env t q⟩ :: rest.1, rest.2)

end Prog

open Prog

/-- The program may make these calls and come to this outcome, which is none where it raises. -/
def Runs : Prog R α → Trace R → Option α → Prop
  | ret a, u, o => u = [] ∧ o = some a
  | raise, u, o => u = [] ∧ o = none
  | call q k, u, o => ∃ r v, u = ⟨q, r⟩ :: v ∧ Runs (k r) v o

/-- What a program does in an environment is one of its runs. -/
theorem runs_run (env : Env R) (p : Prog R α) (t : Trace R) :
    Runs p (p.run env t).1 (p.run env t).2 := by
  induction p generalizing t with
  | ret a => exact ⟨rfl, rfl⟩
  | raise => exact ⟨rfl, rfl⟩
  | call q k ih => exact ⟨_, _, rfl, ih _ _⟩

/-- In an environment each call of a run is answered by what was called before it. -/
theorem reply_of_run {env : Env R} {p : Prog R α} {t v w : Trace R} {e : Event R}
    (h : (p.run env t).1 = v ++ e :: w) : e.reply = env (t ++ v) e.query := by
  induction p generalizing t v with
  | ret a => cases v <;> cases h
  | raise => cases v <;> cases h
  | call q k ih =>
    cases v with
    | nil =>
      obtain ⟨rfl, -⟩ := List.cons.inj h
      rw [List.append_nil]
    | cons e' v =>
      obtain ⟨rfl, hrest⟩ := List.cons.inj h
      rw [List.append_cons]
      exact ih _ hrest

theorem exists_reply_of_mem {env : Env R} {p : Prog R α} {t : Trace R} {e : Event R}
    (h : e ∈ (p.run env t).1) : ∃ v, e.reply = env v e.query := by
  obtain ⟨v, w, heq⟩ := List.append_of_mem h
  exact ⟨t ++ v, reply_of_run heq⟩

/-- A program has a run. -/
theorem exists_runs (p : Prog R α) : ∃ u o, Runs p u o :=
  ⟨_, _, runs_run (fun _ _ => none) p []⟩

variable {u : Trace R}

@[simp]
theorem runs_pure {a : α} {o : Option α} : Runs (pure a : Prog R α) u o ↔ u = [] ∧ o = some a :=
  Iff.rfl

@[simp]
theorem runs_raise {o : Option α} : Runs (raise : Prog R α) u o ↔ u = [] ∧ o = none :=
  Iff.rfl

/-- A call, and its reply or exception. -/
@[simp]
theorem runs_ask {q : Q} {o : Option (R q)} :
    Runs (ask q) u o ↔ u = [⟨q, o⟩] := by
  constructor
  · rintro ⟨r, v, rfl, hv⟩
    cases r with
    | none =>
      obtain ⟨rfl, rfl⟩ := hv
      rfl
    | some r =>
      obtain ⟨rfl, rfl⟩ := hv
      rfl
  · rintro rfl
    refine ⟨o, [], rfl, ?_⟩
    cases o with
    | none => exact ⟨rfl, rfl⟩
    | some r => exact ⟨rfl, rfl⟩

/-- The second program starts where the first one ends, unless that raises. -/
theorem runs_bind {p : Prog R α} {f : α → Prog R β} {o : Option β} :
    Runs (p >>= f) u o ↔
      (∃ a v w, u = v ++ w ∧ Runs p v (some a) ∧ Runs (f a) w o) ∨ (o = none ∧ Runs p u none) := by
  show Runs (p.bind f) u o ↔ _
  induction p generalizing u with
  | ret a =>
    constructor
    · intro h
      exact .inl ⟨a, [], u, rfl, ⟨rfl, rfl⟩, h⟩
    · rintro (⟨a', v, w, rfl, ⟨rfl, heq⟩, h⟩ | ⟨-, -, h⟩)
      · obtain rfl := Option.some.inj heq
        exact h
      · cases h
  | raise =>
    constructor
    · rintro ⟨rfl, rfl⟩
      exact .inr ⟨rfl, rfl, rfl⟩
    · rintro (⟨a, v, w, rfl, ⟨-, h⟩, -⟩ | ⟨rfl, rfl, -⟩)
      · cases h
      · exact ⟨rfl, rfl⟩
  | call q k ih =>
    constructor
    · rintro ⟨r, v, rfl, h⟩
      rcases (ih r).mp h with ⟨a, v, w, rfl, hp, hf⟩ | ⟨rfl, hp⟩
      · exact .inl ⟨a, ⟨q, r⟩ :: v, w, rfl, ⟨r, v, rfl, hp⟩, hf⟩
      · exact .inr ⟨rfl, r, v, rfl, hp⟩
    · rintro (⟨a, _, w, rfl, ⟨r, v, rfl, hp⟩, hf⟩ | ⟨rfl, r, v, rfl, hp⟩)
      · exact ⟨r, v ++ w, rfl, (ih r).mpr (.inl ⟨a, v, w, rfl, hp, hf⟩)⟩
      · exact ⟨r, v, rfl, (ih r).mpr (.inr ⟨rfl, hp⟩)⟩

/-- A run of two programs to a value is a run of each. -/
theorem runs_bind_some {p : Prog R α} {f : α → Prog R β} {b : β} :
    Runs (p >>= f) u (some b) ↔ ∃ a v w, u = v ++ w ∧ Runs p v (some a) ∧ Runs (f a) w (some b) := by
  rw [runs_bind]
  constructor
  · rintro (h | ⟨h, -⟩)
    · exact h
    · cases h
  · exact .inl

/-- A call and what follows on its reply. -/
theorem runs_ask_bind {q : Q} {f : R q → Prog R β} {o : Option β} :
    Runs (ask q >>= f) u o ↔
      (∃ r w, u = ⟨q, some r⟩ :: w ∧ Runs (f r) w o) ∨ (o = none ∧ u = [⟨q, none⟩]) := by
  rw [runs_bind]
  simp only [runs_ask]
  constructor
  · rintro (⟨r, v, w, rfl, rfl, h⟩ | h)
    · exact .inl ⟨r, w, rfl, h⟩
    · exact .inr h
  · rintro (⟨r, w, rfl, h⟩ | h)
    · exact .inl ⟨r, [⟨q, some r⟩], w, rfl, rfl, h⟩
    · exact .inr h

theorem runs_ask_bind_some {q : Q} {f : R q → Prog R β} {b : β} :
    Runs (ask q >>= f) u (some b) ↔ ∃ r w, u = ⟨q, some r⟩ :: w ∧ Runs (f r) w (some b) := by
  rw [runs_ask_bind]
  constructor
  · rintro (h | ⟨h, -⟩)
    · exact h
    · cases h
  · exact .inl

/-- An exception leads to the handler. -/
theorem runs_tryExcept {p handler : Prog R α} {o : Option α} :
    Runs (p.tryExcept handler) u o ↔
      (o ≠ none ∧ Runs p u o) ∨ ∃ v w, u = v ++ w ∧ Runs p v none ∧ Runs handler w o := by
  induction p generalizing u with
  | ret a =>
    constructor
    · rintro ⟨rfl, rfl⟩
      exact .inl ⟨nofun, rfl, rfl⟩
    · rintro (⟨-, h⟩ | ⟨v, w, rfl, ⟨-, h⟩, -⟩)
      · exact h
      · cases h
  | raise =>
    constructor
    · intro h
      exact .inr ⟨[], u, rfl, ⟨rfl, rfl⟩, h⟩
    · rintro (⟨hne, -, rfl⟩ | ⟨v, w, rfl, ⟨rfl, -⟩, h⟩)
      · exact absurd rfl hne
      · exact h
  | call q k ih =>
    constructor
    · rintro ⟨r, v, rfl, h⟩
      rcases (ih r).mp h with ⟨hne, hp⟩ | ⟨v, w, rfl, hp, hh⟩
      · exact .inl ⟨hne, r, v, rfl, hp⟩
      · exact .inr ⟨⟨q, r⟩ :: v, w, rfl, ⟨r, v, rfl, hp⟩, hh⟩
    · rintro (⟨hne, r, v, rfl, hp⟩ | ⟨_, w, rfl, ⟨r, v, rfl, hp⟩, hh⟩)
      · exact ⟨r, v, rfl, (ih r).mpr (.inl ⟨hne, hp⟩)⟩
      · exact ⟨r, v ++ w, rfl, (ih r).mpr (.inr ⟨v, w, rfl, hp, hh⟩)⟩

/-- The cleanup comes last, and its exception takes the place of the outcome. -/
theorem runs_ensuring {p : Prog R α} {cleanup : Prog R Unit} {o : Option α} :
    Runs (p.ensuring cleanup) u o ↔
      ∃ x v w, u = v ++ w ∧ Runs p v x ∧
        ∃ done, Runs cleanup w done ∧ o = done.bind fun _ => x := by
  have hafter : ∀ (x : Option α) (q : Prog R α), (∀ u o, Runs q u o ↔ u = [] ∧ o = x) → ∀ u,
      (Runs (cleanup >>= fun _ => q) u o ↔
        ∃ done, Runs cleanup u done ∧ o = done.bind fun _ => x) := by
    intro x q hq u
    rw [runs_bind]
    constructor
    · rintro (⟨a, v, w, rfl, hv, hw⟩ | ⟨rfl, hu⟩)
      · obtain ⟨rfl, rfl⟩ := (hq _ _).mp hw
        exact ⟨some a, by rwa [List.append_nil], rfl⟩
      · exact ⟨none, hu, rfl⟩
    · rintro ⟨_ | a, hu, rfl⟩
      · exact .inr ⟨rfl, hu⟩
      · exact .inl ⟨a, u, [], (List.append_nil u).symm, hu, (hq _ _).mpr ⟨rfl, rfl⟩⟩
  induction p generalizing u with
  | ret a =>
    refine (hafter (some a) (ret a) (fun u o => Iff.rfl) u).trans ?_
    constructor
    · rintro ⟨done, hu, rfl⟩
      exact ⟨some a, [], u, rfl, ⟨rfl, rfl⟩, done, hu, rfl⟩
    · rintro ⟨x, v, w, rfl, ⟨rfl, rfl⟩, h⟩
      exact h
  | raise =>
    refine (hafter none raise (fun u o => Iff.rfl) u).trans ?_
    constructor
    · rintro ⟨done, hu, rfl⟩
      exact ⟨none, [], u, rfl, ⟨rfl, rfl⟩, done, hu, rfl⟩
    · rintro ⟨x, v, w, rfl, ⟨rfl, rfl⟩, h⟩
      exact h
  | call q k ih =>
    constructor
    · rintro ⟨r, v, rfl, h⟩
      obtain ⟨x, v, w, rfl, hp, hc⟩ := (ih r).mp h
      exact ⟨x, ⟨q, r⟩ :: v, w, rfl, ⟨r, v, rfl, hp⟩, hc⟩
    · rintro ⟨x, _, w, rfl, ⟨r, v, rfl, hp⟩, hc⟩
      exact ⟨r, v ++ w, rfl, (ih r).mpr ⟨x, v, w, rfl, hp, hc⟩⟩

/-- A call and a program on its reply, whose cleanup comes last. -/
theorem runs_ask_ensuring {q : Q} {f : R q → Prog R α} {cleanup : Prog R Unit} {o : Option α} :
    Runs (ask q >>= fun r => (f r).ensuring cleanup) u o ↔
      (∃ r v w x done, u = ⟨q, some r⟩ :: (v ++ w) ∧ Runs (f r) v x ∧ Runs cleanup w done ∧
        o = done.bind fun _ => x) ∨
      (o = none ∧ u = [⟨q, none⟩]) := by
  rw [runs_ask_bind]
  refine or_congr ?_ Iff.rfl
  constructor
  · rintro ⟨r, w, rfl, h⟩
    obtain ⟨x, v, w, rfl, hf, done, hcleanup, ho⟩ := runs_ensuring.mp h
    exact ⟨r, v, w, x, done, rfl, hf, hcleanup, ho⟩
  · rintro ⟨r, v, w, x, done, rfl, hf, hcleanup, ho⟩
    exact ⟨r, _, rfl, runs_ensuring.mpr ⟨x, v, w, rfl, hf, done, hcleanup, ho⟩⟩

/-! ## The calls of a program -/

/-- Whatever is answered, the program makes only calls that meet `P`. -/
def Only (P : Q → Prop) : Prog R α → Prop
  | ret _ => True
  | raise => True
  | call q k => P q ∧ ∀ r, Only P (k r)

variable {P : Q → Prop}

/-- The calls of a run are among those of the program. -/
theorem Only.of_runs {p : Prog R α} (h : Only P p) {o : Option α} (hrun : Runs p u o) :
    ∀ e ∈ u, P e.query := by
  induction p generalizing u with
  | ret a =>
    obtain ⟨rfl, -⟩ := hrun
    exact fun e he => absurd he List.not_mem_nil
  | raise =>
    obtain ⟨rfl, -⟩ := hrun
    exact fun e he => absurd he List.not_mem_nil
  | call q k ih =>
    obtain ⟨r, v, rfl, hv⟩ := hrun
    intro e he
    rcases List.mem_cons.mp he with rfl | he
    · exact h.1
    · exact ih r (h.2 r) hv e he

@[simp]
theorem only_pure (a : α) : Only P (pure a : Prog R α) :=
  trivial

@[simp]
theorem only_raise : Only P (raise : Prog R α) :=
  trivial

@[simp]
theorem only_ask {q : Q} : Only P (ask q : Prog R (R q)) ↔ P q := by
  refine and_iff_left fun r => ?_
  cases r with
  | none => trivial
  | some r => trivial

theorem Only.mono {P' : Q → Prop} (hP : ∀ q, P q → P' q) {p : Prog R α} (h : Only P p) :
    Only P' p := by
  induction p with
  | ret a => trivial
  | raise => trivial
  | call q k ih => exact ⟨hP q h.1, fun r => ih r (h.2 r)⟩

theorem Only.bind {p : Prog R α} {f : α → Prog R β} (hp : Only P p) (hf : ∀ a, Only P (f a)) :
    Only P (p >>= f) := by
  show Only P (p.bind f)
  induction p with
  | ret a => exact hf a
  | raise => trivial
  | call q k ih => exact ⟨hp.1, fun r => ih r (hp.2 r)⟩

theorem Only.tryExcept {p handler : Prog R α} (hp : Only P p) (hh : Only P handler) :
    Only P (p.tryExcept handler) := by
  induction p with
  | ret a => trivial
  | raise => exact hh
  | call q k ih => exact ⟨hp.1, fun r => ih r (hp.2 r)⟩

theorem Only.ensuring {p : Prog R α} {cleanup : Prog R Unit} (hp : Only P p)
    (hc : Only P cleanup) : Only P (p.ensuring cleanup) := by
  induction p with
  | ret a => exact Only.bind hc fun _ => trivial
  | raise => exact Only.bind hc fun _ => trivial
  | call q k ih => exact ⟨hp.1, fun r => ih r (hp.2 r)⟩

/-! ## Programs that do not raise by themselves -/

/-- Where the program raises, one of its calls has raised. -/
def OnlyCallsRaise (p : Prog R α) : Prop := ∀ u, Runs p u none → ∃ e ∈ u, e.reply = none

theorem onlyCallsRaise_pure (a : α) : OnlyCallsRaise (pure a : Prog R α) :=
  fun _ h => nomatch h.2

theorem onlyCallsRaise_ask (q : Q) : OnlyCallsRaise (ask q : Prog R (R q)) := by
  intro u h
  obtain rfl := runs_ask.mp h
  exact ⟨_, List.mem_cons_self, rfl⟩

theorem OnlyCallsRaise.bind {p : Prog R α} {f : α → Prog R β} (hp : OnlyCallsRaise p)
    (hf : ∀ a, OnlyCallsRaise (f a)) : OnlyCallsRaise (p >>= f) := by
  intro u h
  rcases runs_bind.mp h with ⟨a, v, w, rfl, -, hw⟩ | ⟨-, hu⟩
  · obtain ⟨e, he, hnone⟩ := hf a w hw
    exact ⟨e, List.mem_append_right v he, hnone⟩
  · exact hp u hu

/-! ## What holds of every run -/

/-- Whatever is answered, and however the program ends, its calls and replies meet `I`. -/
def Leaves (I : Trace R → Prop) (p : Prog R α) : Prop := ∀ u o, Runs p u o → I u

section Leaves

variable {I : Trace R → Prop}

theorem Leaves.bind (happ : ∀ u v, I u → I v → I (u ++ v)) {p : Prog R α} {f : α → Prog R β}
    (hp : Leaves I p) (hf : ∀ a, Leaves I (f a)) : Leaves I (p >>= f) := by
  intro u o h
  rcases runs_bind.mp h with ⟨a, v, w, rfl, hv, hw⟩ | ⟨-, hu⟩
  · exact happ v w (hp v _ hv) (hf a w o hw)
  · exact hp u none hu

theorem Leaves.tryExcept (happ : ∀ u v, I u → I v → I (u ++ v)) {p handler : Prog R α}
    (hp : Leaves I p) (hh : Leaves I handler) : Leaves I (p.tryExcept handler) := by
  intro u o h
  rcases runs_tryExcept.mp h with ⟨-, hu⟩ | ⟨v, w, rfl, hv, hw⟩
  · exact hp u o hu
  · exact happ v w (hp v _ hv) (hh w o hw)

theorem leaves_pure (hnil : I []) (a : α) : Leaves I (pure a : Prog R α) := by
  rintro u o ⟨rfl, -⟩
  exact hnil

/-- A loop leaves what each of its passes leaves. -/
theorem Leaves.forM (hnil : I []) (happ : ∀ u v, I u → I v → I (u ++ v)) {as : List α}
    {f : α → Prog R Unit} (hf : ∀ a ∈ as, Leaves I (f a)) : Leaves I (as.forM f) := by
  induction as with
  | nil => exact leaves_pure hnil ()
  | cons a as ih =>
    refine .bind happ (hf a List.mem_cons_self) fun _ => ih fun b hb => ?_
    exact hf b (List.mem_cons_of_mem _ hb)

end Leaves

end Companion.Effects

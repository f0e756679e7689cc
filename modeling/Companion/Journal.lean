import Mathlib.Data.List.Basic

/-!
# Journaled work

A program that keeps a state in memory and appends a record to a journal for each change it makes.
`Work` is one piece of it: from a state, the state it leaves and the records it appends. Pieces are
run one after the other, and over the items of a list.

`Work.Mirrors` says that the records are enough: what is to be known of the state, its view, follows
from the view before and the records appended. It composes, so a program that mirrors its journal
does so because each of its pieces does. `Since` is the past-time operator over a journal: a record
was appended, and none since then that ends what it began.
-/

namespace Companion.Journal

variable {σ ρ ε α : Type*}

/-! ## Since -/

/-- A record with `began` was appended, after the journal that `began` is told, and since then none
with `ended`. -/
def Since (log : List ε) (began : List ε → ε → Prop) (ended : ε → Prop) : Prop :=
  ∃ pre e post, log = pre ++ e :: post ∧ began pre e ∧ ∀ e' ∈ post, ¬ ended e'

variable {began : List ε → ε → Prop} {ended : ε → Prop}

theorem not_since_nil : ¬ Since [] began ended := by
  rintro ⟨pre, e, post, hlog, -⟩
  simp at hlog

/-- The last record either begins it or lets it last. -/
theorem since_append_singleton (log : List ε) (e : ε) :
    Since (log ++ [e]) began ended ↔ began log e ∨ (Since log began ended ∧ ¬ ended e) := by
  constructor
  · rintro ⟨pre, e₀, post, hlog, hbegan, hpost⟩
    -- the record that began it is the last one, or the last one comes after it
    rcases List.eq_nil_or_concat post with rfl | ⟨post, e', rfl⟩
    · obtain ⟨rfl, he⟩ := List.append_inj' hlog rfl
      obtain rfl : e = e₀ := by simpa using he
      exact .inl hbegan
    · have hsplit : log ++ [e] = (pre ++ e₀ :: post) ++ [e'] := by simpa using hlog
      obtain ⟨rfl, he⟩ := List.append_inj' hsplit rfl
      obtain rfl : e = e' := by simpa using he
      refine .inr ⟨⟨pre, e₀, post, rfl, hbegan, fun x hx => hpost x ?_⟩, hpost e ?_⟩
      · simp [hx]
      · simp
  · rintro (hbegan | ⟨⟨pre, e₀, post, rfl, hbegan, hpost⟩, he⟩)
    · exact ⟨log, e, [], rfl, hbegan, by simp⟩
    · refine ⟨pre, e₀, post ++ [e], by simp, hbegan, fun x hx => ?_⟩
      rcases List.mem_append.mp hx with hx | hx
      · exact hpost x hx
      · obtain rfl : x = e := by simpa using hx
        exact he

/-! ## Work -/

/-- A piece of work: the state it leaves, and the records it appends in order. -/
abbrev Work (σ ε : Type*) := σ → σ × List ε

namespace Work

/-- Nothing is done. -/
def skip : Work σ ε := fun s => (s, [])

/-- `f`, and then `g`. -/
def andThen (f g : Work σ ε) : Work σ ε := fun s =>
  ((g (f s).1).1, (f s).2 ++ (g (f s).1).2)

/-- The work of each item, in order. -/
def forEach (f : α → Work σ ε) : List α → Work σ ε
  | [] => skip
  | x :: xs => (f x).andThen (forEach f xs)

@[simp] theorem forEach_nil (f : α → Work σ ε) : forEach f [] = skip := rfl

@[simp] theorem forEach_cons (f : α → Work σ ε) (x : α) (xs : List α) :
    forEach f (x :: xs) = (f x).andThen (forEach f xs) := rfl

/-- What holds before the first item, and is carried over each of them, holds after the last. -/
theorem forEach_rule (f : α → Work σ ε) (xs : List α) (J : List α → σ → List ε → Prop) {s : σ}
    (hinit : J [] s [])
    (hstep : ∀ done x rest s es, xs = done ++ x :: rest → J done s es →
      J (done ++ [x]) (f x s).1 (es ++ (f x s).2)) :
    J xs (forEach f xs s).1 (forEach f xs s).2 := by
  -- the items that are left, from any state in which the rest is done
  have hrun : ∀ rest done s es, xs = done ++ rest → J done s es →
      J xs (forEach f rest s).1 (es ++ (forEach f rest s).2) := by
    intro rest
    induction rest with
    | nil =>
      intro done s es hxs hJ
      obtain rfl : xs = done := by simpa using hxs
      simpa [skip] using hJ
    | cons x rest ih =>
      intro done s es hxs hJ
      have hnext := ih (done ++ [x]) _ _ (by simp [hxs]) (hstep done x rest s es hxs hJ)
      simpa [andThen] using hnext
  simpa using hrun xs [] s [] rfl hinit

/-! ### The records of a piece of work -/

/-- Every record appended meets `P`. -/
def Emits (P : ε → Prop) (f : Work σ ε) : Prop := ∀ s, ∀ e ∈ (f s).2, P e

variable {P Q : ε → Prop} {f g : Work σ ε}

theorem Emits.mono (hPQ : ∀ e, P e → Q e) (hf : Emits P f) : Emits Q f :=
  fun s e he => hPQ e (hf s e he)

theorem Emits.skip : Emits P (skip : Work σ ε) := by
  intro s e he
  simp [Work.skip] at he

theorem Emits.andThen (hf : Emits P f) (hg : Emits P g) : Emits P (f.andThen g) := by
  intro s e he
  rcases List.mem_append.mp he with he | he
  · exact hf s e he
  · exact hg _ e he

theorem Emits.forEach {f : α → Work σ ε} {xs : List α} (hf : ∀ x ∈ xs, Emits P (f x)) :
    Emits P (forEach f xs) := by
  induction xs with
  | nil => exact .skip
  | cons x xs ih =>
    exact (hf x (by simp)).andThen (ih fun y hy => hf y (List.mem_cons_of_mem x hy))

/-! ### Work that its records mirror -/

/-- From a state with `I`, the work leaves one with `J`, and the view after it is the view before it
with the records appended applied in order. -/
structure Mirrors (I J : σ → Prop) (view : σ → ρ) (apply : ρ → ε → ρ) (f : Work σ ε) : Prop where
  leaves : ∀ s, I s → J (f s).1
  follows : ∀ s, I s → view (f s).1 = (f s).2.foldl apply (view s)

variable {I J K : σ → Prop} {view : σ → ρ} {apply : ρ → ε → ρ}

theorem Mirrors.skip : Mirrors I I view apply (skip : Work σ ε) :=
  ⟨fun _ h => h, fun _ _ => rfl⟩

/-- More may be known of the state that the work is given. -/
theorem Mirrors.pre (hIK : ∀ s, K s → I s) (hf : Mirrors I J view apply f) :
    Mirrors K J view apply f :=
  ⟨fun s hs => hf.leaves s (hIK s hs), fun s hs => hf.follows s (hIK s hs)⟩

/-- In each state the work may choose which work it does. -/
theorem Mirrors.chosen
    (h : ∀ s, I s → ∃ (K : σ → Prop) (g : Work σ ε), K s ∧ Mirrors K J view apply g ∧ f s = g s) :
    Mirrors I J view apply f where
  leaves s hs := by
    obtain ⟨K, g, hK, hg, heq⟩ := h s hs
    rw [heq]
    exact hg.leaves s hK
  follows s hs := by
    obtain ⟨K, g, hK, hg, heq⟩ := h s hs
    rw [heq]
    exact hg.follows s hK

theorem Mirrors.andThen (hf : Mirrors I J view apply f) (hg : Mirrors J K view apply g) :
    Mirrors I K view apply (f.andThen g) where
  leaves s hs := hg.leaves _ (hf.leaves s hs)
  follows s hs := by
    calc view (g (f s).1).1
        = (g (f s).1).2.foldl apply (view (f s).1) := hg.follows _ (hf.leaves s hs)
      _ = ((f s).2 ++ (g (f s).1).2).foldl apply (view s) := by
          rw [hf.follows s hs, List.foldl_append]

theorem Mirrors.forEach {f : α → Work σ ε} {xs : List α}
    (hf : ∀ x ∈ xs, Mirrors I I view apply (f x)) : Mirrors I I view apply (forEach f xs) := by
  induction xs with
  | nil => exact .skip
  | cons x xs ih =>
    exact (hf x (by simp)).andThen (ih fun y hy => hf y (List.mem_cons_of_mem x hy))

end Work

end Companion.Journal

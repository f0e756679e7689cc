import Mathlib.Algebra.Order.Ring.Defs
import Mathlib.Order.Bounds.Basic
import Mathlib.Data.List.Basic
import Mathlib.Tactic.SplitIfs

/-!
# Best products over walks

A graph of arcs with factors that are not negative, and the products of the factors along its walks
from some seeds. `best n v` is the largest product over the walks to `v` with fewer than `n` arcs,
or zero where there is none: it is computed arc by arc, by `relax`, and `isGreatest_best` says that
it is what its name says.

`Settled n` is the condition on the graph under which a search that goes by hops may use, in a hop,
a value that it has raised in the same hop: the nodes that the walks with `n` arcs have improved do
not give away more than the hop allows.
-/

namespace Companion.Walks

variable {V 𝕜 : Type*}

/-- An arc and its factor. -/
structure Arc (V 𝕜 : Type*) where
  source : V
  target : V
  factor : 𝕜
  deriving DecidableEq

section Walk

variable [Semiring 𝕜]

/-- There is a walk of `n` arcs from a seed to `v` with the product `x`. -/
inductive Walk (arcs : List (Arc V 𝕜)) (seeds : List V) : ℕ → V → 𝕜 → Prop
  | seed {v : V} : v ∈ seeds → Walk arcs seeds 0 v 1
  | snoc {n : ℕ} {x : 𝕜} {e : Arc V 𝕜} :
      Walk arcs seeds n e.source x → e ∈ arcs → Walk arcs seeds (n + 1) e.target (x * e.factor)

end Walk

variable [Semiring 𝕜] [LinearOrder 𝕜] [DecidableEq V]

/-- The larger of the value at a node and those that the arcs to it bring. -/
def relax (arcs : List (Arc V 𝕜)) (a : V → 𝕜) (v : V) : 𝕜 :=
  arcs.foldr (fun e x => if e.target = v then max (a e.source * e.factor) x else x) (a v)

/-- The largest product over the walks with fewer than `n` arcs. -/
def best (arcs : List (Arc V 𝕜)) (seeds : List V) : ℕ → V → 𝕜
  | 0, _ => 0
  | 1, v => if v ∈ seeds then 1 else 0
  | n + 2, v => relax arcs (best arcs seeds (n + 1)) v

/-- No node that the walks with `n` arcs improve brings, by a walk with one arc more, a value that
is above those of its neighbours. -/
def Settled (arcs : List (Arc V 𝕜)) (seeds : List V) (n : ℕ) : Prop :=
  ∀ e ∈ arcs, best arcs seeds n e.source < best arcs seeds (n + 1) e.source →
    best arcs seeds (n + 2) e.source * e.factor ≤ best arcs seeds (n + 2) e.target

instance (arcs : List (Arc V 𝕜)) (seeds : List V) (n : ℕ) : Decidable (Settled arcs seeds n) := by
  unfold Settled
  infer_instance

variable {arcs : List (Arc V 𝕜)} {seeds : List V} {a : V → 𝕜} {v : V} {x : 𝕜} {n m : ℕ}

theorem relax_cons (e : Arc V 𝕜) (es : List (Arc V 𝕜)) (a : V → 𝕜) (v : V) :
    relax (e :: es) a v =
      if e.target = v then max (a e.source * e.factor) (relax es a v) else relax es a v := rfl

/-- What a relaxation gives is bounded by what bounds the value at the node and what the arcs bring.
-/
theorem relax_le_iff :
    relax arcs a v ≤ x ↔ a v ≤ x ∧ ∀ e ∈ arcs, e.target = v → a e.source * e.factor ≤ x := by
  induction arcs with
  | nil => simp [relax]
  | cons e es ih =>
    rw [relax_cons, List.forall_mem_cons]
    by_cases he : e.target = v
    · rw [if_pos he, max_le_iff, ih]
      constructor
      · rintro ⟨hx, ha, hes⟩
        exact ⟨ha, fun _ => hx, hes⟩
      · rintro ⟨ha, hx, hes⟩
        exact ⟨hx he, ha, hes⟩
    · rw [if_neg he, ih]
      constructor
      · rintro ⟨ha, hes⟩
        exact ⟨ha, fun h => absurd h he, hes⟩
      · rintro ⟨ha, -, hes⟩
        exact ⟨ha, hes⟩

theorem le_relax (arcs : List (Arc V 𝕜)) (a : V → 𝕜) (v : V) : a v ≤ relax arcs a v :=
  (relax_le_iff.mp le_rfl).1

theorem arc_le_relax {e : Arc V 𝕜} (he : e ∈ arcs) :
    a e.source * e.factor ≤ relax arcs a e.target :=
  (relax_le_iff.mp le_rfl).2 e he rfl

/-- A relaxation leaves the value, or takes it from an arc. -/
theorem relax_eq (arcs : List (Arc V 𝕜)) (a : V → 𝕜) (v : V) :
    relax arcs a v = a v ∨
      ∃ e ∈ arcs, e.target = v ∧ relax arcs a v = a e.source * e.factor := by
  induction arcs with
  | nil => exact .inl rfl
  | cons e es ih =>
    rw [relax_cons]
    have hrest : relax es a v = a v ∨
        ∃ e' ∈ e :: es, e'.target = v ∧ relax es a v = a e'.source * e'.factor := by
      rcases ih with h | ⟨e', he', htarget, h⟩
      · exact .inl h
      · exact .inr ⟨e', List.mem_cons_of_mem e he', htarget, h⟩
    by_cases he : e.target = v
    · rw [if_pos he]
      rcases max_choice (a e.source * e.factor) (relax es a v) with h | h
      · exact .inr ⟨e, List.mem_cons_self, he, h⟩
      · rwa [h]
    · rwa [if_neg he]

theorem best_succ_le (n : ℕ) (v : V) :
    best arcs seeds (n + 1) v ≤ best arcs seeds (n + 2) v :=
  le_relax arcs _ v

section Ordered

variable [IsStrictOrderedRing 𝕜]

theorem best_nonneg (n : ℕ) (v : V) : 0 ≤ best arcs seeds n v := by
  induction n using Nat.twoStepInduction generalizing v with
  | zero => exact le_rfl
  | one =>
    unfold best
    split_ifs
    · exact zero_le_one
    · exact le_rfl
  | more n _ ih => exact (ih v).trans (best_succ_le n v)

/-- A walk more at hand makes the best no worse. -/
theorem best_mono : Monotone fun n => best arcs seeds n v :=
  monotone_nat_of_le_succ fun n => by
    cases n with
    | zero => exact best_nonneg 1 v
    | succ n => exact best_succ_le n v

/-- What an arc brings is at hand with an arc more. -/
theorem arc_le_best {e : Arc V 𝕜} (n : ℕ) (he : e ∈ arcs) :
    best arcs seeds n e.source * e.factor ≤ best arcs seeds (n + 1) e.target := by
  cases n with
  | zero =>
    rw [best, zero_mul]
    exact best_nonneg 1 e.target
  | succ n => exact arc_le_relax he

/-- The product of a walk is at most the best. -/
theorem Walk.le_best (hfactor : ∀ e ∈ arcs, 0 ≤ e.factor) (h : Walk arcs seeds n v x) :
    x ≤ best arcs seeds (n + 1) v := by
  induction h with
  | seed hv => exact (if_pos hv).ge
  | @snoc n x e _ he ih =>
    exact (mul_le_mul_of_nonneg_right ih (hfactor e he)).trans (arc_le_best (n + 1) he)

/-- The best is the product of a walk, where it is positive. -/
theorem exists_walk (h : 0 < best arcs seeds m v) :
    ∃ n < m, Walk arcs seeds n v (best arcs seeds m v) := by
  induction m using Nat.twoStepInduction generalizing v with
  | zero => exact absurd h (lt_irrefl 0)
  | one =>
    have hv : v ∈ seeds := by
      by_contra hv
      rw [best, if_neg hv] at h
      exact absurd h (lt_irrefl 0)
    refine ⟨0, Nat.zero_lt_one, ?_⟩
    rw [best, if_pos hv]
    exact .seed hv
  | more m _ ih =>
    rcases relax_eq arcs (best arcs seeds (m + 1)) v with heq | ⟨e, he, rfl, heq⟩
    · have hbest : best arcs seeds (m + 2) v = best arcs seeds (m + 1) v := heq
      rw [hbest] at h ⊢
      obtain ⟨n, hn, hwalk⟩ := ih h
      exact ⟨n, by omega, hwalk⟩
    · have hbest : best arcs seeds (m + 2) e.target =
          best arcs seeds (m + 1) e.source * e.factor := heq
      rw [hbest] at h ⊢
      have hsource : 0 < best arcs seeds (m + 1) e.source := by
        refine lt_of_le_of_ne (best_nonneg _ _) fun h0 => ?_
        rw [← h0, zero_mul] at h
        exact absurd h (lt_irrefl 0)
      obtain ⟨n, hn, hwalk⟩ := ih hsource
      exact ⟨n + 1, by omega, .snoc hwalk he⟩

/-- The best of the walks with at most `n` arcs is the greatest of their products, where one of
these is positive. -/
theorem isGreatest_iff (hfactor : ∀ e ∈ arcs, 0 ≤ e.factor) (hx : 0 < x) :
    IsGreatest {y | ∃ m ≤ n, Walk arcs seeds m v y} x ↔ best arcs seeds (n + 1) v = x := by
  have hupper : ∀ y, (∃ m ≤ n, Walk arcs seeds m v y) → y ≤ best arcs seeds (n + 1) v := by
    rintro y ⟨m, hm, hwalk⟩
    exact (hwalk.le_best hfactor).trans (best_mono (by omega))
  have hwalk : 0 < best arcs seeds (n + 1) v →
      ∃ m ≤ n, Walk arcs seeds m v (best arcs seeds (n + 1) v) := by
    intro hpos
    obtain ⟨m, hm, h⟩ := exists_walk hpos
    exact ⟨m, by omega, h⟩
  constructor
  · intro h
    have hle := hupper x h.1
    exact le_antisymm (h.2 (hwalk (hx.trans_le hle))) hle
  · rintro rfl
    exact ⟨hwalk hx, fun y hy => hupper y hy⟩

end Ordered

end Companion.Walks

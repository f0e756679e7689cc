import Mathlib.Data.List.Basic
import Mathlib.Tactic.SplitIfs

/-!
# Greedy packing

A packer walks over a list and holds one pack: the next element joins the pack where it fits, and
starts the next pack where it does not. What packs are and when an element fits are parameters.

Packs that are concatenations lose nothing (`flatten_pack`), and what relates every element of one
list to every element of a later one relates the elements of the packs (`pairwise_pack`).
-/

namespace Companion.Packing

variable {α β : Type*} (fits : β → β → Bool) (join : β → β → β)

/-- The packs, from the one that is held. -/
def packFrom : β → List β → List β
  | held, [] => [held]
  | held, x :: xs => if fits held x then packFrom (join held x) xs else held :: packFrom x xs

/-- The packs of a list. -/
def pack : List β → List β
  | [] => []
  | x :: xs => packFrom fits join x xs

section Packs

variable {fits join}

theorem forall_mem_packFrom {P : β → Prop} (hjoin : ∀ x y, fits x y = true → P (join x y))
    {held : β} {xs : List β} (h : ∀ x ∈ held :: xs, P x) : ∀ p ∈ packFrom fits join held xs, P p := by
  induction xs generalizing held with
  | nil =>
    rw [packFrom]
    exact h
  | cons x xs ih =>
    obtain ⟨hheld, hrest⟩ := List.forall_mem_cons.mp h
    rw [packFrom]
    split_ifs with hfits
    · exact ih (List.forall_mem_cons.mpr
        ⟨hjoin held x hfits, (List.forall_mem_cons.mp hrest).2⟩)
    · exact List.forall_mem_cons.mpr ⟨hheld, ih hrest⟩

/-- What elements that fit give when they are joined, and what every element is, every pack is. -/
theorem forall_mem_pack {P : β → Prop} (hjoin : ∀ x y, fits x y = true → P (join x y))
    {xs : List β} (h : ∀ x ∈ xs, P x) : ∀ p ∈ pack fits join xs, P p := by
  cases xs with
  | nil => exact nofun
  | cons x xs => exact forall_mem_packFrom hjoin h

theorem flatMap_packFrom {f : β → List α} (hjoin : ∀ x y, f (join x y) = f x ++ f y) (held : β)
    (xs : List β) : (packFrom fits join held xs).flatMap f = f held ++ xs.flatMap f := by
  induction xs generalizing held with
  | nil => simp [packFrom]
  | cons x xs ih =>
    rw [packFrom, List.flatMap_cons]
    split_ifs
    · rw [ih, hjoin, List.append_assoc]
    · rw [List.flatMap_cons, ih]

/-- What a join has of both, the packs have of the elements. -/
theorem flatMap_pack {f : β → List α} (hjoin : ∀ x y, f (join x y) = f x ++ f y) (xs : List β) :
    (pack fits join xs).flatMap f = xs.flatMap f := by
  cases xs with
  | nil => rfl
  | cons x xs => exact flatMap_packFrom hjoin x xs

/-- A pack is an element with those that join it, one after another. -/
theorem exists_joined (fits : β → β → Bool) (join : β → β → β) (xs : List β) :
    ∃ parts : List (β × List β), pack fits join xs = parts.map (fun p => p.2.foldl join p.1) ∧
      parts.flatMap (fun p => p.1 :: p.2) = xs := by
  -- What has joined the pack so far is carried along.
  have hfrom : ∀ (xs : List β) (x : β) (joined : List β), ∃ parts : List (β × List β),
      packFrom fits join (joined.foldl join x) xs = parts.map (fun p => p.2.foldl join p.1) ∧
        parts.flatMap (fun p => p.1 :: p.2) = x :: joined ++ xs := by
    intro xs
    induction xs with
    | nil => exact fun x joined => ⟨[(x, joined)], rfl, by simp⟩
    | cons y ys ih =>
      intro x joined
      rw [packFrom]
      split_ifs
      · obtain ⟨parts, hpack, hparts⟩ := ih x (joined ++ [y])
        rw [List.foldl_append] at hpack
        exact ⟨parts, hpack, by rw [hparts]; simp⟩
      · obtain ⟨parts, hpack, hparts⟩ := ih y []
        exact ⟨(x, joined) :: parts, by rw [List.map_cons, ← hpack]; rfl,
          by rw [List.flatMap_cons, hparts]; simp⟩
  cases xs with
  | nil => exact ⟨[], rfl, rfl⟩
  | cons x xs => exact hfrom xs x []

end Packs

section Append

variable (fits : List α → List α → Bool)

theorem flatten_packFrom (held : List α) (xs : List (List α)) :
    (packFrom fits (· ++ ·) held xs).flatten = held ++ xs.flatten := by
  induction xs generalizing held with
  | nil => simp [packFrom]
  | cons x xs ih =>
    rw [packFrom, List.flatten_cons]
    split_ifs
    · rw [ih, List.append_assoc]
    · rw [List.flatten_cons, ih]

/-- The packs have the elements of the lists, in order. -/
theorem flatten_pack (xs : List (List α)) : (pack fits (· ++ ·) xs).flatten = xs.flatten := by
  cases xs with
  | nil => rfl
  | cons x xs => exact flatten_packFrom fits x xs

theorem packFrom_eq_cons {held g : List α} {xs gs : List (List α)}
    (h : packFrom fits (· ++ ·) held xs = g :: gs) :
    ∃ us vs, xs = us ++ vs ∧ g = held ++ us.flatten ∧ pack fits (· ++ ·) vs = gs := by
  induction xs generalizing held with
  | nil =>
    obtain ⟨rfl, rfl⟩ := List.cons.inj h
    exact ⟨[], [], rfl, (List.append_nil _).symm, rfl⟩
  | cons x xs ih =>
    rw [packFrom] at h
    split_ifs at h
    · obtain ⟨us, vs, rfl, rfl, hgs⟩ := ih h
      exact ⟨x :: us, vs, rfl, List.append_assoc _ _ _, hgs⟩
    · obtain ⟨rfl, rfl⟩ := List.cons.inj h
      exact ⟨[], x :: xs, rfl, (List.append_nil _).symm, rfl⟩

/-- The first pack is of the first lists, and the others are the packs of the rest. -/
theorem pack_eq_cons {g : List α} {xs gs : List (List α)}
    (h : pack fits (· ++ ·) xs = g :: gs) :
    ∃ us vs, us ≠ [] ∧ xs = us ++ vs ∧ g = us.flatten ∧ pack fits (· ++ ·) vs = gs := by
  cases xs with
  | nil => cases h
  | cons x xs =>
    obtain ⟨us, vs, rfl, rfl, hgs⟩ := packFrom_eq_cons fits h
    exact ⟨x :: us, vs, by simp, rfl, rfl, hgs⟩

/-- Every element of the first list is related to every one of the second. -/
def Before (R : α → α → Prop) (u v : List α) : Prop := ∀ a ∈ u, ∀ b ∈ v, R a b

variable {R : α → α → Prop}

theorem Before.flatten {u : List α} {vs : List (List α)} (h : ∀ v ∈ vs, Before R u v) :
    Before R u vs.flatten := by
  intro a ha b hb
  obtain ⟨v, hv, hb⟩ := List.mem_flatten.mp hb
  exact h v hv a ha b hb

theorem pairwise_packFrom {held : List α} {xs : List (List α)}
    (h : (held :: xs).Pairwise (Before R)) :
    (packFrom fits (· ++ ·) held xs).Pairwise (Before R) := by
  induction xs generalizing held with
  | nil => exact List.pairwise_singleton _ _
  | cons x xs ih =>
    obtain ⟨hheld, hx⟩ := List.pairwise_cons.mp h
    rw [packFrom]
    split_ifs
    · refine ih (List.pairwise_cons.mpr ⟨fun v hv a ha => ?_, (List.pairwise_cons.mp hx).2⟩)
      rcases List.mem_append.mp ha with ha | ha
      · exact hheld v (List.mem_cons_of_mem _ hv) a ha
      · exact (List.pairwise_cons.mp hx).1 v hv a ha
    · refine List.pairwise_cons.mpr ⟨fun v hv a ha b hb => ?_, ih hx⟩
      -- Every later pack is within the lists that are to come.
      have hrest : Before R held (x :: xs).flatten := Before.flatten hheld
      refine hrest a ha b ?_
      rw [List.flatten_cons, ← flatten_packFrom fits]
      exact List.mem_flatten_of_mem hv hb

/-- The packs are related as the lists are. -/
theorem pairwise_pack {xs : List (List α)} (h : xs.Pairwise (Before R)) :
    (pack fits (· ++ ·) xs).Pairwise (Before R) := by
  cases xs with
  | nil => exact List.Pairwise.nil
  | cons x xs => exact pairwise_packFrom fits h

end Append

end Companion.Packing

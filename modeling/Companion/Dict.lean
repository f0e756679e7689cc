import Mathlib.Data.List.Nodup

/-!
# Insertion-ordered dictionaries

A dictionary that keeps its keys in the order of their first insertion, as Python's `dict` does. An
entry list in which no key occurs twice carries that fact as a field, so that a lookup and a scan of
the entries agree.

Each operation has one lemma, which says what a lookup finds after it (`get?_set`, `get?_pop`,
`get?_filterMap`, `get?_overlay`). The proofs about dictionaries elsewhere use these alone.
-/

namespace Companion

/-- Key and value pairs, in the order in which the keys were first inserted. -/
structure Dict (κ α : Type*) where
  /-- The items, in order. -/
  entries : List (κ × α)
  /-- No key occurs twice. -/
  nodup : (entries.map Prod.fst).Nodup
  deriving DecidableEq

namespace Dict

variable {κ α β : Type*}

/-- The dictionary without items. -/
def empty : Dict κ α := ⟨[], List.nodup_nil⟩

instance : EmptyCollection (Dict κ α) := ⟨empty⟩

/-- The first value in the order of insertion. -/
def first? (d : Dict κ α) : Option α := d.entries.head?.map Prod.snd

/-- Keep the items to which `f` gives a value, with that value. -/
def filterMap (f : κ → α → Option β) (d : Dict κ α) : Dict κ β where
  entries := d.entries.filterMap fun e => (f e.1 e.2).map (e.1, ·)
  nodup := by
    have hkeys : ((d.entries.filterMap fun e => (f e.1 e.2).map (e.1, ·)).map Prod.fst).Sublist
        (d.entries.map Prod.fst) := by
      induction d.entries with
      | nil => exact .slnil
      | cons e es ih =>
        rw [List.filterMap_cons, List.map_cons]
        cases f e.1 e.2 with
        | none => exact ih.cons _
        | some b => exact ih.cons_cons _
    exact d.nodup.sublist hkeys

/-- Each value becomes what `f` gives for it. -/
def map (f : κ → α → β) (d : Dict κ α) : Dict κ β where
  entries := d.entries.map fun e => (e.1, f e.1 e.2)
  nodup := by
    rw [List.map_map]
    exact d.nodup

variable [DecidableEq κ]

/-- The value at a key. -/
def get? (d : Dict κ α) (k : κ) : Option α := d.entries.lookup k

/-- `d[k] = v`: a key that is there keeps its place, and a new one is last. -/
def set (d : Dict κ α) (k : κ) (v : α) : Dict κ α :=
  if hk : k ∈ d.entries.map Prod.fst then
    ⟨d.entries.map fun e => if e.1 = k then (k, v) else e, by
      have hkeys : (d.entries.map fun e => if e.1 = k then (k, v) else e).map Prod.fst =
          d.entries.map Prod.fst := by
        rw [List.map_map]
        refine List.map_congr_left fun e _ => ?_
        by_cases he : e.1 = k
        · simp [he]
        · simp [he]
      rw [hkeys]
      exact d.nodup⟩
  else
    ⟨d.entries ++ [(k, v)], by
      rw [List.map_append, List.nodup_append]
      refine ⟨d.nodup, by simp, ?_⟩
      rintro _ ha _ hb rfl
      obtain rfl : _ = k := by simpa using hb
      exact hk ha⟩

/-- The dictionary of a list of items, of which the last one at a key counts. -/
def ofList (es : List (κ × α)) : Dict κ α := es.foldl (fun d e => d.set e.1 e.2) ∅

/-- `d.pop(k, None)` -/
def pop (d : Dict κ α) (k : κ) : Dict κ α :=
  ⟨d.entries.filter fun e => e.1 ≠ k, d.nodup.sublist (List.filter_sublist.map _)⟩

/-- The dictionary with each key renamed, or none where two keys would become one. -/
def rekey? (d : Dict κ α) (f : κ → κ) : Option (Dict κ α) :=
  if h : ((d.entries.map fun e => (f e.1, e.2)).map Prod.fst).Nodup then some ⟨_, h⟩ else none

/-- Apply recorded changes in order: a value is set, and a key without one is popped. -/
def overlay (d : Dict κ α) (changes : Dict κ β) (f : β → Option α) : Dict κ α :=
  changes.entries.foldl (fun d e => match f e.2 with | some v => d.set e.1 v | none => d.pop e.1) d

/-- The lookup in a list whose first item is known. -/
theorem lookup_cons_eq_ite (a k : κ) (b : α) (es : List (κ × α)) :
    ((a, b) :: es).lookup k = if k = a then some b else es.lookup k := by
  rw [List.lookup_cons]
  by_cases h : k = a
  · simp [h]
  · simp [h, beq_eq_false_iff_ne.mpr h]

@[simp] theorem get?_empty (k : κ) : (∅ : Dict κ α).get? k = none := rfl

/-- A lookup fails just in case the key does not occur. -/
theorem get?_eq_none {d : Dict κ α} {k : κ} : d.get? k = none ↔ k ∉ d.entries.map Prod.fst := by
  rw [get?, List.lookup_eq_none_iff]
  constructor
  · intro h hk
    obtain ⟨e, he, rfl⟩ := List.mem_map.mp hk
    simpa using h e he
  · intro h e he
    rw [bne_iff_ne]
    rintro rfl
    exact h (List.mem_map_of_mem he)

/-- What is looked up is an item. -/
theorem mem_entries_of_get? {d : Dict κ α} {k : κ} {v : α} (h : d.get? k = some v) :
    (k, v) ∈ d.entries := by
  obtain ⟨l₁, l₂, heq, -⟩ := List.lookup_eq_some_iff.mp h
  rw [heq]
  simp

/-- An item is looked up at its key. -/
theorem get?_of_mem_entries {d : Dict κ α} {k : κ} {v : α} (h : (k, v) ∈ d.entries) :
    d.get? k = some v := by
  obtain ⟨es, hnodup⟩ := d
  show es.lookup k = some v
  induction es with
  | nil => cases h
  | cons e es ih =>
    obtain ⟨a, b⟩ := e
    obtain ⟨ha, hes⟩ := List.nodup_cons.mp hnodup
    rw [lookup_cons_eq_ite]
    rcases List.mem_cons.mp h with heq | hmem
    · obtain ⟨rfl, rfl⟩ := Prod.mk.inj heq
      exact if_pos rfl
    · have hne : k ≠ a := by
        rintro rfl
        exact ha (List.mem_map.mpr ⟨(k, v), hmem, rfl⟩)
      rw [if_neg hne]
      exact ih hes hmem

theorem get?_eq_some {d : Dict κ α} {k : κ} {v : α} : d.get? k = some v ↔ (k, v) ∈ d.entries :=
  ⟨mem_entries_of_get?, get?_of_mem_entries⟩

/-- What is looked up is the one item at its key. -/
theorem filter_of_get? {d : Dict κ α} {k : κ} {v : α} (h : d.get? k = some v) :
    (d.entries.filter fun e => e.1 = k) = [(k, v)] := by
  obtain ⟨l₁, l₂, heq, hbefore⟩ := List.lookup_eq_some_iff.mp h
  have hnodup := d.nodup
  rw [heq, List.map_append, List.map_cons, List.nodup_append] at hnodup
  have hafter := (List.nodup_cons.mp hnodup.2.1).1
  have h₁ : (l₁.filter fun e => e.1 = k) = [] := by
    refine List.filter_eq_nil_iff.mpr fun e he hk => ?_
    exact bne_iff_ne.mp (hbefore e he) (of_decide_eq_true hk).symm
  have h₂ : (l₂.filter fun e => e.1 = k) = [] := by
    refine List.filter_eq_nil_iff.mpr fun e he hk => ?_
    exact hafter (List.mem_map.mpr ⟨e, he, of_decide_eq_true hk⟩)
  rw [heq, List.filter_append, h₁, List.filter_cons, if_pos (decide_eq_true rfl), h₂]
  rfl

/-- What is looked up after a renaming was there under a name that became this one. -/
theorem get?_rekey {d d' : Dict κ α} {f : κ → κ} (h : d.rekey? f = some d') {k : κ} {v : α} :
    d'.get? k = some v ↔ ∃ k₀, f k₀ = k ∧ d.get? k₀ = some v := by
  unfold rekey? at h
  split_ifs at h
  obtain rfl := Option.some.inj h
  rw [get?_eq_some]
  constructor
  · intro hmem
    obtain ⟨⟨k₀, v₀⟩, he, heq⟩ := List.mem_map.mp hmem
    obtain ⟨rfl, rfl⟩ := Prod.mk.inj heq
    exact ⟨k₀, rfl, get?_of_mem_entries he⟩
  · rintro ⟨k₀, rfl, hk⟩
    exact List.mem_map.mpr ⟨(k₀, v), mem_entries_of_get? hk, rfl⟩

/-- What is looked up after the first component of each key is renamed. -/
theorem get?_rekey_fst {β' : Type*} [DecidableEq β'] {d d' : Dict (κ × β') α} {f : κ → κ}
    (h : d.rekey? (Prod.map f id) = some d') {k : κ} {b : β'} {v : α} :
    d'.get? (k, b) = some v ↔ ∃ k₀, f k₀ = k ∧ d.get? (k₀, b) = some v := by
  rw [get?_rekey h]
  constructor
  · rintro ⟨⟨k₀, b₀⟩, heq, hv⟩
    obtain ⟨rfl, rfl⟩ := Prod.mk.inj heq
    exact ⟨k₀, rfl, hv⟩
  · rintro ⟨k₀, rfl, hv⟩
    exact ⟨(k₀, b), rfl, hv⟩

/-- The keys after a renaming. -/
theorem isSome_rekey {d d' : Dict κ α} {f : κ → κ} (h : d.rekey? f = some d') {k : κ} :
    (d'.get? k).isSome ↔ ∃ k₀, f k₀ = k ∧ (d.get? k₀).isSome := by
  simp only [Option.isSome_iff_exists, get?_rekey h]
  constructor
  · rintro ⟨v, k₀, hk, hv⟩
    exact ⟨k₀, hk, v, hv⟩
  · rintro ⟨k₀, hk, v, hv⟩
    exact ⟨v, k₀, hk, hv⟩

/-- The keys after the first component of each is renamed. -/
theorem isSome_rekey_fst {β' : Type*} [DecidableEq β'] {d d' : Dict (κ × β') α} {f : κ → κ}
    (h : d.rekey? (Prod.map f id) = some d') {k : κ} {b : β'} :
    (d'.get? (k, b)).isSome ↔ ∃ k₀, f k₀ = k ∧ (d.get? (k₀, b)).isSome := by
  simp only [Option.isSome_iff_exists, get?_rekey_fst h]
  constructor
  · rintro ⟨v, k₀, hk, hv⟩
    exact ⟨k₀, hk, v, hv⟩
  · rintro ⟨k₀, hk, v, hv⟩
    exact ⟨v, k₀, hk, hv⟩

/-- No two keys become one. -/
theorem eq_of_rekey {d d' : Dict κ α} {f : κ → κ} (h : d.rekey? f = some d') {k k' : κ}
    (hk : (d.get? k).isSome) (hk' : (d.get? k').isSome) (heq : f k = f k') : k = k' := by
  unfold rekey? at h
  split_ifs at h with hnodup
  obtain ⟨v, hv⟩ := Option.isSome_iff_exists.mp hk
  obtain ⟨v', hv'⟩ := Option.isSome_iff_exists.mp hk'
  rw [List.map_map] at hnodup
  exact congrArg Prod.fst (List.inj_on_of_nodup_map hnodup (mem_entries_of_get? hv)
    (mem_entries_of_get? hv') heq)

theorem length_rekey {d d' : Dict κ α} {f : κ → κ} (h : d.rekey? f = some d') :
    d'.entries.length = d.entries.length := by
  unfold rekey? at h
  split_ifs at h
  obtain rfl := Option.some.inj h
  exact List.length_map _

/-- The first value is that of some key. -/
theorem exists_get?_of_first? {d : Dict κ α} {v : α} (h : d.first? = some v) :
    ∃ k, d.get? k = some v := by
  obtain ⟨_ | ⟨⟨k, b⟩, es⟩, hnodup⟩ := d
  · cases h
  · obtain rfl := Option.some.inj h
    exact ⟨k, List.lookup_cons_self⟩

theorem get?_set (d : Dict κ α) (k k' : κ) (v : α) :
    (d.set k v).get? k' = if k' = k then some v else d.get? k' := by
  obtain ⟨es, hnodup⟩ := d
  unfold set
  split_ifs with hk hk' hk'
  · -- The key is there: the lookup finds its place, with the new value.
    subst hk'
    show (es.map fun e => if e.1 = k' then (k', v) else e).lookup k' = some v
    replace hk : k' ∈ es.map Prod.fst := hk
    clear hnodup
    induction es with
    | nil => simp at hk
    | cons e es ih =>
      obtain ⟨a, b⟩ := e
      rw [List.map_cons]
      by_cases he : a = k'
      · rw [if_pos he, lookup_cons_eq_ite, if_pos rfl]
      · rw [if_neg he, lookup_cons_eq_ite, if_neg (Ne.symm he)]
        exact ih ((List.mem_cons.mp hk).resolve_left (Ne.symm he))
  · -- Another key is there.
    show (es.map fun e => if e.1 = k then (k, v) else e).lookup k' = es.lookup k'
    clear hk hnodup
    induction es with
    | nil => rfl
    | cons e es ih =>
      obtain ⟨a, b⟩ := e
      rw [List.map_cons, lookup_cons_eq_ite]
      by_cases he : a = k
      · subst he
        rw [if_pos rfl, lookup_cons_eq_ite, if_neg hk', if_neg hk', ih]
      · rw [if_neg he, lookup_cons_eq_ite, ih]
  · subst hk'
    have hnone : es.lookup k' = none := get?_eq_none (d := ⟨es, hnodup⟩).mpr hk
    simp [get?, List.lookup_append, hnone]
  · simp [get?, List.lookup_append, lookup_cons_eq_ite, hk']

theorem length_set {d : Dict κ α} {k : κ} (h : d.get? k = none) (v : α) :
    (d.set k v).entries.length = d.entries.length + 1 := by
  unfold set
  rw [dif_neg (get?_eq_none.mp h), List.length_append]
  rfl

theorem entries_set {d : Dict κ α} {k : κ} (h : k ∉ d.entries.map Prod.fst) (v : α) :
    (d.set k v).entries = d.entries ++ [(k, v)] := by
  unfold set
  rw [dif_neg h]

/-- The items of a dictionary make that dictionary. -/
theorem ofList_entries (d : Dict κ α) : ofList d.entries = d := by
  have hfold : ∀ (es : List (κ × α)) (d' : Dict κ α),
      ((d'.entries ++ es).map Prod.fst).Nodup →
      (es.foldl (fun d e => d.set e.1 e.2) d').entries = d'.entries ++ es := by
    intro es
    induction es with
    | nil => exact fun d' _ => (List.append_nil _).symm
    | cons e es ih =>
      intro d' hnodup
      have hfresh : e.1 ∉ d'.entries.map Prod.fst := by
        rw [List.map_append, List.map_cons] at hnodup
        intro hmem
        exact (List.nodup_append.mp hnodup).2.2 _ hmem _ List.mem_cons_self rfl
      have hset := entries_set hfresh e.2
      rw [List.foldl_cons, ih _ (by rw [hset, List.append_assoc]; exact hnodup), hset,
        List.append_assoc]
      rfl
  have hentries := hfold d.entries ∅ d.nodup
  obtain ⟨es, hnodup⟩ := d
  exact (Dict.mk.injEq _ _ _ _).mpr hentries

theorem length_set_le (d : Dict κ α) (k : κ) (v : α) :
    (d.set k v).entries.length ≤ d.entries.length + 1 := by
  unfold set
  split_ifs
  · rw [List.length_map]
    exact Nat.le_succ _
  · rw [List.length_append]
    exact Nat.le_refl _

/-- The number of values with a property. -/
def countP (p : α → Bool) (d : Dict κ α) : ℕ := d.entries.countP fun e => p e.2

/-- One value is set, and may take the place of another. -/
theorem countP_set_le (p : α → Bool) (d : Dict κ α) (k : κ) (v : α) :
    (d.set k v).countP p ≤ d.countP p + if p v then 1 else 0 := by
  obtain ⟨es, hnodup⟩ := d
  unfold set
  by_cases hk : k ∈ es.map Prod.fst
  · rw [dif_pos hk]
    show (es.map fun e => if e.1 = k then (k, v) else e).countP (fun e => p e.2) ≤
      es.countP (fun e => p e.2) + if p v then 1 else 0
    induction es with
    | nil => exact Nat.zero_le _
    | cons e es ih =>
      obtain ⟨hfresh, hnodup⟩ := List.nodup_cons.mp hnodup
      rw [List.map_cons, List.countP_cons, List.countP_cons]
      by_cases he : e.1 = k
      · -- The key does not occur again, so that the rest is as it was.
        have hrest : (es.map fun e => if e.1 = k then (k, v) else e) = es := by
          conv_rhs => rw [← List.map_id es]
          refine List.map_congr_left fun e' he' => if_neg fun heq => hfresh ?_
          rw [he, ← heq]
          exact List.mem_map_of_mem he'
        rw [hrest, if_pos he]
        show _ + (if p v then 1 else 0) ≤ _
        omega
      · have hmem : k ∈ es.map Prod.fst := (List.mem_cons.mp hk).resolve_left (Ne.symm he)
        have hle := ih hnodup hmem
        rw [if_neg he]
        omega
  · rw [dif_neg hk]
    show (es ++ [(k, v)]).countP (fun e => p e.2) ≤ es.countP (fun e => p e.2) + if p v then 1 else 0
    refine Nat.le_of_eq ?_
    rw [List.countP_append, List.countP_singleton]

/-- What is there already is set to no effect. -/
theorem set_of_get? {d : Dict κ α} {k : κ} {v : α} (h : d.get? k = some v) : d.set k v = d := by
  have hmem := mem_entries_of_get? h
  obtain ⟨es, hnodup⟩ := d
  have hk : k ∈ es.map Prod.fst := List.mem_map.mpr ⟨(k, v), hmem, rfl⟩
  have hid : (es.map fun e => if e.1 = k then (k, v) else e) = es := by
    conv_rhs => rw [← List.map_id es]
    refine List.map_congr_left fun e he => ?_
    split_ifs with heq
    · exact (List.inj_on_of_nodup_map hnodup he hmem heq).symm
    · rfl
  unfold set
  rw [dif_pos hk]
  congr 1

theorem get?_pop (d : Dict κ α) (k k' : κ) :
    (d.pop k).get? k' = if k' = k then none else d.get? k' := by
  show (d.entries.filter fun e => e.1 ≠ k).lookup k' = if k' = k then none else d.entries.lookup k'
  induction d.entries with
  | nil => simp
  | cons e es ih =>
    obtain ⟨a, b⟩ := e
    by_cases he : a = k
    · rw [List.filter_cons_of_neg (by simpa using he), ih, lookup_cons_eq_ite, he]
      split_ifs
      · rfl
      · rfl
    · rw [List.filter_cons_of_pos (by simpa using he), lookup_cons_eq_ite, lookup_cons_eq_ite, ih]
      split_ifs with h1 h2
      · exact absurd (h1.symm.trans h2) he
      · rfl
      · rfl
      · rfl

theorem countP_pop_le (p : α → Bool) (d : Dict κ α) (k : κ) : (d.pop k).countP p ≤ d.countP p :=
  List.filter_sublist.countP_le

omit [DecidableEq κ] in
/-- Values are kept as they are, or dropped. -/
theorem countP_filterMap_le (p : α → Bool) {f : κ → α → Option α}
    (hf : ∀ k a b, f k a = some b → b = a) (d : Dict κ α) : (d.filterMap f).countP p ≤ d.countP p := by
  show (d.entries.filterMap fun e => (f e.1 e.2).map (e.1, ·)).countP (fun e => p e.2) ≤
    d.entries.countP fun e => p e.2
  induction d.entries with
  | nil => exact Nat.le_refl _
  | cons e es ih =>
    rw [List.filterMap_cons, List.countP_cons]
    cases hfe : f e.1 e.2 with
    | none => exact Nat.le_trans ih (Nat.le_add_right _ _)
    | some b =>
      obtain rfl := hf _ _ _ hfe
      show List.countP _ (_ :: _) ≤ _
      rw [List.countP_cons]
      exact Nat.add_le_add_right ih _

/-- A key that is there is removed. -/
theorem length_pop_lt {d : Dict κ α} {k : κ} {v : α} (h : (k, v) ∈ d.entries) :
    (d.pop k).entries.length < d.entries.length :=
  List.length_filter_lt_length_iff_exists.mpr ⟨(k, v), h, by simp⟩

theorem get?_filterMap (f : κ → α → Option β) (d : Dict κ α) (k : κ) :
    (d.filterMap f).get? k = (d.get? k).bind (f k) := by
  obtain ⟨es, hnodup⟩ := d
  show (es.filterMap fun e => (f e.1 e.2).map (e.1, ·)).lookup k = (es.lookup k).bind (f k)
  induction es with
  | nil => rfl
  | cons e es ih =>
    obtain ⟨a, b⟩ := e
    obtain ⟨ha, hes⟩ := List.nodup_cons.mp hnodup
    rw [List.filterMap_cons, lookup_cons_eq_ite]
    by_cases hk : k = a
    · subst hk
      have hnone : es.lookup k = none := get?_eq_none (d := ⟨es, hes⟩).mpr ha
      cases hf : f k b with
      | none => simpa [hf, hnone] using ih hes
      | some c => simp [hf]
    · cases hf : f a b with
      | none => simpa [hf, hk] using ih hes
      | some c => simpa [hf, hk, lookup_cons_eq_ite] using ih hes

theorem get?_map (f : κ → α → β) (d : Dict κ α) (k : κ) :
    (d.map f).get? k = (d.get? k).map (f k) := by
  show (d.entries.map fun e => (e.1, f e.1 e.2)).lookup k = (d.entries.lookup k).map (f k)
  induction d.entries with
  | nil => rfl
  | cons e es ih =>
    obtain ⟨a, b⟩ := e
    rw [List.map_cons, lookup_cons_eq_ite, lookup_cons_eq_ite]
    by_cases hk : k = a
    · simp [hk]
    · simp [hk, ih]

theorem get?_overlay (d : Dict κ α) (changes : Dict κ β) (f : β → Option α) (k : κ) :
    (d.overlay changes f).get? k =
      match changes.get? k with
      | some b => f b
      | none => d.get? k := by
  have hchange : ∀ (d : Dict κ α) (a : κ) (b : β),
      (match f b with | some v => d.set a v | none => d.pop a).get? k =
        if k = a then f b else d.get? k := by
    intro d a b
    cases f b with
    | none => exact get?_pop d a k
    | some v => exact get?_set d a k v
  obtain ⟨es, hnodup⟩ := changes
  unfold overlay
  induction es generalizing d with
  | nil => rfl
  | cons e es ih =>
    obtain ⟨a, b⟩ := e
    obtain ⟨ha, hes⟩ := List.nodup_cons.mp hnodup
    rw [List.foldl_cons, ih _ hes, hchange]
    unfold get?
    rw [lookup_cons_eq_ite]
    by_cases hk : k = a
    · -- No later change is at this key.
      subst hk
      have hnone : es.lookup k = none := get?_eq_none (d := ⟨es, hes⟩).mpr ha
      simp [hnone]
    · simp [hk]

end Dict

end Companion

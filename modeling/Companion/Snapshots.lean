import Companion.Runs
import Mathlib.Data.List.Basic
import Mathlib.Data.List.Flatten

/-!
# Calls that read a log once and then append to it

The value of a key is the last row of a log that has it. A call reads all values at once, makes its
rows from them, and appends these one after the other, while other calls read and append.

A row that is appended after a later call read its key is one that this call does not know, and that
hides what the call wrote before, so that calls may be lost. In a run where no row comes so late
(`Timely`), a key for which no row is outstanding has the rows that it has after the calls one by
one, in the order of their reads (`timely_serial`).
-/

namespace Companion.Snapshots

open Companion.Runs

variable {κ ρ ι : Type*} [DecidableEq κ] (key : ρ → κ)

/-- The rows of a key. -/
def rowsOf (k : κ) (rows : List ρ) : List ρ := rows.filter fun r => key r = k

/-- The value of a key. -/
def latest (rows : List ρ) (k : κ) : Option ρ := (rowsOf key k rows).getLast?

/-- Values of keys that they are of. -/
def Keyed (view : κ → Option ρ) : Prop := ∀ k r, view k = some r → key r = k

/-- A call: the rows that it makes of the values, and the keys that they may have. The rows of a key
rest on the value of that key alone. -/
structure Call where
  rows : (κ → Option ρ) → List ρ
  names : List κ
  named : ∀ view, Keyed key view → ∀ r ∈ rows view, key r ∈ names
  own : ∀ view view', Keyed key view → Keyed key view' → ∀ k, view k = view' k →
    rowsOf key k (rows view) = rowsOf key k (rows view')

/-- A call that has read: the rows that it has appended, and those that are outstanding. -/
structure Running (ι ρ : Type*) where
  op : ι
  done : List ρ
  pending : List ρ

/-- The log, and the calls in the order of their reads. -/
structure State (ι ρ : Type*) where
  rows : List ρ
  calls : List (Running ι ρ)

inductive Act (ι : Type*)
  | read (op : ι)
  | append (i : ℕ)

variable (call : ι → Call key)

def step (s : State ι ρ) : Act ι → Option (State ι ρ)
  | .read op => some ⟨s.rows, s.calls ++ [⟨op, [], (call op).rows (latest key s.rows)⟩]⟩
  | .append i =>
    match s.calls[i]? with
    | some ⟨op, done, r :: rest⟩ =>
      some ⟨s.rows ++ [r], s.calls.set i ⟨op, done ++ [r], rest⟩⟩
    | _ => none

def machine (rows : List ρ) : Machine (State ι ρ) (Act ι) where
  init s := s = ⟨rows, []⟩
  step := step key call

/-- The log after calls one by one. -/
def serial (rows : List ρ) (ops : List ι) : List ρ :=
  ops.foldl (fun rows op => rows ++ (call op).rows (latest key rows)) rows

/-- No call that read after the one that appends names the key of its row. -/
def Timely (s : State ι ρ) : Act ι → Prop
  | .read _ => True
  | .append i => ∀ op done r rest, s.calls[i]? = some ⟨op, done, r :: rest⟩ →
      ∀ j x, i < j → s.calls[j]? = some x → key r ∉ (call x.op).names

/-- `Timely`, by a look at the calls that read later. -/
def onTime (s : State ι ρ) : Act ι → Bool
  | .read _ => true
  | .append i =>
    match s.calls[i]? with
    | some ⟨_, _, r :: _⟩ => (s.calls.drop (i + 1)).all fun x => key r ∉ (call x.op).names
    | _ => true

theorem timely_of_onTime {s : State ι ρ} {a : Act ι} (h : onTime key call s a = true) :
    Timely key call s a := by
  cases a with
  | read op => trivial
  | append i =>
    intro op done r rest hi j x hij hx
    rw [onTime, hi, List.all_eq_true] at h
    have hmem : x ∈ s.calls.drop (i + 1) := by
      refine List.mem_of_getElem? (i := j - (i + 1)) ?_
      rwa [List.getElem?_drop, Nat.add_sub_cancel' hij]
    exact of_decide_eq_true (h x hmem)

/-- A key has an outstanding row of one of the calls. -/
def Outstanding (k : κ) (calls : List (Running ι ρ)) : Prop :=
  ∃ x ∈ calls, ∃ r ∈ x.pending, key r = k

/-! ## Rows of a key -/

variable {key}

theorem rowsOf_append (k : κ) (l l' : List ρ) :
    rowsOf key k (l ++ l') = rowsOf key k l ++ rowsOf key k l' := List.filter_append ..

theorem rowsOf_eq_nil {k : κ} {l : List ρ} : rowsOf key k l = [] ↔ ∀ r ∈ l, key r ≠ k := by
  simp [rowsOf, List.filter_eq_nil_iff]

theorem keyed_latest (rows : List ρ) : Keyed key (latest key rows) := by
  intro k r hr
  have hmem : r ∈ rowsOf key k rows := List.mem_of_getLast? hr
  exact of_decide_eq_true (List.mem_filter.mp hmem).2

theorem rowsOf_rows_eq_nil (c : Call key) {k : κ} (hk : k ∉ c.names) (rows : List ρ) :
    rowsOf key k (c.rows (latest key rows)) = [] := by
  rw [rowsOf_eq_nil]
  rintro r hr rfl
  exact hk (c.named _ (keyed_latest rows) r hr)

/-- Logs with the same rows of a key are the same to a call at that key. -/
theorem rowsOf_rows_congr (c : Call key) {k : κ} {rows rows' : List ρ}
    (h : rowsOf key k rows = rowsOf key k rows') :
    rowsOf key k (c.rows (latest key rows)) = rowsOf key k (c.rows (latest key rows')) :=
  c.own _ _ (keyed_latest rows) (keyed_latest rows') k (congrArg List.getLast? h)

variable {call}

theorem serial_concat (rows : List ρ) (ops : List ι) (op : ι) :
    serial key call rows (ops ++ [op]) = serial key call rows ops ++
      (call op).rows (latest key (serial key call rows ops)) := by
  rw [serial, List.foldl_append]
  rfl

/-! ## The invariant -/

/-- The log has the rows of the calls in their order, key by key. What a call makes is what it would
make after those before it, at each key for which none of them has a row outstanding. -/
structure Inv (call : ι → Call key) (rows : List ρ) (s : State ι ρ) : Prop where
  log : ∀ k, rowsOf key k s.rows = rowsOf key k (rows ++ s.calls.flatMap Running.done)
  named : ∀ x ∈ s.calls, ∀ r ∈ x.done ++ x.pending, key r ∈ (call x.op).names
  made : ∀ j x, s.calls[j]? = some x → ∀ k, ¬Outstanding key k (s.calls.take j) →
    rowsOf key k (x.done ++ x.pending) = rowsOf key k ((call x.op).rows
      (latest key (serial key call rows ((s.calls.take j).map Running.op))))

variable {rows : List ρ} {s s' : State ι ρ}

/-- Where no row of a key is outstanding, its rows are those after the calls one by one. -/
theorem Inv.serial_take (h : Inv call rows s) {k : κ} (n : ℕ)
    (hout : ¬Outstanding key k (s.calls.take n)) :
    rowsOf key k (serial key call rows ((s.calls.take n).map Running.op)) =
      rowsOf key k (rows ++ (s.calls.take n).flatMap Running.done) := by
  induction n with
  | zero => simp [serial]
  | succ n ih =>
    cases hx : s.calls[n]? with
    | none =>
      rw [List.take_of_length_le (by rw [List.getElem?_eq_none_iff] at hx; omega)] at hout ⊢
      rw [List.take_of_length_le (List.getElem?_eq_none_iff.mp hx)] at ih
      exact ih hout
    | some x =>
      have htake : s.calls.take (n + 1) = s.calls.take n ++ [x] := by
        rw [List.take_add_one, hx, Option.toList_some]
      rw [htake] at hout ⊢
      have hout' : ¬Outstanding key k (s.calls.take n) := by
        rintro ⟨y, hy, hr⟩
        exact hout ⟨y, List.mem_append_left _ hy, hr⟩
      have hpending : rowsOf key k x.pending = [] := by
        rw [rowsOf_eq_nil]
        exact fun r hr hk => hout ⟨x, List.mem_append_right _ (List.mem_singleton_self x), r, hr, hk⟩
      rw [List.map_append, List.map_singleton, serial_concat, rowsOf_append, ih hout',
        ← h.made n x hx k hout']
      simp only [rowsOf_append, hpending, List.flatMap_append, List.flatMap_singleton,
        List.append_nil, List.append_assoc]

theorem Inv.serial (h : Inv call rows s) {k : κ} (hout : ¬Outstanding key k s.calls) :
    rowsOf key k s.rows = rowsOf key k (serial key call rows (s.calls.map Running.op)) := by
  have htake := h.serial_take (k := k) s.calls.length
  rw [List.take_length] at htake
  exact (h.log k).trans (htake hout).symm

theorem Inv.read (h : Inv call rows s) (op : ι) :
    Inv call rows ⟨s.rows, s.calls ++ [⟨op, [], (call op).rows (latest key s.rows)⟩]⟩ where
  log k := by simpa using h.log k
  named x hx r hr := by
    rcases List.mem_append.mp hx with hx | hx
    · exact h.named x hx r hr
    · obtain rfl := List.mem_singleton.mp hx
      exact (call op).named _ (keyed_latest s.rows) r hr
  made j x hx k hout := by
    by_cases hj : j < s.calls.length
    · rw [List.getElem?_append_left hj] at hx
      rw [List.take_append_of_le_length (Nat.le_of_lt hj)] at hout ⊢
      exact h.made j x hx k hout
    · -- The call reads what the calls before it leave.
      rw [List.getElem?_append_right (by omega), List.getElem?_singleton] at hx
      split_ifs at hx with hzero
      obtain rfl : j = s.calls.length := by omega
      rw [← Option.some.inj hx]
      rw [List.take_left] at hout ⊢
      exact rowsOf_rows_congr (call op) (h.serial hout)

theorem Inv.append (h : Inv call rows s) {i : ℕ} {op : ι} {done rest : List ρ} {r : ρ}
    (hi : s.calls[i]? = some ⟨op, done, r :: rest⟩)
    (htimely : ∀ j x, i < j → s.calls[j]? = some x → key r ∉ (call x.op).names) :
    Inv call rows ⟨s.rows ++ [r], s.calls.set i ⟨op, done ++ [r], rest⟩⟩ := by
  obtain ⟨hlt, hget⟩ := List.getElem?_eq_some_iff.mp hi
  have hsplit : s.calls = s.calls.take i ++ ⟨op, done, r :: rest⟩ :: s.calls.drop (i + 1) := by
    rw [← hget, List.getElem_cons_drop, List.take_append_drop]
  have hset : s.calls.set i ⟨op, done ++ [r], rest⟩ =
      s.calls.take i ++ ⟨op, done ++ [r], rest⟩ :: s.calls.drop (i + 1) :=
    List.set_eq_take_append_cons_drop.trans (if_pos hlt)
  have hops : (s.calls.set i ⟨op, done ++ [r], rest⟩).map Running.op = s.calls.map Running.op := by
    rw [hset]
    conv_rhs => rw [hsplit]
    simp
  -- The calls after it have no rows of the key.
  have hafter : rowsOf key (key r) ((s.calls.drop (i + 1)).flatMap Running.done) = [] := by
    rw [rowsOf_eq_nil]
    intro u hu huk
    obtain ⟨x, hx, hux⟩ := List.mem_flatMap.mp hu
    obtain ⟨m, hm⟩ := List.getElem?_of_mem hx
    rw [List.getElem?_drop] at hm
    exact htimely (i + 1 + m) x (by omega) hm
      (huk ▸ h.named x (List.mem_of_mem_drop hx) u (List.mem_append_left _ hux))
  refine ⟨fun k => ?_, fun x hx u hu => ?_, fun j x hx k hout => ?_⟩
  · have hlog := h.log k
    rw [hsplit] at hlog
    rw [hset, rowsOf_append, hlog]
    simp only [List.flatMap_append, List.flatMap_cons, rowsOf_append, List.append_assoc]
    by_cases hk : key r = k
    · subst hk
      rw [hafter]
      simp
    · have hnil : rowsOf key k [r] = [] := rowsOf_eq_nil.mpr (by simpa using hk)
      rw [hnil]
      simp
  · rcases List.mem_or_eq_of_mem_set hx with hx | rfl
    · exact h.named x hx u hu
    · refine h.named _ (List.mem_of_getElem? hi) u ?_
      simpa using hu
  · by_cases hk : k ∈ (call x.op).names
    · have hops' : ((s.calls.set i ⟨op, done ++ [r], rest⟩).take j).map Running.op =
          (s.calls.take j).map Running.op := by rw [List.map_take, hops, List.map_take]
      rw [hops']
      rcases Nat.lt_trichotomy i j with hij | rfl | hji
      · rw [List.getElem?_set_ne (Nat.ne_of_lt hij)] at hx
        have hkr : key r ≠ k := fun heq => htimely j x hij hx (heq ▸ hk)
        refine h.made j x hx k fun hold => hout ?_
        -- What was outstanding is so still, as the row is of another key.
        obtain ⟨z, hz, u, hu, huk⟩ := hold
        obtain ⟨m, hm⟩ := List.getElem?_of_mem hz
        rw [List.take_set]
        by_cases hmi : i = m
        · subst hmi
          rw [List.getElem?_take_of_lt hij, hi] at hm
          obtain rfl := Option.some.inj hm
          have hurest : u ∈ rest :=
            (List.mem_cons.mp hu).resolve_left fun heq => hkr (heq ▸ huk)
          have hlen : i < (s.calls.take j).length := by
            rw [List.length_take]
            omega
          exact ⟨_, List.mem_set hlen _, u, hurest, huk⟩
        · refine ⟨z, List.mem_of_getElem? (i := m) ?_, u, hu, huk⟩
          rwa [List.getElem?_set_ne hmi]
      · rw [List.getElem?_set_self hlt] at hx
        rw [List.take_set_of_le (Nat.le_refl i)] at hout
        obtain rfl := Option.some.inj hx
        have hmade := h.made i _ hi k hout
        simpa using hmade
      · rw [List.getElem?_set_ne (Nat.ne_of_gt hji)] at hx
        rw [List.take_set_of_le (Nat.le_of_lt hji)] at hout
        exact h.made j x hx k hout
    · -- The call has no rows of the key.
      rw [rowsOf_rows_eq_nil (call x.op) hk, rowsOf_eq_nil]
      rintro u hu rfl
      rcases List.mem_or_eq_of_mem_set (List.mem_of_getElem? hx) with hmem | rfl
      · exact hk (h.named x hmem u hu)
      · refine hk (h.named _ (List.mem_of_getElem? hi) u ?_)
        simpa using hu

theorem Inv.step (h : Inv call rows s) {a : Act ι} (htimely : Timely key call s a)
    (hstep : step key call s a = some s') : Inv call rows s' := by
  cases a with
  | read op =>
    cases hstep
    exact h.read op
  | append i =>
    unfold Snapshots.step at hstep
    dsimp only at hstep
    split at hstep
    · next op done r rest hi =>
      cases hstep
      exact h.append hi (htimely op done r rest hi)
    · cases hstep

theorem inv_of_reach (h : (machine key call rows).Reach (Timely key call) s) : Inv call rows s := by
  refine h.invariant ?_ fun s a s' hinv htimely hstep => hinv.step htimely hstep
  rintro s rfl
  exact ⟨fun k => by simp, by simp, by simp⟩

/-- A run without late rows is serial: a key for which no row is outstanding has the value that it
has after the calls one by one, in the order of their reads. -/
theorem timely_serial (h : (machine key call rows).Reach (Timely key call) s) {k : κ}
    (hout : ¬Outstanding key k s.calls) :
    latest key s.rows k = latest key (serial key call rows (s.calls.map Running.op)) k :=
  congrArg List.getLast? ((inv_of_reach h).serial hout)

end Companion.Snapshots

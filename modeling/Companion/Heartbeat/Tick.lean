import Companion.Heartbeat.Decay
import Companion.Runs
import Mathlib.Algebra.Order.Field.Rat
import Mathlib.Tactic.Linarith

/-!
# The windows of the heartbeat

`run_tick` of `brain/engines/heartbeat.py`, one commit at a time, with `heartbeat_state.json`, the
rows of `memories` and the Hebbian edges. A stop ends a tick at any point: it is an exception that
leaves `run_tick` as well as the end of the process, since the next tick loads all that it knows.
How many rows a batch examines before its time is up is in the labels, as is what other writers do
to other rows and edges. A tick that finds the lock taken does nothing, nor does a dry run.

A window is the time between two ticks that are recorded as `last_tick_at`. The emotions get it once
unless a tick is stopped between the commit of a batch and the save of its cursor, or between the
end of the decay and the last save. The edges get it once unless a tick is stopped between their
decay and the last save, or the decay is resumed, which leaves them out.

The vocabulary of a tick is that of its time. `windows` and `first` are bookkeeping.
-/

namespace Companion.Heartbeat

open Companion.Memory (Text Instant)
open Companion.Runs

/-! ## Ticks -/

/-- `DecayCursor` -/
structure DecayCursor where
  tickAt : Instant
  key : Key
  deriving DecidableEq

/-- `HeartbeatState`, in its file. -/
structure Saved where
  lastTickAt : Instant
  decayCursor : Option DecayCursor
  deriving DecidableEq

/-- The time from one tick to the next, and the rate that the edges decay by in a day. -/
structure Window where
  start : Instant
  stop : Instant
  decayRate : ℚ
  deriving DecidableEq

/-- A tick that runs, and whether it resumes a decay. -/
structure Run where
  window : Window
  gcThreshold : ℚ
  resumed : Bool
  deriving DecidableEq

/-- What a tick does next. -/
inductive Work
  | idle
  /-- The save of the first tick. -/
  | starting
  | decaying (run : Run) (cursor : Option Key)
  /-- The commit of a batch, and whether it is the last. -/
  | updating (run : Run) (cursor : Key) (changed : Changes) (last : Bool)
  /-- The save of the cursor, and whether the batch had changes. -/
  | saving (run : Run) (cursor : Key) (dirty last : Bool)
  | clearing (run : Run)
  /-- `decay_all` -/
  | weakening (run : Run)
  /-- `garbage_collect` -/
  | collecting (run : Run)
  /-- The last save. -/
  | finishing (run : Run)
  deriving DecidableEq

/-- The weights of the edges. -/
abbrev Edges := Text × Text → Option ℚ

structure State where
  clock : Instant
  store : Store
  edges : Edges
  disk : Option Saved
  work : Work
  /-- What lies between the first tick and `last_tick_at`, the last first. -/
  windows : List Window
  first : Instant

inductive Act
  | tick (now : Instant) (decayRate gcThreshold : ℚ)
  /-- The first tick saves a state with the time of the save. -/
  | start (now : Instant)
  /-- The rows of a batch, of which the first are examined. -/
  | fetch (examined : ℕ)
  /-- The next commit or save. -/
  | op
  | write (store : Store)
  | relink (edges : Edges)
  | stop

/-- `_DECAY_PAGE_SIZE` -/
def decayPageSize : ℕ := 1000

namespace Window

def elapsed (w : Window) : ℤ := w.stop - w.start

/-- The rate of `decay_all`. -/
def rate (w : Window) : ℚ := w.decayRate * (w.elapsed / day)

/-- `decay_all` on one weight, where it is called. -/
def weaken (w : Window) (weight : ℚ) : ℚ := if 0 < w.rate then max (weight - w.rate) 0 else weight

variable (half : ℚ → ℚ) (vocabulary : Instant → Vocabulary)

/-- What the decay of a window makes of the emotions of a row. -/
def decay (w : Window) (e : Emotions) : Emotions :=
  if w.elapsed ≤ 0 then e else e.decayed half (vocabulary w.stop) w.elapsed

theorem decay_of_nonpos {half : ℚ → ℚ} {vocabulary : Instant → Vocabulary} {w : Window} {e : Emotions}
    (h : w.elapsed ≤ 0) : w.decay half vocabulary e = e := if_pos h

theorem decay_of_pos {half : ℚ → ℚ} {vocabulary : Instant → Vocabulary} {w : Window} {e : Emotions}
    (h : 0 < w.elapsed) : w.decay half vocabulary e = e.decayed half (vocabulary w.stop) w.elapsed :=
  if_neg (not_le.mpr h)

end Window

namespace State

section Step

variable (half : ℚ → ℚ) (vocabulary : Instant → Vocabulary) (tracked : Text) (link : Text × Text)
variable (s : State)

/-- `run_tick`, up to its first access to the memories. -/
def begin (now : Instant) (decayRate gcThreshold : ℚ) : Work :=
  match s.disk with
  | none => .starting
  | some ⟨last, some c⟩ =>
    let run : Run := ⟨⟨last, c.tickAt, decayRate⟩, gcThreshold, true⟩
    if run.window.elapsed ≤ 0 then .finishing run else .decaying run (some c.key)
  | some ⟨last, none⟩ =>
    let run : Run := ⟨⟨last, now, decayRate⟩, gcThreshold, false⟩
    if run.window.elapsed ≤ 0 then .weakening run else .decaying run none

/-- A turn of the loop of `_apply_emotion_decay`, up to its commit. -/
def fetch (run : Run) (cursor : Option Key) (examined : ℕ) : Option Work :=
  let rows := s.store.listActiveSince cursor decayPageSize
  match (rows.take examined).getLast? with
  | none => if rows = [] then some (.clearing run) else none
  | some row =>
    let changed := changedOf half (vocabulary run.window.stop) run.window.elapsed (rows.take examined)
    let last := rows.length < decayPageSize ∧ rows.length ≤ examined
    if changed = [] then some (.saving run row.key false last)
    else some (.updating run row.key changed last)

/-- The next commit or save of a tick. -/
def op : Option State :=
  match s.work with
  | .updating run cursor changed last =>
    some { s with store := s.store.updateEmotionsBatch changed, work := .saving run cursor true last }
  | .saving run cursor _ last =>
    some { s with
      disk := some ⟨run.window.start, some ⟨run.window.stop, cursor⟩⟩
      work := if last then .clearing run else .decaying run (some cursor) }
  | .clearing run =>
    some { s with
      disk := some ⟨run.window.start, none⟩
      work := if run.resumed then .finishing run else .weakening run }
  | .weakening run =>
    some { s with edges := fun e => (s.edges e).map run.window.weaken, work := .collecting run }
  | .collecting run =>
    some { s with
      edges := fun e => (s.edges e).filter (run.gcThreshold ≤ ·)
      work := .finishing run }
  | .finishing run =>
    some { s with
      disk := some ⟨run.window.stop, s.disk.bind Saved.decayCursor⟩
      work := .idle
      windows := run.window :: s.windows }
  | _ => none

/-- A step. Other writers leave the tracked row and the tracked edge as they are. -/
def step : Act → Option State
  | .tick now decayRate gcThreshold =>
    match s.work with
    | .idle =>
      if s.clock ≤ now then some { s with clock := now, work := s.begin now decayRate gcThreshold }
      else none
    | _ => none
  | .start now =>
    match s.work with
    | .starting =>
      if s.clock ≤ now then
        some { s with clock := now, disk := some ⟨now, none⟩, work := .idle, first := now }
      else none
    | _ => none
  | .fetch examined =>
    match s.work with
    | .decaying run cursor =>
      (s.fetch half vocabulary run cursor examined).map fun work => { s with work := work }
    | _ => none
  | .op => s.op
  | .write store =>
    if store.row? tracked = s.store.row? tracked then some { s with store := store } else none
  | .relink edges => if edges link = s.edges link then some { s with edges := edges } else none
  | .stop => some { s with work := .idle }

end Step

end State

/-- No tick has run, and the tracked row is active and not protected. -/
structure State.Start (row : Row) (link : Text × Text) (weight : ℚ) (s : State) : Prop where
  work : s.work = .idle
  disk : s.disk = none
  windows : s.windows = []
  found : s.store.row? row.id = some row
  active : row.active
  unprotected : ¬ row.isProtected
  edge : s.edges link = some weight

/-- The heartbeat, with a row and an edge that are tracked. -/
def machine (half : ℚ → ℚ) (vocabulary : Instant → Vocabulary) (row : Row) (link : Text × Text)
    (weight : ℚ) : Machine State Act :=
  ⟨State.Start row link weight, State.step half vocabulary row.id link⟩

/-! ## The conditions -/

/-- No tick is stopped between the commit of a batch and the save of its cursor, or after the end of
a decay and before the last save. -/
def batchSaved : Work → Act → Bool
  | .saving _ _ dirty _, .stop => !dirty
  | .weakening run, .stop | .collecting run, .stop | .finishing run, .stop => run.window.elapsed ≤ 0
  | _, _ => true

/-- No tick is stopped between the decay of the edges and the last save, and no resumed one is
saved. -/
def edgesSaved : Work → Act → Bool
  | .collecting run, .stop => run.window.rate ≤ 0
  | .finishing run, .stop => run.resumed || run.window.rate ≤ 0
  | .finishing run, .op => !run.resumed
  | _, _ => true

def BatchSaved (s : State) (a : Act) : Prop := batchSaved s.work a = true

def EdgesSaved (s : State) (a : Act) : Prop := edgesSaved s.work a = true

instance (s : State) (a : Act) : Decidable (BatchSaved s a) := inferInstanceAs (Decidable (_ = true))

instance (s : State) (a : Act) : Decidable (EdgesSaved s a) := inferInstanceAs (Decidable (_ = true))

/-! ## The property -/

/-- The windows lie end to end from one time to another. -/
def Spans : List Window → Instant → Instant → Prop
  | [], first, last => first = last
  | w :: ws, first, last => w.stop = last ∧ Spans ws first w.start

section Property

variable (half : ℚ → ℚ) (vocabulary : Instant → Vocabulary)

/-- Emotions after the decays of windows, of which the first in the list is the last. -/
def decayedBy (windows : List Window) (e : Emotions) : Emotions :=
  windows.foldr (Window.decay half vocabulary) e

/-- A weight after the decays of windows. -/
def weakenedBy (windows : List Window) (weight : ℚ) : ℚ := windows.foldr Window.weaken weight

/-- The windows that the row of a key has behind it: where a decay is interrupted, and its cursor
has come to the row, also the one that is not recorded yet. -/
def State.applied (s : State) (key : Key) : List Window :=
  match s.disk with
  | some ⟨last, some c⟩ => if key ≤ c.key then ⟨last, c.tickAt, 0⟩ :: s.windows else s.windows
  | _ => s.windows

/-- The emotions of a row have each window once. -/
structure EmotionsOnce (row : Row) (s : State) : Prop where
  spans : ∀ d ∈ s.disk, Spans s.windows s.first d.lastTickAt
  once : ∃ r, s.store.row? row.id = some r ∧
    r.emotions = decayedBy half vocabulary (s.applied row.key) row.emotions

/-- An edge that is there has each window once. -/
structure EdgesOnce (link : Text × Text) (weight : ℚ) (s : State) : Prop where
  spans : ∀ d ∈ s.disk, Spans s.windows s.first d.lastTickAt
  once : ∀ w, s.edges link = some w → w = weakenedBy s.windows weight

end Property

/-! ## The windows -/

/-- The tick that runs. -/
def Work.run? : Work → Option Run
  | .idle | .starting => none
  | .decaying run _ | .updating run _ _ _ | .saving run _ _ _ | .clearing run | .weakening run
  | .collecting run | .finishing run => some run

/-- The window of a tick starts at `last_tick_at`. -/
structure Linked (s : State) : Prop where
  fresh : s.disk = none → s.windows = [] ∧ s.work.run? = none
  spans : ∀ d ∈ s.disk, Spans s.windows s.first d.lastTickAt
  starting : s.work = .starting → s.disk = none
  run : ∀ run ∈ s.work.run?, ∃ c, s.disk = some ⟨run.window.start, c⟩

section Linked

variable {half : ℚ → ℚ} {vocabulary : Instant → Vocabulary} {tracked : Text} {link : Text × Text}
variable {s s' : State}

/-- What a tick finds, and what it does then. -/
theorem State.begin_cases (s : State) (now : Instant) (decayRate gcThreshold : ℚ) :
    (s.disk = none ∧ s.begin now decayRate gcThreshold = .starting) ∨
    (∃ last c, s.disk = some ⟨last, some c⟩ ∧ s.begin now decayRate gcThreshold =
      if c.tickAt - last ≤ 0 then .finishing ⟨⟨last, c.tickAt, decayRate⟩, gcThreshold, true⟩
      else .decaying ⟨⟨last, c.tickAt, decayRate⟩, gcThreshold, true⟩ (some c.key)) ∨
    ∃ last, s.disk = some ⟨last, none⟩ ∧ s.begin now decayRate gcThreshold =
      if now - last ≤ 0 then .weakening ⟨⟨last, now, decayRate⟩, gcThreshold, false⟩
      else .decaying ⟨⟨last, now, decayRate⟩, gcThreshold, false⟩ none := by
  unfold State.begin
  cases hdisk : s.disk with
  | none => exact .inl ⟨rfl, rfl⟩
  | some d =>
    obtain ⟨last, cursor⟩ := d
    cases cursor with
    | some c => exact .inr (.inl ⟨last, c, rfl, rfl⟩)
    | none => exact .inr (.inr ⟨last, rfl, rfl⟩)

theorem begin_run (s : State) (now : Instant) (decayRate gcThreshold : ℚ) :
    ∀ run ∈ (s.begin now decayRate gcThreshold).run?, ∃ c, s.disk = some ⟨run.window.start, c⟩ := by
  intro run hrun
  obtain ⟨-, hbegin⟩ | ⟨last, c, hdisk, hbegin⟩ | ⟨last, hdisk, hbegin⟩ :=
    s.begin_cases now decayRate gcThreshold
  · rw [hbegin] at hrun
    cases hrun
  · rw [hbegin] at hrun
    split_ifs at hrun <;> obtain rfl := Option.some.inj hrun <;> exact ⟨_, hdisk⟩
  · rw [hbegin] at hrun
    split_ifs at hrun <;> obtain rfl := Option.some.inj hrun <;> exact ⟨_, hdisk⟩

theorem run?_of_fetch {run : Run} {cursor : Option Key} {examined : ℕ} {work : Work}
    (h : s.fetch half vocabulary run cursor examined = some work) : work.run? = some run := by
  unfold State.fetch at h
  dsimp only at h
  split at h
  · split_ifs at h
    rw [← Option.some.inj h]
    rfl
  · split_ifs at h
    · rw [← Option.some.inj h]
      rfl
    · rw [← Option.some.inj h]
      rfl

/-- A tick that goes on with the same window. -/
theorem Linked.goOn (h : Linked s) {run : Run} (hrun : s.work.run? = some run) {work : Work}
    (hwork : work.run? = some run) {store : Store} {edges : Edges} {disk : Option Saved}
    (hdisk : disk = s.disk ∨ ∃ c, disk = some ⟨run.window.start, c⟩) :
    Linked { s with store := store, edges := edges, disk := disk, work := work } := by
  obtain ⟨c₀, hsaved⟩ := h.run run hrun
  have hspans := h.spans _ hsaved
  have hstart : ∃ c, disk = some ⟨run.window.start, c⟩ := by
    rcases hdisk with heq | heq
    · exact ⟨c₀, heq.trans hsaved⟩
    · exact heq
  obtain ⟨c₁, rfl⟩ := hstart
  refine ⟨nofun, fun d hd => ?_, fun hw => ?_, fun run' hrun' => ?_⟩
  · rw [← Option.some.inj hd]
    exact hspans
  · change work = .starting at hw
    rw [hw] at hwork
    cases hwork
  · obtain rfl := Option.some.inj (hwork.symm.trans hrun')
    exact ⟨c₁, rfl⟩

theorem Linked.op (h : Linked s) (hstep : s.op = some s') : Linked s' := by
  have hgoOn := @h.goOn
  unfold State.op at hstep
  split at hstep
  case h_1 run cursor changed last hwork =>
    obtain rfl := Option.some.inj hstep
    have hrun : s.work.run? = some run := by rw [hwork]; rfl
    exact hgoOn hrun rfl (.inl rfl)
  case h_2 run cursor dirty last hwork =>
    obtain rfl := Option.some.inj hstep
    have hrun : s.work.run? = some run := by rw [hwork]; rfl
    have hnext : (if last then .clearing run else .decaying run (some cursor) : Work).run? =
        some run := by
      split_ifs <;> rfl
    exact hgoOn hrun hnext (.inr ⟨_, rfl⟩)
  case h_3 run hwork =>
    obtain rfl := Option.some.inj hstep
    have hrun : s.work.run? = some run := by rw [hwork]; rfl
    have hnext : (if run.resumed then .finishing run else .weakening run : Work).run? = some run := by
      split_ifs <;> rfl
    exact hgoOn hrun hnext (.inr ⟨_, rfl⟩)
  case h_4 run hwork =>
    obtain rfl := Option.some.inj hstep
    have hrun : s.work.run? = some run := by rw [hwork]; rfl
    exact hgoOn hrun rfl (.inl rfl)
  case h_5 run hwork =>
    obtain rfl := Option.some.inj hstep
    have hrun : s.work.run? = some run := by rw [hwork]; rfl
    exact hgoOn hrun rfl (.inl rfl)
  case h_6 run hwork =>
    obtain rfl := Option.some.inj hstep
    obtain ⟨c, hdisk⟩ := h.run run (by rw [hwork]; rfl)
    refine ⟨nofun, fun d hd => ?_, nofun, nofun⟩
    rw [← Option.some.inj hd]
    exact ⟨rfl, h.spans _ hdisk⟩
  case h_7 => cases hstep

/-- A step keeps the windows end to end. -/
theorem Linked.step (h : Linked s) {a : Act}
    (hstep : s.step half vocabulary tracked link a = some s') : Linked s' := by
  cases a with
  | tick now decayRate gcThreshold =>
    rw [State.step] at hstep
    split at hstep
    case h_1 hwork =>
      split_ifs at hstep
      obtain rfl := Option.some.inj hstep
      refine ⟨fun hdisk => ⟨(h.fresh hdisk).1, ?_⟩, h.spans, fun hw => ?_,
        begin_run s now decayRate gcThreshold⟩
      · change (s.begin now decayRate gcThreshold).run? = none
        have hnone : s.disk = none := hdisk
        rw [State.begin, hnone]
        rfl
      · change s.begin now decayRate gcThreshold = .starting at hw
        -- A tick starts with nothing on disk, and resumes or goes on otherwise.
        obtain ⟨hnone, -⟩ | ⟨last, c, -, hbegin⟩ | ⟨last, -, hbegin⟩ :=
          s.begin_cases now decayRate gcThreshold
        · exact hnone
        · rw [hbegin] at hw
          split_ifs at hw
        · rw [hbegin] at hw
          split_ifs at hw
    case h_2 => cases hstep
  | start now =>
    rw [State.step] at hstep
    split at hstep
    case h_1 hwork =>
      split_ifs at hstep
      obtain rfl := Option.some.inj hstep
      have hwindows := (h.fresh (h.starting hwork)).1
      refine ⟨nofun, fun d hd => ?_, nofun, nofun⟩
      rw [← Option.some.inj hd]
      change Spans s.windows now now
      rw [hwindows]
      rfl
    case h_2 => cases hstep
  | fetch examined =>
    rw [State.step] at hstep
    split at hstep
    case h_1 run cursor hwork =>
      obtain ⟨work, hfetch, rfl⟩ := Option.map_eq_some_iff.mp hstep
      have hrun : s.work.run? = some run := by rw [hwork]; rfl
      exact h.goOn hrun (run?_of_fetch hfetch) (.inl rfl)
    case h_2 => cases hstep
  | op => exact h.op hstep
  | write store =>
    rw [State.step] at hstep
    split_ifs at hstep
    obtain rfl := Option.some.inj hstep
    exact ⟨h.fresh, h.spans, h.starting, h.run⟩
  | relink edges =>
    rw [State.step] at hstep
    split_ifs at hstep
    obtain rfl := Option.some.inj hstep
    exact ⟨h.fresh, h.spans, h.starting, h.run⟩
  | stop =>
    obtain rfl := Option.some.inj hstep
    exact ⟨fun hdisk => ⟨(h.fresh hdisk).1, rfl⟩, h.spans, nofun, nofun⟩

end Linked

/-! ## The emotions -/

section Emotions

variable (half : ℚ → ℚ) (vocabulary : Instant → Vocabulary) (row : Row)

/-- What a decay leaves of the row: the window is on top once the cursor has come to it. -/
def Due (s : State) (run : Run) (cursor : Option Key) (e : Emotions) : Prop :=
  (Passed cursor row.key → e =
    run.window.decay half vocabulary (decayedBy half vocabulary s.windows row.emotions)) ∧
  (¬ Passed cursor row.key → e = decayedBy half vocabulary s.windows row.emotions)

/-- The cursor of a decay that runs is in the file. -/
def OnDisk (s : State) (run : Run) (cursor : Option Key) : Prop :=
  0 < run.window.elapsed ∧
    s.disk = some ⟨run.window.start, cursor.map fun key => ⟨run.window.stop, key⟩⟩

/-- The decay of a tick is done, and its window is not recorded yet. -/
def Decayed (s : State) (run : Run) (e : Emotions) : Prop :=
  s.disk = some ⟨run.window.start, none⟩ ∧
    e = run.window.decay half vocabulary (decayedBy half vocabulary s.windows row.emotions)

/-- What holds of the emotions of the row at each commit of a tick. -/
def Pending (s : State) (e : Emotions) : Prop :=
  match s.work with
  | .idle | .starting =>
    (∀ d ∈ s.disk, ∀ c ∈ d.decayCursor, d.lastTickAt < c.tickAt) ∧
      e = decayedBy half vocabulary (s.applied row.key) row.emotions
  | .decaying run cursor => OnDisk s run cursor ∧ Due half vocabulary row s run cursor e
  | .updating run cursor changed last =>
    (∃ old, OnDisk s run old ∧ Due half vocabulary row s run old e) ∧
      Due half vocabulary row s run (some cursor) (changed.apply row.id e) ∧
      (last → Passed (some cursor) row.key)
  | .saving run cursor dirty last =>
    (∃ old, OnDisk s run old ∧ (dirty = false → Due half vocabulary row s run old e)) ∧
      Due half vocabulary row s run (some cursor) e ∧ (last → Passed (some cursor) row.key)
  | .clearing run =>
    ∃ cursor, OnDisk s run cursor ∧ Passed cursor row.key ∧ Due half vocabulary row s run cursor e
  | .weakening run | .collecting run | .finishing run => Decayed half vocabulary row s run e

/-- The row, which is as it was but for its emotions. -/
structure Tracked (s : State) (r : Row) : Prop where
  found : s.store.row? row.id = some r
  key : r.key = row.key
  active : r.active
  unprotected : ¬ r.isProtected

/-- What holds of the emotions of the row in every state. -/
def EmotionsKept (s : State) : Prop := ∃ r, Tracked row s r ∧ Pending half vocabulary row s r.emotions

variable {half vocabulary row} {s : State} {run : Run} {cursor : Option Key} {e : Emotions} {r : Row}

theorem Tracked.mem (h : Tracked row s r) : r ∈ s.store.rows ∧ r.id = row.id :=
  Store.mem_of_row? h.found

/-- A decay that is stopped leaves what the next tick resumes. -/
theorem OnDisk.idle (h : OnDisk s run cursor) (hdue : Due half vocabulary row s run cursor e) :
    Pending half vocabulary row { s with work := .idle } e := by
  obtain ⟨helapsed, hdisk⟩ := h
  have hlt : run.window.start < run.window.stop := by
    unfold Window.elapsed at helapsed
    linarith
  cases cursor with
  | none =>
    have happlied : State.applied { s with work := .idle } row.key = s.windows := by
      rw [State.applied, hdisk]
      rfl
    refine ⟨fun d hd c hc => ?_, ?_⟩
    · obtain rfl := Option.some.inj (hdisk.symm.trans hd)
      cases hc
    · rw [happlied]
      exact hdue.2 nofun
  | some key =>
    refine ⟨fun d hd c hc => ?_, ?_⟩
    · obtain rfl := Option.some.inj (hdisk.symm.trans hd)
      obtain rfl := Option.some.inj hc
      exact hlt
    · rw [State.applied, hdisk]
      change e = decayedBy half vocabulary (if row.key ≤ key then _ else _) _
      by_cases hle : row.key ≤ key
      · rw [if_pos hle]
        exact hdue.1 ⟨key, rfl, hle⟩
      · rw [if_neg hle]
        refine hdue.2 ?_
        rintro ⟨_, ⟨⟩, hle'⟩
        exact hle hle'

/-- A window of no time leaves nothing to repeat. -/
theorem Decayed.idle (h : Decayed half vocabulary row s run e) (helapsed : run.window.elapsed ≤ 0) :
    Pending half vocabulary row { s with work := .idle } e := by
  obtain ⟨hdisk, he⟩ := h
  rw [Window.decay_of_nonpos helapsed] at he
  refine ⟨fun d hd c hc => ?_, ?_⟩
  · obtain rfl := Option.some.inj (hdisk.symm.trans hd)
    cases hc
  · rw [State.applied, hdisk]
    exact he

/-- A tick that begins resumes the decay that is in the file, or starts one. -/
theorem Pending.begin (h : Pending half vocabulary row s e) (hwork : s.work = .idle) {now : Instant}
    (decayRate gcThreshold : ℚ) :
    Pending half vocabulary row
      { s with clock := now, work := s.begin now decayRate gcThreshold } e := by
  unfold Pending at h
  rw [hwork] at h
  obtain ⟨hcursor, he⟩ := h
  obtain ⟨hdisk, hbegin⟩ | ⟨last, c, hdisk, hbegin⟩ | ⟨last, hdisk, hbegin⟩ :=
    s.begin_cases now decayRate gcThreshold
  · rw [hbegin]
    exact ⟨hcursor, he⟩
  · have hlt : last < c.tickAt := hcursor _ hdisk c rfl
    rw [hbegin, if_neg (by linarith)]
    rw [State.applied, hdisk] at he
    change e = decayedBy half vocabulary (if row.key ≤ c.key then _ else _) _ at he
    refine ⟨⟨?_, hdisk⟩, fun hpassed => ?_, fun hpassed => ?_⟩
    · change 0 < c.tickAt - last
      linarith
    · obtain ⟨_, ⟨⟩, hle⟩ := hpassed
      rw [if_pos hle] at he
      exact he
    · rw [if_neg fun hle => hpassed ⟨c.key, rfl, hle⟩] at he
      exact he
  · have hwindows : s.applied row.key = s.windows := by rw [State.applied, hdisk]
    rw [hwindows] at he
    rw [hbegin]
    by_cases hle : now - last ≤ 0
    · rw [if_pos hle]
      have hnone : (⟨last, now, decayRate⟩ : Window).elapsed ≤ 0 := hle
      exact ⟨hdisk, he.trans (Window.decay_of_nonpos hnone).symm⟩
    · rw [if_neg hle]
      refine ⟨⟨?_, hdisk⟩, nofun, fun _ => he⟩
      change 0 < now - last
      linarith

/-- The examined rows of a batch: those that the cursor comes to are decayed. -/
theorem Due.examine (hdue : Due half vocabulary row s run cursor r.emotions) (hrow : Tracked row s r)
    (helapsed : 0 < run.window.elapsed) {limit n : ℕ} {last : Row}
    (hlast : ((s.store.listActiveSince cursor limit).take n).getLast? = some last) :
    Due half vocabulary row s run (some last.key)
      ((changedOf half (vocabulary run.window.stop) run.window.elapsed
        ((s.store.listActiveSince cursor limit).take n)).apply row.id r.emotions) := by
  obtain ⟨hmem, hid⟩ := hrow.mem
  have hsub : ((s.store.listActiveSince cursor limit).take n).Sublist (s.store.activeSince cursor) :=
    (List.take_sublist _ _).trans (List.take_sublist _ _)
  have hids := (s.store.activeSince_ids cursor).sublist (hsub.map _)
  have hsorted := (s.store.activeSince_sorted cursor).sublist hsub
  have hlastmem := Store.mem_activeSince.mp (hsub.subset (List.mem_of_getLast? hlast))
  -- A row of the batch with the id of the tracked row is that row.
  have hexamined : row.id ∈ ((s.store.listActiveSince cursor limit).take n).map Row.id →
      r ∈ (s.store.listActiveSince cursor limit).take n := by
    intro hin
    obtain ⟨r', hr', hid'⟩ := List.mem_map.mp hin
    have hr := (Store.mem_activeSince.mp (hsub.subset hr')).1
    obtain rfl : r' = r := List.inj_on_of_nodup_map s.store.ids hr hmem (hid'.trans hid.symm)
    exact hr'
  by_cases hpassed : Passed cursor row.key
  · have hnot : row.id ∉ ((s.store.listActiveSince cursor limit).take n).map Row.id := by
      intro hin
      have hafter := (Store.mem_activeSince.mp (hsub.subset (hexamined hin))).2.2
      exact hafter (hrow.key ▸ hpassed)
    rw [apply_changedOf_of_not_mem hnot]
    refine ⟨fun _ => hdue.1 hpassed, fun hnext => absurd ?_ hnext⟩
    obtain ⟨c, hc, hle⟩ := hpassed
    have hlt : c < last.key := not_le.mp fun hle' => hlastmem.2.2 ⟨c, hc, hle'⟩
    exact ⟨last.key, rfl, hle.trans hlt.le⟩
  · have he := hdue.2 hpassed
    have hpassed' : ¬ Passed cursor r.key := hrow.key ▸ hpassed
    refine ⟨fun hnext => ?_, fun hnext => ?_⟩
    · obtain ⟨_, ⟨⟩, hle⟩ := hnext
      have hin := Store.mem_examined hmem hrow.active hpassed' hlast (hrow.key.symm ▸ hle)
      rw [← hid, apply_changedOf_of_mem hids hin hrow.unprotected, he, Window.decay_of_pos helapsed]
    · have hnot : row.id ∉ ((s.store.listActiveSince cursor limit).take n).map Row.id := by
        intro hin
        have hle := key_le_of_mem hsorted hlast (hexamined hin)
        exact hnext ⟨last.key, rfl, hrow.key ▸ hle⟩
      rw [apply_changedOf_of_not_mem hnot]
      exact he

/-- The last batch of a decay has come to the row. -/
theorem Tracked.passed_of_last (hrow : Tracked row s r) {limit n : ℕ}
    (hshort : (s.store.listActiveSince cursor limit).length < limit)
    (hall : (s.store.listActiveSince cursor limit).length ≤ n) {last : Row}
    (hlast : ((s.store.listActiveSince cursor limit).take n).getLast? = some last) :
    Passed (some last.key) row.key := by
  have hmem := hrow.mem.1
  rw [List.take_of_length_le hall] at hlast
  have hlastmem := Store.mem_activeSince.mp (List.mem_of_mem_take (List.mem_of_getLast? hlast))
  by_cases hpassed : Passed cursor row.key
  · obtain ⟨c, hc, hle⟩ := hpassed
    have hlt : c < last.key := not_le.mp fun hle' => hlastmem.2.2 ⟨c, hc, hle'⟩
    exact ⟨last.key, rfl, hle.trans hlt.le⟩
  · have hin := Store.mem_of_short_page hmem hrow.active (hrow.key.symm ▸ hpassed) hshort
    have hsorted := (s.store.activeSince_sorted cursor).sublist (List.take_sublist limit _)
    exact ⟨last.key, rfl, hrow.key ▸ key_le_of_mem hsorted hlast hin⟩

theorem Pending.fetch (hrow : Tracked row s r) (hdisk : OnDisk s run cursor)
    (hdue : Due half vocabulary row s run cursor r.emotions) {examined : ℕ} {work : Work}
    (h : s.fetch half vocabulary run cursor examined = some work) :
    Pending half vocabulary row { s with work := work } r.emotions := by
  unfold State.fetch at h
  dsimp only at h
  split at h
  case h_1 hnone =>
    split_ifs at h with hnil
    rw [← Option.some.inj h]
    refine ⟨cursor, hdisk, ?_, hdue⟩
    -- With no row after it, the cursor has come to the tracked one.
    by_contra hpassed
    have hshort : (s.store.listActiveSince cursor decayPageSize).length < decayPageSize := by
      rw [hnil]
      decide
    have hin := Store.mem_of_short_page hrow.mem.1 hrow.active (hrow.key.symm ▸ hpassed) hshort
    rw [hnil] at hin
    cases hin
  case h_2 last hlast =>
    have hnext := hdue.examine hrow hdisk.1 hlast
    have hpassed : (decide ((s.store.listActiveSince cursor decayPageSize).length < decayPageSize ∧
        (s.store.listActiveSince cursor decayPageSize).length ≤ examined)) →
          Passed (some last.key) row.key := by
      intro hdecide
      obtain ⟨hshort, hall⟩ := of_decide_eq_true hdecide
      exact hrow.passed_of_last hshort hall hlast
    split_ifs at h with hnil
    · rw [← Option.some.inj h]
      rw [hnil] at hnext
      exact ⟨⟨cursor, hdisk, fun _ => hdue⟩, hnext, hpassed⟩
    · rw [← Option.some.inj h]
      exact ⟨⟨cursor, hdisk, hdue⟩, hnext, hpassed⟩

/-- A batch that is committed. -/
theorem EmotionsKept.update {cursor : Key} {changed : Changes} {last : Bool}
    (h : EmotionsKept half vocabulary row s) (hwork : s.work = .updating run cursor changed last) :
    EmotionsKept half vocabulary row { s with
      store := s.store.updateEmotionsBatch changed, work := .saving run cursor true last } := by
  obtain ⟨r, hrow, hpending⟩ := h
  rw [Pending, hwork] at hpending
  obtain ⟨⟨old, hdisk, -⟩, hdue, hlast⟩ := hpending
  refine ⟨{ r with emotions := changed.apply row.id r.emotions }, ⟨?_, ?_, ?_, ?_⟩, ?_⟩
  · rw [Store.row?_updateEmotionsBatch, hrow.found]
    rfl
  · exact hrow.key
  · exact hrow.active
  · exact hrow.unprotected
  · exact ⟨⟨old, hdisk, nofun⟩, hdue, hlast⟩

/-- A tick that is stopped where the condition lets it. -/
theorem Pending.stop (h : Pending half vocabulary row s e) (hsaved : BatchSaved s .stop) :
    Pending half vocabulary row { s with work := .idle } e := by
  unfold BatchSaved at hsaved
  unfold Pending at h
  cases hwork : s.work with
  | idle =>
    rw [hwork] at h
    exact h
  | starting =>
    rw [hwork] at h
    exact h
  | decaying run cursor =>
    rw [hwork] at h
    exact h.1.idle h.2
  | updating run cursor changed last =>
    rw [hwork] at h
    obtain ⟨⟨old, hdisk, hdue⟩, -⟩ := h
    exact hdisk.idle hdue
  | saving run cursor dirty last =>
    rw [hwork] at h hsaved
    obtain ⟨⟨old, hdisk, hdue⟩, -⟩ := h
    have hclean : dirty = false := by simpa [batchSaved] using hsaved
    exact hdisk.idle (hdue hclean)
  | clearing run =>
    rw [hwork] at h
    obtain ⟨cursor, hdisk, -, hdue⟩ := h
    exact hdisk.idle hdue
  | weakening run =>
    rw [hwork] at h hsaved
    exact h.idle (of_decide_eq_true hsaved)
  | collecting run =>
    rw [hwork] at h hsaved
    exact h.idle (of_decide_eq_true hsaved)
  | finishing run =>
    rw [hwork] at h hsaved
    exact h.idle (of_decide_eq_true hsaved)

/-- The saves of a tick. -/
theorem EmotionsKept.op (h : EmotionsKept half vocabulary row s) {s' : State}
    (hstep : s.op = some s') : EmotionsKept half vocabulary row s' := by
  have hkept := h
  obtain ⟨r, hrow, hpending⟩ := h
  unfold Pending at hpending
  unfold State.op at hstep
  split at hstep
  case h_1 run cursor changed last hwork =>
    obtain rfl := Option.some.inj hstep
    exact hkept.update hwork
  case h_2 run cursor dirty last hwork =>
    obtain rfl := Option.some.inj hstep
    rw [hwork] at hpending
    obtain ⟨⟨old, hdisk, -⟩, hdue, hlast⟩ := hpending
    refine ⟨r, ⟨hrow.found, hrow.key, hrow.active, hrow.unprotected⟩, ?_⟩
    cases last with
    | true => exact ⟨some cursor, ⟨hdisk.1, rfl⟩, hlast rfl, hdue⟩
    | false => exact ⟨⟨hdisk.1, rfl⟩, hdue⟩
  case h_3 run hwork =>
    obtain rfl := Option.some.inj hstep
    rw [hwork] at hpending
    obtain ⟨cursor, hdisk, hpassed, hdue⟩ := hpending
    refine ⟨r, ⟨hrow.found, hrow.key, hrow.active, hrow.unprotected⟩, ?_⟩
    cases hresumed : run.resumed with
    | true => exact ⟨rfl, hdue.1 hpassed⟩
    | false => exact ⟨rfl, hdue.1 hpassed⟩
  case h_4 run hwork =>
    obtain rfl := Option.some.inj hstep
    rw [hwork] at hpending
    exact ⟨r, ⟨hrow.found, hrow.key, hrow.active, hrow.unprotected⟩, hpending⟩
  case h_5 run hwork =>
    obtain rfl := Option.some.inj hstep
    rw [hwork] at hpending
    exact ⟨r, ⟨hrow.found, hrow.key, hrow.active, hrow.unprotected⟩, hpending⟩
  case h_6 run hwork =>
    obtain rfl := Option.some.inj hstep
    rw [hwork] at hpending
    obtain ⟨hdisk, he⟩ := hpending
    refine ⟨r, ⟨hrow.found, hrow.key, hrow.active, hrow.unprotected⟩, fun d hd c hc => ?_, ?_⟩
    · obtain rfl := Option.some.inj hd
      rw [hdisk] at hc
      cases hc
    · rw [State.applied, hdisk]
      exact he
  case h_7 => cases hstep

/-- A step that meets the condition keeps the emotions of the row. -/
theorem EmotionsKept.step {link : Text × Text} (hlinked : Linked s)
    (h : EmotionsKept half vocabulary row s) {a : Act} (hsaved : BatchSaved s a) {s' : State}
    (hstep : s.step half vocabulary row.id link a = some s') :
    EmotionsKept half vocabulary row s' := by
  have hkept := h
  obtain ⟨r, hrow, hpending⟩ := h
  cases a with
  | tick now decayRate gcThreshold =>
    rw [State.step] at hstep
    split at hstep
    case h_1 hwork =>
      split_ifs at hstep
      obtain rfl := Option.some.inj hstep
      exact ⟨r, ⟨hrow.found, hrow.key, hrow.active, hrow.unprotected⟩,
        hpending.begin hwork decayRate gcThreshold⟩
    case h_2 => cases hstep
  | start now =>
    rw [State.step] at hstep
    split at hstep
    case h_1 hwork =>
      split_ifs at hstep
      obtain rfl := Option.some.inj hstep
      -- No window was applied before the first one.
      have hdisk := hlinked.starting hwork
      rw [Pending, hwork] at hpending
      refine ⟨r, ⟨hrow.found, hrow.key, hrow.active, hrow.unprotected⟩, fun d hd c hc => ?_, ?_⟩
      · obtain rfl := Option.some.inj hd
        cases hc
      · have happlied := hpending.2
        rw [State.applied, hdisk] at happlied
        exact happlied
    case h_2 => cases hstep
  | fetch examined =>
    rw [State.step] at hstep
    split at hstep
    case h_1 run cursor hwork =>
      obtain ⟨work, hfetch, rfl⟩ := Option.map_eq_some_iff.mp hstep
      rw [Pending, hwork] at hpending
      exact ⟨r, ⟨hrow.found, hrow.key, hrow.active, hrow.unprotected⟩,
        Pending.fetch hrow hpending.1 hpending.2 hfetch⟩
    case h_2 => cases hstep
  | op => exact hkept.op hstep
  | write store =>
    rw [State.step] at hstep
    split_ifs at hstep with hsame
    obtain rfl := Option.some.inj hstep
    exact ⟨r, ⟨hsame.trans hrow.found, hrow.key, hrow.active, hrow.unprotected⟩, hpending⟩
  | relink edges =>
    rw [State.step] at hstep
    split_ifs at hstep
    obtain rfl := Option.some.inj hstep
    exact ⟨r, ⟨hrow.found, hrow.key, hrow.active, hrow.unprotected⟩, hpending⟩
  | stop =>
    obtain rfl := Option.some.inj hstep
    exact ⟨r, ⟨hrow.found, hrow.key, hrow.active, hrow.unprotected⟩, hpending.stop hsaved⟩

end Emotions

/-! ## The edges -/

section Edges

variable (link : Text × Text) (weight : ℚ)

/-- The weight that an edge has at each commit of a tick. -/
def State.weightDue (s : State) : ℚ :=
  match s.work with
  | .collecting run => run.window.weaken (weakenedBy s.windows weight)
  | .finishing run =>
    if run.resumed then weakenedBy s.windows weight
    else run.window.weaken (weakenedBy s.windows weight)
  | _ => weakenedBy s.windows weight

/-- What holds of the edge in every state. -/
structure EdgesKept (s : State) : Prop where
  due : ∀ w, s.edges link = some w → w = s.weightDue weight
  /-- A resumed tick leaves the edges out. -/
  fresh : ∀ run, s.work = .weakening run ∨ s.work = .collecting run → run.resumed = false

variable {link weight} {s s' : State}

/-- Steps that leave the weights. -/
theorem EdgesKept.frame (h : EdgesKept link weight s) (hedges : s'.edges link = s.edges link)
    (hdue : s'.weightDue weight = s.weightDue weight)
    (hfresh : ∀ run, s'.work = .weakening run ∨ s'.work = .collecting run → run.resumed = false) :
    EdgesKept link weight s' := by
  refine ⟨fun w hw => ?_, hfresh⟩
  rw [hdue]
  exact h.due w (hedges ▸ hw)

theorem EdgesKept.op (h : EdgesKept link weight s) (hsaved : EdgesSaved s .op)
    (hstep : s.op = some s') : EdgesKept link weight s' := by
  unfold EdgesSaved at hsaved
  have hdue := h.due
  unfold State.weightDue at hdue
  unfold State.op at hstep
  split at hstep
  case h_1 run cursor changed last hwork =>
    obtain rfl := Option.some.inj hstep
    refine h.frame rfl ?_ nofun
    rw [State.weightDue, State.weightDue, hwork]
  case h_2 run cursor dirty last hwork =>
    obtain rfl := Option.some.inj hstep
    rw [hwork] at hdue
    cases last with
    | true => exact ⟨hdue, nofun⟩
    | false => exact ⟨hdue, nofun⟩
  case h_3 run hwork =>
    obtain rfl := Option.some.inj hstep
    rw [hwork] at hdue
    -- A tick that was resumed goes on to its end and leaves the edges as they are.
    cases hresumed : run.resumed with
    | true =>
      refine ⟨fun w hw => ?_, nofun⟩
      rw [hdue w hw]
      exact (if_pos hresumed).symm
    | false =>
      refine ⟨hdue, fun run' hrun' => ?_⟩
      rcases hrun' with heq | heq
      · rw [← Work.weakening.inj heq]
        exact hresumed
      · cases heq
  case h_4 run hwork =>
    obtain rfl := Option.some.inj hstep
    rw [hwork] at hdue
    refine ⟨fun w hw => ?_, fun run' hrun' => ?_⟩
    · obtain ⟨w', hw', rfl⟩ := Option.map_eq_some_iff.mp hw
      rw [hdue w' hw']
      rfl
    · rcases hrun' with heq | heq
      · cases heq
      · rw [← Work.collecting.inj heq]
        exact h.fresh run (.inl hwork)
  case h_5 run hwork =>
    obtain rfl := Option.some.inj hstep
    have hfresh := h.fresh run (.inr hwork)
    rw [hwork] at hdue
    refine ⟨fun w hw => ?_, nofun⟩
    obtain ⟨hw', -⟩ := Option.filter_eq_some_iff.mp hw
    rw [hdue w hw']
    exact (if_neg (by simp [hfresh])).symm
  case h_6 run hwork =>
    obtain rfl := Option.some.inj hstep
    rw [hwork] at hdue hsaved
    -- The tick is the one that has weakened the edges, by the condition.
    have hfresh : run.resumed = false := by simpa [edgesSaved] using hsaved
    refine ⟨fun w hw => ?_, nofun⟩
    have hw' := hdue w hw
    rw [hw']
    exact if_neg (by simp [hfresh])
  case h_7 => cases hstep

theorem Window.weaken_of_nonpos {w : Window} (h : w.rate ≤ 0) (weight : ℚ) :
    w.weaken weight = weight := if_neg (not_lt.mpr h)

theorem EdgesKept.stop (h : EdgesKept link weight s) (hsaved : EdgesSaved s .stop) :
    EdgesKept link weight { s with work := .idle } := by
  unfold EdgesSaved at hsaved
  refine h.frame rfl ?_ nofun
  change weakenedBy s.windows weight = s.weightDue weight
  unfold State.weightDue
  cases hwork : s.work with
  | collecting run =>
    rw [hwork] at hsaved
    have hrate : run.window.rate ≤ 0 := of_decide_eq_true hsaved
    exact (Window.weaken_of_nonpos hrate _).symm
  | finishing run =>
    rw [hwork] at hsaved
    change weakenedBy s.windows weight = if run.resumed then _ else _
    split_ifs with hresumed
    · rfl
    · have hrate : run.window.rate ≤ 0 := by simpa [edgesSaved, hresumed] using hsaved
      exact (Window.weaken_of_nonpos hrate _).symm
  | _ => rfl

/-- A tick that begins has not decayed the edges. -/
theorem EdgesKept.begin (h : EdgesKept link weight s) (hwork : s.work = .idle) (now : Instant)
    (decayRate gcThreshold : ℚ) :
    EdgesKept link weight { s with clock := now, work := s.begin now decayRate gcThreshold } := by
  have hdue := h.due
  rw [State.weightDue, hwork] at hdue
  obtain ⟨-, hbegin⟩ | ⟨last, c, -, hbegin⟩ | ⟨last, -, hbegin⟩ :=
    s.begin_cases now decayRate gcThreshold
  · rw [hbegin]
    exact ⟨hdue, nofun⟩
  · rw [hbegin]
    split_ifs
    · exact ⟨hdue, nofun⟩
    · exact ⟨hdue, nofun⟩
  · rw [hbegin]
    split_ifs
    · refine ⟨hdue, fun run hrun => ?_⟩
      rcases hrun with heq | heq
      · rw [← Work.weakening.inj heq]
      · cases heq
    · exact ⟨hdue, nofun⟩

variable {half : ℚ → ℚ} {vocabulary : Instant → Vocabulary} {tracked : Text}

/-- What a fetch leads to decays no edge. -/
theorem EdgesKept.fetch (h : EdgesKept link weight s) {run : Run} {cursor : Option Key}
    (hwork : s.work = .decaying run cursor) {examined : ℕ} {work : Work}
    (hfetch : s.fetch half vocabulary run cursor examined = some work) :
    EdgesKept link weight { s with work := work } := by
  have hdue := h.due
  rw [State.weightDue, hwork] at hdue
  unfold State.fetch at hfetch
  dsimp only at hfetch
  split at hfetch
  case h_1 =>
    split_ifs at hfetch
    rw [← Option.some.inj hfetch]
    exact ⟨hdue, nofun⟩
  case h_2 =>
    split_ifs at hfetch
    · rw [← Option.some.inj hfetch]
      exact ⟨hdue, nofun⟩
    · rw [← Option.some.inj hfetch]
      exact ⟨hdue, nofun⟩

/-- A step that meets the condition keeps the edge. -/
theorem EdgesKept.step (h : EdgesKept link weight s) {a : Act} (hsaved : EdgesSaved s a)
    (hstep : s.step half vocabulary tracked link a = some s') : EdgesKept link weight s' := by
  cases a with
  | tick now decayRate gcThreshold =>
    rw [State.step] at hstep
    split at hstep
    case h_1 hwork =>
      split_ifs at hstep
      obtain rfl := Option.some.inj hstep
      exact h.begin hwork now decayRate gcThreshold
    case h_2 => cases hstep
  | start now =>
    rw [State.step] at hstep
    split at hstep
    case h_1 hwork =>
      split_ifs at hstep
      obtain rfl := Option.some.inj hstep
      refine h.frame rfl ?_ nofun
      rw [State.weightDue, State.weightDue, hwork]
    case h_2 => cases hstep
  | fetch examined =>
    rw [State.step] at hstep
    split at hstep
    case h_1 run cursor hwork =>
      obtain ⟨work, hfetch, rfl⟩ := Option.map_eq_some_iff.mp hstep
      exact h.fetch hwork hfetch
    case h_2 => cases hstep
  | op => exact h.op hsaved hstep
  | write store =>
    rw [State.step] at hstep
    split_ifs at hstep
    obtain rfl := Option.some.inj hstep
    exact h.frame rfl rfl h.fresh
  | relink edges =>
    rw [State.step] at hstep
    split_ifs at hstep with hsame
    obtain rfl := Option.some.inj hstep
    exact h.frame hsame rfl h.fresh
  | stop =>
    obtain rfl := Option.some.inj hstep
    exact h.stop hsaved

end Edges

/-! ## Every window once -/

section Start

variable {half : ℚ → ℚ} {vocabulary : Instant → Vocabulary} {row : Row} {link : Text × Text}
variable {weight : ℚ} {s : State}

theorem linked_start (h : s.Start row link weight) : Linked s := by
  refine ⟨fun _ => ⟨h.windows, ?_⟩, ?_, fun _ => h.disk, ?_⟩
  · rw [h.work]
    rfl
  · rw [h.disk]
    exact nofun
  · rw [h.work]
    exact nofun

theorem emotionsKept_start (h : s.Start row link weight) : EmotionsKept half vocabulary row s := by
  refine ⟨row, ⟨h.found, rfl, h.active, h.unprotected⟩, ?_⟩
  rw [Pending, h.work]
  refine ⟨?_, ?_⟩
  · rw [h.disk]
    exact nofun
  · rw [State.applied, h.disk, h.windows]
    rfl

theorem edgesKept_start (h : s.Start row link weight) : EdgesKept link weight s := by
  refine ⟨fun w hw => ?_, ?_⟩
  · rw [State.weightDue, h.work, h.windows]
    exact Option.some.inj (hw.symm.trans h.edge)
  · rw [h.work]
    exact nofun

theorem emotions_kept (h : (machine half vocabulary row link weight).Reach BatchSaved s) :
    Linked s ∧ EmotionsKept half vocabulary row s := by
  induction h with
  | init hstart => exact ⟨linked_start hstart, emotionsKept_start hstart⟩
  | step _ hsaved hstep ih => exact ⟨ih.1.step hstep, ih.2.step ih.1 hsaved hstep⟩

theorem edges_kept (h : (machine half vocabulary row link weight).Reach EdgesSaved s) :
    Linked s ∧ EdgesKept link weight s := by
  induction h with
  | init hstart => exact ⟨linked_start hstart, edgesKept_start hstart⟩
  | step _ hsaved hstep ih => exact ⟨ih.1.step hstep, ih.2.step hsaved hstep⟩

end Start

variable (half : ℚ → ℚ) (vocabulary : Instant → Vocabulary) (row : Row) (link : Text × Text)
variable (weight : ℚ)

/-- Between ticks, the row has each window once in a run whose batches and decays are saved, and the
edge has each once in a run whose decays of the edges are. -/
theorem windows_once :
    (∀ s, (machine half vocabulary row link weight).Reach BatchSaved s → s.work = .idle →
      EmotionsOnce half vocabulary row s) ∧
    ∀ s, (machine half vocabulary row link weight).Reach EdgesSaved s → s.work = .idle →
      EdgesOnce link weight s := by
  constructor
  · intro s h hidle
    obtain ⟨hlinked, r, hrow, hpending⟩ := emotions_kept h
    rw [Pending, hidle] at hpending
    exact ⟨hlinked.spans, r, hrow.found, hpending.2⟩
  · intro s h hidle
    obtain ⟨hlinked, hkept⟩ := edges_kept h
    refine ⟨hlinked.spans, fun w hw => ?_⟩
    have hdue := hkept.due w hw
    rw [State.weightDue, hidle] at hdue
    exact hdue

/-- The powers of one half, of whole numbers. -/
def sampleHalf (x : ℚ) : ℚ := (1 / 2) ^ x.floor.toNat

/-- Joy, with a half-life of a day. -/
def sampleVocabulary : Instant → Vocabulary := fun _ name =>
  if name = ['j', 'o', 'y'] then some ⟨some 1, 10⟩ else none

def sampleRow : Row := ⟨['0'], ['a'], true, false, Dict.ofList [(['j', 'o', 'y'], 8)]⟩

def sampleLink : Text × Text := (['a'], ['b'])

def sampleStart : State where
  clock := 0
  store := ⟨[sampleRow], by decide⟩
  edges := fun e => if e = sampleLink then some (1 / 2) else none
  disk := none
  work := .idle
  windows := []
  first := 0

theorem start_sampleStart : sampleStart.Start sampleRow sampleLink (1 / 2) :=
  ⟨rfl, rfl, rfl, rfl, rfl, nofun, rfl⟩

/-- A tick at the end of a day, up to the commit of its only batch. -/
def sampleBatch (days : ℤ) : List Act :=
  [.tick (days * 86400000000) (1 / 100) (1 / 100), .fetch 1, .op]

/-- Two ticks, of which the second has been stopped within its first batch. -/
theorem windows_once_resumed :
    ∃ s, (machine sampleHalf sampleVocabulary sampleRow sampleLink (1 / 2)).Reach BatchSaved s ∧
      s.work = .idle ∧ s.windows.length = 2 ∧
      EmotionsOnce sampleHalf sampleVocabulary sampleRow s := by
  obtain ⟨s, hs, hp⟩ := Machine.exists_reach_of_runWithin
    (M := machine sampleHalf sampleVocabulary sampleRow sampleLink (1 / 2)) (D := BatchSaved)
    (fun _ _ h => h) start_sampleStart
    ([.tick 0 0 0, .start 0] ++ sampleBatch 1 ++
      [.op, .stop, .tick (2 * 86400000000) (1 / 100) 0, .fetch 0, .op, .op] ++ sampleBatch 3 ++ [.op, .op, .op, .op, .op])
    (fun s => s.work = .idle ∧ s.windows.length = 2) (by decide +kernel)
  obtain ⟨hidle, hwindows⟩ := of_decide_eq_true hp
  exact ⟨s, hs, hidle, hwindows, (windows_once sampleHalf sampleVocabulary sampleRow sampleLink
    (1 / 2)).1 s hs hidle⟩

/-- A tick that is stopped after the commit of a batch, before its cursor is saved, decays the row
again. One that is stopped after the save leaves the edges without the window. -/
theorem window_repeated_skipped :
    (∃ s, (machine sampleHalf sampleVocabulary sampleRow sampleLink (1 / 2)).Reachable s ∧
      s.work = .idle ∧ ¬ EmotionsOnce sampleHalf sampleVocabulary sampleRow s) ∧
    ∃ s, (machine sampleHalf sampleVocabulary sampleRow sampleLink (1 / 2)).Reachable s ∧
      s.work = .idle ∧ ¬ EdgesOnce sampleLink (1 / 2) s := by
  constructor
  · obtain ⟨s, hs, hp⟩ := Machine.exists_reach_of_runWithin
      (M := machine sampleHalf sampleVocabulary sampleRow sampleLink (1 / 2)) (D := fun _ _ => True)
      (fun _ _ h => h) start_sampleStart
      ([.tick 0 0 0, .start 0] ++ sampleBatch 1 ++ [.stop] ++ sampleBatch 2 ++
        [.op, .op, .op, .op, .op])
      (fun s => s.work = .idle ∧ (s.store.row? sampleRow.id).map Row.emotions ≠
        some (decayedBy sampleHalf sampleVocabulary (s.applied sampleRow.key) sampleRow.emotions))
      (by decide +kernel)
    obtain ⟨hidle, hne⟩ := of_decide_eq_true hp
    refine ⟨s, hs, hidle, fun h => hne ?_⟩
    obtain ⟨r, hr, he⟩ := h.once
    rw [hr, ← he]
    rfl
  · obtain ⟨s, hs, hp⟩ := Machine.exists_reach_of_runWithin
      (M := machine sampleHalf sampleVocabulary sampleRow sampleLink (1 / 2)) (D := fun _ _ => True)
      (fun _ _ h => h) start_sampleStart
      ([.tick 0 0 0, .start 0] ++ sampleBatch 1 ++
        [.op, .stop, .tick (2 * 86400000000) (1 / 100) 0, .fetch 0, .op, .op])
      (fun s => s.work = .idle ∧ s.edges sampleLink = some (1 / 2) ∧
        weakenedBy s.windows (1 / 2) ≠ 1 / 2)
      (by decide +kernel)
    obtain ⟨hidle, hedge, hne⟩ := of_decide_eq_true hp
    exact ⟨s, hs, hidle, fun h => hne (h.once _ hedge).symm⟩

end Companion.Heartbeat

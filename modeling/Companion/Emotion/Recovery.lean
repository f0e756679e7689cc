import Companion.Emotion.Queue
import Mathlib

/-!
# The recovery from a backup

`replay` and `catch_up` of `brain/emotion/engine_rebuild.py`, and the drain that runs them: the main
state file is lost, and the state is loaded from the copy that the last save has put aside. What has
happened since is replayed from the memories and the change log up to the oldest event of the queue,
and the queue is folded from its start.

The store of the memories and the change log may be any.
-/

namespace Companion.Emotion

open Companion.Memory Companion.Runs

/-- A row of `memories.db`: its emotions where it counts, and its weight. -/
structure Row (K : Type*) where
  created : Instant
  accessed : Option Instant
  emotions : Dict Text K
  modifier : K
  deriving DecidableEq

inductive Payload (K : Type*)
  | stamp
  | row (id : Text) (row : Row K)
  | change (event : Event K)

structure Point (K : Type*) where
  time : Instant
  payload : Payload K

section Replay

variable {K : Type*} [Field K] [LinearOrder K]

/-- The time is from `after` on and before `stop`, where there is one. -/
def within (after : Instant) (stop : Option Instant) (time : Instant) : Bool :=
  after ≤ time && stop.all (time < ·)

/-- When a row folds: at its last access if that is in the window, else at its creation. -/
def Row.foldsAt (r : Row K) (after : Instant) (stop : Option Instant) : Option Instant :=
  match r.accessed.filter (within after stop) with
  | some accessed => some (max r.created accessed)
  | none => if after ≤ r.created then some r.created else none

/-- What `replay` folds of a row. -/
def rowPoint (after : Instant) (stop : Option Instant) (r : Text × Row K) : Option (Point K) :=
  if r.2.emotions.entries = [] then none
  else (r.2.foldsAt after stop).map fun time => ⟨time, .row r.1 r.2⟩

/-- The points of `replay`, in the order in which they are read. -/
def replayPoints (rows : List (Text × Row K)) (stamps : List Instant) (changes : List (Event K))
    (after : Instant) (stop : Option Instant) : List (Point K) :=
  (stamps.filter (after ≤ ·)).map (⟨·, .stamp⟩) ++ rows.filterMap (rowPoint after stop) ++
    (changes.filter fun e => within after stop e.time).map fun e => ⟨e.time, .change e⟩

variable (S : Setting K)

/-- The fold of a point. -/
def EngineState.foldPoint (s : EngineState K) (after now : Instant) (p : Point K) :
    EngineState K :=
  let held := min p.time now
  let s := s.closeDays S held
  match p.payload with
  | .stamp => s.foldEvent S ⟨.start, p.time, none, ∅, 1, 0⟩ now
  | .change event => s.foldEvent S event now
  | .row id r =>
    let s := r.emotions.entries.foldl (fun s e => s.foldEntry S e.1 e.2 r.modifier held false) s
    if after ≤ r.created ∧ now - r.created < repeatWindow then
      { s with repeats := s.repeats.set id ⟨min r.created now, 0⟩ }
    else s

/-- The points in time order, those at one time in the order in which they are read. -/
def pointsInOrder (points : List (Point K)) : List (Point K) :=
  points.insertionSort fun p q => p.time ≤ q.time

/-- The memory whose row a point folds. -/
def Point.rowId (p : Point K) : Option Text :=
  match p.payload with
  | .row id _ => some id
  | _ => none

/-- The rows that were folded. -/
def rowIds (points : List (Point K)) : List Text := points.filterMap Point.rowId

/-- `replay`, with the points that it folds. -/
def EngineState.replay (s : EngineState K) (points : List (Point K)) (after now : Instant) :
    EngineState K × List (Point K) :=
  let points := pointsInOrder points
  (points.foldl (fun s p => s.foldPoint S after now p) s, points)

/-- The rows by their creation, those of one time by their ids. -/
def rowsInOrder (rows : List (Text × Row K)) : List (Text × Row K) :=
  rows.insertionSort fun r q => r.2.created < q.2.created ∨ r.2.created = q.2.created ∧ r.1 ≤ q.1

/-- `list_engine_window` -/
def engineWindow (database : Dict Text (Row K)) (since : Instant) : List (Text × Row K) :=
  rowsInOrder
    (database.entries.filter fun r => since ≤ r.2.created ∨ r.2.accessed.any (since ≤ ·))

/-- `creation_stamps_since` -/
def creationStampsSince (database : Dict Text (Row K)) (since : Instant) : List Instant :=
  ((database.entries.map fun r => r.2.created).filter (since ≤ ·)).insertionSort (· ≤ ·)

/-- `catch_up`, with the points that are replayed, or none where it raises. -/
def EngineState.catchUp (s : EngineState K) (now : Instant) (database : Option (Dict Text (Row K)))
    (log : List (Event K)) (queued : List (Item K)) : Option (EngineState K × List (Point K)) :=
  (s.savedAt.filter fun saved => now - saved ≤ longHalfLife).bind fun saved =>
    database.map fun database =>
      let after := min saved now
      let stop := (queued.map fun i => i.event.time).min?
      let (s, points) := s.replay S
        (replayPoints (engineWindow database after) (creationStampsSince database after)
          (log.filter (after ≤ ·.time)) after stop) after now
      ({ s with queueLine := 0 }, points)

/-- What a drain has once it has loaded a backup and caught up, with the points that are replayed.
-/
def EngineState.recovered (s : EngineState K) (now : Instant) (database : Option (Dict Text (Row K)))
    (log : List (Event K)) (queue : Text) : Option (Ready K × List (Point K)) :=
  let now := s.savedAt.elim now (max now)
  let read := S.readQueue queue 0
  (s.catchUp S now database log read.items).map fun r =>
    ({ state := r.1
       now := now
       skipIds := rowIds r.2
       caughtUp := true
       fallbackEmpty := false
       preDay := s.activeDay
       queueRead := some read }, r.2)

end Replay

/-! ## The entries of a memory -/

section Entries

variable {K : Type*} {after : Instant} {stop : Option Instant}

/-- The points that fold the row of a memory. -/
def entriesOf (id : Text) (points : List (Point K)) : List (Point K) :=
  points.filter fun p => p.rowId = some id

theorem within_iff {time : Instant} :
    within after stop time = true ↔ after ≤ time ∧ ∀ t ∈ stop, time < t := by
  unfold within
  rw [Bool.and_eq_true, decide_eq_true_iff]
  cases stop <;> simp

/-- A row folds just in case it was created since, or opened since and before the stop. -/
theorem isSome_foldsAt {r : Row K} :
    (r.foldsAt after stop).isSome ↔
      after ≤ r.created ∨ ∃ t ∈ r.accessed, after ≤ t ∧ ∀ u ∈ stop, t < u := by
  have hopened : (r.accessed.filter (within after stop)).isSome ↔
      ∃ t ∈ r.accessed, after ≤ t ∧ ∀ u ∈ stop, t < u := by
    simp only [Option.isSome_iff_exists, Option.filter_eq_some_iff, within_iff, Option.mem_def]
  rw [← hopened]
  unfold Row.foldsAt
  cases r.accessed.filter (within after stop) with
  | some t => simp
  | none =>
    by_cases h : after ≤ r.created
    · simp [h]
    · simp [h]

theorem le_of_foldsAt {r : Row K} {time : Instant} (h : r.foldsAt after stop = some time) :
    after ≤ time := by
  unfold Row.foldsAt at h
  cases hopened : r.accessed.filter (within after stop) with
  | some t =>
    rw [hopened] at h
    obtain rfl := Option.some.inj h
    have hwithin := (Option.filter_eq_some_iff.mp hopened).2
    exact (within_iff.mp hwithin).1.trans (le_max_right _ _)
  | none =>
    rw [hopened] at h
    by_cases hcreated : after ≤ r.created
    · obtain rfl := Option.some.inj ((if_pos hcreated).symm.trans h)
      exact hcreated
    · exact absurd ((if_neg hcreated).symm.trans h) nofun

/-- A row with an entry is in the window that is read. -/
theorem inWindow_of_rowPoint {r : Text × Row K} {p : Point K} (h : rowPoint after stop r = some p) :
    after ≤ r.2.created ∨ r.2.accessed.any (after ≤ ·) := by
  unfold rowPoint at h
  split_ifs at h
  have hfolds := Option.isSome_map ▸ (congrArg Option.isSome h)
  rcases isSome_foldsAt.mp hfolds with hcreated | ⟨t, ht, hafter, -⟩
  · exact Or.inl hcreated
  · refine Or.inr ?_
    rw [ht]
    exact decide_eq_true hafter

theorem rowId_of_rowPoint {r : Text × Row K} {p : Point K} (h : rowPoint after stop r = some p) :
    p.rowId = some r.1 := by
  unfold rowPoint at h
  split_ifs at h
  obtain ⟨time, -, rfl⟩ := Option.map_eq_some_iff.mp h
  rfl

/-- The entries of a memory are those of its rows. -/
theorem entriesOf_filterMap (rows : List (Text × Row K)) (id : Text) :
    entriesOf id (rows.filterMap (rowPoint after stop)) =
      (rows.filter fun r => r.1 = id).filterMap (rowPoint after stop) := by
  rw [entriesOf, List.filter_filterMap, List.filterMap_filter]
  refine List.filterMap_congr fun r _ => ?_
  cases hpoint : rowPoint after stop r with
  | none => simp
  | some p =>
    have hid := rowId_of_rowPoint hpoint
    by_cases h : r.1 = id
    · simp [hid, h]
    · simp [hid, h]

theorem perm_pointsInOrder (points : List (Point K)) : (pointsInOrder points).Perm points :=
  List.perm_insertionSort _ points

theorem perm_rowsInOrder (rows : List (Text × Row K)) : (rowsInOrder rows).Perm rows :=
  List.perm_insertionSort _ rows

/-- A catch-up folds the row of a memory once, where it has an entry. -/
theorem entriesOf_replayPoints {database : Dict Text (Row K)} {id : Text} {row : Row K}
    (h : database.get? id = some row) (stamps : List Instant) (changes : List (Event K)) :
    entriesOf id
        (pointsInOrder (replayPoints (engineWindow database after) stamps changes after stop)) =
      (rowPoint after stop (id, row)).toList := by
  -- Stamps and changes are of no memory.
  have hstamps : entriesOf id ((stamps.filter (after ≤ ·)).map (⟨·, .stamp⟩ : Instant → Point K)) =
      [] := by
    refine List.filter_eq_nil_iff.mpr fun p hp => ?_
    obtain ⟨t, -, rfl⟩ := List.mem_map.mp hp
    exact nofun
  have hchanges : entriesOf id ((changes.filter fun e => within after stop e.time).map
      fun e => (⟨e.time, .change e⟩ : Point K)) = [] := by
    refine List.filter_eq_nil_iff.mpr fun p hp => ?_
    obtain ⟨e, -, rfl⟩ := List.mem_map.mp hp
    exact nofun
  -- An id is the key of one row.
  have hwindow : ((engineWindow database after).filter fun r => r.1 = id).Perm
      ([(id, row)].filter fun r => after ≤ r.2.created ∨ r.2.accessed.any (after ≤ ·)) := by
    rw [← Dict.filter_of_get? h, List.filter_comm]
    exact (perm_rowsInOrder _).filter _
  have hrows : (entriesOf id ((engineWindow database after).filterMap (rowPoint after stop))).Perm
      (rowPoint after stop (id, row)).toList := by
    rw [entriesOf_filterMap]
    refine (hwindow.filterMap _).trans (.of_eq ?_)
    -- Of one row there is one point at most, and that leaves no order.
    cases hrow : rowPoint after stop (id, row) with
    | none =>
      refine List.filterMap_eq_nil_iff.mpr fun r hr => ?_
      obtain rfl := List.mem_singleton.mp (List.mem_of_mem_filter hr)
      exact hrow
    | some p =>
      rw [List.filter_cons, if_pos (decide_eq_true (inWindow_of_rowPoint hrow))]
      exact List.filterMap_cons_some hrow
  have hpoints : entriesOf id
      (replayPoints (engineWindow database after) stamps changes after stop) =
      entriesOf id ((engineWindow database after).filterMap (rowPoint after stop)) := by
    unfold replayPoints
    rw [entriesOf, List.filter_append, List.filter_append]
    show entriesOf id _ ++ entriesOf id _ ++ entriesOf id _ = _
    rw [hstamps, hchanges, List.nil_append, List.append_nil]
  have hperm : (entriesOf id (pointsInOrder
      (replayPoints (engineWindow database after) stamps changes after stop))).Perm
      (rowPoint after stop (id, row)).toList :=
    ((perm_pointsInOrder _).filter _).trans ((List.Perm.of_eq hpoints).trans hrows)
  cases hrow : rowPoint after stop (id, row) with
  | none =>
    rw [hrow] at hperm
    exact List.perm_nil.mp hperm
  | some p =>
    rw [hrow] at hperm
    exact List.perm_singleton.mp hperm

theorem entriesOf_eq_nil {id : Text} {points : List (Point K)} :
    entriesOf id points = [] ↔ id ∉ rowIds points := by
  unfold entriesOf rowIds
  rw [List.filter_eq_nil_iff, List.mem_filterMap]
  simp

/-- A change that is replayed is in the window. -/
theorem within_of_change {rows : List (Text × Row K)} {stamps : List Instant}
    {changes : List (Event K)} {p : Point K} {e : Event K}
    (hp : p ∈ pointsInOrder (replayPoints rows stamps changes after stop))
    (he : p.payload = .change e) : within after stop e.time = true := by
  have hmem := (perm_pointsInOrder _).mem_iff.mp hp
  unfold replayPoints at hmem
  rcases List.mem_append.mp hmem with hmem | hchange
  · exfalso
    rcases List.mem_append.mp hmem with hstamp | hrow
    · obtain ⟨t, -, rfl⟩ := List.mem_map.mp hstamp
      exact nomatch he
    · obtain ⟨r, -, hr⟩ := List.mem_filterMap.mp hrow
      have hid := rowId_of_rowPoint hr
      unfold Point.rowId at hid
      rw [he] at hid
      exact nomatch hid
  · obtain ⟨e', he', rfl⟩ := List.mem_map.mp hchange
    obtain rfl := Payload.change.inj he
    exact (List.mem_filter.mp he').2

/-- What is before the oldest event of the queue is before each. -/
theorem lt_oldest_iff {queued : List (Item K)} {t : Instant} :
    (∀ u ∈ (queued.map fun i => i.event.time).min?, t < u) ↔ ∀ i ∈ queued, t < i.event.time := by
  cases hmin : (queued.map fun i => i.event.time).min? with
  | none =>
    have hnil := List.map_eq_nil_iff.mp (List.min?_eq_none_iff.mp hmin)
    rw [hnil]
    exact ⟨fun _ => nofun, fun _ => nofun⟩
  | some oldest =>
    obtain ⟨hmem, hle⟩ := List.min?_eq_some_iff.mp hmin
    constructor
    · intro h i hi
      have hlt := h oldest rfl
      exact lt_of_lt_of_le hlt (hle _ (List.mem_map.mpr ⟨i, hi, rfl⟩))
    · intro h u hu
      obtain rfl := Option.some.inj hu
      obtain ⟨i, hi, heq⟩ := List.mem_map.mp hmem
      exact heq ▸ h i hi

end Entries

/-! ## The catch-up -/

/-- What a copy saved at `since` is brought forward with. -/
def catchUpPoints {K : Type*} (database : Dict Text (Row K)) (log : List (Event K))
    (queued : List (Item K)) (since : Instant) : List (Point K) :=
  pointsInOrder
    (replayPoints (engineWindow database since) (creationStampsSince database since)
      (log.filter (since ≤ ·.time)) since (queued.map fun i => i.event.time).min?)

variable {K : Type*} [Field K] [LinearOrder K] (S : Setting K) {s : EngineState K}
  {saved now : Instant}

theorem catchUp_eq (hsaved : s.savedAt = some saved) (hle : saved ≤ now)
    (hnow : now - saved ≤ longHalfLife) (database : Dict Text (Row K)) (log : List (Event K))
    (queued : List (Item K)) :
    s.catchUp S now (some database) log queued =
      some
        ({ (catchUpPoints database log queued saved).foldl
              (fun s p => s.foldPoint S saved now p) s with queueLine := 0 },
          catchUpPoints database log queued saved) := by
  have hfresh : (s.savedAt.filter fun saved => now - saved ≤ longHalfLife) = some saved := by
    rw [hsaved, Option.filter_some, if_pos (decide_eq_true hnow)]
  unfold EngineState.catchUp
  rw [hfresh, Option.bind_some, Option.map_some, min_eq_left hle]
  rfl

/-- A copy that is not too old is brought forward from its own time. -/
theorem exists_recovered (hsaved : s.savedAt = some saved) (hnow : now - saved ≤ longHalfLife)
    (database : Dict Text (Row K)) (log : List (Event K)) (queue : Text) :
    ∃ r : Ready K,
      s.recovered S now (some database) log queue =
        some (r, catchUpPoints database log (S.readQueue queue 0).items saved) ∧
      r.state =
        { (catchUpPoints database log (S.readQueue queue 0).items saved).foldl
            (fun s p => s.foldPoint S saved r.now p) s with queueLine := 0 } ∧
      r.skipIds = rowIds (catchUpPoints database log (S.readQueue queue 0).items saved) ∧
      r.caughtUp = true ∧ r.queueRead = some (S.readQueue queue 0) := by
  have hmax : s.savedAt.elim now (max now) = max now saved := by rw [hsaved, Option.elim_some]
  have hold : max now saved - saved ≤ longHalfLife := by
    have hpos : (0 : ℤ) ≤ longHalfLife := by decide
    rcases le_total now saved with h | h
    · rw [max_eq_right h, sub_self]
      exact hpos
    · rw [max_eq_left h]
      exact hnow
  unfold EngineState.recovered
  simp only [hmax]
  rw [catchUp_eq S hsaved (le_max_right now saved) hold, Option.map_some]
  exact ⟨_, rfl, rfl, rfl, rfl, rfl⟩

end Companion.Emotion

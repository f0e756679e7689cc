import Companion.Dict
import Companion.Journal
import Companion.Memory.Text
import Mathlib

/-!
# Narrative arcs

`brain/narrative_memory/`: the arcs that anchors seed over the memories, the pass that opens,
extends, trims and closes them, the log of their events, and the state that is saved at the end of a
pass. `runPass` appends an event to the log at each change that it makes in memory, and saves the
state once, after the last of them. `loadOrRecover` takes the saved state unless the log holds a
newer event, and else replays the log.

Stamps are the instants that they name, and ages and saliences are exact.
-/

namespace Companion.Narrative

open Companion.Journal
open Companion.Memory (Text Instant)

/-! ## Arcs and their state -/

/-- The `state` of an arc. -/
inductive ArcStatus
  | opened
  | closed
  deriving DecidableEq

/-- `ArcMember` -/
structure ArcMember where
  memoryId : Text
  joinedAt : Instant
  livedAgeAtJoin : ℚ
  salienceAtJoin : ℚ
  deriving DecidableEq

/-- `Arc` -/
structure Arc where
  id : Text
  state : ArcStatus
  seedAnchorType : Text
  seedAnchorRef : Text
  seedMemoryIds : List Text
  title : Text
  openedAt : Instant
  livedAgeAtOpen : ℚ
  lastExtendedAt : Instant
  closedAt : Option Instant
  livedAgeAtClose : Option ℚ
  members : List ArcMember
  maxMemberEmotionNormalised : ℚ := 0
  dominantNonGriefEmotion : Option (Text × ℚ) := none

/-- The ids of an arc's members, in order. -/
def Arc.memberIds (arc : Arc) : List Text := arc.members.map ArcMember.memoryId

/-- `ArcsState` -/
structure ArcsState where
  openArcs : Dict Text Arc := ∅
  recentlyClosed : List Arc := []
  lastPassTs : Option Instant := none
  replayed : Bool := false

/-- `state.open[arc_id] = arc` -/
def ArcsState.put (s : ArcsState) (x : Text) (arc : Arc) : ArcsState :=
  { s with openArcs := s.openArcs.set x arc }

/-- `RECENTLY_CLOSED_CAP` -/
def recentlyClosedCap : ℕ := 20

/-- `state.recently_closed[-RECENTLY_CLOSED_CAP:]`, where there are more than so many. -/
def capClosed (s : ArcsState) : ArcsState :=
  { s with recentlyClosed := s.recentlyClosed.drop (s.recentlyClosed.length - recentlyClosedCap) }

/-! ## The log -/

/-- The `via` of a member that is added. -/
inductive Via
  | seed
  | hebbian
  | embedding
  deriving DecidableEq

/-- The `reason` of an arc that is closed. -/
inductive CloseReason
  | allMembersLost
  | stale72h
  deriving DecidableEq

/-- The events of `arcs.log.jsonl`. -/
inductive Event
  | arcOpened (arcId seedAnchorType seedAnchorRef : Text) (seedMemoryIds : List Text) (title : Text)
      (ts : Instant) (livedAgeHours : ℚ)
  | memberAdded (arcId memoryId : Text) (ts : Instant) (livedAgeHours salienceAtJoin : ℚ) (via : Via)
  /-- Its reason is always `max_members`. -/
  | memberEvicted (arcId memoryId : Text) (ts : Instant)
  | arcClosed (arcId title : Text) (ts : Instant) (livedAgeHours : ℚ) (reason : CloseReason)
      (finalMemberCount : ℕ)
  deriving DecidableEq

/-- `ts_iso` -/
def Event.ts : Event → Instant
  | .arcOpened _ _ _ _ _ ts _ => ts
  | .memberAdded _ _ ts _ _ _ => ts
  | .memberEvicted _ _ ts => ts
  | .arcClosed _ _ ts _ _ _ => ts

/-- The loop of `_log_newer_than_state`. -/
def newestEventTs (log : List Event) : Option Instant :=
  log.foldl (fun newest e => if newest.all (· < e.ts) then some e.ts else newest) none

/-- `_log_newer_than_state`. There is a file of the log once an event was appended. -/
def logNewerThanState (log : List Event) (s : ArcsState) : Bool :=
  if log.isEmpty then false
  else match s.lastPassTs with
    | none => true
    | some stateTs => (newestEventTs log).any (stateTs < ·)

/-- One event of `_replay_from_log`. -/
def replayEvent (s : ArcsState) : Event → ArcsState
  | .arcOpened x type ref seeds title ts age =>
    s.put x
      { id := x, state := .opened, seedAnchorType := type, seedAnchorRef := ref,
        seedMemoryIds := seeds, title := title, openedAt := ts, livedAgeAtOpen := age,
        lastExtendedAt := ts, closedAt := none, livedAgeAtClose := none, members := [] }
  | .memberAdded x m ts age salience _ =>
    match s.openArcs.get? x with
    | none => s
    | some arc =>
      if m ∈ arc.memberIds then s
      else
        s.put x
          { arc with members := arc.members ++ [⟨m, ts, age, salience⟩], lastExtendedAt := ts }
  | .memberEvicted x m _ =>
    match s.openArcs.get? x with
    | none => s
    | some arc => s.put x { arc with members := arc.members.filter fun k => k.memoryId ≠ m }
  | .arcClosed x _ ts age _ _ =>
    match s.openArcs.get? x with
    | none => s
    | some arc =>
      { s with
        openArcs := s.openArcs.pop x
        recentlyClosed := s.recentlyClosed ++
          [{ arc with state := .closed, closedAt := some ts, livedAgeAtClose := some age }] }

/-- `_replay_from_log` -/
def replayFromLog (log : List Event) : ArcsState :=
  capClosed (log.foldl replayEvent { replayed := true })

/-- `load_or_recover`, of the saved state, or none where it is missing or corrupt, and the log. -/
def loadOrRecover (file : Option ArcsState) (log : List Event) : ArcsState :=
  match file.filter fun s => !logNewerThanState log s with
  | some s => s
  | none => if log.isEmpty then {} else replayFromLog log

/-! ## Policy and membership -/

/-- `MAX_ARC_MEMBERS` -/
def maxArcMembers : ℕ := 50

/-- `ARC_STALE_LIVED_HOURS` -/
def arcStaleLivedHours : ℚ := 72

/-- `MEMBER_HEBBIAN_THRESHOLD` -/
def memberHebbianThreshold : ℚ := 3

/-- `should_open` -/
def shouldOpen (seeds : List Text) (openArcs : Dict Text Arc) : Bool :=
  !seeds.any fun m => openArcs.entries.any fun e => decide (m ∈ e.2.memberIds)

/-- `should_close` -/
def shouldClose (livedAgeNow : Option ℚ) (lastExtendedLivedAge : ℚ) : Bool :=
  livedAgeNow.any fun now => decide (arcStaleLivedHours ≤ now - lastExtendedLivedAge)

/-- `_AnchorLike`. The lived age is none where it is not finite. -/
structure Anchor where
  type : Text
  ref : Text
  label : Text
  ts : Instant
  livedAgeHours : Option ℚ
  seedMemoryIds : List Text
  deriving DecidableEq

/-- `_anchor_lived_age` -/
def anchorLivedAge (a : Anchor) : ℚ := a.livedAgeHours.getD 0

/-- What a pass is given, and what it reads while it runs. -/
structure Pass where
  /-- What `anchor_sweep` returns. -/
  anchors : List Anchor
  /-- `_make_arc_id`, at the anchor with this ref. -/
  newId : Text → Text
  /-- The ids of the memories since an instant. -/
  candidatePool : Instant → List Text
  isExempt : Text → Bool
  /-- `hebbian.weight` -/
  weight : Text → Text → ℚ
  /-- Some of these members have a vector, so has the memory, and its similarity to their mean is at
  least `MEMBER_EMBEDDING_THRESHOLD`. -/
  near : List Text → Text → Bool
  salienceScore : Text → ℚ
  /-- The lived age of the felt time, or none where it is missing or not finite. -/
  livedAgeNow : Option ℚ
  /-- `_compute_arc_close_emotion_inputs`, or 0 and none where there are no memories. -/
  closeEmotion : Arc → ℚ × Option (Text × ℚ)
  /-- The clock when a memory joins an arc. -/
  joinedAt : Text → Text → Instant
  /-- The clock when the arc is marked as extended by it. -/
  extendedAt : Text → Text → Instant
  /-- The clock when a memory is evicted from an arc. -/
  evictedAt : Text → Text → Instant
  /-- The clock when an arc is closed. -/
  closedAt : Text → Instant
  /-- The clock when the pass is through. -/
  doneAt : Instant

/-- `is_candidate`, with the members of whom the centroid was taken, once it was. `centroid_for`
takes it the first time in a pass. -/
def isCandidate (p : Pass) (m : Text) (arc : Arc) (centroid : Option (List Text)) :
    Option Via × Option (List Text) :=
  if arc.members.any fun k => decide (memberHebbianThreshold ≤ p.weight m k.memoryId) then
    (some .hebbian, centroid)
  else
    let ids := centroid.getD arc.memberIds
    (if p.near ids m then some .embedding else none, some ids)

/-! ## The pass -/

/-- The counts that a pass returns. -/
structure Counts where
  opened : ℕ := 0
  extended : ℕ := 0
  closed : ℕ := 0
  evicted : ℕ := 0
  deriving DecidableEq

/-- What a pass works on: the state, `touched_arc_ids` and the counts. -/
structure Progress where
  arcs : ArcsState
  touched : List Text := []
  counts : Counts := {}

/-- The arc's entry in the open arcs is replaced. -/
def Progress.put (s : Progress) (x : Text) (arc : Arc) : Progress :=
  { s with arcs := s.arcs.put x arc }

/-- The arc was opened or extended in this pass. -/
def Progress.touch (s : Progress) (x : Text) : Progress := { s with touched := x :: s.touched }

/-- The member that an anchor's seed becomes. -/
def seedMember (a : Anchor) (m : Text) : ArcMember := ⟨m, a.ts, anchorLivedAge a, 0⟩

/-- The event of a seed that becomes a member. -/
def seedAdded (x : Text) (a : Anchor) (m : Text) : Event :=
  .memberAdded x m a.ts (anchorLivedAge a) 0 .seed

/-- The anchor opens an arc. -/
def openArc (p : Pass) (a : Anchor) : Work Progress Event := fun s =>
  let x := p.newId a.ref
  let age := anchorLivedAge a
  let arc : Arc :=
    { id := x, state := .opened, seedAnchorType := a.type, seedAnchorRef := a.ref,
      seedMemoryIds := a.seedMemoryIds, title := a.label, openedAt := a.ts, livedAgeAtOpen := age,
      lastExtendedAt := a.ts, closedAt := none, livedAgeAtClose := none,
      members := a.seedMemoryIds.map (seedMember a) }
  ({ (s.put x arc).touch x with counts := { s.counts with opened := s.counts.opened + 1 } },
    .arcOpened x a.type a.ref a.seedMemoryIds a.label a.ts age ::
      a.seedMemoryIds.map (seedAdded x a))

/-- The seeds that are not yet members, each once. -/
def newSeeds (existing : List Text) : List Text → List Text
  | [] => []
  | m :: seeds =>
    if m ∈ existing then newSeeds existing seeds else m :: newSeeds (m :: existing) seeds

/-- The first open arc of which some seed is a member. -/
def targetArc (openArcs : Dict Text Arc) (seeds : List Text) : Option (Text × Arc) :=
  openArcs.entries.find? fun e => e.2.memberIds.any fun m => decide (m ∈ seeds)

/-- The anchor's seeds become members of an open arc. -/
def extendArc (a : Anchor) (x : Text) (arc : Arc) : Work Progress Event := fun s =>
  let added := newSeeds arc.memberIds a.seedMemoryIds
  if added.isEmpty then (s, [])
  else
    let extended :=
      { arc with members := arc.members ++ added.map (seedMember a), lastExtendedAt := a.ts }
    ({ (s.put x extended).touch x with
        counts := { s.counts with extended := s.counts.extended + 1 } },
      added.map (seedAdded x a))

/-- The anchor sweep at one anchor. -/
def sweepAnchor (p : Pass) (a : Anchor) : Work Progress Event := fun s =>
  if a.seedMemoryIds.isEmpty then (s, [])
  else if shouldOpen a.seedMemoryIds s.arcs.openArcs then openArc p a s
  else match targetArc s.arcs.openArcs a.seedMemoryIds with
    | none => (s, [])
    | some (x, arc) => extendArc a x arc s

/-- A memory joins an arc in the candidate sweep. -/
def joinArc (p : Pass) (x m : Text) (arc : Arc) (via : Via) : Work Progress Event := fun s =>
  let age := p.livedAgeNow.getD 0
  let salience := p.salienceScore m
  let joined :=
    { arc with
      members := arc.members ++ [⟨m, p.joinedAt x m, age, salience⟩]
      lastExtendedAt := p.extendedAt x m }
  ({ (s.put x joined).touch x with
      counts := { s.counts with extended := s.counts.extended + 1 } },
    [.memberAdded x m (p.joinedAt x m) age salience via])

/-- The work that an open arc takes, when the loop over `list(state.open.items())` comes to it. A
turn of these loops writes at its own arc alone, so the arc is still the one of the list. -/
def atArc (x : Text) (f : Arc → Work Progress Event) : Work Progress Event := fun s =>
  match s.arcs.openArcs.get? x with
  | none => (s, [])
  | some arc => f arc s

/-- The loop over `list(state.open.items())`. -/
def overOpen (f : Text → Work Progress Event) : Work Progress Event := fun s =>
  Work.forEach f (s.arcs.openArcs.entries.map Prod.fst) s

/-- The candidates for one arc, from the pool that is left. -/
def sweepPool (p : Pass) (x : Text) : Option (List Text) → List Text → Work Progress Event
  | _, [] => Work.skip
  | centroid, m :: pool => atArc x fun arc =>
    if m ∈ arc.memberIds || p.isExempt m then sweepPool p x centroid pool
    else match isCandidate p m arc centroid with
      | (none, centroid') => sweepPool p x centroid' pool
      | (some via, centroid') => (joinArc p x m arc via).andThen (sweepPool p x centroid' pool)

/-- The candidate sweep at one arc. -/
def sweepCandidates (p : Pass) (x : Text) : Work Progress Event :=
  atArc x fun arc => sweepPool p x none (p.candidatePool arc.openedAt)

/-- The members that the cap evicts, of the least salience, and those that it keeps. -/
def capSplit (members : List ArcMember) : List ArcMember × List ArcMember :=
  let sorted := members.insertionSort fun k l => k.salienceAtJoin ≤ l.salienceAtJoin
  let evictions := members.length - maxArcMembers
  (sorted.take evictions,
    (sorted.drop evictions).insertionSort fun k l => k.joinedAt ≤ l.joinedAt)

/-- The cap on the members of one arc. -/
def capMembers (p : Pass) (x : Text) : Work Progress Event :=
  atArc x fun arc s =>
    if arc.members.length ≤ maxArcMembers then (s, [])
    else
      let (evicted, kept) := capSplit arc.members
      ({ s.put x { arc with members := kept } with
          counts := { s.counts with evicted := s.counts.evicted + evicted.length } },
        evicted.map fun k => .memberEvicted x k.memoryId (p.evictedAt x k.memoryId))

/-- The greatest lived age at which a member joined. -/
def lastExtendedLivedAge (arc : Arc) : ℚ :=
  (arc.members.map ArcMember.livedAgeAtJoin).max?.getD arc.livedAgeAtOpen

/-- Why the close sweep closes an arc, if it does. -/
def closeReason (p : Pass) (touched : List Text) (x : Text) (arc : Arc) : Option CloseReason :=
  if arc.members.isEmpty then some .allMembersLost
  else if x ∈ touched then none
  else if shouldClose p.livedAgeNow (lastExtendedLivedAge arc) then some .stale72h
  else none

/-- The close sweep at one arc. -/
def sweepClose (p : Pass) (x : Text) : Work Progress Event :=
  atArc x fun arc s =>
    match closeReason p s.touched x arc with
    | none => (s, [])
    | some reason =>
      let (emotion, dominant) := p.closeEmotion arc
      let closed :=
        { arc with
          state := .closed
          closedAt := some (p.closedAt x)
          livedAgeAtClose := p.livedAgeNow
          maxMemberEmotionNormalised := emotion
          dominantNonGriefEmotion := dominant }
      ({ s with
          arcs := { s.arcs with
            openArcs := s.arcs.openArcs.pop x
            recentlyClosed := s.arcs.recentlyClosed ++ [closed] }
          counts := { s.counts with closed := s.counts.closed + 1 } },
        [.arcClosed x arc.title (p.closedAt x) (p.livedAgeNow.getD 0) reason arc.members.length])

/-- The sweeps of a pass over the open arcs, after that over the anchors. -/
def sweepArcs (p : Pass) : Work Progress Event :=
  ((overOpen (sweepCandidates p)).andThen (overOpen (capMembers p))).andThen
    (overOpen (sweepClose p))

/-- The sweeps of a pass. -/
def sweep (p : Pass) : Work Progress Event :=
  (Work.forEach (sweepAnchor p) p.anchors).andThen (sweepArcs p)

/-- The state that a pass saves. -/
def finished (p : Pass) (s : ArcsState) : ArcsState :=
  { capClosed s with lastPassTs := some p.doneAt, replayed := false }

/-- `run_pass` on the state that it loads: the state that it saves, the counts that it returns, and
the events that it appends before it saves. -/
def runPass (p : Pass) (loaded : ArcsState) : ArcsState × Counts × List Event :=
  let (s, events) := sweep p { arcs := loaded }
  (finished p s.arcs, s.counts, events)

end Companion.Narrative

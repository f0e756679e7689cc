import Companion.FeltTime.LivedAge
import Companion.Sorting

/-!
# Anchors, read tick by tick

What `FeltTime.tick` keeps of the logs: the newest anchor of each type, and the last
`_ARC_ANCHOR_CAP` of the arc events. A tick reads the rows that are newer than the tick before it,
so that a row whose stamp is not newer than that is never read (`late_row_missed`); and the first
tick after a replay reads every row again, after the replay has listed the arc events already, so
that they are listed twice (`arcs_twice`). `Timely` is the condition under which neither happens,
and `anchors_of_logs` says that a tick then leaves the anchors of the logs, over any run.
-/

namespace Companion.FeltTime

open Companion.Memory (Text Instant)
open Companion.Runs
open Companion.Sorting

/-! ## The anchors of the logs -/

/-- The anchors of a source, in the order of its log. -/
def anchorsIn (logs : Logs) (source : Source) : List Anchor :=
  ((logs source).zipIdx 1).filterMap (anchorOf source)

/-- The arc events of the logs, in time order. -/
def arcsOf (logs : Logs) : List Anchor := (anchorsIn logs .arc).insertionSort fun a b => a.ts ≤ b.ts

/-- The newest anchor of a type, or none where there is no anchor of it. -/
def Newest (logs : Logs) (type : Source) : Option Anchor → Prop
  | none => anchorsIn logs type = []
  | some a => a ∈ anchorsIn logs type ∧ ∀ b ∈ anchorsIn logs type, b.ts ≤ a.ts

/-- The anchors of a state are those of the logs. -/
structure AnchorsOf (logs : Logs) (s : FeltTimeState) : Prop where
  newest : ∀ type, type ≠ .arc → Newest logs type (s.anchors type)
  arcs : s.arcAnchors = capped (arcsOf logs)
  sorted : s.arcAnchors.Pairwise fun a b => a.ts ≤ b.ts
  nodup : s.arcAnchors.Nodup

instance : IsTrans Anchor fun a b => a.ts ≤ b.ts := ⟨fun _ _ _ => le_trans⟩

instance : Std.Total fun a b : Anchor => a.ts ≤ b.ts := ⟨fun a b => le_total a.ts b.ts⟩

theorem anchorOf_spec {source : Source} {entry : Entry × ℕ} {a : Anchor}
    (h : anchorOf source entry = some a) :
    a.type = source ∧ entry.1.ts = some a.ts ∧ a.entryIdx = entry.2 := by
  unfold anchorOf at h
  rw [Option.ite_none_left_eq_some] at h
  replace h := h.2
  split at h
  · rename_i ts label hts hlabel
    rw [Option.ite_none_left_eq_some] at h
    obtain rfl := Option.some.inj h.2
    exact ⟨rfl, hts, rfl⟩
  · cases h

theorem type_of_mem_anchorsIn {logs : Logs} {source : Source} {a : Anchor}
    (h : a ∈ anchorsIn logs source) : a.type = source := by
  obtain ⟨_, -, ha⟩ := List.mem_filterMap.mp h
  exact (anchorOf_spec ha).1

theorem mem_extractAll {logs : Logs} {a : Anchor} :
    a ∈ extractAll logs ↔ a ∈ anchorsIn logs a.type := by
  unfold extractAll
  rw [List.mem_insertionSort, List.mem_flatMap]
  constructor
  · rintro ⟨source, -, ha⟩
    have htype : a.type = source := type_of_mem_anchorsIn ha
    rwa [← htype] at ha
  · intro ha
    exact ⟨a.type, by cases a.type <;> decide, ha⟩

/-- The arc events among all anchors are in the order in which they are when they are sorted alone:
they are the last of the anchors of their time. -/
theorem filter_extractAll (logs : Logs) :
    (extractAll logs).filter (fun a => a.type = .arc) = arcsOf logs := by
  unfold extractAll arcsOf
  rw [filter_insertionSort, List.filter_flatMap]
  have hfilter : ∀ source, (anchorsIn logs source).filter (fun a => a.type = .arc) =
      if source = .arc then anchorsIn logs source else [] := by
    intro source
    split_ifs with h
    · exact List.filter_eq_self.mpr fun a ha => by simp [type_of_mem_anchorsIn ha, h]
    · exact List.filter_eq_nil_iff.mpr fun a ha => by simp [type_of_mem_anchorsIn ha, h]
  congr 1
  show (sources.flatMap fun source => (anchorsIn logs source).filter _) = _
  simp only [hfilter, sources, List.flatMap_cons, List.flatMap_nil]
  simp

theorem sorted_arcsOf (logs : Logs) : (arcsOf logs).Pairwise fun a b => a.ts ≤ b.ts :=
  List.pairwise_insertionSort _ _

/-- No arc event is listed twice, as the numbers of their entries differ. -/
theorem nodup_arcsOf (logs : Logs) : (arcsOf logs).Nodup := by
  refine (List.perm_insertionSort _ _).nodup_iff.mpr ?_
  have hidx : ((logs .arc).zipIdx 1).Pairwise fun e e' => e.2 ≠ e'.2 := by
    rw [← List.pairwise_map, List.zipIdx_map_snd]
    exact List.nodup_range'
  refine hidx.filterMap _ fun e e' hne a ha a' ha' haa => hne ?_
  rw [← (anchorOf_spec ha).2.2, ← (anchorOf_spec ha').2.2, haa]

/-- The anchor that an entry will be, once it is at the end of its log. -/
def anchorNext (logs : Logs) (source : Source) (entry : Entry) : Option Anchor :=
  anchorOf source (entry, (logs source).length + 1)

theorem anchorsIn_appendTo (logs : Logs) (source : Source) (entry : Entry) (type : Source) :
    anchorsIn (appendTo logs source entry) type =
      anchorsIn logs type ++ if type = source then (anchorNext logs source entry).toList else [] := by
  unfold anchorsIn appendTo anchorNext
  split_ifs with h
  · subst h
    rw [List.zipIdx_append, List.filterMap_append, Nat.add_comm]
    cases hnext : anchorOf type (entry, (logs type).length + 1) <;> simp [hnext]
  · rw [List.append_nil]

theorem arcsOf_appendTo_of_none {logs : Logs} {source : Source} {entry : Entry}
    (h : source = .arc → anchorNext logs source entry = none) :
    arcsOf (appendTo logs source entry) = arcsOf logs := by
  unfold arcsOf
  rw [anchorsIn_appendTo]
  split_ifs with hsource
  · rw [h hsource.symm, Option.toList_none, List.append_nil]
  · rw [List.append_nil]

/-- A new arc event is after those that are not newer. -/
theorem arcsOf_appendTo {logs : Logs} {entry : Entry} {a : Anchor}
    (h : anchorNext logs .arc entry = some a) :
    arcsOf (appendTo logs .arc entry) =
      (arcsOf logs).filter (fun b => b.ts ≤ a.ts) ++
        a :: (arcsOf logs).filter (fun b => ¬ b.ts ≤ a.ts) := by
  unfold arcsOf
  rw [anchorsIn_appendTo, if_pos rfl, h, Option.toList_some]
  exact insertionSort_concat _ a

/-! ## The persona -/

/-- The state file of a persona. -/
inductive StateFile
  | absent
  /-- It does not parse. -/
  | damaged
  | saved (s : FeltTimeState)

/-- The logs and the state file of a persona, and the state of its `FeltTime`. -/
structure Persona where
  logs : Logs
  file : StateFile
  state : FeltTimeState
  clock : Instant

namespace Persona

/-- `load_or_recover` -/
def load (logs : Logs) : StateFile → FeltTimeState
  | .absent => loadOrRecover logs none
  | .damaged => .coldStart
  | .saved s => loadOrRecover logs (some s)

inductive Act
  | tick (ctx : TickContext)
  /-- A row is appended to the log of a source, at the time `now`. -/
  | append (source : Source) (entry : Entry) (now : Instant)
  | restart
  | damage

/-- A step, at a time that is not before the last one. A row is dated at or before its append. -/
def step (w : Persona) : Act → Option Persona
  | .tick ctx =>
    if w.clock ≤ ctx.now then
      let state := w.state.tick w.logs ctx
      some { w with file := .saved state, state := state, clock := ctx.now }
    else none
  | .append source entry now =>
    if w.clock ≤ now ∧ ∀ ts ∈ entry.ts, ts ≤ now then
      some { w with logs := appendTo w.logs source entry, clock := now }
    else none
  | .restart => some { w with state := load w.logs w.file }
  | .damage => some { w with file := .damaged }

/-- A persona without a row. -/
def machine : Machine Persona Act where
  init w := w.logs = (fun _ => []) ∧ w.file = .absent ∧ w.state = .coldStart
  step := step

/-- A row that comes too late for the ticks does not matter: it is not newer than another of its
type, or there are `_ARC_ANCHOR_CAP` arc events after it. -/
def Covered (logs : Logs) (a : Anchor) : Prop :=
  if a.type = .arc then arcAnchorCap ≤ ((arcsOf logs).filter fun b => ¬ b.ts ≤ a.ts).length
  else ∃ b ∈ anchorsIn logs a.type, a.ts ≤ b.ts

/-- The rows are appended in time for the tick that reads on from the last one, and the first tick
after a replay finds no arc event that the replay has listed, or enough to fill the list again. -/
def Timely (w : Persona) : Act → Prop
  | .tick _ => w.state.lastTick = none →
      w.state.arcAnchors = [] ∨ arcAnchorCap ≤ (arcsOf w.logs).length
  | .append source entry _ => ∀ last ∈ w.state.lastTick,
      ∀ a ∈ anchorNext w.logs source entry, a.ts ≤ last → Covered w.logs a
  | _ => True

instance (logs : Logs) (a : Anchor) : Decidable (Covered logs a) := by
  unfold Covered
  infer_instance

instance (w : Persona) (a : Act) : Decidable (Timely w a) := by
  unfold Timely
  split <;> infer_instance

end Persona

/-! ## What a tick reads -/

/-- The newest anchors of a list and of what was there before. -/
theorem foldl_newer (as : List Anchor) (anchors : Source → Option Anchor) (type : Source) :
    (∀ b, as.foldl newer anchors type = some b →
        anchors type = some b ∨ b ∈ as ∧ b.type = type) ∧
      (∀ c, anchors type = some c → ∃ b, as.foldl newer anchors type = some b ∧ c.ts ≤ b.ts) ∧
      ∀ a ∈ as, a.type = type → ∃ b, as.foldl newer anchors type = some b ∧ a.ts ≤ b.ts := by
  induction as generalizing anchors with
  | nil => exact ⟨fun b hb => .inl hb, fun c hc => ⟨c, hc, le_rfl⟩, fun a ha => by cases ha⟩
  | cons a as ih =>
    obtain ⟨hfrom, hold, hnew⟩ := ih (newer anchors a)
    rw [List.foldl_cons]
    -- What the new one leaves at its own type is at least as new as both.
    have hnewer : a.type = type → ∃ b, newer anchors a type = some b ∧ a.ts ≤ b.ts ∧
        ∀ c, anchors type = some c → c.ts ≤ b.ts := by
      rintro rfl
      unfold newer
      by_cases hall : (anchors a.type).all fun existing => existing.ts < a.ts
      · rw [if_pos ⟨rfl, hall⟩]
        refine ⟨a, rfl, le_rfl, fun c hc => ?_⟩
        rw [hc, Option.all_some, decide_eq_true_eq] at hall
        exact hall.le
      · rw [if_neg fun h => hall h.2]
        cases hc : anchors a.type with
        | none => exact absurd (by rw [hc]; rfl) hall
        | some c =>
          rw [hc, Option.all_some, decide_eq_true_eq] at hall
          exact ⟨c, rfl, not_lt.mp hall, fun c' hc' => by rw [Option.some.inj hc']⟩
    refine ⟨fun b hb => ?_, fun c hc => ?_, fun x hx htype => ?_⟩
    · obtain hb | ⟨hb, htype⟩ := hfrom b hb
      · unfold newer at hb
        split_ifs at hb with hcond
        · obtain rfl := Option.some.inj hb
          exact .inr ⟨List.mem_cons_self, hcond.1.symm⟩
        · exact .inl hb
      · exact .inr ⟨List.mem_cons_of_mem _ hb, htype⟩
    · by_cases htype : a.type = type
      · obtain ⟨b, hb, -, hle⟩ := hnewer htype
        obtain ⟨b', hb', hle'⟩ := hold b hb
        exact ⟨b', hb', (hle c hc).trans hle'⟩
      · have hsame : newer anchors a type = some c := by
          unfold newer
          rw [if_neg fun h => htype h.1.symm, hc]
        exact hold c hsame
    · obtain rfl | hx := List.mem_cons.mp hx
      · obtain ⟨b, hb, hle, -⟩ := hnewer htype
        obtain ⟨b', hb', hle'⟩ := hold b hb
        exact ⟨b', hb', hle.trans hle'⟩
      · exact hnew x hx htype

theorem newest_of {logs : Logs} {type : Source} {o : Option Anchor}
    (hmem : ∀ b, o = some b → b ∈ anchorsIn logs type)
    (htop : ∀ a ∈ anchorsIn logs type, ∃ b, o = some b ∧ a.ts ≤ b.ts) : Newest logs type o := by
  cases o with
  | none =>
    refine List.eq_nil_iff_forall_not_mem.mpr fun a ha => ?_
    obtain ⟨_, hb, -⟩ := htop a ha
    cases hb
  | some b =>
    refine ⟨hmem b rfl, fun a ha => ?_⟩
    obtain ⟨b', hb', hle⟩ := htop a ha
    rwa [← Option.some.inj hb'] at hle

theorem mem_scanSince {logs : Logs} {since : Option Instant} {a : Anchor} :
    a ∈ scanSince logs since ↔ a ∈ anchorsIn logs a.type ∧ ∀ last ∈ since, last < a.ts := by
  cases since with
  | none => simp [scanSince, mem_extractAll]
  | some last => simp [scanSince, mem_extractAll]

/-- The arc events that a tick reads. -/
theorem filter_scanSince (logs : Logs) (since : Option Instant) :
    (scanSince logs since).filter (fun a => a.type = .arc) =
      (arcsOf logs).filter fun a => since.all (· < a.ts) := by
  cases since with
  | none => simp [scanSince, filter_extractAll]
  | some last =>
    rw [scanSince, List.filter_comm, filter_extractAll]
    rfl

/-- The anchors of a state are in the logs, and where it has no arc events it has no arc anchor. -/
structure Rooted (logs : Logs) (s : FeltTimeState) : Prop where
  mem : ∀ type a, s.anchors type = some a → a ∈ anchorsIn logs type
  seeded : s.arcAnchors = [] → s.anchors .arc = none

/-- What a state knows of the logs after a tick at `last`: an anchor is not newer than the one it
has, or than one that it has still to read, and its arc events end with those still to read as the
arc events of the logs do. -/
structure Known (logs : Logs) (s : FeltTimeState) (last : Instant) : Prop where
  top : ∀ type, type ≠ .arc → ∀ a ∈ anchorsIn logs type,
    (∃ b, s.anchors type = some b ∧ a.ts ≤ b.ts) ∨
      ∃ b ∈ anchorsIn logs type, last < b.ts ∧ a.ts ≤ b.ts
  arcs : capped (s.arcAnchors ++ (arcsOf logs).filter fun a => last < a.ts) = capped (arcsOf logs)

section

variable {logs : Logs} {s : FeltTimeState} {ctx : TickContext}

/-- The last of a list that is not empty. -/
theorem capped_eq_nil {as : List Anchor} (h : capped as = []) : as = [] := by
  have hlen := congrArg List.length h
  rw [capped, List.length_drop, List.length_nil, arcAnchorCap] at hlen
  exact List.length_eq_zero_iff.mp (by omega)

/-- What the fold over the rows of a tick leaves is in the logs. -/
theorem Rooted.mem_foldl (h : Rooted logs s) {since : Option Instant} {type : Source} {b : Anchor}
    (hb : (scanSince logs since).foldl newer s.anchors type = some b) :
    b ∈ anchorsIn logs type := by
  obtain hold | ⟨hin, rfl⟩ := (foldl_newer _ _ _).1 b hb
  · exact h.mem type b hold
  · exact (mem_scanSince.mp hin).1

theorem Rooted.replay : Rooted logs (replayFromLogs logs) := by
  have hmem : ∀ type a, (replayFromLogs logs).anchors type = some a → a ∈ anchorsIn logs type := by
    intro type a ha
    obtain hold | ⟨hin, rfl⟩ := (foldl_newer _ _ _).1 a ha
    · cases hold
    · exact (mem_scanSince.mp hin).1
  refine ⟨hmem, fun hnil => Option.eq_none_iff_forall_ne_some.mpr fun a ha => ?_⟩
  have hempty : arcsOf logs = [] := by
    rw [← filter_extractAll]
    exact capped_eq_nil hnil
  have hin : a ∈ arcsOf logs := (List.mem_insertionSort _).mpr (hmem .arc a ha)
  rw [hempty] at hin
  cases hin

theorem Rooted.coldStart : Rooted logs .coldStart :=
  ⟨fun _ _ h => (Option.some_ne_none _ h.symm).elim, fun _ => rfl⟩

theorem tick_arcAnchors : (s.tick logs ctx).arcAnchors =
    capped (s.arcAnchors ++ (arcsOf logs).filter fun a => s.lastTick.all (· < a.ts)) := by
  rw [← filter_scanSince]
  rfl

theorem Rooted.tick (h : Rooted logs s) (harcs : (s.tick logs ctx).arcAnchors = capped (arcsOf logs)) :
    Rooted logs (s.tick logs ctx) := by
  have hlast : ∀ a, (s.tick logs ctx).arcAnchors.getLast? = some a → a ∈ anchorsIn logs .arc := by
    intro a ha
    have hin := List.mem_of_getLast? ha
    rw [harcs] at hin
    exact (List.mem_insertionSort _).mp (List.mem_of_mem_drop hin)
  refine ⟨fun type a ha => ?_, fun hnil => ?_⟩
  · unfold FeltTimeState.tick at ha
    dsimp only at ha
    split_ifs at ha with htype
    · subst htype
      obtain ha | ⟨-, ha⟩ := Option.or_eq_some_iff.mp ha
      · exact hlast a ha
      · exact h.mem_foldl ha
    · exact h.mem_foldl ha
  · -- Without an arc event in the list there is none in the logs, and none was there before.
    have hempty : arcsOf logs = [] := capped_eq_nil (harcs.symm.trans hnil)
    show (s.tick logs ctx).anchors .arc = none
    unfold FeltTimeState.tick at hnil ⊢
    dsimp only at hnil ⊢
    rw [if_pos rfl, hnil, List.getLast?_nil, Option.none_or]
    refine Option.eq_none_iff_forall_ne_some.mpr fun a ha => ?_
    have hin : a ∈ arcsOf logs := (List.mem_insertionSort _).mpr (h.mem_foldl ha)
    rw [hempty] at hin
    cases hin

/-- A tick leaves the anchors of the logs, where the rows it has still to read are enough. -/
theorem AnchorsOf.tick (h : Rooted logs s)
    (harcs : (s.tick logs ctx).arcAnchors = capped (arcsOf logs))
    (htop : ∀ type, type ≠ .arc → ∀ a ∈ anchorsIn logs type,
      (∃ b, s.anchors type = some b ∧ a.ts ≤ b.ts) ∨
        ∃ b ∈ anchorsIn logs type, (∀ last ∈ s.lastTick, last < b.ts) ∧ a.ts ≤ b.ts) :
    AnchorsOf logs (s.tick logs ctx) := by
  refine ⟨fun type hne => ?_, harcs, ?_, ?_⟩
  · show Newest logs type (if type = .arc then _ else _)
    rw [if_neg hne]
    refine newest_of (fun b hb => h.mem_foldl hb) fun a ha => ?_
    obtain ⟨b, hb, hle⟩ | ⟨b, hb, hread, hle⟩ := htop type hne a ha
    · obtain ⟨b', hb', hle'⟩ := (foldl_newer (scanSince logs s.lastTick) _ _).2.1 b hb
      exact ⟨b', hb', hle.trans hle'⟩
    · have htype := type_of_mem_anchorsIn hb
      have hin : b ∈ scanSince logs s.lastTick :=
        mem_scanSince.mpr ⟨htype.symm ▸ hb, hread⟩
      obtain ⟨b', hb', hle'⟩ := (foldl_newer _ s.anchors _).2.2 b hin htype
      exact ⟨b', hb', hle.trans hle'⟩
  · rw [harcs]
    exact (sorted_arcsOf logs).sublist (List.drop_sublist _ _)
  · rw [harcs]
    exact (nodup_arcsOf logs).sublist (List.drop_sublist _ _)

/-- What a tick leaves is known from it on, when no row is dated after it. -/
theorem Known.of_anchorsOf {last : Instant} (h : AnchorsOf logs s)
    (hdated : ∀ type, ∀ a ∈ anchorsIn logs type, a.ts ≤ last) : Known logs s last := by
  refine ⟨fun type hne a ha => ?_, ?_⟩
  · have hnew := h.newest type hne
    left
    cases hs : s.anchors type with
    | none =>
      rw [hs] at hnew
      rw [show anchorsIn logs type = [] from hnew] at ha
      cases ha
    | some b =>
      rw [hs] at hnew
      exact ⟨b, rfl, hnew.2 a ha⟩
  · have hnone : (arcsOf logs).filter (fun a => last < a.ts) = [] := by
      refine List.filter_eq_nil_iff.mpr fun a ha => ?_
      have hle := hdated .arc a ((List.mem_insertionSort _).mp ha)
      simpa using hle
    rw [hnone, List.append_nil, h.arcs]
    unfold capped
    rw [List.length_drop, List.drop_drop]
    congr 1
    omega

/-- An append keeps what is known, where its row is read by the next tick or does not matter. -/
theorem Known.append {last : Instant} {source : Source} {entry : Entry} (h : Known logs s last)
    (hrow : ∀ a, anchorNext logs source entry = some a → a.ts ≤ last → Persona.Covered logs a) :
    Known (appendTo logs source entry) s last := by
  refine ⟨fun type hne a ha => ?_, ?_⟩
  · have hmono : ∀ b ∈ anchorsIn logs type, b ∈ anchorsIn (appendTo logs source entry) type := by
      intro b hb
      rw [anchorsIn_appendTo]
      exact List.mem_append_left _ hb
    have hold : ∀ b ∈ anchorsIn logs type, a.ts ≤ b.ts →
        (∃ b, s.anchors type = some b ∧ a.ts ≤ b.ts) ∨
          ∃ b ∈ anchorsIn (appendTo logs source entry) type, last < b.ts ∧ a.ts ≤ b.ts := by
      intro b hb hab
      obtain ⟨c, hc, hbc⟩ | ⟨c, hc, hlt, hbc⟩ := h.top type hne b hb
      · exact .inl ⟨c, hc, hab.trans hbc⟩
      · exact .inr ⟨c, hmono c hc, hlt, hab.trans hbc⟩
    have hin := ha
    rw [anchorsIn_appendTo, List.mem_append] at hin
    obtain hin | hin := hin
    · exact hold a hin le_rfl
    · split_ifs at hin with htype
      · have hnext := Option.mem_toList.mp hin
        by_cases hlate : a.ts ≤ last
        · -- A late row of this type is not newer than another one.
          have hcovered := hrow a hnext hlate
          have hatype : a.type = type := type_of_mem_anchorsIn ha
          unfold Persona.Covered at hcovered
          rw [hatype, if_neg hne] at hcovered
          obtain ⟨b, hb, hab⟩ := hcovered
          exact hold b hb hab
        · exact .inr ⟨a, ha, not_le.mp hlate, le_rfl⟩
      · cases hin
  · by_cases hnext : source = .arc → anchorNext logs source entry = none
    · rw [arcsOf_appendTo_of_none hnext]
      exact h.arcs
    · obtain ⟨hsource, hsome⟩ := Classical.not_imp.mp hnext
      subst hsource
      obtain ⟨a, ha⟩ := Option.ne_none_iff_exists'.mp hsome
      have hatype : a.type = .arc := (anchorOf_spec ha).1
      have hsplit : (arcsOf logs).filter (fun b => b.ts ≤ a.ts) ++
          (arcsOf logs).filter (fun b => ¬ b.ts ≤ a.ts) = arcsOf logs :=
        filter_append_filter (fun _ _ hbc hc => le_trans hbc hc) (sorted_arcsOf logs)
      have harcs := h.arcs
      rw [arcsOf_appendTo ha]
      generalize hlo : (arcsOf logs).filter (fun b => b.ts ≤ a.ts) = lo at hsplit ⊢
      generalize hhi : (arcsOf logs).filter (fun b => ¬ b.ts ≤ a.ts) = hi at hsplit ⊢
      rw [← hsplit, List.filter_append] at harcs
      rw [List.filter_append, List.filter_cons]
      by_cases hlate : a.ts ≤ last
      · -- There are enough arc events after the new one.
        rw [if_neg (by simpa using hlate), harcs]
        have hcovered := hrow a ha hlate
        unfold Persona.Covered at hcovered
        rw [if_pos hatype, hhi] at hcovered
        show capped (lo ++ hi) = capped (lo ++ ([a] ++ hi))
        rw [← List.append_assoc]
        exact (drop_append_of_le lo hcovered).trans (drop_append_of_le (lo ++ [a]) hcovered).symm
      · -- The tick reads what is after the last one, and the new event in its place there.
        rw [if_pos (by simpa using not_le.mp hlate)]
        have hread : hi.filter (fun b => last < b.ts) = hi := by
          refine List.filter_eq_self.mpr fun b hb => ?_
          rw [← hhi, List.mem_filter, decide_eq_true_eq] at hb
          exact decide_eq_true ((not_le.mp hlate).trans (not_le.mp hb.2))
        have hknown : lo.filter (fun b => b.ts ≤ last) ++ lo.filter (fun b => last < b.ts) = lo := by
          have hsorted : lo.Pairwise fun a b => a.ts ≤ b.ts := by
            rw [← hlo]
            exact (sorted_arcsOf logs).filter _
          simp only [← not_le]
          exact filter_append_filter (fun _ _ hbc hc => le_trans hbc hc) hsorted
        generalize lo.filter (fun b => b.ts ≤ last) = known at hknown
        generalize lo.filter (fun b => last < b.ts) = unread at hknown harcs ⊢
        rw [hread] at harcs ⊢
        rw [← hknown, List.append_assoc] at harcs ⊢
        exact drop_append_eq_of_le (by simp) harcs

end

/-! ## Anchors over a run -/

namespace Persona

/-- The anchors of a state are in the logs. Without a tick, a file is one that the next start does
not take; after one, the state is as the file has it. -/
structure Inv (w : Persona) : Prop where
  dated : ∀ type, ∀ a ∈ anchorsIn w.logs type, a.ts ≤ w.clock
  rooted : Rooted w.logs w.state
  started : (w.state.lastTick = none ∧ ∀ f, w.file = .saved f → replays w.logs f = true) ∨
    ∃ last, w.state.lastTick = some last ∧ Known w.logs w.state last ∧
      ∀ f, w.file = .saved f → f = w.state

/-- A start replays the logs when one of the rows that it looks at is newer than the file. -/
theorem replays_iff {logs : Logs} {f : FeltTimeState} :
    replays logs f = true ↔ ∃ source ∈ logSources, ∃ entry ∈ logs source, ∃ ts, entry.ts = some ts ∧
      f.lastTick.all (· < ts) = true := by
  unfold replays newestLogTs
  have hmem : ∀ ts, ts ∈ (logSources.flatMap fun source => (logs source).filterMap Entry.ts) ↔
      ∃ source ∈ logSources, ∃ entry ∈ logs source, entry.ts = some ts := fun ts => by
    simp only [List.mem_flatMap, List.mem_filterMap]
  rw [Option.any_eq_true]
  constructor
  · rintro ⟨newest, hnewest, hlast⟩
    obtain ⟨source, hsource, entry, hentry, hts⟩ := (hmem newest).mp (List.max?_mem hnewest)
    exact ⟨source, hsource, entry, hentry, newest, hts, hlast⟩
  · rintro ⟨source, hsource, entry, hentry, ts, hts, hlast⟩
    have hin := (hmem ts).mpr ⟨source, hsource, entry, hentry, hts⟩
    obtain ⟨newest, hnewest⟩ := Option.isSome_iff_exists.mp (List.isSome_max?_of_mem hin)
    have hle : ts ≤ newest := (List.max?_le_iff hnewest).mp le_rfl ts hin
    refine ⟨newest, hnewest, ?_⟩
    cases hf : f.lastTick with
    | none => rfl
    | some last =>
      rw [hf, Option.all_some, decide_eq_true_eq] at hlast
      exact decide_eq_true (hlast.trans_le hle)

/-- A log that makes a start replay does so when it has grown. -/
theorem replays_appendTo {logs : Logs} {f : FeltTimeState} (source : Source) (entry : Entry)
    (h : replays logs f = true) : replays (appendTo logs source entry) f = true := by
  obtain ⟨other, hother, e, he, hts⟩ := replays_iff.mp h
  refine replays_iff.mpr ⟨other, hother, e, ?_, hts⟩
  unfold appendTo
  split_ifs
  · exact List.mem_append_left _ he
  · exact he

/-- What a tick that is in time leaves. -/
theorem Inv.anchorsOf {w : Persona} {ctx : TickContext} (hw : w.Inv)
    (htimely : Timely w (.tick ctx)) : AnchorsOf w.logs (w.state.tick w.logs ctx) := by
  obtain ⟨hnone, -⟩ | ⟨last, hlast, hknown, -⟩ := hw.started
  · refine .tick hw.rooted ?_ fun type hne a ha =>
      .inr ⟨a, ha, by simp [hnone], le_rfl⟩
    have hall : (arcsOf w.logs).filter (fun a => w.state.lastTick.all (· < a.ts)) =
        arcsOf w.logs := by
      rw [hnone]
      exact List.filter_eq_self.mpr fun _ _ => rfl
    rw [tick_arcAnchors, hall]
    -- Everything is read again, so that the list must be empty, or filled anew.
    obtain hempty | hfull := htimely hnone
    · rw [hempty, List.nil_append]
    · exact drop_append_of_le _ hfull
  · refine .tick hw.rooted ?_ fun type hne a ha => ?_
    · rw [tick_arcAnchors, hlast]
      exact hknown.arcs
    · obtain hhas | ⟨b, hb, hlt, hle⟩ := hknown.top type hne a ha
      · exact .inl hhas
      · refine .inr ⟨b, hb, fun last' hlast' => ?_, hle⟩
        rw [hlast] at hlast'
        rwa [← Option.some.inj hlast']

theorem Inv.tick {w : Persona} {ctx : TickContext} (hw : w.Inv) (hle : w.clock ≤ ctx.now)
    (htimely : Timely w (.tick ctx)) :
    Inv { w with
      file := .saved (w.state.tick w.logs ctx)
      state := w.state.tick w.logs ctx
      clock := ctx.now } := by
  have hanchors := hw.anchorsOf htimely
  have hdated : ∀ type, ∀ a ∈ anchorsIn w.logs type, a.ts ≤ ctx.now :=
    fun type a ha => (hw.dated type a ha).trans hle
  refine ⟨hdated, hw.rooted.tick hanchors.arcs, .inr ⟨ctx.now, rfl, .of_anchorsOf hanchors hdated,
    fun f hf => ?_⟩⟩
  exact (StateFile.saved.inj hf).symm

theorem Inv.append {w : Persona} {source : Source} {entry : Entry} {now : Instant} (hw : w.Inv)
    (hle : w.clock ≤ now) (hts : ∀ ts ∈ entry.ts, ts ≤ now)
    (htimely : Timely w (.append source entry now)) :
    Inv { w with logs := appendTo w.logs source entry, clock := now } := by
  have hmono : ∀ type, ∀ a ∈ anchorsIn w.logs type,
      a ∈ anchorsIn (appendTo w.logs source entry) type := fun type a ha => by
    rw [anchorsIn_appendTo]
    exact List.mem_append_left _ ha
  refine ⟨fun type a ha => ?_, ⟨fun type a ha => hmono type a (hw.rooted.mem type a ha),
    hw.rooted.seeded⟩, ?_⟩
  · rw [anchorsIn_appendTo, List.mem_append] at ha
    obtain ha | ha := ha
    · exact (hw.dated type a ha).trans hle
    · split_ifs at ha
      · exact hts _ (anchorOf_spec (Option.mem_toList.mp ha)).2.1
      · cases ha
  · obtain ⟨hnone, hfile⟩ | ⟨last, hlast, hknown, hfile⟩ := hw.started
    · exact .inl ⟨hnone, fun f hf => replays_appendTo source entry (hfile f hf)⟩
    · exact .inr ⟨last, hlast, hknown.append fun a ha hlate => htimely last hlast a ha hlate, hfile⟩

/-- A start replays the logs, starts anew, or goes on as before. -/
theorem Inv.restart {w : Persona} (hw : w.Inv) : Inv { w with state := load w.logs w.file } := by
  have hreplay : (∀ f, w.file = .saved f → replays w.logs f = true) →
      Inv { w with state := replayFromLogs w.logs } := fun hfile =>
    ⟨hw.dated, .replay, .inl ⟨rfl, hfile⟩⟩
  have hcold : (∀ f, w.file ≠ .saved f) → Inv { w with state := .coldStart } := fun hfile =>
    ⟨hw.dated, .coldStart, .inl ⟨rfl, fun f hf => absurd hf (hfile f)⟩⟩
  obtain ⟨file, hfile⟩ : ∃ file, w.file = file := ⟨_, rfl⟩
  have hload : load w.logs w.file = load w.logs file := congrArg _ hfile
  rw [hload]
  cases file with
  | absent =>
    have hnot : ∀ f, w.file ≠ .saved f := fun f hf => StateFile.noConfusion (hfile.symm.trans hf)
    unfold load loadOrRecover
    dsimp only
    split_ifs
    · exact hreplay fun f hf => absurd hf (hnot f)
    · exact hcold hnot
  | damaged => exact hcold fun f hf => StateFile.noConfusion (hfile.symm.trans hf)
  | saved f =>
    unfold load loadOrRecover
    dsimp only
    by_cases hreplays : replays w.logs f = true
    · rw [if_pos hreplays]
      exact hreplay fun f' hf' => by rwa [← StateFile.saved.inj (hfile.symm.trans hf')]
    · -- The file is taken, and it is the state as the last tick left it.
      rw [if_neg hreplays]
      obtain ⟨-, hfile'⟩ | ⟨last, hlast, hknown, hfile'⟩ := hw.started
      · exact absurd (hfile' f hfile) hreplays
      · obtain rfl := hfile' f hfile
        have hsame : { w.state with arcAnchors := if w.state.arcAnchors = [] then
            (w.state.anchors .arc).toList else w.state.arcAnchors } = w.state := by
          obtain ⟨logs, file, state, clock⟩ := w
          dsimp only
          split_ifs with hnil
          · rw [hw.rooted.seeded hnil, Option.toList_none, ← hnil]
          · rfl
        rw [hsame]
        exact hw

theorem Inv.step {w w' : Persona} {a : Act} (hw : w.Inv) (htimely : Timely w a)
    (h : step w a = some w') : w'.Inv := by
  cases a with
  | tick ctx =>
    obtain ⟨hle, hsome⟩ := Option.ite_none_right_eq_some.mp h
    obtain rfl := Option.some.inj hsome
    exact hw.tick hle htimely
  | append source entry now =>
    obtain ⟨⟨hle, hts⟩, hsome⟩ := Option.ite_none_right_eq_some.mp h
    obtain rfl := Option.some.inj hsome
    exact hw.append hle hts htimely
  | restart =>
    obtain rfl := Option.some.inj h
    exact hw.restart
  | damage =>
    obtain rfl := Option.some.inj h
    refine { hw with started := ?_ }
    obtain ⟨hnone, -⟩ | ⟨last, hlast, hknown, -⟩ := hw.started
    · exact .inl ⟨hnone, fun f hf => StateFile.noConfusion hf⟩
    · exact .inr ⟨last, hlast, hknown, fun f hf => StateFile.noConfusion hf⟩

theorem inv_of_reach {w : Persona} (h : machine.Reach Timely w) : w.Inv := by
  refine h.invariant ?_ fun w a w' hw htimely hstep => hw.step htimely hstep
  rintro w ⟨hlogs, hfile, hstate⟩
  refine ⟨fun type a ha => ?_, ?_, .inl ⟨?_, fun f hf => ?_⟩⟩
  · rw [hlogs] at ha
    cases ha
  · rw [hstate]
    exact .coldStart
  · rw [hstate]
    rfl
  · rw [hfile] at hf
    cases hf

end Persona

open Persona in
/-- After each tick of a run that is in time throughout, the anchors are those of the logs. -/
theorem anchors_of_logs {w w' : Persona} {ctx : TickContext} (h : Persona.machine.Reach Timely w)
    (htimely : Timely w (.tick ctx)) (hstep : Persona.step w (.tick ctx) = some w') :
    AnchorsOf w'.logs w'.state := by
  obtain ⟨-, hsome⟩ := Option.ite_none_right_eq_some.mp hstep
  obtain rfl := Option.some.inj hsome
  exact (inv_of_reach h).anchorsOf htimely

namespace Persona

/-- A tick of the supervisor, at a second. -/
def tickAt (second : ℤ) : TickContext := ⟨second * 1000000, 1, 0, 0, 300, ⟨0, 0, 0, 0⟩⟩

/-- A row that is dated at a second, and appended at another one. -/
def row (source : Source) (dated appended : ℤ) : Act :=
  .append source ⟨some (dated * 1000000), some "label".toList, some "arc_opened".toList⟩
    (appended * 1000000)

/-- A persona that has not started yet. -/
def new : Persona := ⟨fun _ => [], .absent, .coldStart, 0⟩

end Persona

open Persona in
/-- A dream, an arc that opens after the tick, and the next tick. -/
theorem anchors_of_logs_inTime : ∃ w w', Persona.machine.Reach Timely w ∧
    Persona.step w (.tick (tickAt 400)) = some w' ∧ AnchorsOf w'.logs w'.state ∧
    w'.state.arcAnchors.length = 1 := by
  let p : Persona → Bool := fun w =>
    Timely w (.tick (tickAt 400)) && (Persona.step w (.tick (tickAt 400))).any fun w' =>
      w'.state.arcAnchors.length = 1
  obtain ⟨w, hw, hp⟩ := Machine.exists_reach_of_runWithin (M := Persona.machine)
    (D := Timely) (fun _ _ h => h) (s := Persona.new) ⟨rfl, rfl, rfl⟩
    [row .dream 5 5, .tick (tickAt 100), row .arc 150 160, .restart] p (by decide +kernel)
  obtain ⟨htimely, hany⟩ := Bool.and_eq_true_iff.mp hp
  obtain ⟨w', hstep, hlen⟩ := (Option.any_eq_true _ _).mp hany
  exact ⟨w, w', hw, hstep, anchors_of_logs hw (of_decide_eq_true htimely) hstep,
    of_decide_eq_true hlen⟩

open Persona in
/-- The logs of a persona without a state file are replayed, and the tick after it lists the arc
that the replay has listed once more. -/
theorem arcs_twice : ¬ ∀ w w' ctx, Persona.machine.Reachable w →
    Persona.step w (.tick ctx) = some w' → AnchorsOf w'.logs w'.state := by
  intro hall
  let p : Persona → Bool := fun w =>
    (Persona.step w (.tick (tickAt 100))).any fun w' => ¬ w'.state.arcAnchors.Nodup
  obtain ⟨w, hw, hp⟩ := Machine.exists_reach_of_runWithin (M := Persona.machine)
    (D := fun _ _ => True) (fun _ _ h => h) (s := Persona.new) ⟨rfl, rfl, rfl⟩
    [row .arc 1 1, row .dream 2 2, .restart] p (by decide +kernel)
  obtain ⟨w', hstep, htwice⟩ := (Option.any_eq_true _ _).mp hp
  exact of_decide_eq_true htwice (hall w w' _ hw hstep).nodup

open Persona in
/-- An arc that is opened after a tick, with the stamp of an anchor from before it, is not read. -/
theorem late_row_missed : ∃ w w', Persona.machine.Reachable w ∧
    Persona.step w (.tick (tickAt 400)) = some w' ∧ (arcsOf w'.logs).length = 1 ∧
    w'.state.arcAnchors = [] := by
  let p : Persona → Bool := fun w => (Persona.step w (.tick (tickAt 400))).any fun w' =>
    (arcsOf w'.logs).length = 1 ∧ w'.state.arcAnchors = []
  obtain ⟨w, hw, hp⟩ := Machine.exists_reach_of_runWithin (M := Persona.machine)
    (D := fun _ _ => True) (fun _ _ h => h) (s := Persona.new) ⟨rfl, rfl, rfl⟩
    [.tick (tickAt 100), row .arc 50 150] p (by decide +kernel)
  obtain ⟨w', hstep, hmissed⟩ := (Option.any_eq_true _ _).mp hp
  exact ⟨w, w', hw, hstep, of_decide_eq_true hmissed⟩

end Companion.FeltTime

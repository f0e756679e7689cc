import Companion.Initiate.Audit
import Companion.Runs
import Mathlib

/-!
# The running mean of the reply lags

`update_audit_state` (`brain/initiate/audit.py`) with its `fold_reply_lag`, `record_inbound_turn`
(`brain/initiate/presence_state.py`) and `_run_daily_presence_recompute`
(`brain/initiate/user_pattern.py`), by any number of threads. A step is what runs under one lock, or
one unlocked read: an update rewrites the audit and folds afterwards, and a recompute takes the
version, scans, and merges.

The first recompute is to seed the count and the mean from the audit. It replaces them by what its
scan read where nothing was written since it took the version, and keeps what is there otherwise,
also where the write was of an inbound turn: what the scan read is then lost for good (`seed_lost`).

`counted`, `transitions`, and the replies and transitions that a recompute carries are bookkeeping:
no operation reads them.
-/

namespace Companion.Initiate.ReplyLag

open Companion.Memory Companion.Runs

/-! ## The state -/

/-- `PresenceState`, with exact arithmetic. -/
structure PresenceState where
  lastSeenTs : Option Text
  dailyComputedAt : Option Text
  hourCounts : Option (List ℕ)
  activeThreshold : Option ℕ
  replyLagRunningMean : Option ℚ
  replyLagN : ℕ
  bootstrapped : Bool
  version : ℕ
  deriving DecidableEq

/-- `_SENTINEL` -/
def PresenceState.sentinel : PresenceState := ⟨none, none, none, none, none, 0, false, 0⟩

/-- What `_daily_scan_conversations` returns. -/
structure Conversations where
  hourCounts : Option (List ℕ)
  activeThreshold : Option ℕ
  latestTs : Option Text
  deriving DecidableEq

/-- What a recompute has read. -/
structure Snapshot where
  v0 : ℕ
  doBootstrap : Bool
  conversations : Conversations
  bootstrapMean : Option ℚ
  bootstrapN : ℕ
  /-- The rows that the scan took a lag from. -/
  replies : List (Text × ℚ)
  /-- The updates before the scan. -/
  transitions : ℕ
  deriving DecidableEq

/-- The next operation of a recompute. -/
inductive Recompute
  | idle
  | scanning (v0 : ℕ) (doBootstrap : Bool)
  | merging (snapshot : Snapshot)
  deriving DecidableEq

def Recompute.snapshot? : Recompute → Option Snapshot
  | .merging snapshot => some snapshot
  | _ => none

structure State where
  /-- `initiate_audit.jsonl`, where it exists. -/
  audit : Option (List AuditRow)
  presence : PresenceState
  /-- The row whose update waits for its fold, under `_AUDIT_LOCK`, with the lag. -/
  folding : Option (Text × ℚ)
  recomputes : ℕ → Recompute
  /-- The rows whose lag is contained in the count and the mean. -/
  counted : List (Text × ℚ)
  /-- The updates so far. -/
  transitions : ℕ

/-- What can happen. The stamps of turns are not empty. -/
inductive Act
  | append (row : AuditRow)
  | update (auditId : Text) (newState : StateName) (stamp : Stamp)
  | fold
  | inbound (ts : Text)
  | load (w : ℕ)
  | scan (w : ℕ) (conversations : Conversations)
  | merge (w : ℕ) (now : Text)
  deriving DecidableEq

/-! ## The operations -/

/-- The mean of the lags, or none where there are none. -/
def meanOf (lags : List ℚ) : Option ℚ := if lags = [] then none else some (lags.sum / lags.length)

/-- The rows that `_read_valid_reply_lags` takes a lag from. -/
def readReplies (rows : List AuditRow) : List (Text × ℚ) :=
  rows.filterMap fun row => row.replyLag.map fun lag => (row.auditId, lag)

/-- The write of `fold_reply_lag` -/
def PresenceState.foldReplyLag (p : PresenceState) (lag : ℚ) : PresenceState :=
  let n := p.replyLagN + 1
  let prevMean := p.replyLagRunningMean.getD 0
  { p with
    replyLagRunningMean := some (prevMean + (lag - prevMean) / n)
    replyLagN := n
    version := p.version + 1 }

/-- The write of `record_inbound_turn`, which does not happen for a turn that is not newer. -/
def PresenceState.recordInboundTurn (p : PresenceState) (ts : Text) : PresenceState :=
  if p.lastSeenTs.any fun seen => ts ≤ seen then p
  else { p with lastSeenTs := some ts, version := p.version + 1 }

/-- The later of two stamps of turns, where one that is empty does not count. -/
def mergedLastSeen (fresh scanned : Option Text) : Option Text :=
  match fresh.filter (· ≠ []), scanned.filter (· ≠ []) with
  | some a, some b => some (max a b)
  | some a, none => some a
  | none, scanned => scanned

/-- The merge resets the count: the audit is gone, and something had been counted. -/
def PresenceState.resets (fresh : PresenceState) (snapshot : Snapshot) (auditMissing : Bool) : Bool :=
  !snapshot.doBootstrap && auditMissing && 0 < fresh.replyLagN

/-- The merge seeds the count and the mean. -/
def PresenceState.seeds (fresh : PresenceState) (snapshot : Snapshot) : Bool :=
  snapshot.doBootstrap && fresh.version = snapshot.v0

/-- The write of the merge. -/
def PresenceState.merge (fresh : PresenceState) (snapshot : Snapshot) (auditMissing : Bool)
    (now : Text) : PresenceState :=
  let resets := fresh.resets snapshot auditMissing
  let seeds := fresh.seeds snapshot
  { lastSeenTs := mergedLastSeen fresh.lastSeenTs snapshot.conversations.latestTs
    dailyComputedAt := some now
    hourCounts := snapshot.conversations.hourCounts
    activeThreshold := snapshot.conversations.activeThreshold
    replyLagRunningMean :=
      if resets then none else if seeds then snapshot.bootstrapMean else fresh.replyLagRunningMean
    replyLagN := if resets then 0 else if seeds then snapshot.bootstrapN else fresh.replyLagN
    bootstrapped :=
      if resets then false else if snapshot.doBootstrap then true else fresh.bootstrapped
    version := fresh.version + 1 }

namespace State

variable (s : State)

/-- The rows of the audit, none where there is no file. -/
def rows : List AuditRow := s.audit.getD []

def setRecompute (w : ℕ) (r : Recompute) : State :=
  { s with recomputes := Function.update s.recomputes w r }

/-- What a recompute reads: the conversations, and the audit where it is to seed. -/
def snapshot (v0 : ℕ) (doBootstrap : Bool) (conversations : Conversations) : Snapshot :=
  let lags := if doBootstrap then readValidReplyLags s.rows else []
  { v0 := v0
    doBootstrap := doBootstrap
    conversations := conversations
    bootstrapMean := meanOf lags
    bootstrapN := lags.length
    replies := if doBootstrap then readReplies s.rows else []
    transitions := s.transitions }

def step (s : State) : Act → Option State
  | .append row =>
    if row.auditId ∉ s.rows.map AuditRow.auditId ∧ row.delivery = none then
      some { s with audit := some (s.rows ++ [row]) }
    else none
  | .update auditId newState stamp =>
    match s.folding with
    | some _ => none
    | none =>
      if auditId ∈ s.rows.map AuditRow.auditId then
        let updated := updateRows auditId newState stamp s.rows none
        some { s with
          audit := some updated.1
          folding := updated.2.map fun lag => (auditId, lag)
          transitions := s.transitions + 1 }
      else some s
  | .fold =>
    s.folding.map fun reply =>
      { s with
        presence := s.presence.foldReplyLag reply.2
        folding := none
        counted := s.counted ++ [reply] }
  | .inbound ts =>
    if ts = [] then none else some { s with presence := s.presence.recordInboundTurn ts }
  | .load w =>
    if s.recomputes w = .idle then
      some (s.setRecompute w (.scanning s.presence.version (!s.presence.bootstrapped)))
    else none
  | .scan w conversations =>
    match s.recomputes w with
    | .scanning v0 doBootstrap =>
      some (s.setRecompute w (.merging (s.snapshot v0 doBootstrap conversations)))
    | _ => none
  | .merge w now =>
    match s.recomputes w with
    | .merging snapshot =>
      some { s.setRecompute w .idle with
        presence := s.presence.merge snapshot s.audit.isNone now
        counted :=
          if s.presence.resets snapshot s.audit.isNone then []
          else if s.presence.seeds snapshot then snapshot.replies else s.counted }
    | _ => none

end State

/-- An audit of distinct ids, of which nothing has been counted. -/
def State.Start (s : State) : Prop :=
  (s.rows.map AuditRow.auditId).Nodup ∧ s.presence = .sentinel ∧ s.folding = none ∧
    (∀ w, s.recomputes w = .idle) ∧ s.counted = []

/-- The audit and the presence state of a persona. -/
def machine : Machine State Act := ⟨State.Start, State.step⟩

/-! ## The mean -/

/-- The running mean after one more lag. -/
theorem meanOf_append (lags : List ℚ) (lag : ℚ) :
    meanOf (lags ++ [lag]) = some ((meanOf lags).getD 0 +
      (lag - (meanOf lags).getD 0) / ((lags.length + 1 : ℕ) : ℚ)) := by
  by_cases hlags : lags = []
  · simp [hlags, meanOf]
  · have hpos : (0 : ℚ) < lags.length := by
      exact_mod_cast List.length_pos_iff.mpr hlags
    have hmean : (meanOf lags).getD 0 = lags.sum / lags.length := by simp [meanOf, hlags]
    have hne : (lags.length : ℚ) ≠ 0 := hpos.ne'
    have hne' : (lags.length : ℚ) + 1 ≠ 0 := by linarith
    have hall : meanOf (lags ++ [lag]) = some ((lags.sum + lag) / (lags.length + 1)) := by
      simp [meanOf, hlags]
    rw [hall, hmean]
    push_cast
    congr 1
    field_simp
    ring

theorem meanOf_perm {lags lags' : List ℚ} (h : lags.Perm lags') : meanOf lags = meanOf lags' := by
  have hnil : lags = [] ↔ lags' = [] := ⟨fun he => (he ▸ h).nil_eq.symm, fun he => (he ▸ h).eq_nil⟩
  rw [meanOf, meanOf, h.sum_eq, h.length_eq]
  simp only [hnil]

/-! ## The replies of an audit -/

theorem map_snd_readReplies (rows : List AuditRow) :
    (readReplies rows).map Prod.snd = readValidReplyLags rows := by
  rw [readReplies, readValidReplyLags, List.map_filterMap]
  congr 1
  funext row
  cases row.replyLag <;> rfl

theorem readReplies_append (rows rows' : List AuditRow) :
    readReplies (rows ++ rows') = readReplies rows ++ readReplies rows' := List.filterMap_append

theorem map_fst_readReplies_sublist (rows : List AuditRow) :
    ((readReplies rows).map Prod.fst).Sublist (rows.map AuditRow.auditId) := by
  induction rows with
  | nil => exact List.Sublist.refl _
  | cons row rows ih =>
    cases hlag : row.replyLag with
    | none =>
      have heq : readReplies (row :: rows) = readReplies rows := by simp [readReplies, hlag]
      rw [heq, List.map_cons]
      exact ih.cons _
    | some lag =>
      have heq : readReplies (row :: rows) = (row.auditId, lag) :: readReplies rows := by
        simp [readReplies, hlag]
      rw [heq, List.map_cons, List.map_cons]
      exact ih.cons_cons _

/-- A row of the audit has been replied to. -/
def Replied (rows : List AuditRow) (auditId : Text) : Prop :=
  ∃ row ∈ rows, row.auditId = auditId ∧ row.currentState = some .repliedExplicit

theorem replied_of_mem_readReplies {rows : List AuditRow} {auditId : Text}
    (h : auditId ∈ (readReplies rows).map Prod.fst) : Replied rows auditId := by
  obtain ⟨reply, hreply, rfl⟩ := List.mem_map.mp h
  obtain ⟨row, hrow, hlag⟩ := List.mem_filterMap.mp hreply
  obtain ⟨lag, hlag, rfl⟩ := Option.map_eq_some_iff.mp hlag
  refine ⟨row, hrow, rfl, ?_⟩
  by_contra hne
  rw [replyLag_of_ne hne] at hlag
  cases hlag

/-- Of distinct ids, the row that is replied to is the one of its id. -/
theorem not_replied {before after : List AuditRow} {row : AuditRow}
    (hids : ((before ++ row :: after).map AuditRow.auditId).Nodup)
    (hrow : row.currentState ≠ some .repliedExplicit) :
    ¬ Replied (before ++ row :: after) row.auditId := by
  rintro ⟨row', hmem, hid, hreplied⟩
  have heq : row' = row :=
    List.inj_on_of_nodup_map hids hmem (List.mem_append_right _ List.mem_cons_self) hid
  exact hrow (heq ▸ hreplied)

theorem Replied.append {rows : List AuditRow} {auditId : Text} (h : Replied rows auditId)
    (row : AuditRow) : Replied (rows ++ [row]) auditId := by
  obtain ⟨row', hmem, hid, hreplied⟩ := h
  exact ⟨row', List.mem_append_left _ hmem, hid, hreplied⟩

/-- A transition keeps the replies, where it leaves a replied row replied. -/
theorem Replied.transition {before after : List AuditRow} {row : AuditRow} {auditId : Text}
    {newState : StateName} (h : Replied (before ++ row :: after) auditId) (stamp : Stamp)
    (hkeeps : row.currentState = some .repliedExplicit → newState = .repliedExplicit) :
    Replied (before ++ row.recordTransition newState stamp :: after) auditId := by
  obtain ⟨row', hmem, hid, hreplied⟩ := h
  by_cases heq : row' = row
  · subst heq
    refine ⟨row'.recordTransition newState stamp, by simp, hid, ?_⟩
    rw [AuditRow.currentState_recordTransition, hkeeps hreplied]
  · refine ⟨row', ?_, hid, hreplied⟩
    rw [List.mem_append, List.mem_cons] at hmem ⊢
    exact hmem.imp_right fun hmem => .inr (hmem.resolve_left heq)

/-! ## At most once -/

/-- The runs in which a row that is replied to stays so, and no recompute merges while a reply that
its scan has read waits for its fold. A row that leaves the state and enters it again is folded
again, and so is a reply that the merge has counted before its fold. -/
def Apart (s : State) : Act → Prop
  | .update auditId newState _ => ∀ row ∈ s.rows, row.auditId = auditId →
      row.currentState = some .repliedExplicit → newState = .repliedExplicit
  | .merge w _ => ∀ snapshot ∈ (s.recomputes w).snapshot?, ∀ reply ∈ s.folding,
      reply.1 ∉ snapshot.replies.map Prod.fst
  | _ => True

instance (s : State) (a : Act) : Decidable (Apart s a) :=
  match a with
  | .update auditId newState _ => inferInstanceAs (Decidable (∀ row ∈ s.rows, row.auditId = auditId →
      row.currentState = some .repliedExplicit → newState = .repliedExplicit))
  | .merge w _ => inferInstanceAs (Decidable (∀ snapshot ∈ (s.recomputes w).snapshot?,
      ∀ reply ∈ s.folding, reply.1 ∉ snapshot.replies.map Prod.fst))
  | .append _ | .fold | .inbound _ | .load _ | .scan _ _ => inferInstanceAs (Decidable True)

/-- The count and the mean are those of the lags of `replies`, one for each row. -/
structure Summary (n : ℕ) (mean : Option ℚ) (replies : List (Text × ℚ)) : Prop where
  count : n = replies.length
  mean : mean = meanOf (replies.map Prod.snd)
  once : (replies.map Prod.fst).Nodup

structure Inv (s : State) : Prop where
  ids : (s.rows.map AuditRow.auditId).Nodup
  summary : Summary s.presence.replyLagN s.presence.replyLagRunningMean s.counted
  replied : ∀ auditId ∈ s.counted.map Prod.fst, Replied s.rows auditId
  folding : ∀ reply, s.folding = some reply →
    Replied s.rows reply.1 ∧ reply.1 ∉ s.counted.map Prod.fst
  snapshots : ∀ w snapshot, s.recomputes w = .merging snapshot →
    Summary snapshot.bootstrapN snapshot.bootstrapMean snapshot.replies ∧
      ∀ auditId ∈ snapshot.replies.map Prod.fst, Replied s.rows auditId

theorem Summary.nil : Summary 0 none [] := ⟨rfl, rfl, List.nodup_nil⟩

theorem Summary.fold {p : PresenceState} {replies : List (Text × ℚ)}
    (h : Summary p.replyLagN p.replyLagRunningMean replies) {reply : Text × ℚ}
    (hnew : reply.1 ∉ replies.map Prod.fst) :
    Summary (p.foldReplyLag reply.2).replyLagN (p.foldReplyLag reply.2).replyLagRunningMean
      (replies ++ [reply]) where
  count := by simp [PresenceState.foldReplyLag, h.count]
  mean := by
    have hlength : (replies.map Prod.snd).length = p.replyLagN := by rw [List.length_map, h.count]
    rw [List.map_append, List.map_cons, List.map_nil, meanOf_append, hlength, ← h.mean]
    rfl
  once := by
    rw [List.map_append, List.nodup_append]
    refine ⟨h.once, by simp, fun a ha b hb => ?_⟩
    obtain rfl : b = reply.1 := by simpa using hb
    rintro rfl
    exact hnew ha

/-- A scan for the seed. -/
theorem summary_readReplies {rows : List AuditRow} (hids : (rows.map AuditRow.auditId).Nodup) :
    Summary (readValidReplyLags rows).length (meanOf (readValidReplyLags rows)) (readReplies rows) where
  count := by rw [← map_snd_readReplies, List.length_map]
  mean := by rw [map_snd_readReplies]
  once := hids.sublist (map_fst_readReplies_sublist rows)

section Step

variable {s s' : State}

theorem inv_start (h : s.Start) : Inv s := by
  obtain ⟨hids, hpresence, hfolding, hidle, hcounted⟩ := h
  refine ⟨hids, ?_, ?_, ?_, ?_⟩
  · rw [hpresence, hcounted]
    exact .nil
  · simp [hcounted]
  · simp [hfolding]
  · simp [hidle]

/-- Writes of fields of the presence state that are not about the replies. -/
theorem Inv.setPresence (h : Inv s) {p : PresenceState} (hn : p.replyLagN = s.presence.replyLagN)
    (hmean : p.replyLagRunningMean = s.presence.replyLagRunningMean) :
    Inv { s with presence := p } := by
  refine ⟨h.ids, ?_, h.replied, h.folding, h.snapshots⟩
  change Summary p.replyLagN p.replyLagRunningMean s.counted
  rw [hn, hmean]
  exact h.summary

theorem Inv.setRecompute (h : Inv s) (w : ℕ) {r : Recompute}
    (hr : ∀ snapshot, r = .merging snapshot →
      Summary snapshot.bootstrapN snapshot.bootstrapMean snapshot.replies ∧
        ∀ auditId ∈ snapshot.replies.map Prod.fst, Replied s.rows auditId) :
    Inv (s.setRecompute w r) := by
  refine ⟨h.ids, h.summary, h.replied, h.folding, fun w' snapshot hsnapshot => ?_⟩
  change Function.update s.recomputes w r w' = .merging snapshot at hsnapshot
  by_cases hw : w' = w
  · rw [hw, Function.update_self] at hsnapshot
    exact hr snapshot hsnapshot
  · rw [Function.update_of_ne hw] at hsnapshot
    exact h.snapshots w' snapshot hsnapshot

theorem Inv.append (h : Inv s) {row : AuditRow} (hrow : row.auditId ∉ s.rows.map AuditRow.auditId) :
    Inv { s with audit := some (s.rows ++ [row]) } := by
  refine ⟨?_, h.summary, fun auditId hid => (h.replied auditId hid).append row,
    fun reply hreply => ?_, fun w snapshot hsnapshot => ?_⟩
  · change ((s.rows ++ [row]).map AuditRow.auditId).Nodup
    rw [List.map_append, List.nodup_append]
    refine ⟨h.ids, by simp, fun a ha b hb => ?_⟩
    obtain rfl : b = row.auditId := by simpa using hb
    rintro rfl
    exact hrow ha
  · obtain ⟨hreplied, hnew⟩ := h.folding reply hreply
    exact ⟨hreplied.append row, hnew⟩
  · obtain ⟨hsummary, hreplied⟩ := h.snapshots w snapshot hsnapshot
    exact ⟨hsummary, fun auditId hid => (hreplied auditId hid).append row⟩

theorem Inv.update (h : Inv s) {auditId : Text} {newState : StateName} {stamp : Stamp}
    (hapart : Apart s (.update auditId newState stamp))
    (hmem : auditId ∈ s.rows.map AuditRow.auditId) :
    Inv { s with
      audit := some (updateRows auditId newState stamp s.rows none).1
      folding := (updateRows auditId newState stamp s.rows none).2.map fun lag => (auditId, lag)
      transitions := s.transitions + 1 } := by
  obtain ⟨before, row, after, hrows, hid, hupdate⟩ :=
    updateRows_of_mem newState stamp h.ids hmem
  have hrow : row ∈ s.rows := by simp [hrows]
  have hkeeps : ∀ {id : Text}, Replied s.rows id →
      Replied (before ++ row.recordTransition newState stamp :: after) id := by
    intro id hreplied
    rw [hrows] at hreplied
    exact hreplied.transition stamp (hapart row hrow hid)
  rw [hupdate]
  refine ⟨?_, h.summary, fun id hmem => hkeeps (h.replied id hmem), fun reply hreply => ?_,
    fun w snapshot hsnapshot => ?_⟩
  · have hids := h.ids
    rw [hrows] at hids
    change ((before ++ row.recordTransition newState stamp :: after).map AuditRow.auditId).Nodup
    rw [List.map_append, List.map_cons] at hids ⊢
    exact hids
  · obtain ⟨lag, hlag, rfl⟩ := Option.map_eq_some_iff.mp hreply
    rw [AuditRow.lagAt] at hlag
    split_ifs at hlag with hfirst
    obtain ⟨-, rfl, hnot⟩ := hfirst
    refine ⟨⟨row.recordTransition .repliedExplicit stamp, by simp [State.rows], hid, rfl⟩, ?_⟩
    -- The row was not replied to, so that nothing of it has been counted.
    intro hcounted
    have hreplied := h.replied auditId hcounted
    have hids := h.ids
    rw [hrows] at hreplied hids
    exact not_replied hids hnot (hid ▸ hreplied)
  · obtain ⟨hsummary, hreplied⟩ := h.snapshots w snapshot hsnapshot
    exact ⟨hsummary, fun id hmem => hkeeps (hreplied id hmem)⟩

theorem Inv.merge (h : Inv s) {w : ℕ} {now : Text} (hapart : Apart s (.merge w now))
    {snapshot : Snapshot} (hw : s.recomputes w = .merging snapshot) :
    Inv { s.setRecompute w .idle with
      presence := s.presence.merge snapshot s.audit.isNone now
      counted :=
        if s.presence.resets snapshot s.audit.isNone then []
        else if s.presence.seeds snapshot then snapshot.replies else s.counted } := by
  have hidle := h.setRecompute w (r := .idle) nofun
  obtain ⟨hsummary, hreplied⟩ := h.snapshots w snapshot hw
  by_cases hresets : s.presence.resets snapshot s.audit.isNone
  · refine ⟨hidle.ids, ?_, ?_, fun reply hreply => ?_, hidle.snapshots⟩
    · simp only [PresenceState.merge, hresets, if_true]
      exact .nil
    · simp [hresets]
    · exact ⟨(h.folding reply hreply).1, by simp [hresets]⟩
  · by_cases hseeds : s.presence.seeds snapshot
    · refine ⟨hidle.ids, ?_, ?_, fun reply hreply => ?_, hidle.snapshots⟩
      · simp only [PresenceState.merge, hresets, hseeds, if_true, Bool.false_eq_true, if_false]
        exact hsummary
      · simp only [hresets, hseeds, if_true, Bool.false_eq_true, if_false]
        exact hreplied
      · simp only [hresets, hseeds, if_true, Bool.false_eq_true, if_false]
        exact ⟨(h.folding reply hreply).1, hapart snapshot (congrArg Recompute.snapshot? hw) reply hreply⟩
    · refine ⟨hidle.ids, ?_, ?_, ?_, hidle.snapshots⟩
      · simp only [PresenceState.merge, hresets, hseeds, Bool.false_eq_true, if_false]
        exact h.summary
      · simp only [hresets, hseeds, Bool.false_eq_true, if_false]
        exact h.replied
      · simp only [hresets, hseeds, Bool.false_eq_true, if_false]
        exact h.folding

theorem summary_snapshot (h : Inv s) (v0 : ℕ) (doBootstrap : Bool) (conversations : Conversations) :
    Summary (s.snapshot v0 doBootstrap conversations).bootstrapN
        (s.snapshot v0 doBootstrap conversations).bootstrapMean
        (s.snapshot v0 doBootstrap conversations).replies ∧
      ∀ auditId ∈ (s.snapshot v0 doBootstrap conversations).replies.map Prod.fst,
        Replied s.rows auditId := by
  cases doBootstrap with
  | false => exact ⟨.nil, by simp [State.snapshot]⟩
  | true => exact ⟨summary_readReplies h.ids, fun _ => replied_of_mem_readReplies⟩

theorem Inv.step {a : Act} (h : Inv s) (hapart : Apart s a) (hs : s.step a = some s') : Inv s' := by
  cases a with
  | append row =>
    simp only [State.step] at hs
    split_ifs at hs with hnew
    obtain rfl := Option.some.inj hs
    exact h.append hnew.1
  | update auditId newState stamp =>
    cases hfolding : s.folding with
    | some reply => simp [State.step, hfolding] at hs
    | none =>
      simp only [State.step, hfolding] at hs
      split_ifs at hs with hmem
      · obtain rfl := Option.some.inj hs
        exact h.update hapart hmem
      · obtain rfl := Option.some.inj hs
        exact h
  | fold =>
    obtain ⟨reply, hfolding, rfl⟩ := Option.map_eq_some_iff.mp hs
    obtain ⟨hreplied, hnew⟩ := h.folding reply hfolding
    refine ⟨h.ids, h.summary.fold hnew, fun auditId hid => ?_, nofun, h.snapshots⟩
    rw [List.map_append, List.mem_append] at hid
    -- The reply that is folded was found in the rows.
    rcases hid with hid | hid
    · exact h.replied auditId hid
    · obtain rfl : auditId = reply.1 := by simpa using hid
      exact hreplied
  | inbound ts =>
    simp only [State.step] at hs
    split_ifs at hs
    obtain rfl := Option.some.inj hs
    refine h.setPresence ?_ ?_
    · unfold PresenceState.recordInboundTurn
      split_ifs <;> rfl
    · unfold PresenceState.recordInboundTurn
      split_ifs <;> rfl
  | load w =>
    simp only [State.step] at hs
    split_ifs at hs
    obtain rfl := Option.some.inj hs
    exact h.setRecompute w nofun
  | scan w conversations =>
    cases hw : s.recomputes w with
    | scanning v0 doBootstrap =>
      simp only [State.step, hw, Option.some.injEq] at hs
      subst hs
      refine h.setRecompute w fun snapshot hsnapshot => ?_
      obtain rfl := Recompute.merging.inj hsnapshot
      exact summary_snapshot h v0 doBootstrap conversations
    | idle => simp [State.step, hw] at hs
    | merging snapshot => simp [State.step, hw] at hs
  | merge w now =>
    cases hw : s.recomputes w with
    | merging snapshot =>
      simp only [State.step, hw, Option.some.injEq] at hs
      subst hs
      exact h.merge hapart hw
    | idle => simp [State.step, hw] at hs
    | scanning v0 doBootstrap => simp [State.step, hw] at hs

end Step

/-! ## Exactly once -/

/-- The runs in which a row that is replied to is not updated again, and nothing is written between
the version that the first recompute takes and its merge. -/
def Undisturbed (s : State) : Act → Prop
  | .update auditId _ _ => ∀ row ∈ s.rows, row.auditId = auditId →
      row.currentState ≠ some .repliedExplicit
  | .merge w _ => ∀ snapshot ∈ (s.recomputes w).snapshot?, snapshot.doBootstrap = true →
      s.presence.bootstrapped = false →
        snapshot.v0 = s.presence.version ∧ snapshot.transitions = s.transitions
  | _ => True

instance (s : State) (a : Act) : Decidable (Undisturbed s a) :=
  match a with
  | .update auditId _ _ => inferInstanceAs (Decidable (∀ row ∈ s.rows, row.auditId = auditId →
      row.currentState ≠ some .repliedExplicit))
  | .merge w _ => inferInstanceAs (Decidable (∀ snapshot ∈ (s.recomputes w).snapshot?,
      snapshot.doBootstrap = true → s.presence.bootstrapped = false →
        snapshot.v0 = s.presence.version ∧ snapshot.transitions = s.transitions))
  | .append _ | .fold | .inbound _ | .load _ | .scan _ _ => inferInstanceAs (Decidable True)

/-- A recompute that is to seed took the version before the first merge. -/
def State.Took (s : State) (v0 : ℕ) : Prop :=
  v0 ≤ s.presence.version ∧ (s.presence.bootstrapped = true → v0 < s.presence.version)

structure Seeded (s : State) : Prop where
  counted : s.presence.bootstrapped = true →
    (s.counted ++ s.folding.toList).Perm (readReplies s.rows)
  folding : ∀ reply, s.folding = some reply → reply ∈ readReplies s.rows
  scanning : ∀ w v0, s.recomputes w = .scanning v0 true → s.Took v0
  merging : ∀ w snapshot, s.recomputes w = .merging snapshot → snapshot.doBootstrap = true →
    s.Took snapshot.v0 ∧ snapshot.transitions ≤ s.transitions ∧
      (snapshot.transitions = s.transitions → snapshot.replies = readReplies s.rows)

theorem readReplies_transition (before after : List AuditRow) {row : AuditRow}
    (hrow : row.currentState ≠ some .repliedExplicit) (newState : StateName) (stamp : Stamp) :
    readReplies (before ++ row :: after) = readReplies before ++ readReplies after ∧
      readReplies (before ++ row.recordTransition newState stamp :: after) =
        readReplies before ++
          (((row.lagAt newState stamp none).map fun lag => (row.auditId, lag)).toList ++
            readReplies after) := by
  have hlag := replyLag_recordTransition newState stamp hrow
  constructor
  · rw [readReplies_append, readReplies, readReplies, List.filterMap_cons, replyLag_of_ne hrow]
    rfl
  · rw [readReplies_append]
    congr 1
    rw [readReplies, List.filterMap_cons, hlag]
    cases row.lagAt newState stamp none <;> rfl

section Step

variable {s s' : State}

theorem State.Took.written {v0 : ℕ} (h : s.Took v0) (hwritten : s.presence.version < s'.presence.version) :
    s'.Took v0 :=
  ⟨h.1.trans hwritten.le, fun _ => h.1.trans_lt hwritten⟩

theorem seeded_start (h : s.Start) : Seeded s := by
  obtain ⟨-, hpresence, hfolding, hidle, -⟩ := h
  refine ⟨?_, ?_, ?_, ?_⟩
  · simp [hpresence, PresenceState.sentinel]
  · simp [hfolding]
  · simp [hidle]
  · simp [hidle]

theorem Seeded.append (h : Seeded s) {row : AuditRow} (hrow : row.delivery = none) :
    Seeded { s with audit := some (s.rows ++ [row]) } := by
  have hstate : row.currentState ≠ some .repliedExplicit := by simp [AuditRow.currentState, hrow]
  have heq : readReplies (s.rows ++ [row]) = readReplies s.rows := by
    rw [readReplies_append]
    simp [readReplies, replyLag_of_ne hstate]
  refine ⟨fun hboot => ?_, fun reply hreply => ?_, h.scanning, fun w snapshot hw hdo => ?_⟩
  · exact heq ▸ h.counted hboot
  · exact heq ▸ h.folding reply hreply
  · obtain ⟨htook, hle, hcurrent⟩ := h.merging w snapshot hw hdo
    exact ⟨htook, hle, fun hnow => (hcurrent hnow).trans heq.symm⟩

theorem Seeded.update (h : Seeded s) (hinv : Inv s) {auditId : Text} {newState : StateName}
    {stamp : Stamp} (hrows : Undisturbed s (.update auditId newState stamp))
    (hfree : s.folding = none) (hmem : auditId ∈ s.rows.map AuditRow.auditId) :
    Seeded { s with
      audit := some (updateRows auditId newState stamp s.rows none).1
      folding := (updateRows auditId newState stamp s.rows none).2.map fun lag => (auditId, lag)
      transitions := s.transitions + 1 } := by
  obtain ⟨before, row, after, hsplit, hid, hupdate⟩ :=
    updateRows_of_mem newState stamp hinv.ids hmem
  have hrow : row.currentState ≠ some .repliedExplicit := hrows row (by simp [hsplit]) hid
  obtain ⟨hold, hnew⟩ := readReplies_transition before after hrow newState stamp
  rw [hupdate, ← hid]
  refine ⟨fun hboot => ?_, fun reply hreply => ?_, h.scanning, fun w snapshot hw hdo => ?_⟩
  · have hcounted := h.counted hboot
    rw [hfree, hsplit, hold, Option.toList_none, List.append_nil] at hcounted
    change (s.counted ++ _).Perm (readReplies (before ++ row.recordTransition newState stamp :: after))
    rw [hnew]
    refine (hcounted.append_right _).trans ?_
    rw [List.append_assoc]
    exact List.perm_append_comm.append_left _
  · change reply ∈ readReplies (before ++ row.recordTransition newState stamp :: after)
    rw [hnew, List.mem_append, List.mem_append]
    exact .inr (.inl (Option.mem_toList.mpr hreply))
  · obtain ⟨htook, hle, -⟩ := h.merging w snapshot hw hdo
    refine ⟨htook, by dsimp only; omega, fun hnow => ?_⟩
    dsimp only at hnow
    omega

/-- A write that leaves the replies alone. -/
theorem Seeded.setPresence (h : Seeded s) {p : PresenceState}
    (hboot : p.bootstrapped = s.presence.bootstrapped)
    (hversion : s.presence.version ≤ p.version) : Seeded { s with presence := p } := by
  have htook : ∀ v0, s.Took v0 → ({ s with presence := p } : State).Took v0 := by
    intro v0 htook
    refine ⟨htook.1.trans hversion, fun hp => ?_⟩
    exact (htook.2 (hboot.symm.trans hp)).trans_le hversion
  refine ⟨fun hp => h.counted (hboot.symm.trans hp), h.folding,
    fun w v0 hw => htook v0 (h.scanning w v0 hw), fun w snapshot hw hdo => ?_⟩
  obtain ⟨htook', hrest⟩ := h.merging w snapshot hw hdo
  exact ⟨htook _ htook', hrest⟩

theorem Seeded.setRecompute (h : Seeded s) (w : ℕ) {r : Recompute}
    (hscanning : ∀ v0, r = .scanning v0 true → s.Took v0)
    (hmerging : ∀ snapshot, r = .merging snapshot → snapshot.doBootstrap = true →
      s.Took snapshot.v0 ∧ snapshot.transitions = s.transitions ∧
        snapshot.replies = readReplies s.rows) :
    Seeded (s.setRecompute w r) := by
  refine ⟨h.counted, h.folding, fun w' v0 hw' => ?_, fun w' snapshot hw' hdo => ?_⟩
  · change Function.update s.recomputes w r w' = .scanning v0 true at hw'
    by_cases hw : w' = w
    · rw [hw, Function.update_self] at hw'
      exact hscanning v0 hw'
    · rw [Function.update_of_ne hw] at hw'
      exact h.scanning w' v0 hw'
  · change Function.update s.recomputes w r w' = .merging snapshot at hw'
    by_cases hw : w' = w
    · rw [hw, Function.update_self] at hw'
      obtain ⟨htook, hnow, hreplies⟩ := hmerging snapshot hw' hdo
      exact ⟨htook, hnow.le, fun _ => hreplies⟩
    · rw [Function.update_of_ne hw] at hw'
      exact h.merging w' snapshot hw' hdo

theorem Seeded.merge (h : Seeded s) {w : ℕ} {now : Text} (hapart : Apart s (.merge w now))
    (hundisturbed : Undisturbed s (.merge w now)) {snapshot : Snapshot}
    (hw : s.recomputes w = .merging snapshot) :
    Seeded { s.setRecompute w .idle with
      presence := s.presence.merge snapshot s.audit.isNone now
      counted :=
        if s.presence.resets snapshot s.audit.isNone then []
        else if s.presence.seeds snapshot then snapshot.replies else s.counted } := by
  have hidle := h.setRecompute w (r := .idle) nofun nofun
  have hversion : s.presence.version < (s.presence.merge snapshot s.audit.isNone now).version :=
    Nat.lt_succ_self _
  refine ⟨fun hboot => ?_, h.folding, fun w' v0 hw' => ?_, fun w' snapshot' hw' hdo => ?_⟩
  · by_cases hresets : s.presence.resets snapshot s.audit.isNone
    · simp [PresenceState.merge, hresets] at hboot
    · simp only [PresenceState.merge, hresets, Bool.false_eq_true, if_false] at hboot ⊢
      by_cases hdo : snapshot.doBootstrap
      · obtain ⟨htook, -, hcurrent⟩ := h.merging w snapshot hw hdo
        by_cases hbefore : s.presence.bootstrapped
        · -- A second recompute took its version before the first merge, and keeps what it finds.
          have hstale := htook.2 hbefore
          have hseeds : ¬ s.presence.seeds snapshot := by
            simp only [PresenceState.seeds, hdo, Bool.true_and, decide_eq_true_eq]
            omega
          rw [if_neg hseeds]
          exact h.counted hbefore
        · have hmerging := congrArg Recompute.snapshot? hw
          obtain ⟨hv0, hnow⟩ := hundisturbed snapshot hmerging hdo (by simpa using hbefore)
          have hseeds : s.presence.seeds snapshot := by simp [PresenceState.seeds, hdo, hv0]
          have hreplies := hcurrent hnow
          have hfree : s.folding = none := by
            rw [Option.eq_none_iff_forall_ne_some]
            intro reply hreply
            have hmem := h.folding reply hreply
            rw [← hreplies] at hmem
            exact hapart snapshot hmerging reply hreply (List.mem_map_of_mem hmem)
          rw [if_pos hseeds]
          change (snapshot.replies ++ s.folding.toList).Perm (readReplies s.rows)
          rw [hfree, Option.toList_none, List.append_nil, hreplies]
      · have hseeds : ¬ s.presence.seeds snapshot := by simp [PresenceState.seeds, hdo]
        rw [if_neg hseeds]
        rw [if_neg hdo] at hboot
        exact h.counted hboot
  · exact (hidle.scanning w' v0 hw').written hversion
  · obtain ⟨htook, hrest⟩ := hidle.merging w' snapshot' hw' hdo
    exact ⟨htook.written hversion, hrest⟩

theorem Seeded.step {a : Act} (h : Seeded s) (hinv : Inv s) (hapart : Apart s a)
    (hundisturbed : Undisturbed s a) (hs : s.step a = some s') : Seeded s' := by
  cases a with
  | append row =>
    simp only [State.step] at hs
    split_ifs at hs with hnew
    obtain rfl := Option.some.inj hs
    exact h.append hnew.2
  | update auditId newState stamp =>
    cases hfolding : s.folding with
    | some reply => simp [State.step, hfolding] at hs
    | none =>
      simp only [State.step, hfolding] at hs
      split_ifs at hs with hmem
      · obtain rfl := Option.some.inj hs
        exact h.update hinv hundisturbed hfolding hmem
      · obtain rfl := Option.some.inj hs
        exact h
  | fold =>
    obtain ⟨reply, hfolding, rfl⟩ := Option.map_eq_some_iff.mp hs
    have hwritten := h.setPresence (p := s.presence.foldReplyLag reply.2) rfl (Nat.le_succ _)
    refine ⟨fun hboot => ?_, nofun, hwritten.scanning, hwritten.merging⟩
    -- What was about to be folded is counted now, and was to be counted before.
    have hcounted := h.counted hboot
    rw [hfolding] at hcounted
    change (s.counted ++ [reply] ++ []).Perm (readReplies s.rows)
    rwa [List.append_nil]
  | inbound ts =>
    simp only [State.step] at hs
    split_ifs at hs
    obtain rfl := Option.some.inj hs
    refine h.setPresence ?_ ?_
    · unfold PresenceState.recordInboundTurn
      split_ifs <;> rfl
    · unfold PresenceState.recordInboundTurn
      split_ifs
      · exact le_rfl
      · exact Nat.le_succ _
  | load w =>
    simp only [State.step] at hs
    split_ifs at hs
    obtain rfl := Option.some.inj hs
    refine h.setRecompute w (fun v0 hv0 => ?_) nofun
    obtain ⟨rfl, hboot⟩ := Recompute.scanning.inj hv0
    -- A recompute that bootstraps starts while nothing is seeded.
    exact ⟨le_rfl, fun htrue => by simp [htrue] at hboot⟩
  | scan w conversations =>
    cases hw : s.recomputes w with
    | scanning v0 doBootstrap =>
      simp only [State.step, hw, Option.some.injEq] at hs
      subst hs
      refine h.setRecompute w nofun fun snapshot hsnapshot hdo => ?_
      obtain rfl := Recompute.merging.inj hsnapshot
      obtain rfl : doBootstrap = true := hdo
      exact ⟨h.scanning w v0 hw, rfl, rfl⟩
    | idle => simp [State.step, hw] at hs
    | merging snapshot => simp [State.step, hw] at hs
  | merge w now =>
    cases hw : s.recomputes w with
    | merging snapshot =>
      simp only [State.step, hw, Option.some.injEq] at hs
      subst hs
      exact h.merge hapart hundisturbed hw
    | idle => simp [State.step, hw] at hs
    | scanning v0 doBootstrap => simp [State.step, hw] at hs

end Step

/-! ## The last turn -/

/-- No empty stamp of a turn is kept. -/
def Stamped (s : State) : Prop := ∀ ts, s.presence.lastSeenTs = some ts → ts ≠ []

/-- The stamp of the last turn does not decrease. -/
def SeenBefore (s s' : State) : Prop :=
  ∀ ts, s.presence.lastSeenTs = some ts → ∃ ts', s'.presence.lastSeenTs = some ts' ∧ ts ≤ ts'

section Stamped

variable {s s' : State}

theorem seenBefore_of_eq (h : s'.presence.lastSeenTs = s.presence.lastSeenTs) : SeenBefore s s' :=
  fun ts hts => ⟨ts, h.trans hts, le_rfl⟩

theorem mergedLastSeen_ne_nil {fresh scanned : Option Text} {ts : Text}
    (h : mergedLastSeen fresh scanned = some ts) : ts ≠ [] := by
  unfold mergedLastSeen at h
  cases hfresh : fresh.filter (· ≠ []) with
  | none =>
    rw [hfresh] at h
    simpa using Option.filter_eq_some_iff.mp h |>.2
  | some a =>
    have ha : a ≠ [] := by simpa using (Option.filter_eq_some_iff.mp hfresh).2
    rw [hfresh] at h
    cases hscanned : scanned.filter (· ≠ []) with
    | none =>
      rw [hscanned] at h
      exact Option.some.inj h ▸ ha
    | some b =>
      have hb : b ≠ [] := by simpa using (Option.filter_eq_some_iff.mp hscanned).2
      rw [hscanned] at h
      obtain rfl := Option.some.inj h
      rcases max_choice a b with hmax | hmax
      · rwa [hmax]
      · rwa [hmax]

theorem le_mergedLastSeen {ts : Text} (hts : ts ≠ []) (scanned : Option Text) :
    ∃ ts', mergedLastSeen (some ts) scanned = some ts' ∧ ts ≤ ts' := by
  have hfresh : (some ts).filter (· ≠ []) = some ts := by simp [Option.filter, hts]
  unfold mergedLastSeen
  rw [hfresh]
  cases scanned.filter (· ≠ []) with
  | none => exact ⟨ts, rfl, le_rfl⟩
  | some b => exact ⟨max ts b, rfl, le_max_left ts b⟩

theorem seenBefore_inbound (ts : Text) :
    SeenBefore s { s with presence := s.presence.recordInboundTurn ts } := by
  intro seen hseen
  by_cases hnewer : s.presence.lastSeenTs.any fun seen => ts ≤ seen
  · have hkept : s.presence.recordInboundTurn ts = s.presence := if_pos hnewer
    exact ⟨seen, (congrArg PresenceState.lastSeenTs hkept).trans hseen, le_rfl⟩
  · refine ⟨ts, by simp [PresenceState.recordInboundTurn, hnewer], ?_⟩
    rw [hseen, Option.any_some, decide_eq_true_eq, not_le] at hnewer
    exact hnewer.le

theorem seen_step {a : Act} (h : Stamped s) (hs : s.step a = some s') :
    Stamped s' ∧ SeenBefore s s' := by
  -- Most steps leave the time of the last turn.
  have hsame : ∀ s₁ : State, s₁.presence.lastSeenTs = s.presence.lastSeenTs →
      Stamped s₁ ∧ SeenBefore s s₁ := by
    intro s₁ heq
    exact ⟨fun ts hts => h ts (heq.symm.trans hts), seenBefore_of_eq heq⟩
  cases a with
  | append row =>
    simp only [State.step] at hs
    split_ifs at hs
    obtain rfl := Option.some.inj hs
    exact hsame _ rfl
  | update auditId newState stamp =>
    cases hfolding : s.folding with
    | some reply => simp [State.step, hfolding] at hs
    | none =>
      simp only [State.step, hfolding] at hs
      split_ifs at hs
      · obtain rfl := Option.some.inj hs
        exact hsame _ rfl
      · obtain rfl := Option.some.inj hs
        exact hsame _ rfl
  | fold =>
    obtain ⟨reply, -, rfl⟩ := Option.map_eq_some_iff.mp hs
    exact hsame _ rfl
  | inbound ts =>
    simp only [State.step] at hs
    split_ifs at hs with hts
    obtain rfl := Option.some.inj hs
    refine ⟨fun seen hseen => ?_, seenBefore_inbound ts⟩
    change (s.presence.recordInboundTurn ts).lastSeenTs = some seen at hseen
    unfold PresenceState.recordInboundTurn at hseen
    split_ifs at hseen
    · exact h seen hseen
    · exact Option.some.inj hseen ▸ hts
  | load w =>
    simp only [State.step] at hs
    split_ifs at hs
    obtain rfl := Option.some.inj hs
    exact hsame _ rfl
  | scan w conversations =>
    cases hw : s.recomputes w with
    | scanning v0 doBootstrap =>
      simp only [State.step, hw, Option.some.injEq] at hs
      subst hs
      exact hsame _ rfl
    | idle => simp [State.step, hw] at hs
    | merging snapshot => simp [State.step, hw] at hs
  | merge w now =>
    cases hw : s.recomputes w with
    | merging snapshot =>
      simp only [State.step, hw, Option.some.injEq] at hs
      subst hs
      refine ⟨fun ts hts => mergedLastSeen_ne_nil hts, fun ts hts => ?_⟩
      change ∃ ts', mergedLastSeen s.presence.lastSeenTs _ = some ts' ∧ ts ≤ ts'
      rw [hts]
      exact le_mergedLastSeen (h ts hts) _
    | idle => simp [State.step, hw] at hs
    | scanning v0 doBootstrap => simp [State.step, hw] at hs

theorem stamped_of_reachable (h : machine.Reachable s) : Stamped s := by
  refine h.invariant (fun s hstart ts hts => ?_) ?_
  · rw [hstart.2.1] at hts
    cases hts
  · intro s a s' hi _ hstep
    exact (seen_step hi hstep).1

end Stamped

/-! ## The mean of the replies -/

theorem inv_of_reach {s : State} (h : machine.Reach Apart s) : Inv s :=
  h.invariant (fun _ => inv_start) fun _ _ _ hi hapart hstep => hi.step hapart hstep

theorem seeded_of_reach {s : State}
    (h : machine.Reach (fun s a => Apart s a ∧ Undisturbed s a) s) : Inv s ∧ Seeded s := by
  induction h with
  | init hstart => exact ⟨inv_start hstart, seeded_start hstart⟩
  | step _ hmeets hstep ih =>
    obtain ⟨hapart, hundisturbed⟩ := hmeets
    exact ⟨ih.1.step hapart hstep, ih.2.step ih.1 hapart hundisturbed hstep⟩

/-- A row that is replied to is counted once at most, where it stays so and no merge falls between
its update and its fold. It is counted exactly once from the first merge on, where nothing was
written between the version that the recompute took and that merge: the count and the mean are then
those of the rows of the audit. And the stamp of the last turn never decreases. -/
theorem reply_lags_counted :
    (∀ s, machine.Reach Apart s →
      Summary s.presence.replyLagN s.presence.replyLagRunningMean s.counted ∧
        ∀ auditId ∈ s.counted.map Prod.fst, Replied s.rows auditId) ∧
    (∀ s, machine.Reach (fun s a => Apart s a ∧ Undisturbed s a) s →
      s.presence.bootstrapped = true → s.folding = none →
        s.presence.replyLagN = (readValidReplyLags s.rows).length ∧
          s.presence.replyLagRunningMean = meanOf (readValidReplyLags s.rows)) ∧
    ∀ s a s', machine.Reachable s → s.step a = some s' → SeenBefore s s' := by
  refine ⟨fun s hs => ?_, fun s hs hboot hfree => ?_, fun s a s' hs hstep => ?_⟩
  · exact ⟨(inv_of_reach hs).summary, (inv_of_reach hs).replied⟩
  · obtain ⟨hinv, hseeded⟩ := seeded_of_reach hs
    have hcounted := hseeded.counted hboot
    rw [hfree, Option.toList_none, List.append_nil] at hcounted
    have hlags := hcounted.map Prod.snd
    rw [map_snd_readReplies] at hlags
    constructor
    · rw [hinv.summary.count, ← hlags.length_eq, List.length_map]
    · rw [hinv.summary.mean]
      exact meanOf_perm hlags
  · exact (seen_step (stamped_of_reachable hs) hstep).2

/-- A message that was sent at noon of the first day, and replied to ten seconds later. -/
def sampleReplied : AuditRow where
  auditId := ['r']
  candidateId := ['c']
  ts := some 43200000000
  kind := .message
  decision := .sendNotify
  delivery := some ⟨some (some 43200000000), [⟨.repliedExplicit, some 43210000000⟩], .repliedExplicit⟩

/-- A message that is read and waits for its reply. -/
def sampleRead : AuditRow :=
  { sampleReplied with
    auditId := ['s']
    delivery := some ⟨some (some 43200000000), [⟨.read, some 43205000000⟩], .read⟩ }

/-- The audit of a persona before its first recompute. -/
def sampleStart : State :=
  ⟨some [sampleReplied, sampleRead], .sentinel, none, fun _ => .idle, [], 0⟩

theorem start_sampleStart : sampleStart.Start :=
  ⟨by decide, rfl, rfl, fun _ => rfl, rfl⟩

/-- One reply is from before the first recompute, and one, after twenty seconds, from after it. -/
theorem reply_lags_counted_seeded : ∃ s,
    machine.Reach (fun s a => Apart s a ∧ Undisturbed s a) s ∧
    ((s.presence.bootstrapped = true ∧ s.folding = none) ∧ s.presence.replyLagN = 2 ∧
      s.presence.replyLagRunningMean = some 15) ∧
    (s.presence.replyLagN = (readValidReplyLags s.rows).length ∧
      s.presence.replyLagRunningMean = meanOf (readValidReplyLags s.rows)) := by
  obtain ⟨s, hs, hp⟩ := Machine.exists_reach_of_runWithin (M := machine)
    (D := fun s a => Apart s a ∧ Undisturbed s a) (fun _ _ h => h) start_sampleStart
    [.load 0, .scan 0 ⟨none, none, none⟩, .merge 0 ['n'],
      .update ['s'] .repliedExplicit (some 43220000000), .inbound ['t'], .fold]
    (fun s => (s.presence.bootstrapped = true ∧ s.folding = none) ∧ s.presence.replyLagN = 2 ∧
      s.presence.replyLagRunningMean = some 15) (by decide +kernel)
  have hp' := of_decide_eq_true hp
  exact ⟨s, hs, hp', reply_lags_counted.2.1 s hs hp'.1.1 hp'.1.2⟩

/-- No message is updated at all, and a turn comes in while the first recompute scans: the reply
from before is not counted. -/
theorem seed_lost : ∃ s, machine.Reach (fun _ a => ∀ id state stamp, a ≠ .update id state stamp) s ∧
    s.presence.bootstrapped = true ∧ s.folding = none ∧
    s.presence.replyLagN = 0 ∧ (readValidReplyLags s.rows).length = 1 := by
  obtain ⟨s, hs, hp⟩ := Machine.exists_reach_of_runWithin (M := machine)
    (D := fun _ a => a = .load 0 ∨ a = .inbound ['t'] ∨ a = .scan 0 ⟨none, none, none⟩ ∨
      a = .merge 0 ['n'])
    (C := fun _ a => ∀ id state stamp, a ≠ .update id state stamp)
    (by rintro _ _ (rfl | rfl | rfl | rfl) <;> simp) start_sampleStart
    [.load 0, .inbound ['t'], .scan 0 ⟨none, none, none⟩, .merge 0 ['n']]
    (fun s => s.presence.bootstrapped = true ∧ s.folding = none ∧
      s.presence.replyLagN = 0 ∧ (readValidReplyLags s.rows).length = 1) (by decide +kernel)
  exact ⟨s, hs, of_decide_eq_true hp⟩

end Companion.Initiate.ReplyLag

import Companion.Consolidation.Gate

/-!
# No pending candidate is lost

Every candidate that was enqueued is in the queue, unsettled in the processing file, in quarantine,
a row of the table, merged into a row, or was dropped on purpose; and no id is inserted twice
(`candidates_accounted`).

An entry is recorded as settled only once its candidate is accounted for without it, and the
processing file is deleted only once all its entries are recorded. What a pass holds in its loops is
in the processing file and unsettled, each entry in one place (`Working`).
-/

namespace Companion.Consolidation

open Companion.Memory
open Companion.Runs

/-- The candidate is kept or was dropped, whatever becomes of the queue and the processing file. -/
def Disposed (s : State) (m : Candidate) : Prop :=
  .candidate m ∈ s.quarantine ∨ (s.rows.get? m.id).isSome ∨
    (∃ t, (m.id, t) ∈ s.absorbed ∧ (s.rows.get? t).isSome) ∨ ∃ why, (m.id, why) ∈ s.dropped

/-- The candidate is in the queue, unsettled in the processing file, or disposed of. -/
def Accounted (s : State) (m : Candidate) : Prop :=
  .candidate m ∈ s.queue ∨ (∃ c, ⟨c, .candidate m⟩ ∈ s.processing ∧ c ∉ s.settled) ∨ Disposed s m

/-- The candidate is accounted for without the entry. -/
def AccountedBut (claimId : ℕ) (s : State) (m : Candidate) : Prop :=
  .candidate m ∈ s.queue ∨
    (∃ c, c ≠ claimId ∧ ⟨c, .candidate m⟩ ∈ s.processing ∧ c ∉ s.settled) ∨ Disposed s m

/-- The entry that a pass is at. -/
def Point.current? : Point → Option (Claimed Item)
  | .reappraise e _ _ | .writeBack e _ => some e.request
  | .dispatch e _ | .defer e | .archive e _ _ | .update e _ _ | .create e | .link e => some e.entry
  | .failed e _ _ | .quarantine e _ | .requeue e | .settle e _ => some e
  | _ => none

/-- Whether the first pass is still to come to its end. -/
def Loop.early : Loop → Bool
  | .reappraise | .parse | .pass1 => true
  | .pass2 | .close => false

/-- Whether the first pass is still to come to its end. -/
def Point.early : Point → Bool
  | .loop l | .settle _ l | .failed _ _ l | .quarantine _ l => l.early
  | .claim | .reset | .empty | .reappraise _ _ _ | .writeBack _ _ => true
  | _ => false

/-- The entries that a pass has still to do, but for the one that it is at. -/
def Run.pending (r : Run) : List (Claimed Item) :=
  r.reappraisals.map Claimed.request ++ (r.unparsed ++ r.candidates ++ r.survivors).map Claimed.entry

/-- The entries that a pass is at or has still to do. -/
def Run.live (r : Run) : List (Claimed Item) := r.point.current?.toList ++ r.pending

/-- At a loop nothing is taken out of the batch. -/
example (r : Run) (l : Loop) (h : r.point = .loop l) : r.live = r.pending := by
  simp [Run.live, Run.pending, Point.current?, h]

/-- Every candidate of the queue is claimed too. -/
def QueueClaimed (s : State) : Prop :=
  ∀ m, .candidate m ∈ s.queue → ∃ c, ⟨c, .candidate m⟩ ∈ s.processing

/-- What holds of the files at each point of a pass. -/
def Here (s : State) (r : Run) : Prop :=
  match r.point with
  | .reset => r.settled = [] ∧ (∀ e ∈ s.processing, e.claimId ∉ s.settled) ∧ QueueClaimed s
  | .empty => s.settled = [] ∧ QueueClaimed s
  | .link e => (s.rows.get? e.payload.id).isSome
  | .settle e _ => ∀ m, e.payload = .candidate m → AccountedBut e.claimId s m
  | .closeSettled => s.processing = []
  | _ => True

/-- The pass knows its batch: it is the processing file, and what is live in it is unsettled, each
entry once. A candidate that was seen, and is not disposed of, survived. -/
structure Working (s : State) (r : Run) : Prop where
  entries : ∀ e ∈ s.processing, e ∈ r.entries ∨ e.claimId ∈ s.settled
  settled : ∀ c ∈ r.settled, c ∈ s.settled
  held : ∀ e ∈ r.live, e ∈ s.processing ∧ e.claimId ∉ s.settled
  nodup : (r.live.map Claimed.claimId).Nodup
  seen : r.point.early = true → ∀ x ∈ r.seen, ∃ m ∈ s.enqueued, m.id = x.2 ∧
    ((∃ e ∈ r.survivors, e.payload = m) ∨ Disposed s m)
  here : Here s r

/-- A pass at its start has nothing, and works with its batch from the claim on. -/
def RunInv (s : State) (r : Run) : Prop :=
  if r.point = .claim then
    r.settled = [] ∧ r.reappraisals = [] ∧ r.unparsed = [] ∧ r.candidates = [] ∧ r.survivors = [] ∧
      r.seen = []
  else Working s r

theorem RunInv.of_working {s : State} {r : Run} (hclaim : r.point ≠ .claim) (h : Working s r) :
    RunInv s r := by
  unfold RunInv
  rwa [if_neg hclaim]

/-- Every candidate is accounted for, claim ids are fresh, and each row was inserted once. -/
structure Inv (s : State) : Prop where
  accounted : ∀ m ∈ s.enqueued, Accounted s m
  distinct : ∀ m ∈ s.enqueued, ∀ m' ∈ s.enqueued, m.id = m'.id → m = m'
  queue : ∀ m, .candidate m ∈ s.queue → m ∈ s.enqueued
  processing : ∀ c m, ⟨c, .candidate m⟩ ∈ s.processing → m ∈ s.enqueued
  fresh : (∀ e ∈ s.processing, e.claimId < s.nextClaim) ∧ ∀ c ∈ s.settled, c < s.nextClaim
  unique : (s.processing.map Claimed.claimId).Nodup
  created : s.created.Nodup ∧ ∀ id ∈ s.created, (s.rows.get? id).isSome
  run : ∀ r, s.run = some r → RunInv s r

/-! ## Operations that keep every candidate where it is -/

/-- The files of the claim are the same, and all else has at least what it had. -/
structure Grows (s s' : State) : Prop where
  processing : s'.processing = s.processing
  settled : s'.settled = s.settled
  nextClaim : s'.nextClaim = s.nextClaim
  enqueued : s'.enqueued = s.enqueued
  queue : ∀ i ∈ s.queue, i ∈ s'.queue
  queued : ∀ m, .candidate m ∈ s'.queue → .candidate m ∈ s.queue ∨ m ∈ s.enqueued
  disposed : ∀ m, Disposed s m → Disposed s' m
  created : s'.created.Nodup ∧ ∀ id ∈ s'.created, (s'.rows.get? id).isSome

variable {s : State} {r : Run}

theorem Inv.grows (h : Inv s) : Grows s s :=
  ⟨rfl, rfl, rfl, rfl, fun _ hi => hi, fun _ hm => .inl hm, fun _ hm => hm, h.created⟩

/-- A write to one row. -/
theorem Inv.grows_updateRow (h : Inv s) (id : MemoryId) (f : Row → Row) :
    Grows s { s with rows := updateRow s.rows id f } := by
  have hsome : ∀ id', (s.rows.get? id').isSome → ((updateRow s.rows id f).get? id').isSome := by
    intro id' hid'
    rw [get?_updateRow]
    split_ifs with heq
    · rwa [Option.isSome_map, ← heq]
    · exact hid'
  refine ⟨rfl, rfl, rfl, rfl, fun _ hi => hi, fun _ hm => .inl hm, ?_, h.created.1, ?_⟩
  · intro m hm
    rcases hm with hm | hm | ⟨t, ht, hrow⟩ | hm
    · exact .inl hm
    · exact .inr (.inl (hsome _ hm))
    · exact .inr (.inr (.inl ⟨t, ht, hsome _ hrow⟩))
    · exact .inr (.inr (.inr hm))
  · exact fun id' hid' => hsome id' (h.created.2 id' hid')

/-- A deliberate drop. -/
theorem Inv.grows_drop (h : Inv s) (m : Candidate) (why : Drop) : Grows s (s.drop m why) := by
  refine ⟨rfl, rfl, rfl, rfl, fun _ hi => hi, fun _ hm => .inl hm, ?_, h.created⟩
  intro m' hm
  rcases hm with hm | hm | hm | hm
  · exact .inl hm
  · exact .inr (.inl hm)
  · exact .inr (.inr (.inl hm))
  · obtain ⟨why', hm⟩ := hm
    exact .inr (.inr (.inr ⟨why', List.mem_cons_of_mem _ hm⟩))

/-- An entry goes back to the queue. -/
theorem Inv.grows_enqueue (h : Inv s) {e : Claimed Item} (he : e ∈ s.processing) :
    Grows s { s with queue := s.queue ++ [e.payload] } := by
  refine ⟨rfl, rfl, rfl, rfl, fun _ hi => List.mem_append_left _ hi, ?_, fun _ hm => hm, h.created⟩
  intro m hm
  rcases List.mem_append.mp hm with hm | hm
  · exact .inl hm
  · exact .inr (h.processing e.claimId m (by rwa [List.mem_singleton.mp hm]))

/-- An entry goes to quarantine. -/
theorem Inv.grows_quarantine (h : Inv s) (i : Item) :
    Grows s { s with quarantine := s.quarantine ++ [i] } :=
  ⟨rfl, rfl, rfl, rfl, fun _ hi => hi, fun _ hm => .inl hm,
    fun _ hm => hm.imp_left (List.mem_append_left _), h.created⟩

/-- A row is inserted, where there is none. -/
theorem Inv.grows_create (h : Inv s) {id : MemoryId} (hnone : (s.rows.get? id).isNone) (row : Row) :
    Grows s { s with rows := s.rows.set id row, created := id :: s.created } := by
  have hsome : ∀ id', (s.rows.get? id').isSome → ((s.rows.set id row).get? id').isSome := by
    intro id' hid'
    rw [Dict.get?_set]
    split_ifs
    · rfl
    · exact hid'
  refine ⟨rfl, rfl, rfl, rfl, fun _ hi => hi, fun _ hm => .inl hm, ?_, ?_, ?_⟩
  · intro m hm
    rcases hm with hm | hm | ⟨t, ht, hrow⟩ | hm
    · exact .inl hm
    · exact .inr (.inl (hsome _ hm))
    · exact .inr (.inr (.inl ⟨t, ht, hsome _ hrow⟩))
    · exact .inr (.inr (.inr hm))
  · refine List.nodup_cons.mpr ⟨fun hid => ?_, h.created.1⟩
    have := h.created.2 id hid
    simp_all
  · intro id' hid'
    rcases List.mem_cons.mp hid' with rfl | hid'
    · show ((s.rows.set id' row).get? id').isSome = true
      rw [Dict.get?_set, if_pos rfl]
      rfl
    · exact hsome id' (h.created.2 id' hid')

/-- A candidate is merged into a row. -/
theorem Inv.grows_absorb (h : Inv s) (id target : MemoryId) (text : Text) :
    Grows s { s with
      rows := updateRow s.rows target (.updateContent text)
      absorbed := (id, target) :: s.absorbed } := by
  have hrow := h.grows_updateRow target (.updateContent text)
  refine ⟨rfl, rfl, rfl, rfl, hrow.queue, hrow.queued, ?_, hrow.created⟩
  intro m hm
  rcases hrow.disposed m hm with hm | hm | ⟨t, ht, hrow⟩ | hm
  · exact .inl hm
  · exact .inr (.inl hm)
  · exact .inr (.inr (.inl ⟨t, List.mem_cons_of_mem _ ht, hrow⟩))
  · exact .inr (.inr (.inr hm))

/-- What a pass has live stays live or is done with. -/
theorem Working.move (h : Working s r) {s' : State} (hg : Grows s s') {r' : Run}
    (hentries : r'.entries = r.entries) (hsettled : r'.settled = r.settled)
    (hlive : r'.live.Subperm r.live)
    (hseen : r'.point.early = true → ∀ x ∈ r'.seen, ∃ m ∈ s.enqueued, m.id = x.2 ∧
      ((∃ e ∈ r'.survivors, e.payload = m) ∨ Disposed s' m))
    (hhere : Here s' r') : Working s' r' := by
  refine ⟨?_, ?_, ?_, ?_, ?_, hhere⟩
  · rw [hg.processing, hentries, hg.settled]
    exact h.entries
  · rw [hsettled, hg.settled]
    exact h.settled
  · rw [hg.processing, hg.settled]
    exact fun e he => h.held e (hlive.subset he)
  · obtain ⟨l, hperm, hsub⟩ := hlive
    exact (hperm.map Claimed.claimId).nodup_iff.mp (h.nodup.sublist (hsub.map Claimed.claimId))
  · rw [hg.enqueued]
    exact hseen

/-- The step of a pass keeps the invariant if it works with its batch still. -/
theorem Inv.next (h : Inv s) {s' : State} (hg : Grows s s') (r' : Run) (hclaim : r'.point ≠ .claim)
    (hw : Working s' r') : Inv { s' with run := some r' } := by
  refine ⟨?_, ?_, ?_, ?_, ?_, ?_, hg.created, ?_⟩
  · intro m hm
    have hm : m ∈ s.enqueued := hg.enqueued ▸ hm
    rcases h.accounted m hm with hq | ⟨c, hc, hset⟩ | hd
    · exact .inl (hg.queue _ hq)
    · refine .inr (.inl ⟨c, ?_, ?_⟩)
      · show _ ∈ s'.processing
        rwa [hg.processing]
      · show _ ∉ s'.settled
        rwa [hg.settled]
    · exact .inr (.inr (hg.disposed m hd))
  · show ∀ m ∈ s'.enqueued, ∀ m' ∈ s'.enqueued, m.id = m'.id → m = m'
    rw [hg.enqueued]
    exact h.distinct
  · intro m hm
    show m ∈ s'.enqueued
    rw [hg.enqueued]
    rcases hg.queued m hm with hm | hm
    · exact h.queue m hm
    · exact hm
  · show ∀ c m, ⟨c, .candidate m⟩ ∈ s'.processing → m ∈ s'.enqueued
    rw [hg.processing, hg.enqueued]
    exact h.processing
  · show (∀ e ∈ s'.processing, e.claimId < s'.nextClaim) ∧ ∀ c ∈ s'.settled, c < s'.nextClaim
    rw [hg.processing, hg.settled, hg.nextClaim]
    exact h.fresh
  · show (s'.processing.map Claimed.claimId).Nodup
    rw [hg.processing]
    exact h.unique
  · rintro _ ⟨⟩
    refine RunInv.of_working hclaim ?_
    exact ⟨hw.entries, hw.settled, hw.held, hw.nodup, hw.seen, hw.here⟩

/-- A pass that ends leaves every candidate where it is. -/
theorem Inv.endRun (h : Inv s) : Inv s.endRun :=
  ⟨h.accounted, h.distinct, h.queue, h.processing, h.fresh, h.unique, h.created,
    fun _ hr => by cases hr⟩

/-! ## The claim -/

theorem candidate_mem_dedupeReappraise {seen : List MemoryId} {items : List Item} {m : Candidate} :
    .candidate m ∈ dedupeReappraise seen items ↔ .candidate m ∈ items := by
  induction items generalizing seen with
  | nil => rfl
  | cons i items ih =>
    cases i with
    | candidate m' => simp [dedupeReappraise, ih]
    | reappraise id =>
      rw [dedupeReappraise]
      split_ifs
      · simp [ih]
      · simp [ih]

/-- A claim takes something where there is something to take. -/
theorem dedupeReappraise_eq_nil {items : List Item} (h : dedupeReappraise [] items = []) :
    items = [] := by
  cases items with
  | nil => rfl
  | cons i items => cases i <;> simp [dedupeReappraise] at h

theorem map_claimId_stamp (n : ℕ) (items : List Item) :
    (stamp n items).map Claimed.claimId = List.range' n items.length := by
  induction items generalizing n with
  | nil => rfl
  | cons i items ih => rw [stamp, List.map_cons, ih, List.length_cons, List.range'_succ]

theorem map_payload_stamp (n : ℕ) (items : List Item) :
    (stamp n items).map Claimed.payload = items := by
  induction items generalizing n with
  | nil => rfl
  | cons i items ih => rw [stamp, List.map_cons, ih]

/-- A stamped entry has a fresh id. -/
theorem claimId_of_mem_stamp {n : ℕ} {items : List Item} {e : Claimed Item} (he : e ∈ stamp n items) :
    n ≤ e.claimId ∧ e.claimId < n + (stamp n items).length := by
  have hid := List.mem_map_of_mem (f := Claimed.claimId) he
  have hlen : (stamp n items).length = items.length := by
    rw [← List.length_map (f := Claimed.payload), map_payload_stamp]
  rw [map_claimId_stamp, List.mem_range'_1] at hid
  rwa [hlen]

/-- The entries are split into re-appraise items and candidates. -/
theorem perm_split (l : List (Claimed Item)) :
    ((l.filterMap Claimed.reappraisal?).map Claimed.request ++
      (l.filterMap Claimed.candidate?).map Claimed.entry).Perm l := by
  induction l with
  | nil => exact .nil
  | cons e l ih =>
    obtain ⟨c, i⟩ := e
    cases i with
    | candidate m => exact List.perm_middle.trans (ih.cons _)
    | reappraise id => exact ih.cons _

/-- A claim takes every candidate that is not settled. -/
theorem candidate_mem_claimable {m : Candidate} : .candidate m ∈ s.claimable ↔
    (∃ c, ⟨c, .candidate m⟩ ∈ s.processing ∧ c ∉ s.settled) ∨ .candidate m ∈ s.queue := by
  unfold State.claimable
  rw [candidate_mem_dedupeReappraise, List.mem_append]
  refine or_congr_left ⟨fun h => ?_, fun ⟨c, hc, hset⟩ => ?_⟩
  · obtain ⟨e, he, hm⟩ := List.mem_map.mp h
    obtain ⟨hmem, hset⟩ := List.mem_filter.mp he
    exact ⟨e.claimId, by rwa [← hm], by simpa using hset⟩
  · exact List.mem_map.mpr ⟨_, List.mem_filter.mpr ⟨hc, by simpa using hset⟩, rfl⟩

/-- The claim writes every candidate that is not settled to the processing file, under a fresh id.
-/
theorem Inv.claim (h : Inv s) (hr : s.run = some r) (hp : r.point = .claim) : Inv (s.claim r) := by
  have hstart := h.run r hr
  unfold RunInv at hstart
  rw [if_pos hp] at hstart
  obtain ⟨hsettled, hreappraisals, hunparsed, hcandidates, hsurvivors, hseen⟩ := hstart
  unfold State.claim
  dsimp only
  have hmem : ∀ m, .candidate m ∈ s.claimable →
      ∃ c, ⟨c, .candidate m⟩ ∈ stamp s.nextClaim s.claimable ∧ c ∉ s.settled := by
    intro m hm
    rw [← map_payload_stamp s.nextClaim s.claimable] at hm
    obtain ⟨e, he, hpay⟩ := List.mem_map.mp hm
    refine ⟨e.claimId, by rwa [← hpay], fun hset => ?_⟩
    exact absurd (h.fresh.2 _ hset) (Nat.not_lt.mpr (claimId_of_mem_stamp he).1)
  split_ifs with hempty
  · -- Nothing is left: every entry of an earlier claim is settled.
    refine h.next h.grows { r with entries := [], point := .loop .close } (by simp) ?_
    have hnil : s.claimable = [] := by
      rw [← map_payload_stamp s.nextClaim s.claimable, hempty]
      rfl
    have hleft : (s.processing.filter fun e => e.claimId ∉ s.settled) = [] := by
      have := dedupeReappraise_eq_nil hnil
      exact List.map_eq_nil_iff.mp (List.append_eq_nil_iff.mp this).1
    have hlive : Run.live { r with entries := [], point := .loop .close } = [] := by
      simp [Run.live, Run.pending, Point.current?, hreappraisals, hunparsed, hcandidates, hsurvivors]
    refine ⟨fun e he => .inr ?_, ?_, ?_, ?_, ?_, trivial⟩
    · by_contra hset
      have : e ∈ s.processing.filter fun e => e.claimId ∉ s.settled :=
        List.mem_filter.mpr ⟨he, by simpa using hset⟩
      rw [hleft] at this
      cases this
    · simp [hsettled]
    · simp [hlive]
    · simp [hlive]
    · rintro ⟨⟩
  · have hlive : (Run.live { r with
        entries := stamp s.nextClaim s.claimable
        reappraisals := (stamp s.nextClaim s.claimable).filterMap Claimed.reappraisal?
        unparsed := (stamp s.nextClaim s.claimable).filterMap Claimed.candidate?
        point := .reset }).Perm (stamp s.nextClaim s.claimable) := by
      simpa [Run.live, Run.pending, Point.current?, hcandidates, hsurvivors] using
        perm_split (stamp s.nextClaim s.claimable)
    have hunsettled : ∀ e ∈ stamp s.nextClaim s.claimable, e.claimId ∉ s.settled := fun e he hset =>
      absurd (h.fresh.2 _ hset) (Nat.not_lt.mpr (claimId_of_mem_stamp he).1)
    have hnodup : ((stamp s.nextClaim s.claimable).map Claimed.claimId).Nodup := by
      rw [map_claimId_stamp]
      exact List.nodup_range'
    refine ⟨?_, h.distinct, h.queue, ?_, ?_, hnodup, h.created, ?_⟩
    · intro m hm
      rcases h.accounted m hm with hq | hproc | hd
      · exact .inl hq
      · exact .inr (.inl (hmem m (candidate_mem_claimable.mpr (.inl hproc))))
      · exact .inr (.inr hd)
    · intro c m hc
      have hpay : (.candidate m : Item) ∈ (stamp s.nextClaim s.claimable).map Claimed.payload :=
        List.mem_map.mpr ⟨_, hc, rfl⟩
      rw [map_payload_stamp] at hpay
      rcases candidate_mem_claimable.mp hpay with ⟨c', hc', -⟩ | hq
      · exact h.processing c' m hc'
      · exact h.queue m hq
    · refine ⟨fun e he => (claimId_of_mem_stamp he).2, fun c hc => ?_⟩
      exact (h.fresh.2 c hc).trans_le (Nat.le_add_right _ _)
    · rintro _ ⟨⟩
      refine RunInv.of_working (by simp) ?_
      refine ⟨fun e he => .inl he, ?_, ?_, ?_, ?_, ?_⟩
      · simp [hsettled]
      · exact fun e he => ⟨hlive.subset he, hunsettled e (hlive.subset he)⟩
      · exact (hlive.map Claimed.claimId).nodup_iff.mpr hnodup
      · simp [hseen]
      · refine ⟨hsettled, hunsettled, fun m hm => ?_⟩
        obtain ⟨c, hc, -⟩ := hmem m (candidate_mem_claimable.mpr (.inr hm))
        exact ⟨c, hc⟩

/-! ## The steps of a pass -/

/-- The candidates of the loops are live. -/
theorem mem_live {e : Claimed Candidate} (he : e ∈ r.unparsed ++ r.candidates ++ r.survivors) :
    e.entry ∈ r.live :=
  List.mem_append_right _ (List.mem_append_right _ (List.mem_map_of_mem he))

/-- The entry that the pass is at is in the processing file. -/
theorem Working.current (h : Working s r) {e : Claimed Item} (he : r.point.current? = some e) :
    e ∈ s.processing := by
  refine (h.held e ?_).1
  unfold Run.live
  rw [he]
  exact List.mem_append_left _ (List.mem_singleton_self e)

/-- The settled file is reset. -/
theorem Inv.reset (h : Inv s) (hw : Working s r) (hp : r.point = .reset) {p : Point}
    (hpoint : p = .empty ∨ p = .loop .reappraise) :
    Inv ({ s with settled := [] }.setPoint r p) := by
  have hhere := hw.here
  rw [Here, hp] at hhere
  obtain ⟨hsettled, hunsettled, hqueue⟩ := hhere
  refine ⟨?_, h.distinct, h.queue, h.processing, ?_, h.unique, h.created, ?_⟩
  · intro m hm
    rcases h.accounted m hm with hq | ⟨c, hc, -⟩ | hd
    · exact .inl hq
    · exact .inr (.inl ⟨c, hc, List.not_mem_nil⟩)
    · exact .inr (.inr hd)
  · exact ⟨h.fresh.1, fun _ hc => absurd hc List.not_mem_nil⟩
  · rintro _ ⟨⟩
    refine RunInv.of_working (by rcases hpoint with rfl | rfl <;> simp) ?_
    have hlive : ({ r with point := p } : Run).live = r.live := by
      rcases hpoint with rfl | rfl <;> simp [Run.live, Run.pending, Point.current?, hp]
    refine ⟨?_, ?_, ?_, ?_, ?_, ?_⟩
    · intro e he
      refine .inl ((hw.entries e he).resolve_right fun hset => ?_)
      exact hunsettled e he hset
    · intro c hc
      rw [show ({ r with point := p } : Run).settled = [] from hsettled] at hc
      cases hc
    · rw [hlive]
      exact fun e he => ⟨(hw.held e he).1, List.not_mem_nil⟩
    · rw [hlive]
      exact hw.nodup
    · exact fun _ => hw.seen (by rw [hp]; rfl)
    · rcases hpoint with rfl | rfl
      · exact ⟨rfl, hqueue⟩
      · trivial

/-- The queue is emptied: its candidates are claimed. -/
theorem Inv.empty (h : Inv s) (hw : Working s r) (hp : r.point = .empty) :
    Inv ({ s with queue := [] }.setPoint r (.loop .reappraise)) := by
  have hhere := hw.here
  rw [Here, hp] at hhere
  obtain ⟨hsettled, hqueue⟩ := hhere
  refine ⟨?_, h.distinct, by simp [State.setPoint], h.processing, h.fresh, h.unique, h.created, ?_⟩
  · intro m hm
    rcases h.accounted m hm with hq | hproc | hd
    · obtain ⟨c, hc⟩ := hqueue m hq
      refine .inr (.inl ⟨c, hc, ?_⟩)
      show c ∉ s.settled
      rw [hsettled]
      exact List.not_mem_nil
    · exact .inr (.inl hproc)
    · exact .inr (.inr hd)
  · rintro _ ⟨⟩
    refine RunInv.of_working (by simp) ?_
    have hlive : ({ r with point := .loop .reappraise } : Run).live = r.live := by
      simp [Run.live, Run.pending, Point.current?, hp]
    refine ⟨hw.entries, hw.settled, ?_, ?_, ?_, trivial⟩
    · rw [hlive]
      exact hw.held
    · rw [hlive]
      exact hw.nodup
    · exact fun _ => hw.seen (by rw [hp]; rfl)

/-- An entry is recorded as settled: its candidate is accounted for without it. -/
theorem Inv.settle (h : Inv s) (hw : Working s r) {e : Claimed Item} {next : Loop}
    (hp : r.point = .settle e next) :
    Inv ({ s with settled := e.claimId :: s.settled }.setPoint
      { r with settled := e.claimId :: r.settled } (.loop next)) := by
  have hhere := hw.here
  rw [Here, hp] at hhere
  have he : e ∈ s.processing := hw.current (by rw [hp]; rfl)
  have hother : ∀ {c m}, c ≠ e.claimId → c ∉ s.settled → ⟨c, .candidate m⟩ ∈ s.processing →
      ∃ c, ⟨c, .candidate m⟩ ∈ s.processing ∧ c ∉ e.claimId :: s.settled := by
    intro c m hne hset hc
    exact ⟨c, hc, by simp [hne, hset]⟩
  refine ⟨?_, h.distinct, h.queue, h.processing, ⟨h.fresh.1, ?_⟩, h.unique, h.created, ?_⟩
  · intro m hm
    rcases h.accounted m hm with hq | ⟨c, hc, hset⟩ | hd
    · exact .inl hq
    · by_cases hne : c = e.claimId
      · -- The entry is that of the candidate itself.
        have heq : (⟨c, .candidate m⟩ : Claimed Item) = e :=
          List.inj_on_of_nodup_map h.unique hc he hne
        rcases hhere m (by rw [← heq]) with hq | ⟨c', hne', hc', hset'⟩ | hd
        · exact .inl hq
        · exact .inr (.inl (hother hne' hset' hc'))
        · exact .inr (.inr hd)
      · exact .inr (.inl (hother hne hset hc))
    · exact .inr (.inr hd)
  · intro c hc
    rcases List.mem_cons.mp hc with rfl | hc
    · exact h.fresh.1 e he
    · exact h.fresh.2 c hc
  · rintro _ ⟨⟩
    refine RunInv.of_working (by simp) ?_
    have hlive : r.live = e :: ({ r with
        settled := e.claimId :: r.settled, point := .loop next } : Run).live := by
      simp [Run.live, Run.pending, Point.current?, hp]
    have hnodup := hw.nodup
    rw [hlive, List.map_cons, List.nodup_cons] at hnodup
    obtain ⟨hfresh, hnodup⟩ := hnodup
    refine ⟨?_, ?_, ?_, hnodup, ?_, trivial⟩
    · exact fun e' he' => (hw.entries e' he').imp_right (List.mem_cons_of_mem _)
    · intro c hc
      rcases List.mem_cons.mp hc with rfl | hc
      · exact List.mem_cons_self
      · exact List.mem_cons_of_mem _ (hw.settled c hc)
    · intro e' he'
      obtain ⟨hproc, hset⟩ := hw.held e' (hlive ▸ List.mem_cons_of_mem _ he')
      refine ⟨hproc, fun hmem => ?_⟩
      rcases List.mem_cons.mp hmem with heq | hmem
      · exact hfresh (heq ▸ List.mem_map_of_mem he')
      · exact hset hmem
    · exact fun hearly => hw.seen (by rw [hp]; exact hearly)

/-- The processing file is deleted: all its entries are settled. -/
theorem Inv.close (h : Inv s) (hw : Working s r) (hp : r.point = .loop .close)
    (hall : r.entries.all (·.claimId ∈ r.settled) = true) :
    Inv ({ s with processing := [] }.setPoint r .closeSettled) := by
  have hsettled : ∀ e ∈ s.processing, e.claimId ∈ s.settled := by
    intro e he
    rcases hw.entries e he with he | hset
    · exact hw.settled _ (of_decide_eq_true (List.all_eq_true.mp hall e he))
    · exact hset
  refine ⟨?_, h.distinct, h.queue, by simp [State.setPoint], ⟨by simp [State.setPoint], h.fresh.2⟩,
    List.nodup_nil, h.created, ?_⟩
  · intro m hm
    rcases h.accounted m hm with hq | ⟨c, hc, hset⟩ | hd
    · exact .inl hq
    · exact absurd (hsettled _ hc) hset
    · exact .inr (.inr hd)
  · rintro _ ⟨⟩
    refine RunInv.of_working (by simp) ?_
    have hnil : r.live = [] := by
      refine List.eq_nil_iff_forall_not_mem.mpr fun e he => ?_
      obtain ⟨hproc, hset⟩ := hw.held e he
      exact hset (hsettled e hproc)
    have hlive : ({ r with point := .closeSettled } : Run).live = [] := by
      rw [← hnil]
      simp [Run.live, Run.pending, Point.current?, hp]
    refine ⟨?_, hw.settled, ?_, ?_, ?_, rfl⟩
    · rintro e ⟨⟩
    · rw [hlive]
      rintro e ⟨⟩
    · rw [hlive]
      exact List.nodup_nil
    · rintro ⟨⟩

/-- The settled file is deleted, after the processing file. -/
theorem Inv.closeSettled (h : Inv s) (hnil : s.processing = []) :
    Inv { s with settled := [] }.endRun := by
  refine ⟨?_, h.distinct, h.queue, h.processing, ⟨h.fresh.1, by simp [State.endRun]⟩, h.unique,
    h.created, fun _ hr => by cases hr⟩
  intro m hm
  rcases h.accounted m hm with hq | ⟨c, hc, -⟩ | hd
  · exact .inl hq
  · rw [hnil] at hc
    cases hc
  · exact .inr (.inr hd)

/-- A step that takes an entry out of a loop, or stays at one, keeps what is live in one place. -/
theorem Inv.goTo (h : Inv s) (hw : Working s r) {s' : State} (hg : Grows s s') (r' : Run)
    (hclaim : r'.point ≠ .claim) (hentries : r'.entries = r.entries)
    (hsettled : r'.settled = r.settled) (hlive : ∀ y, r'.live.count y ≤ r.live.count y)
    (hseen : r'.point.early = true → ∀ x ∈ r'.seen, ∃ m ∈ s.enqueued, m.id = x.2 ∧
      ((∃ e ∈ r'.survivors, e.payload = m) ∨ Disposed s' m))
    (hhere : Here s' r') : Inv { s' with run := some r' } := by
  refine h.next hg r' hclaim (hw.move hg hentries hsettled ?_ hseen hhere)
  exact List.subperm_ext_iff.mpr fun y _ => hlive y

/-- A step to a point at the same entry, or at none. -/
theorem Inv.toPoint (h : Inv s) (hw : Working s r) {s' : State} (hg : Grows s s') {p : Point}
    (hclaim : p ≠ .claim) (hcurrent : p.current? = r.point.current? ∨ p.current? = none)
    (hearly : p.early = true → r.point.early = true) (hhere : Here s' { r with point := p }) :
    Inv (s'.setPoint r p) := by
  refine h.goTo hw hg { r with point := p } hclaim rfl rfl (fun y => ?_) ?_ hhere
  · rcases hcurrent with hc | hc
    · simp [Run.live, Run.pending, hc]
    · simp [Run.live, Run.pending, hc]
  · intro he x hx
    obtain ⟨m, hm, hid, hkept⟩ := hw.seen (hearly he) x hx
    exact ⟨m, hm, hid, hkept.imp_right (hg.disposed m)⟩

/-- The entry of a candidate is that of no survivor. -/
theorem Working.ne_survivor (hw : Working s r) {e e' : Claimed Candidate}
    {rest : List (Claimed Candidate)} (hc : r.candidates = e :: rest) (he' : e' ∈ r.survivors) :
    e'.claimId ≠ e.claimId := by
  intro heq
  have hcount := List.nodup_iff_count_le_one.mp hw.nodup e.claimId
  have hpos : 0 < ((r.survivors.map Claimed.entry).map Claimed.claimId).count e.claimId := by
    refine List.count_pos_iff.mpr ?_
    rw [List.map_map]
    exact List.mem_map.mpr ⟨e', he', heq⟩
  simp only [Run.live, Run.pending, hc, List.map_append, List.map_cons, List.count_append,
    List.count_cons, Claimed.entry, beq_self_eq_true, if_true] at hcount hpos
  omega

variable {casefold : Text → Text} {cal : Text.Calendar}

/-- The first pass drops a candidate on purpose, keeps it among the survivors, or drops a copy of
one that survived. -/
theorem Inv.pass1 (h : Inv s) (hw : Working s r) (hp : r.point = .loop .pass1)
    {e : Claimed Candidate} {rest : List (Claimed Candidate)} (hc : r.candidates = e :: rest) :
    Inv (s.pass1 casefold { r with candidates := rest } e) := by
  have he : e.entry ∈ s.processing :=
    (hw.held e.entry (mem_live (by simp [hc]))).1
  have hem : e.payload ∈ s.enqueued := h.processing e.claimId e.payload he
  have hseen := hw.seen (by rw [hp]; rfl)
  have hdropped : ∀ why, Disposed (s.drop e.payload why) e.payload := fun why =>
    .inr (.inr (.inr ⟨why, List.mem_cons_self⟩))
  have hsettle : ∀ (r' : Run) (y : Claimed Item), r'.reappraisals = r.reappraisals →
      r'.unparsed = r.unparsed → r'.candidates = rest → r'.survivors = r.survivors →
        r'.point = .settle e.entry .pass1 → r'.live.count y ≤ r.live.count y := by
    intro r' y h1 h2 h3 h4 h5
    simp only [Run.live, Run.pending, h1, h2, h3, h4, h5, hc, hp, Point.current?, List.count_append,
      List.map_append, List.map_cons, List.count_cons, Option.toList, List.count_nil]
    omega
  -- A deliberate drop settles the entry.
  have hdrop : ∀ (why : Drop) (seen : List (Text × MemoryId)),
      (∀ x ∈ seen, x ∈ r.seen ∨ x.2 = e.payload.id) → Inv ((s.drop e.payload why).setPoint
        { r with candidates := rest, seen := seen } (.settle e.entry .pass1)) := by
    intro why seen hsub
    refine h.goTo hw (h.grows_drop e.payload _) { r with
      candidates := rest, seen := seen, point := .settle e.entry .pass1 } (by simp) rfl rfl
      (fun y => hsettle _ y rfl rfl rfl rfl rfl) ?_ ?_
    · intro _ x hx
      rcases hsub x hx with hx | hx
      · obtain ⟨m, hm, hid, hkept⟩ := hseen x hx
        exact ⟨m, hm, hid, hkept.imp_right ((h.grows_drop e.payload _).disposed m)⟩
      · exact ⟨e.payload, hem, hx.symm, .inr (hdropped _)⟩
    · rintro m ⟨⟩
      exact .inr (.inr (hdropped _))
  have hsurvive : ∀ x ∈ r.seen, ∃ m ∈ s.enqueued, m.id = x.2 ∧
      ((∃ e' ∈ r.survivors ++ [e], e'.payload = m) ∨ Disposed s m) := by
    intro x hx
    obtain ⟨m, hm, hid, hkept⟩ := hseen x hx
    refine ⟨m, hm, hid, hkept.imp_left fun ⟨e', he', hpay⟩ => ?_⟩
    exact ⟨e', List.mem_append_left _ he', hpay⟩
  unfold State.pass1
  dsimp only
  split_ifs with hrepeat hcopy hexact hfloor hnorm
  · refine h.goTo hw h.grows { r with candidates := rest, point := .settle e.entry .pass1 } (by simp)
      rfl rfl (fun y => hsettle _ y rfl rfl rfl rfl rfl) (fun _ => hseen) ?_
    rintro m ⟨⟩
    obtain ⟨m, hm, hid, hkept⟩ := hseen _ hcopy
    obtain rfl : m = e.payload := h.distinct m hm _ hem hid
    rcases hkept with ⟨e', he', hpay⟩ | hd
    · refine .inr (.inl ⟨e'.claimId, hw.ne_survivor hc he', ?_⟩)
      have hheld := hw.held e'.entry (mem_live (by simp [he']))
      rw [← hpay]
      exact hheld
    · exact .inr (.inr hd)
  · exact hdrop _ r.seen fun x hx => .inl hx
  · refine hdrop _ _ fun x hx => ?_
    rcases List.mem_cons.mp hx with rfl | hx
    · exact .inr rfl
    · exact .inl hx
  · exact hdrop _ r.seen fun x hx => .inl hx
  all_goals
    refine h.goTo hw h.grows _ (by simp) rfl rfl (fun y => ?_) ?_ trivial
    · simp only [Run.live, Run.pending, hc, hp, Point.current?, List.count_append, List.map_append,
        List.map_cons, List.map_nil, List.count_cons, Option.toList, List.count_nil]
      omega
  · intro _ x hx
    rcases List.mem_cons.mp hx with rfl | hx
    · have hlast : e ∈ r.survivors ++ [e] := List.mem_append_right _ (List.mem_singleton_self e)
      exact ⟨e.payload, hem, rfl, .inl ⟨e, hlast, rfl⟩⟩
    · exact hsurvive x hx
  · exact fun _ => hsurvive

/-- The next item of a loop keeps the invariant. -/
theorem Inv.advanceLoop (h : Inv s) (hw : Working s r) {l : Loop} (hp : r.point = .loop l)
    {answer : Answer} {s' : State} (hadv : s.advanceLoop casefold r answer l = some s') : Inv s' := by
  cases l with
  | reappraise =>
    simp only [State.advanceLoop] at hadv
    -- Whatever the answer, the request leaves the list, and is at hand or settled.
    have hnext : ∀ (e : Claimed MemoryId) (rest : List (Claimed MemoryId)),
        r.reappraisals = e :: rest → ∀ p : Point, p ≠ .claim →
          p.current? = some e.request ∨ p.current? = none →
            Here s { r with reappraisals := rest, point := p } →
              Inv (s.setPoint { r with reappraisals := rest } p) := by
      intro e rest hr p hclaim hcurrent hhere
      refine h.goTo hw h.grows { r with reappraisals := rest, point := p } hclaim rfl rfl
        (fun y => ?_) (fun _ => hw.seen (by rw [hp]; rfl)) hhere
      have hnone : r.point.current? = none := by rw [hp]; rfl
      rcases hcurrent with hcur | hcur <;>
        simp only [Run.live, Run.pending, hr, hnone, hcur, List.count_append, List.map_cons,
          List.count_cons, Option.toList, List.count_nil] <;> omega
    split at hadv
    · obtain rfl := Option.some.inj hadv
      exact h.toPoint hw h.grows (by simp) (.inr rfl) (by rw [hp]; simp [Point.early, Loop.early]) trivial
    · rename_i e rest hr
      have hrequest : Here s { r with
          reappraisals := rest, point := .settle e.request .reappraise } := by
        rintro m ⟨⟩
      split at hadv <;> cases hadv
      · exact hnext e rest hr _ (by simp) (.inl rfl) trivial
      · exact hnext e rest hr _ (by simp) (.inl rfl) hrequest
      · exact hnext e rest hr _ (by simp) (.inr rfl) trivial
      · exact hnext e rest hr _ (by simp) (.inl rfl) hrequest
      · exact hnext e rest hr _ (by simp) (.inl rfl) trivial
  | parse =>
    simp only [State.advanceLoop] at hadv
    split at hadv
    · obtain rfl := Option.some.inj hadv
      exact h.toPoint hw h.grows (by simp) (.inr rfl) (by rw [hp]; simp [Point.early, Loop.early]) trivial
    · rename_i e rest hr
      split_ifs at hadv <;> obtain rfl := Option.some.inj hadv
      · refine h.goTo hw h.grows { r with
          unparsed := rest, candidates := r.candidates ++ [e], point := .loop .parse } (by simp) rfl rfl
          (fun y => ?_) (fun _ => hw.seen (by rw [hp]; rfl)) trivial
        simp only [Run.live, Run.pending, hr, hp, Point.current?, List.count_append, List.map_append,
          List.map_cons, List.map_nil, List.count_cons, Option.toList, List.count_nil]
        omega
      · -- An entry that cannot be parsed is dropped for good before it is settled.
        refine h.goTo hw (h.grows_drop e.payload _) { r with
          unparsed := rest, point := .settle e.entry .parse } (by simp) rfl rfl (fun y => ?_) ?_ ?_
        · simp only [Run.live, Run.pending, hr, hp, Point.current?, List.count_append, List.map_append,
            List.map_cons, List.count_cons, Option.toList, List.count_nil]
          omega
        · intro _ x hx
          obtain ⟨m, hm, hid, hkept⟩ := hw.seen (by rw [hp]; rfl) x hx
          exact ⟨m, hm, hid, hkept.imp_right ((h.grows_drop e.payload _).disposed m)⟩
        · rintro m ⟨⟩
          exact .inr (.inr (.inr (.inr (.inr ⟨_, List.mem_cons_self⟩))))
  | pass1 =>
    simp only [State.advanceLoop] at hadv
    split at hadv
    · obtain rfl := Option.some.inj hadv
      exact h.toPoint hw h.grows (by simp) (.inr rfl) (by simp [Point.early, Loop.early]) trivial
    · rename_i e rest hr
      split at hadv <;> cases hadv
      · refine h.goTo hw h.grows { r with
          candidates := rest, point := .failed e.entry _ .pass1 } (by simp) rfl rfl (fun y => ?_)
          (fun _ => hw.seen (by rw [hp]; rfl)) trivial
        simp only [Run.live, Run.pending, hr, hp, Point.current?, List.count_append, List.map_append,
          List.map_cons, List.count_cons, Option.toList, List.count_nil]
        omega
      · exact h.pass1 hw hp hr
  | pass2 =>
    simp only [State.advanceLoop] at hadv
    split at hadv
    · obtain rfl := Option.some.inj hadv
      exact h.toPoint hw h.grows (by simp) (.inr rfl) (by simp [Point.early, Loop.early]) trivial
    · rename_i e rest hr
      -- The survivor leaves the list, and is at hand or settled.
      have hnext : ∀ p : Point, p ≠ .claim → p.early = false →
          p.current? = some e.entry ∨ p.current? = none →
            Here s { r with survivors := rest, point := p } →
              Inv (s.setPoint { r with survivors := rest } p) := by
        intro p hclaim hearly hcurrent hhere
        refine h.goTo hw h.grows { r with survivors := rest, point := p } hclaim rfl rfl
          (fun y => ?_) (fun he => ?_) hhere
        · have hnone : r.point.current? = none := by rw [hp]; rfl
          rcases hcurrent with hcur | hcur <;>
            simp only [Run.live, Run.pending, hr, hnone, hcur, List.count_append, List.map_append,
              List.map_cons, List.count_cons, Option.toList, List.count_nil] <;> omega
        · rw [hearly] at he
          cases he
      split at hadv <;> cases hadv
      · exact hnext _ (by simp) rfl (.inl rfl) trivial
      · exact hnext _ (by simp) rfl (.inr rfl) trivial
      · exact hnext _ (by simp) rfl (.inl rfl) trivial
  | close =>
    simp only [State.advanceLoop] at hadv
    split_ifs at hadv with hall
    · split at hadv <;> obtain rfl := Option.some.inj hadv
      · exact h.close hw hp hall
      · exact h.endRun
    · obtain rfl := Option.some.inj hadv
      exact h.endRun

/-- The first step of a dispatch. -/
theorem Inv.dispatch (h : Inv s) (hw : Working s r) {e : Claimed Candidate} {d : Decision}
    (hp : r.point = .dispatch e d) : Inv (s.dispatch casefold r e d) := by
  have hcurrent : r.point.current? = some e.entry := by rw [hp]; rfl
  have hstay : ∀ p : Point, p ≠ .claim → p.current? = some e.entry → p.early = false →
      Here s { r with point := p } → Inv (s.setPoint r p) := fun p hclaim hcur hearly hhere =>
    h.toPoint hw h.grows hclaim (.inl (hcur.trans hcurrent.symm)) (by simp [hearly]) hhere
  unfold State.dispatch
  split
  · refine h.toPoint hw (h.grows_drop e.payload _) (by simp) (.inl hcurrent.symm)
      (by simp [Point.early, Loop.early]) ?_
    rintro m ⟨⟩
    exact .inr (.inr (.inr (.inr (.inr ⟨_, List.mem_cons_self⟩))))
  · split
    · exact hstay _ (by simp) rfl rfl trivial
    · split_ifs
      · exact hstay _ (by simp) rfl rfl trivial
      · exact hstay _ (by simp) rfl rfl trivial
  · exact hstay _ (by simp) rfl rfl trivial

/-- A failed item is settled as saved, or goes to quarantine or to the queue. -/
theorem Inv.failed (h : Inv s) (hw : Working s r) {e : Claimed Item} {scope : Scope} {next : Loop}
    (hp : r.point = .failed e scope next) (probed : Bool) :
    Inv (s.failed casefold r probed e scope next) := by
  have hcurrent : r.point.current? = some e := by rw [hp]; rfl
  have hstay : ∀ p : Point, p ≠ .claim → p.current? = some e →
      (p.early = true → next.early = true) → Here s { r with point := p } →
        Inv (s.setPoint r p) := by
    intro p hclaim hcur hearly hhere
    refine h.toPoint hw h.grows hclaim (.inl (hcur.trans hcurrent.symm)) (fun he => ?_) hhere
    rw [hp]
    exact hearly he
  have hscope : Inv (s.setPoint r (if scope = .item then .quarantine e next else .requeue e)) := by
    split_ifs
    · exact hstay _ (by simp) rfl id trivial
    · exact hstay _ (by simp) rfl nofun trivial
  unfold State.failed
  dsimp only
  split
  · exact hscope
  · rename_i m hm
    split
    · rename_i row hrow
      split_ifs
      · refine hstay (.settle e next) (by simp) rfl id ?_
        intro m' hm'
        obtain rfl : m = m' := by
          rw [hm] at hm'
          exact Item.candidate.inj hm'
        exact .inr (.inr (.inr (.inl (by rw [hrow]; rfl))))
      · exact hstay _ (by simp) rfl id trivial
    · exact hscope

/-- A pass that is past the claim works with its batch. -/
theorem Inv.working (h : Inv s) (hr : s.run = some r) (hp : r.point ≠ .claim) : Working s r := by
  have hrun := h.run r hr
  unfold RunInv at hrun
  rwa [if_neg hp] at hrun

/-- The next operation of a pass keeps the invariant. -/
theorem Inv.advance (h : Inv s) (hr : s.run = some r) {answer : Answer} {s' : State}
    (hadv : s.advance casefold cal r answer = some s') : Inv s' := by
  have hworking := h.working hr
  unfold State.advance at hadv
  -- The same entry, in a later part of its work.
  have hstay : r.point ≠ .claim → ∀ (s' : State) (p : Point), Grows s s' → p ≠ .claim →
      p.current? = r.point.current? → (p.early = true → r.point.early = true) →
        Here s' { r with point := p } → Inv (s'.setPoint r p) :=
    fun hp _ _ hg hclaim hcur hearly hhere =>
      h.toPoint (hworking hp) hg hclaim (.inl hcur) hearly hhere
  cases hp : r.point with
  | claim =>
    rw [hp] at hadv
    cases answer <;> cases hadv
    · exact h.claim hr hp
    · exact h.endRun
  | reset =>
    have hw := hworking (by simp [hp])
    rw [hp] at hadv
    cases answer <;> cases hadv
    · refine h.reset hw hp ?_
      split_ifs
      · exact .inr rfl
      · exact .inl rfl
    · exact h.endRun
  | empty =>
    have hw := hworking (by simp [hp])
    rw [hp] at hadv
    cases answer <;> cases hadv
    · exact h.empty hw hp
    · exact h.endRun
  | loop l =>
    have hw := hworking (by simp [hp])
    rw [hp] at hadv
    exact h.advanceLoop hw hp hadv
  | reappraise e importance writeBack =>
    have hgo := hstay (by simp [hp])
    rw [hp] at hadv hgo
    cases answer <;> cases hadv
    · refine hgo _ _ (h.grows_updateRow _ _) ?_ ?_ ?_ ?_
      · split <;> simp
      · split <;> rfl
      · exact fun _ => rfl
      · split
        · trivial
        · rintro m ⟨⟩
    · exact hgo _ _ h.grows (by simp) rfl (fun _ => rfl) trivial
  | writeBack e now =>
    have hgo := hstay (by simp [hp])
    rw [hp] at hadv hgo
    have hrequest : ∀ s', Here s' { r with point := .settle e.request .reappraise } := by
      rintro s' m ⟨⟩
    cases answer <;> cases hadv
    · exact hgo _ _ (h.grows_updateRow _ _) (by simp) rfl (fun _ => rfl) (hrequest _)
    · exact hgo _ _ h.grows (by simp) rfl (fun _ => rfl) (hrequest _)
  | dispatch e d =>
    have hw := hworking (by simp [hp])
    have hgo := hstay (by simp [hp])
    rw [hp] at hadv hgo
    cases answer <;> cases hadv
    · exact h.dispatch hw hp
    · exact hgo _ _ h.grows (by simp) rfl (by rintro ⟨⟩) trivial
  | defer e =>
    have hw := hworking (by simp [hp])
    have hgo := hstay (by simp [hp])
    rw [hp] at hadv hgo
    cases answer <;> cases hadv
    · refine hgo _ (.settle e.entry .pass2) (h.grows_enqueue (hw.current (by rw [hp]; rfl))) (by simp)
        rfl (by rintro ⟨⟩) ?_
      rintro m ⟨⟩
      exact .inl (List.mem_append_right _ (List.mem_singleton_self _))
    · exact hgo _ _ h.grows (by simp) rfl (by rintro ⟨⟩) trivial
  | archive e target text =>
    have hgo := hstay (by simp [hp])
    rw [hp] at hadv hgo
    cases answer <;> cases hadv
    · exact hgo _ _ h.grows (by simp) rfl (by rintro ⟨⟩) trivial
    · exact hgo _ _ h.grows (by simp) rfl (by rintro ⟨⟩) trivial
  | update e target text =>
    have hgo := hstay (by simp [hp])
    rw [hp] at hadv hgo
    cases answer <;> try cases hadv
    · dsimp only at hadv
      split_ifs at hadv with hrow <;> cases hadv
      · refine hgo _ _ (h.grows_absorb e.payload.id target text) (by simp) rfl (by rintro ⟨⟩) ?_
        rintro m ⟨⟩
        refine .inr (.inr (.inr (.inr (.inl ⟨target, List.mem_cons_self, ?_⟩))))
        show ((updateRow s.rows target _).get? target).isSome = true
        rw [get?_updateRow, if_pos rfl, Option.isSome_map]
        exact hrow
      · exact hgo _ _ h.grows (by simp) rfl (by rintro ⟨⟩) trivial
    · exact hgo _ _ h.grows (by simp) rfl (by rintro ⟨⟩) trivial
  | create e =>
    have hgo := hstay (by simp [hp])
    rw [hp] at hadv hgo
    cases answer <;> try cases hadv
    · dsimp only at hadv
      split_ifs at hadv with hrow <;> cases hadv
      · exact hgo _ _ h.grows (by simp) rfl (by rintro ⟨⟩) trivial
      · refine hgo _ (.link e) (h.grows_create (by simpa using hrow) _) (by simp) rfl (by rintro ⟨⟩) ?_
        show ((s.rows.set e.payload.id _).get? e.payload.id).isSome = true
        rw [Dict.get?_set, if_pos rfl]
        rfl
    · exact hgo _ _ h.grows (by simp) rfl (by rintro ⟨⟩) trivial
  | link e =>
    have hw := hworking (by simp [hp])
    have hgo := hstay (by simp [hp])
    have hrow := hw.here
    rw [hp] at hadv hgo
    rw [Here, hp] at hrow
    cases answer <;> cases hadv
    · refine hgo _ _ h.grows (by simp) rfl (by rintro ⟨⟩) ?_
      rintro m ⟨⟩
      exact .inr (.inr (.inr (.inl hrow)))
    · exact hgo _ _ h.grows (by simp) rfl (by rintro ⟨⟩) trivial
  | failed e scope next =>
    have hw := hworking (by simp [hp])
    rw [hp] at hadv
    cases answer <;> cases hadv
    · exact h.failed hw hp true
    · exact h.failed hw hp false
  | quarantine e next =>
    have hw := hworking (by simp [hp])
    have hgo := hstay (by simp [hp])
    rw [hp] at hadv hgo
    cases answer <;> cases hadv
    · refine hgo _ (.settle e next) (h.grows_quarantine e.payload) (by simp) rfl id fun m hm => ?_
      refine .inr (.inr (.inl (List.mem_append_right _ ?_)))
      rw [hm]
      exact List.mem_singleton_self _
    · exact h.toPoint hw h.grows (by simp) (.inr rfl) (by rintro ⟨⟩) trivial
  | requeue e =>
    have hw := hworking (by simp [hp])
    have hgo := hstay (by simp [hp])
    rw [hp] at hadv hgo
    cases answer <;> cases hadv
    · refine hgo _ (.settle e .close) (h.grows_enqueue (hw.current (by rw [hp]; rfl))) (by simp) rfl
        (by rintro ⟨⟩) fun m hm => ?_
      refine .inl (List.mem_append_right _ ?_)
      rw [hm]
      exact List.mem_singleton_self _
    · exact h.toPoint hw h.grows (by simp) (.inr rfl) (by rintro ⟨⟩) trivial
  | settle e next =>
    have hw := hworking (by simp [hp])
    rw [hp] at hadv
    cases answer <;> cases hadv
    · exact h.settle hw hp
    · exact h.toPoint hw h.grows (by simp) (.inr rfl) (by rw [hp]; exact id) trivial
  | closeSettled =>
    have hw := hworking (by simp [hp])
    have hnil := hw.here
    rw [hp] at hadv
    rw [Here, hp] at hnil
    cases answer <;> cases hadv
    · exact h.closeSettled hnil
    · exact h.endRun

/-- Items are appended to the queue, whose lock no pass holds. -/
theorem Inv.append (h : Inv s) (hfree : s.run.any (·.point.locked) = false) {queue : List Item}
    {enqueued : List Candidate} (hqueue : ∀ i ∈ s.queue, i ∈ queue)
    (hknown : ∀ m, .candidate m ∈ queue → m ∈ enqueued) (henqueued : ∀ m ∈ s.enqueued, m ∈ enqueued)
    (hnew : ∀ m ∈ enqueued, m ∈ s.enqueued ∨ .candidate m ∈ queue)
    (hdistinct : ∀ m ∈ enqueued, ∀ m' ∈ enqueued, m.id = m'.id → m = m') :
    Inv { s with queue := queue, enqueued := enqueued } := by
  refine ⟨?_, hdistinct, hknown, ?_, h.fresh, h.unique, h.created, ?_⟩
  · intro m hm
    rcases hnew m hm with hm | hq
    · exact (h.accounted m hm).imp_left (hqueue _)
    · exact .inl hq
  · exact fun c m hc => henqueued m (h.processing c m hc)
  · intro r hr
    have hr : s.run = some r := hr
    have hrun := h.run r hr
    unfold RunInv at hrun ⊢
    split_ifs at hrun ⊢
    · exact hrun
    · have hlocked : r.point.locked = false := by simpa [hr] using hfree
      refine ⟨hrun.entries, hrun.settled, hrun.held, hrun.nodup, ?_, ?_⟩
      · intro hearly x hx
        obtain ⟨m, hm, hkept⟩ := hrun.seen hearly x hx
        exact ⟨m, henqueued m hm, hkept⟩
      · have hhere := hrun.here
        unfold Here at hhere ⊢
        -- Only under the lock does the pass know what is in the queue.
        cases hp : r.point with
        | reset | empty => simp [hp, Point.locked] at hlocked
        | settle e next =>
          rw [hp] at hhere
          exact fun m hm => (hhere m hm).imp_left (hqueue _)
        | _ =>
          rw [hp] at hhere
          exact hhere

/-- A process enqueues, or the gate starts or goes on with a pass, or stops. -/
theorem Inv.step (h : Inv s) {a : Act} {s' : State}
    (hstep : (machine casefold cal).step s a = some s') : Inv s' := by
  cases a with
  | enqueue m =>
    simp only [machine] at hstep
    split_ifs at hstep with hblocked
    obtain rfl := Option.some.inj hstep
    obtain ⟨hfree, hfresh, -⟩ := not_or.mp hblocked |>.imp_right not_or.mp
    -- A candidate's id is new when it is enqueued.
    have hne : ∀ m' ∈ s.enqueued, m'.id ≠ m.id := fun m' hm' hid =>
      hfresh (List.mem_map.mpr ⟨m', hm', hid⟩)
    refine h.append (eq_false_of_ne_true hfree) (fun i hi => List.mem_append_left _ hi) ?_
      (fun m' hm' => List.mem_cons_of_mem _ hm') ?_ ?_
    · intro m' hm'
      rcases List.mem_append.mp hm' with hm' | hm'
      · exact List.mem_cons_of_mem _ (h.queue m' hm')
      · rw [Item.candidate.inj (List.mem_singleton.mp hm')]
        exact List.mem_cons_self
    · intro m' hm'
      rcases List.mem_cons.mp hm' with rfl | hm'
      · exact .inr (List.mem_append_right _ (List.mem_singleton_self _))
      · exact .inl hm'
    · intro m1 h1 m2 h2 hid
      rcases List.mem_cons.mp h1 with heq1 | hold1
      · rcases List.mem_cons.mp h2 with heq2 | hold2
        · exact heq1.trans heq2.symm
        · exact absurd (heq1 ▸ hid).symm (hne m2 hold2)
      · rcases List.mem_cons.mp h2 with heq2 | hold2
        · exact absurd (heq2 ▸ hid) (hne m1 hold1)
        · exact h.distinct m1 hold1 m2 hold2 hid
  | enqueueReappraisals ids =>
    simp only [machine] at hstep
    split_ifs at hstep with hblocked
    obtain rfl := Option.some.inj hstep
    refine h.append (eq_false_of_ne_true hblocked) (fun i hi => List.mem_append_left _ hi) ?_
      (fun m' hm' => hm') (fun m' hm' => .inl hm') h.distinct
    intro m hm
    rcases List.mem_append.mp hm with hm | hm
    · exact h.queue m hm
    · -- A request is no candidate.
      obtain ⟨id, -, hid⟩ := List.mem_map.mp hm
      cases hid
  | start salienceFloor =>
    simp only [machine] at hstep
    split_ifs at hstep
    obtain rfl := Option.some.inj hstep
    refine ⟨h.accounted, h.distinct, h.queue, h.processing, h.fresh, h.unique, h.created, ?_⟩
    rintro _ ⟨⟩
    exact ⟨rfl, rfl, rfl, rfl, rfl, rfl⟩
  | run answer =>
    obtain ⟨r, hr, hadv⟩ := Option.bind_eq_some_iff.mp hstep
    exact h.advance hr hadv
  | crash =>
    obtain rfl := Option.some.inj hstep
    exact h.endRun

/-! ## The accounts of the gate -/

/-- Every candidate that was enqueued is in the queue, unsettled in the processing file, in
quarantine, a row, merged into a row, or dropped on purpose; and no id was inserted twice. -/
theorem candidates_accounted {s : State} (h : (machine casefold cal).Reachable s) :
    (∀ m ∈ s.enqueued, Accounted s m) ∧ s.created.Nodup := by
  have hinv : Inv s := by
    refine h.invariant ?_ fun _ _ _ hI _ hstep => hI.step hstep
    rintro s ⟨hqueue, hprocessing, hsettled, hrun, henqueued, hcreated⟩
    exact ⟨by simp [henqueued], by simp [henqueued], by simp [hqueue], by simp [hprocessing],
      by simp [hprocessing, hsettled], by simp [hprocessing], by simp [hcreated], by simp [hrun]⟩
  exact ⟨hinv.accounted, hinv.created.1⟩

/-- A candidate. -/
def move : Candidate :=
  ⟨1, "Sam moved to Lyon.".toList, "dream".toList, 5, 0, true, true⟩

/-- No files, and an empty table. -/
def nothing : State where
  queue := []
  processing := []
  settled := []
  quarantine := []
  rows := ∅
  nextClaim := 0
  run := none
  enqueued := []
  created := []
  absorbed := []
  dropped := []

theorem nothing_init : (machine id .oneDay).init nothing := ⟨rfl, rfl, rfl, rfl, rfl, rfl⟩

/-- A pass stops once it has claimed the candidate, and the next one promotes it. -/
theorem candidates_accounted_move : ∃ s : State, s.enqueued = [move] ∧ s.queue = [] ∧
    s.processing = [] ∧ Accounted s move ∧ s.created.Nodup := by
  obtain ⟨s, hs, hp⟩ := Machine.exists_reach_of_runWithin (M := machine id .oneDay)
    (D := fun _ _ => True) (fun _ _ h => h) nothing_init
    (.enqueue move :: .start none :: List.replicate 3 (.run .done) ++
      .crash :: .start none :: List.replicate 7 (.run .done) ++
      .run (.judged ⟨.new, none, none⟩) :: List.replicate 7 (.run .done))
    (fun s => s.enqueued = [move] ∧ s.queue = [] ∧ s.processing = [] ∧ s.run.isNone)
    (by decide +kernel)
  obtain ⟨henqueued, hqueue, hprocessing, -⟩ : s.enqueued = [move] ∧ s.queue = [] ∧
    s.processing = [] ∧ s.run = none := by simpa using hp
  obtain ⟨haccounted, hnodup⟩ := candidates_accounted hs
  refine ⟨s, henqueued, hqueue, hprocessing, haccounted move ?_, hnodup⟩
  rw [henqueued]
  exact List.mem_singleton_self move

end Companion.Consolidation

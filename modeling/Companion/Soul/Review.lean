import Companion.Memory.Text
import Companion.Runs
import Mathlib

/-!
# The soul review

The review of the soul candidates (`brain/soul/review.py`) over `soul_candidates.jsonl`, the table
of the crystallizations (`brain/soul/store.py`) and `soul_audit.jsonl`, one commit at a time. What
`parse_decision` reads of the model's replies, what the slot and the chat allow and which writes
fail are in the labels. A stop is an exception that leaves the pass as well as the end of the
process.

A crystallization is made before the file of the candidates is written, at the end of the pass, and
its id is that of the candidate with other characters, and cut: one that is found under the id
counts as made. `Clean` says that neither matters: no planned id is taken, and a pass that has made
a crystallization is saved.

A candidate is its place in the file, which no pass changes. The candidate that a crystallization is
made of and the threshold of a decision are bookkeeping.
-/

namespace Companion.Soul

open Companion.Memory (Text Instant)
open Companion.Runs

/-- The statuses of a candidate. The review reads the first and writes the others but the last. -/
inductive Status
  | autoPending
  | accepted
  | rejected
  | expired
  | other (status : Text)
  deriving DecidableEq

/-- A record of `soul_candidates.jsonl`, as far as the review reads it. A missing text is empty. -/
structure Record where
  memoryId : Text
  id : Text
  text : Text
  whoOrWhat : Text
  status : Status
  deferCount : ℕ
  lastDeferredAt : Option Instant
  crystallizationId : Option Text
  deriving DecidableEq

/-- The decisions of `VALID_DECISIONS`. -/
inductive Verdict
  | accept
  | reject
  | defer
  deriving DecidableEq

/-- `Decision` -/
structure Decision where
  verdict : Verdict
  confidence : ℕ
  loveType : Text
  resonance : ℕ
  whyItMatters : Text
  deriving DecidableEq

/-- `Crystallization`, with the candidate that it is made of. -/
structure Crystallization where
  id : Text
  moment : Text
  loveType : Text
  whyItMatters : Text
  whoOrWhat : Text
  resonance : ℕ
  revoked : Bool
  source : Option ℕ
  deriving DecidableEq

/-- An entry of `soul_audit.jsonl`. -/
structure Entry where
  candidate : ℕ
  candidateText : Text
  decision : Decision
  crystallizationId : Option Text
  dryRun : Bool
  threshold : ℕ
  deriving DecidableEq

/-- `_MAX_DEFERS` -/
def maxDefers : ℕ := 3

/-! ## Ids -/

/-- The characters that stay in an id. -/
def isSafe (c : Char) : Bool := c.isAlphanum || c == '_' || c == '.' || c == ':' || c == '-'

/-- `re.sub` of the runs of other characters by a dash, from inside of such a run or not. -/
def dashed : Bool → Text → Text
  | _, [] => []
  | inside, c :: cs =>
    if isSafe c then c :: dashed false cs
    else if inside then dashed true cs
    else '-' :: dashed true cs

/-- `_crystallization_id_for_candidate`, with the id that `uuid4` gives. -/
def crystallizationIdFor (r : Record) (uuid : Text) : Text :=
  let sourceId := (if r.memoryId = [] then r.id else r.memoryId).strip
  if sourceId = [] then uuid else "candidate-".toList ++ (dashed false sourceId).take 120

/-! ## Passes -/

/-- `_within_defer_cooldown` -/
def withinDeferCooldown (r : Record) (now cooldown : Instant) : Bool :=
  0 < cooldown && r.lastDeferredAt.any (now - · < cooldown)

/-- The candidates that a pass may examine. -/
def pendingIndices (records : List Record) (now cooldown : Instant) : List ℕ :=
  (List.range records.length).filter fun i =>
    records[i]?.any fun r => r.status = .autoPending && !withinDeferCooldown r now cooldown

/-- A pass, with its copy of the records. -/
structure Pass where
  records : List Record
  /-- The candidates that are left to examine. -/
  todo : List ℕ
  threshold : ℕ
  dryRun : Bool
  /-- There are decisions in the report. -/
  decided : Bool
  /-- A crystallization has been made. -/
  created : Bool
  deriving DecidableEq

inductive Work
  | idle
  | examining (p : Pass)
  /-- The lookup and the insert of a crystallization. -/
  | creating (p : Pass) (i : ℕ) (d : Decision) (id : Text)
  deriving DecidableEq

structure State where
  records : List Record
  rows : List Crystallization
  audit : List Entry
  work : Work

inductive Act
  | queue (memoryId text : Text)
  | revoke (id : Text)
  /-- A crystallization that is made of no candidate. -/
  | insert (c : Crystallization)
  | begin (now cooldown : Instant) (maxDecisions threshold : ℕ) (dryRun : Bool)
  /-- A chat has started. -/
  | yield
  | expire
  /-- The call is refused, or it fails. -/
  | refuse
  | fail (audited : Bool)
  | decide (d : Decision) (now : Instant) (uuid : Text) (audited : Bool)
  | create
  /-- The rewrite of the file, at the end. -/
  | save (ok : Bool)
  | stop

/-- The rail: too low a confidence defers. -/
def Decision.railed (d : Decision) (threshold : ℕ) : Decision :=
  if d.confidence < threshold ∧ d.verdict ≠ .defer then { d with verdict := .defer } else d

namespace Record

/-- `_apply_reject` -/
def reject (r : Record) : Record := { r with status := .rejected }

/-- `_apply_defer` -/
def defer (now : Instant) (r : Record) : Record :=
  { r with deferCount := r.deferCount + 1, lastDeferredAt := some now }

def expire (r : Record) : Record := { r with status := .expired }

/-- The mark of `_apply_accept`. -/
def accept (id : Text) (r : Record) : Record :=
  { r with status := .accepted, crystallizationId := some id }

end Record

namespace State

variable (s : State)

/-- The candidate that is next, and the pass without it. -/
def next? (p : Pass) : Option (ℕ × Record × Pass) :=
  match p.todo with
  | [] => none
  | i :: rest => p.records[i]?.map fun r => (i, r, { p with todo := rest })

/-- The candidate that the model is called for, which has not been deferred too often. -/
def called? (p : Pass) : Option (ℕ × Record × Pass) :=
  (next? p).filter fun (_, r, _) => r.deferCount < maxDefers

/-- A decision, up to its entry in the audit and what follows of it. -/
def decide (p : Pass) (i : ℕ) (r : Record) (d : Decision) (now : Instant) (uuid : Text)
    (audited : Bool) : State :=
  let railed := d.railed p.threshold
  let planned := if railed.verdict = .accept then some (crystallizationIdFor r uuid) else none
  let entry : Entry := ⟨i, r.text.take 300, railed, planned, p.dryRun, p.threshold⟩
  let p := { p with decided := true }
  { s with
    audit := if audited then s.audit ++ [entry] else s.audit
    work :=
      if p.dryRun then .examining p
      else if !audited ∨ railed.verdict = .defer then
        .examining { p with records := p.records.modify i (Record.defer now) }
      else if railed.verdict = .reject then
        .examining { p with records := p.records.modify i Record.reject }
      else .creating p i railed (crystallizationIdFor r uuid) }

/-- `_apply_accept` -/
def create (p : Pass) (i : ℕ) (d : Decision) (id : Text) : State :=
  let marked := { p with records := p.records.modify i (Record.accept id) }
  if s.rows.any (·.id = id) then { s with work := .examining marked }
  else
    match p.records[i]? with
    | none => { s with work := .examining marked }
    | some r =>
      { s with
        rows := s.rows ++
          [⟨id, r.text, d.loveType, d.whyItMatters, r.whoOrWhat, d.resonance, false, some i⟩]
        work := .examining { marked with created := true } }

def step (s : State) : Act → Option State
  | .queue memoryId text =>
    match s.work with
    | .idle =>
      let record : Record := ⟨memoryId, [], text, [], .autoPending, 0, none, none⟩
      some { s with records := s.records ++ [record] }
    | _ => none
  | .revoke id =>
    some { s with rows := s.rows.map fun c => if c.id = id then { c with revoked := true } else c }
  | .insert c =>
    if c.source = none ∧ c.id ∉ s.rows.map Crystallization.id then some { s with rows := s.rows ++ [c] }
    else none
  | .begin now cooldown maxDecisions threshold dryRun =>
    match s.work with
    | .idle =>
      let pending := pendingIndices s.records now cooldown
      if pending = [] then some s
      else some { s with
        work := .examining ⟨s.records, pending.take maxDecisions, threshold, dryRun, false, false⟩ }
    | _ => none
  | .yield =>
    match s.work with
    | .examining p => some { s with work := .examining { p with todo := [] } }
    | _ => none
  | .expire =>
    match s.work with
    | .examining p =>
      ((next? p).filter fun (_, r, _) => maxDefers ≤ r.deferCount).map fun (i, _, p) =>
        { s with work := .examining { p with records := p.records.modify i Record.expire } }
    | _ => none
  | .refuse =>
    match s.work with
    | .examining p =>
      (called? p).map fun _ =>
        { s with work := if p.decided then .examining { p with todo := [] } else .idle }
    | _ => none
  | .fail audited =>
    match s.work with
    | .examining p =>
      (called? p).map fun (i, r, p) =>
        let entry : Entry :=
          ⟨i, r.text.take 300, ⟨.defer, 0, "craft".toList, 8, []⟩, none, p.dryRun, p.threshold⟩
        { s with
          audit := if audited then s.audit ++ [entry] else s.audit
          work := .examining { p with decided := true } }
    | _ => none
  | .decide d now uuid audited =>
    match s.work with
    | .examining p =>
      (called? p).map fun (i, r, p) => s.decide p i r d now uuid audited
    | _ => none
  | .create =>
    match s.work with
    | .creating p i d id => some (s.create p i d id)
    | _ => none
  | .save ok =>
    match s.work with
    | .examining p =>
      if p.todo = [] then
        some { s with records := if ok ∧ !p.dryRun then p.records else s.records, work := .idle }
      else none
    | _ => none
  | .stop => some { s with work := .idle }

end State

/-! ## The property -/

/-- The audit has the decision by which a candidate is accepted under an id. -/
def Accepted (audit : List Entry) (i : ℕ) (id : Text) : Prop :=
  ∃ e ∈ audit, e.candidate = i ∧ e.decision.verdict = .accept ∧ e.threshold ≤ e.decision.confidence ∧
    e.crystallizationId = some id ∧ e.dryRun = false

/-- The table has a crystallization that is made of the text of a candidate, by a decision of the
audit. -/
def Made (rows : List Crystallization) (audit : List Entry) (i : ℕ) (r : Record) : Prop :=
  ∃ c ∈ rows, c.source = some i ∧ c.moment = r.text ∧ Accepted audit i c.id

/-- The candidates agree with the table. -/
structure Agree (s : State) : Prop where
  accepted_iff : ∀ (i : ℕ) r, s.records[i]? = some r → (r.status = .accepted ↔ Made s.rows s.audit i r)
  inactive : ∀ (i : ℕ) r, s.records[i]? = some r → r.status = .rejected ∨ r.status = .expired →
    ∀ c ∈ s.rows, c.source = some i → c.revoked
  distinct : ∀ (i j : ℕ) r r', s.records[i]? = some r → s.records[j]? = some r' →
    r.status = .accepted → r'.status = .accepted → r.crystallizationId = r'.crystallizationId → i = j

/-- What a pass and a file go by: a crystallization is that of a candidate that is accepted, and
each candidate that is accepted has its own. -/
structure Consistent (records : List Record) (rows : List Crystallization) (audit : List Entry) :
    Prop where
  ids : (rows.map Crystallization.id).Nodup
  made : ∀ c ∈ rows, ∀ i, c.source = some i → ∃ r, records[i]? = some r ∧ r.status = .accepted ∧
    r.crystallizationId = some c.id ∧ c.moment = r.text ∧ Accepted audit i c.id
  source : ∀ (i : ℕ) r, records[i]? = some r → r.status = .accepted → ∃ c ∈ rows, c.source = some i

/-- No pass runs, and what the files and the table hold is consistent. -/
def State.Start (s : State) : Prop := s.work = .idle ∧ Consistent s.records s.rows s.audit

def machine : Machine State Act := ⟨State.Start, State.step⟩

/-- A planned id is not taken, and a pass that has made a crystallization is saved. -/
def clean (rows : List Crystallization) : Work → Act → Bool
  | .creating _ _ _ id, .create => !rows.any (·.id = id)
  | .examining p, .save ok => ok || !p.created
  | .examining p, .stop => !p.created
  | .creating p _ _ _, .stop => !p.created
  | _, _ => true

def Clean (s : State) (a : Act) : Prop := clean s.rows s.work a = true

instance (s : State) (a : Act) : Decidable (Clean s a) := inferInstanceAs (Decidable (_ = true))

/-! ## What keeps the table consistent -/

section Consistent

variable {records : List Record} {rows : List Crystallization} {audit : List Entry}

theorem Consistent.agree {s : State} (h : Consistent s.records s.rows s.audit) : Agree s := by
  have hown : ∀ (i : ℕ) r, s.records[i]? = some r → r.status = .accepted →
      ∃ c ∈ s.rows, c.source = some i ∧ r.crystallizationId = some c.id ∧ c.moment = r.text ∧
        Accepted s.audit i c.id := by
    intro i r hr hstatus
    obtain ⟨c, hc, hsource⟩ := h.source i r hr hstatus
    obtain ⟨r', hr', -, hid, hmoment, haudit⟩ := h.made c hc i hsource
    obtain rfl := Option.some.inj (hr.symm.trans hr')
    exact ⟨c, hc, hsource, hid, hmoment, haudit⟩
  refine ⟨fun i r hr => ⟨fun hstatus => ?_, fun hmade => ?_⟩, fun i r hr hend c hc hsource => ?_, ?_⟩
  · obtain ⟨c, hc, hsource, -, hmoment, haudit⟩ := hown i r hr hstatus
    exact ⟨c, hc, hsource, hmoment, haudit⟩
  · obtain ⟨c, hc, hsource, -⟩ := hmade
    obtain ⟨r', hr', hstatus, -⟩ := h.made c hc i hsource
    obtain rfl := Option.some.inj (hr.symm.trans hr')
    exact hstatus
  · obtain ⟨r', hr', hstatus, -⟩ := h.made c hc i hsource
    obtain rfl := Option.some.inj (hr.symm.trans hr')
    rw [hstatus] at hend
    rcases hend with heq | heq <;> cases heq
  · intro i j r r' hr hr' hstatus hstatus' heq
    obtain ⟨c, hc, hsource, hid, -⟩ := hown i r hr hstatus
    obtain ⟨c', hc', hsource', hid', -⟩ := hown j r' hr' hstatus'
    have hids : c.id = c'.id := Option.some.inj (hid.symm.trans (heq.trans hid'))
    obtain rfl := List.inj_on_of_nodup_map h.ids hc hc' hids
    exact Option.some.inj (hsource.symm.trans hsource')

theorem Accepted.mono {i : ℕ} {id : Text} (h : Accepted audit i id) (more : List Entry) :
    Accepted (audit ++ more) i id := by
  obtain ⟨e, he, hrest⟩ := h
  exact ⟨e, List.mem_append_left _ he, hrest⟩

theorem Consistent.log (h : Consistent records rows audit) (more : List Entry) :
    Consistent records rows (audit ++ more) := by
  refine ⟨h.ids, fun c hc i hsource => ?_, h.source⟩
  obtain ⟨r, hr, hstatus, hid, hmoment, haudit⟩ := h.made c hc i hsource
  exact ⟨r, hr, hstatus, hid, hmoment, haudit.mono more⟩

theorem Consistent.queue (h : Consistent records rows audit) {r : Record}
    (hr : r.status ≠ .accepted) : Consistent (records ++ [r]) rows audit := by
  refine ⟨h.ids, fun c hc i hsource => ?_, fun i r' hr' hstatus => ?_⟩
  · obtain ⟨r', hr', hrest⟩ := h.made c hc i hsource
    have hlt := (List.getElem?_eq_some_iff.mp hr').1
    exact ⟨r', (List.getElem?_append_left hlt).trans hr', hrest⟩
  · rcases Nat.lt_or_ge i records.length with hlt | hge
    · rw [List.getElem?_append_left hlt] at hr'
      exact h.source i r' hr' hstatus
    · rw [List.getElem?_append_right hge] at hr'
      have hmem := List.mem_of_getElem? hr'
      rw [List.mem_singleton.mp hmem] at hstatus
      exact absurd hstatus hr

theorem Consistent.revoke (h : Consistent records rows audit) (id : Text) :
    Consistent records
      (rows.map fun c => if c.id = id then { c with revoked := true } else c) audit := by
  have hkeep : ∀ c : Crystallization,
      (if c.id = id then { c with revoked := true } else c).id = c.id ∧
      (if c.id = id then { c with revoked := true } else c).source = c.source ∧
      (if c.id = id then { c with revoked := true } else c).moment = c.moment := by
    intro c
    split_ifs <;> exact ⟨rfl, rfl, rfl⟩
  refine ⟨?_, fun c hc i hsource => ?_, fun i r hr hstatus => ?_⟩
  · have hids : (rows.map fun c => if c.id = id then { c with revoked := true } else c).map
        Crystallization.id = rows.map Crystallization.id := by
      rw [List.map_map]
      exact List.map_congr_left fun c _ => (hkeep c).1
    exact hids ▸ h.ids
  · obtain ⟨c', hc', rfl⟩ := List.mem_map.mp hc
    obtain ⟨hid, hsrc, hmoment⟩ := hkeep c'
    rw [hid, hmoment]
    exact h.made c' hc' i (hsrc ▸ hsource)
  · obtain ⟨c, hc, hsource⟩ := h.source i r hr hstatus
    exact ⟨_, List.mem_map_of_mem hc, (hkeep c).2.1.trans hsource⟩

/-- A crystallization under a new id that is made of no candidate. -/
theorem Consistent.insert (h : Consistent records rows audit) {c : Crystallization}
    (hsource : c.source = none) (hid : c.id ∉ rows.map Crystallization.id) :
    Consistent records (rows ++ [c]) audit := by
  refine ⟨?_, fun c' hc' i hsource' => ?_, fun i r hr hstatus => ?_⟩
  · rw [List.map_append, List.map_singleton, ← List.concat_eq_append]
    exact List.Nodup.concat hid h.ids
  · rcases List.mem_append.mp hc' with hc' | hc'
    · exact h.made c' hc' i hsource'
    · rw [List.mem_singleton.mp hc', hsource] at hsource'
      cases hsource'
  · obtain ⟨c', hc', hsource'⟩ := h.source i r hr hstatus
    exact ⟨c', List.mem_append_left _ hc', hsource'⟩

/-- A candidate that is not accepted, before and after. -/
theorem Consistent.modify (h : Consistent records rows audit) {i : ℕ} {r : Record}
    (hr : records[i]? = some r) (hpending : r.status ≠ .accepted) {f : Record → Record}
    (hf : (f r).status ≠ .accepted) : Consistent (records.modify i f) rows audit := by
  refine ⟨h.ids, fun c hc j hsource => ?_, fun j r' hr' hstatus => ?_⟩
  · obtain ⟨r', hr', hstatus, hrest⟩ := h.made c hc j hsource
    have hne : i ≠ j := by
      rintro rfl
      obtain rfl := Option.some.inj (hr.symm.trans hr')
      exact hpending hstatus
    refine ⟨r', ?_, hstatus, hrest⟩
    rw [List.getElem?_modify_ne _ _ hne]
    exact hr'
  · by_cases hij : i = j
    · subst hij
      rw [List.getElem?_modify_eq, hr] at hr'
      obtain rfl := Option.some.inj hr'
      exact absurd hstatus hf
    · rw [List.getElem?_modify_ne _ _ hij] at hr'
      exact h.source j r' hr' hstatus

/-- A candidate that gets its crystallization. -/
theorem Consistent.accept (h : Consistent records rows audit) {i : ℕ} {r : Record}
    (hr : records[i]? = some r) (hpending : r.status ≠ .accepted) {c : Crystallization}
    (hid : c.id ∉ rows.map Crystallization.id) (hsource : c.source = some i)
    (hmoment : c.moment = r.text) (haudit : Accepted audit i c.id) :
    Consistent (records.modify i (Record.accept c.id)) (rows ++ [c]) audit := by
  have hmarked : (records.modify i (Record.accept c.id))[i]? = some (r.accept c.id) := by
    rw [List.getElem?_modify_eq, hr]
    rfl
  refine ⟨?_, fun c' hc' j hsource' => ?_, fun j r' hr' hstatus => ?_⟩
  · rw [List.map_append, List.map_singleton, ← List.concat_eq_append]
    exact List.Nodup.concat hid h.ids
  · rcases List.mem_append.mp hc' with hc' | hc'
    · obtain ⟨r', hr', hstatus, hrest⟩ := h.made c' hc' j hsource'
      have hne : i ≠ j := by
        rintro rfl
        obtain rfl := Option.some.inj (hr.symm.trans hr')
        exact hpending hstatus
      refine ⟨r', ?_, hstatus, hrest⟩
      rw [List.getElem?_modify_ne _ _ hne]
      exact hr'
    · obtain rfl := List.mem_singleton.mp hc'
      obtain rfl := Option.some.inj (hsource.symm.trans hsource')
      exact ⟨r.accept c'.id, hmarked, rfl, rfl, hmoment, haudit⟩
  · by_cases hij : i = j
    · exact ⟨c, List.mem_append_right _ (List.mem_singleton_self _), hij ▸ hsource⟩
    · rw [List.getElem?_modify_ne _ _ hij] at hr'
      obtain ⟨c', hc', hsource'⟩ := h.source j r' hr' hstatus
      exact ⟨c', List.mem_append_left _ hc', hsource'⟩

end Consistent

/-! ## Passes -/

/-- What holds while a pass runs: its copy is consistent, and so is the file until a crystallization
is made. -/
structure PassInv (file : List Record) (rows : List Crystallization) (audit : List Entry) (p : Pass) :
    Prop where
  copy : p.dryRun = false → Consistent p.records rows audit
  file : p.created = false → Consistent file rows audit
  dry : p.dryRun = true → p.created = false
  reported : p.created = true → p.decided = true
  nodup : p.todo.Nodup
  pending : ∀ i ∈ p.todo, ∃ r, p.records[i]? = some r ∧ r.status = .autoPending

/-- A candidate that is decided, before its crystallization. -/
structure Creating (audit : List Entry) (p : Pass) (i : ℕ) (id : Text) : Prop where
  wet : p.dryRun = false
  reported : p.decided = true
  pending : ∃ r, p.records[i]? = some r ∧ r.status = .autoPending
  left : i ∉ p.todo
  decided : Accepted audit i id

def Inv (s : State) : Prop :=
  match s.work with
  | .idle => Consistent s.records s.rows s.audit
  | .examining p => PassInv s.records s.rows s.audit p
  | .creating p i _ id => PassInv s.records s.rows s.audit p ∧ Creating s.audit p i id

section Pass

variable {file : List Record} {rows : List Crystallization} {audit : List Entry}
variable {p p' : Pass} {i : ℕ} {r : Record}

theorem mem_pendingIndices {records : List Record} {now cooldown : Instant} :
    i ∈ pendingIndices records now cooldown →
      ∃ r, records[i]? = some r ∧ r.status = .autoPending := by
  intro h
  obtain ⟨-, hany⟩ := List.mem_filter.mp h
  obtain ⟨r, hr, hpending⟩ := (Option.any_eq_true _ _).mp hany
  rw [Bool.and_eq_true] at hpending
  exact ⟨r, hr, of_decide_eq_true hpending.1⟩

/-- A pass starts with the candidates that are pending. -/
theorem Consistent.begin (h : Consistent file rows audit) (now cooldown : Instant)
    (maxDecisions threshold : ℕ) (dryRun : Bool) :
    PassInv file rows audit ⟨file, (pendingIndices file now cooldown).take maxDecisions, threshold,
      dryRun, false, false⟩ := by
  refine ⟨fun _ => h, fun _ => h, fun _ => rfl, nofun, ?_, fun i hi => ?_⟩
  · exact (List.nodup_range.sublist List.filter_sublist).sublist (List.take_sublist _ _)
  · exact mem_pendingIndices (List.mem_of_mem_take hi)

/-- The candidate that is next is pending, and not examined again. -/
theorem PassInv.next (h : PassInv file rows audit p) (hnext : State.next? p = some (i, r, p')) :
    PassInv file rows audit p' ∧ p'.records[i]? = some r ∧ r.status = .autoPending ∧ i ∉ p'.todo := by
  unfold State.next? at hnext
  cases htodo : p.todo with
  | nil =>
    rw [htodo] at hnext
    cases hnext
  | cons j todo =>
    rw [htodo] at hnext
    obtain ⟨r', hr', heq⟩ := Option.map_eq_some_iff.mp hnext
    obtain ⟨rfl, hrest⟩ := Prod.mk.inj heq
    obtain ⟨rfl, rfl⟩ := Prod.mk.inj hrest
    obtain ⟨hnot, hnodup⟩ := List.nodup_cons.mp (htodo ▸ h.nodup)
    obtain ⟨r, hr, hstatus⟩ := h.pending j (htodo ▸ List.mem_cons_self)
    obtain rfl := Option.some.inj (hr.symm.trans hr')
    have hpending : ∀ k ∈ todo, ∃ r, p.records[k]? = some r ∧ r.status = .autoPending :=
      fun k hk => h.pending k (htodo ▸ List.mem_cons_of_mem _ hk)
    exact ⟨⟨h.copy, h.file, h.dry, h.reported, hnodup, hpending⟩, hr, hstatus, hnot⟩

theorem PassInv.report (h : PassInv file rows audit p) :
    PassInv file rows audit { p with decided := true } :=
  ⟨h.copy, h.file, h.dry, fun _ => rfl, h.nodup, h.pending⟩

/-- No candidate is left, since a chat has started or a call is refused. -/
theorem PassInv.leave (h : PassInv file rows audit p) :
    PassInv file rows audit { p with todo := [] } :=
  ⟨h.copy, h.file, h.dry, h.reported, List.nodup_nil, nofun⟩

/-- The append of an entry, whether it succeeds or not. -/
theorem PassInv.log (h : PassInv file rows audit p) (entry : Entry) (audited : Bool) :
    PassInv file rows (if audited then audit ++ [entry] else audit) p := by
  cases audited with
  | true =>
    exact ⟨fun hdry => (h.copy hdry).log [entry], fun hcreated => (h.file hcreated).log [entry], h.dry,
      h.reported, h.nodup, h.pending⟩
  | false => exact h

/-- A change of the table that keeps what is consistent so. -/
theorem PassInv.table (h : PassInv file rows audit p) {rows' : List Crystallization}
    (hrows : ∀ records, Consistent records rows audit → Consistent records rows' audit) :
    PassInv file rows' audit p :=
  ⟨fun hdry => hrows _ (h.copy hdry), fun hcreated => hrows _ (h.file hcreated), h.dry, h.reported,
    h.nodup, h.pending⟩

/-- A candidate that is marked, but not accepted. -/
theorem PassInv.mark (h : PassInv file rows audit p) (hr : p.records[i]? = some r)
    (hpending : r.status = .autoPending) (hleft : i ∉ p.todo) {f : Record → Record}
    (hf : (f r).status ≠ .accepted) :
    PassInv file rows audit { p with records := p.records.modify i f } := by
  refine ⟨fun hdry => (h.copy hdry).modify hr (by simp [hpending]) hf, h.file, h.dry, h.reported,
    h.nodup, fun j hj => ?_⟩
  obtain ⟨r', hr', hstatus⟩ := h.pending j hj
  have hne : i ≠ j := fun heq => hleft (heq ▸ hj)
  exact ⟨r', (List.getElem?_modify_ne _ _ hne).trans hr', hstatus⟩

theorem Decision.confidence_railed (d : Decision) (threshold : ℕ) :
    (d.railed threshold).confidence = d.confidence := by
  unfold Decision.railed
  split_ifs <;> rfl

/-- What the rail lets through is sure enough. -/
theorem Decision.le_of_railed {d : Decision} {threshold : ℕ}
    (h : (d.railed threshold).verdict ≠ .defer) : threshold ≤ (d.railed threshold).confidence := by
  rw [Decision.confidence_railed]
  unfold Decision.railed at h
  split_ifs at h with hrail
  · exact absurd rfl h
  · by_contra hlow
    exact hrail ⟨by omega, h⟩

variable {s s' : State}

/-- A decision: an accept goes on where it is in the audit, and sure enough. -/
theorem PassInv.decide (h : PassInv s.records s.rows s.audit p) (hr : p.records[i]? = some r)
    (hpending : r.status = .autoPending) (hleft : i ∉ p.todo) (d : Decision) (now : Instant)
    (uuid : Text) (audited : Bool) : Inv (s.decide p i r d now uuid audited) := by
  let railed := d.railed p.threshold
  let planned := if railed.verdict = .accept then some (crystallizationIdFor r uuid) else none
  let entry : Entry := ⟨i, r.text.take 300, railed, planned, p.dryRun, p.threshold⟩
  have hlogged := h.report.log entry audited
  unfold State.decide
  dsimp only
  by_cases hdry : p.dryRun
  · rw [if_pos hdry]
    exact hlogged
  · rw [if_neg hdry]
    have hwet : p.dryRun = false := by simpa using hdry
    by_cases hdefer : !audited ∨ railed.verdict = .defer
    · rw [if_pos hdefer]
      have hdeferred : (r.defer now).status ≠ .accepted := by
        change r.status ≠ .accepted
        simp [hpending]
      exact hlogged.mark hr hpending hleft hdeferred
    · rw [if_neg hdefer]
      by_cases hreject : railed.verdict = .reject
      · rw [if_pos hreject]
        exact hlogged.mark hr hpending hleft nofun
      · rw [if_neg hreject]
        obtain ⟨haudited, hnot⟩ := not_or.mp hdefer
        have htrue : audited = true := by simpa using haudited
        have haccept : railed.verdict = .accept := by
          cases hv : railed.verdict with
          | accept => rfl
          | reject => exact absurd hv hreject
          | defer => exact absurd hv hnot
        have hmem : entry ∈ if audited then s.audit ++ [entry] else s.audit := by
          rw [if_pos htrue]
          exact List.mem_append_right _ (List.mem_singleton_self _)
        exact ⟨hlogged, hwet, rfl, ⟨r, hr, hpending⟩, hleft, entry, hmem, rfl, haccept,
          Decision.le_of_railed hnot, if_pos haccept, hwet⟩

/-- A crystallization under an id that is not taken. -/
theorem PassInv.create (h : PassInv s.records s.rows s.audit p) {id : Text}
    (hcreating : Creating s.audit p i id) (d : Decision) (hid : s.rows.any (·.id = id) = false) :
    Inv (s.create p i d id) := by
  obtain ⟨r, hr, hpending⟩ := hcreating.pending
  have hnew : id ∉ s.rows.map Crystallization.id := by
    intro hmem
    obtain ⟨c, hc, heq⟩ := List.mem_map.mp hmem
    have hany := List.any_eq_false.mp hid c hc
    exact hany (decide_eq_true heq)
  unfold State.create
  dsimp only
  rw [if_neg (by simp [hid]), hr]
  let c : Crystallization :=
    ⟨id, r.text, d.loveType, d.whyItMatters, r.whoOrWhat, d.resonance, false, some i⟩
  have haccept : Consistent (p.records.modify i (Record.accept c.id)) (s.rows ++ [c]) s.audit :=
    (h.copy hcreating.wet).accept hr (by simp [hpending]) hnew rfl rfl hcreating.decided
  refine ⟨fun _ => haccept, nofun, fun hdry => ?_, fun _ => hcreating.reported, h.nodup,
    fun j hj => ?_⟩
  · exact absurd (hcreating.wet.symm.trans hdry) nofun
  · obtain ⟨r', hr', hstatus⟩ := h.pending j hj
    have hne : i ≠ j := fun heq => hcreating.left (heq ▸ hj)
    exact ⟨r', (List.getElem?_modify_ne _ _ hne).trans hr', hstatus⟩

theorem Inv.table (h : Inv s) {rows : List Crystallization}
    (hrows : ∀ records, Consistent records s.rows s.audit → Consistent records rows s.audit) :
    Inv { s with rows := rows } := by
  unfold Inv at h ⊢
  dsimp only
  cases hwork : s.work with
  | idle =>
    rw [hwork] at h
    exact hrows _ h
  | examining p =>
    rw [hwork] at h
    exact h.table hrows
  | creating p i d id =>
    rw [hwork] at h
    exact ⟨h.1.table hrows, h.2⟩

theorem next?_of_called? (h : State.called? p = some (i, r, p')) : State.next? p = some (i, r, p') :=
  (Option.filter_eq_some_iff.mp h).1

/-- A step that meets the condition keeps the invariant. -/
theorem Inv.step (h : Inv s) {a : Act} (hclean : Clean s a) (hstep : s.step a = some s') : Inv s' := by
  have hinv := h
  unfold Inv at h
  unfold Clean at hclean
  cases a with
  | queue memoryId text =>
    rw [State.step] at hstep
    split at hstep
    case h_1 hwork =>
      obtain rfl := Option.some.inj hstep
      rw [hwork] at h
      unfold Inv
      rw [hwork]
      exact h.queue nofun
    case h_2 => cases hstep
  | revoke id =>
    obtain rfl := Option.some.inj hstep
    exact hinv.table fun _ hrecords => hrecords.revoke id
  | insert c =>
    rw [State.step] at hstep
    split_ifs at hstep with hnew
    obtain rfl := Option.some.inj hstep
    exact hinv.table fun _ hrecords => hrecords.insert hnew.1 hnew.2
  | begin now cooldown maxDecisions threshold dryRun =>
    rw [State.step] at hstep
    split at hstep
    case h_1 hwork =>
      rw [hwork] at h
      dsimp only at hstep
      split_ifs at hstep
      · obtain rfl := Option.some.inj hstep
        exact hinv
      · obtain rfl := Option.some.inj hstep
        have hbegin := h.begin now cooldown maxDecisions threshold dryRun
        exact hbegin
    case h_2 => cases hstep
  | yield =>
    rw [State.step] at hstep
    split at hstep
    case h_1 p hwork =>
      obtain rfl := Option.some.inj hstep
      rw [hwork] at h
      exact h.leave
    case h_2 => cases hstep
  | expire =>
    rw [State.step] at hstep
    split at hstep
    case h_1 p hwork =>
      rw [hwork] at h
      obtain ⟨⟨i, r, rest⟩, hfilter, rfl⟩ := Option.map_eq_some_iff.mp hstep
      obtain ⟨hrest, hr, hpending, hleft⟩ := h.next (Option.filter_eq_some_iff.mp hfilter).1
      have hexpired : r.expire.status ≠ .accepted := nofun
      exact hrest.mark hr hpending hleft hexpired
    case h_2 => cases hstep
  | refuse =>
    rw [State.step] at hstep
    split at hstep
    case h_1 p hwork =>
      rw [hwork] at h
      obtain ⟨-, -, rfl⟩ := Option.map_eq_some_iff.mp hstep
      by_cases hdecided : p.decided
      · rw [if_pos hdecided]
        exact h.leave
      · rw [if_neg hdecided]
        refine h.file ?_
        cases hcreated : p.created with
        | false => rfl
        | true => exact absurd (h.reported hcreated) hdecided
    case h_2 => cases hstep
  | fail audited =>
    rw [State.step] at hstep
    split at hstep
    case h_1 p hwork =>
      rw [hwork] at h
      obtain ⟨⟨i, r, rest⟩, hcalled, rfl⟩ := Option.map_eq_some_iff.mp hstep
      have hrest := (h.next (next?_of_called? hcalled)).1
      exact hrest.report.log _ audited
    case h_2 => cases hstep
  | decide d now uuid audited =>
    rw [State.step] at hstep
    split at hstep
    case h_1 p hwork =>
      rw [hwork] at h
      obtain ⟨⟨i, r, rest⟩, hcalled, rfl⟩ := Option.map_eq_some_iff.mp hstep
      obtain ⟨hrest, hr, hpending, hleft⟩ := h.next (next?_of_called? hcalled)
      exact hrest.decide hr hpending hleft d now uuid audited
    case h_2 => cases hstep
  | create =>
    rw [State.step] at hstep
    split at hstep
    case h_1 p i d id hwork =>
      rw [hwork] at h hclean
      obtain rfl := Option.some.inj hstep
      exact h.1.create h.2 d (by simpa [clean] using hclean)
    case h_2 => cases hstep
  | save ok =>
    rw [State.step] at hstep
    split at hstep
    case h_1 p hwork =>
      rw [hwork] at h hclean
      rw [Option.ite_none_right_eq_some] at hstep
      obtain rfl := Option.some.inj hstep.2
      change Consistent (if ok ∧ !p.dryRun then p.records else s.records) s.rows s.audit
      split_ifs with hsaved
      · exact h.copy (by simpa using hsaved.2)
      · cases hcreated : p.created with
        | false => exact h.file hcreated
        | true =>
          -- A pass that has made a crystallization is no dry run, and its save succeeds.
          have hok : ok = true := by simpa [clean, hcreated] using hclean
          cases hdry : p.dryRun with
          | true => exact absurd (hcreated.symm.trans (h.dry hdry)) nofun
          | false => exact absurd ⟨hok, by simp [hdry]⟩ hsaved
    case h_2 => cases hstep
  | stop =>
    obtain rfl := Option.some.inj hstep
    change Consistent s.records s.rows s.audit
    cases hwork : s.work with
    | idle =>
      rw [hwork] at h
      exact h
    | examining p =>
      rw [hwork] at h hclean
      exact h.file (by simpa [clean] using hclean)
    | creating p i d id =>
      rw [hwork] at h hclean
      exact h.1.file (by simpa [clean] using hclean)

theorem inv_of_reach (h : machine.Reach Clean s) : Inv s := by
  induction h with
  | init hstart =>
    unfold Inv
    rw [hstart.1]
    exact hstart.2
  | step _ hclean hstep ih => exact ih.step hclean hstep

end Pass

/-! ## The candidates and the table -/

/-- Between passes the candidates agree with the table, in every run in which no planned id is taken
and each pass that has made a crystallization is saved. -/
theorem candidates_agree : ∀ s, machine.Reach Clean s → s.work = .idle → Agree s := by
  intro s h hidle
  have hinv := inv_of_reach h
  rw [Inv, hidle] at hinv
  exact hinv.agree

/-- Candidates that are pending, by memory id, with their ids as texts. -/
def sampleStart (ids : List Text) : State where
  records := ids.map fun id => ⟨id, [], id, [], .autoPending, 0, none, none⟩
  rows := []
  audit := []
  work := .idle

theorem start_sampleStart (ids : List Text) : (sampleStart ids).Start := by
  refine ⟨rfl, List.nodup_nil, nofun, fun i r hr hstatus => ?_⟩
  obtain ⟨id, -, rfl⟩ := List.mem_map.mp (List.mem_of_getElem? hr)
  cases hstatus

def sampleAccept : Act := .decide ⟨.accept, 9, "craft".toList, 8, []⟩ 0 [] true

def sampleReject : Act := .decide ⟨.reject, 9, "craft".toList, 8, []⟩ 0 [] true

/-- One candidate is accepted and revoked, and another is rejected. -/
theorem candidates_agree_saved : ∃ s, machine.Reach Clean s ∧ s.work = .idle ∧
    s.records.map Record.status = [.accepted, .rejected] ∧ s.rows.length = 1 ∧ Agree s := by
  obtain ⟨s, hs, hp⟩ := Machine.exists_reach_of_runWithin (M := machine) (D := Clean) (fun _ _ h => h)
    (start_sampleStart [['a'], ['b']])
    [.begin 0 0 5 7 false, sampleAccept, .create, .revoke "candidate-a".toList, sampleReject,
      .save true]
    (fun s => s.work = .idle ∧ s.records.map Record.status = [.accepted, .rejected] ∧
      s.rows.length = 1)
    (by decide +kernel)
  obtain ⟨hidle, hstatus, hrows⟩ := of_decide_eq_true hp
  exact ⟨s, hs, hidle, hstatus, hrows, candidates_agree s hs hidle⟩

/-- A candidate that is rejected has an active crystallization. -/
theorem not_agree_of_active {s : State} {i j : ℕ}
    (h : s.records[i]?.any (·.status = .rejected) ∧
      s.rows[j]?.any fun c => c.source = some i ∧ ¬ c.revoked) : ¬ Agree s := by
  intro hagree
  obtain ⟨r, hr, hrejected⟩ := (Option.any_eq_true _ _).mp h.1
  obtain ⟨c, hc, hactive⟩ := (Option.any_eq_true _ _).mp h.2
  obtain ⟨hsource, hrevoked⟩ := of_decide_eq_true hactive
  exact hrevoked (hagree.inactive i r hr (.inl (of_decide_eq_true hrejected)) c
    (List.mem_of_getElem? hc) hsource)

/-- Two candidates are accepted with one id. -/
theorem not_agree_of_shared {s : State} {i j : ℕ} (hne : i ≠ j)
    (h : s.records[i]?.any fun r => s.records[j]?.any fun r' =>
      r.status = .accepted ∧ r'.status = .accepted ∧ r.crystallizationId = r'.crystallizationId) :
    ¬ Agree s := by
  intro hagree
  obtain ⟨r, hr, hany⟩ := (Option.any_eq_true _ _).mp h
  obtain ⟨r', hr', hshared⟩ := (Option.any_eq_true _ _).mp hany
  obtain ⟨hstatus, hstatus', hid⟩ := of_decide_eq_true hshared
  exact hne (hagree.distinct i j r r' hr hr' hstatus hstatus' hid)

/-- The process stops after a crystallization is made, and the next pass rejects the candidate. Two
candidates whose ids differ in characters that an id does not keep are accepted with one
crystallization. -/
theorem rejected_shared :
    (∃ s, machine.Reachable s ∧ s.work = .idle ∧ s.records.map Record.status = [.rejected] ∧
      s.rows.map Crystallization.revoked = [false] ∧ ¬ Agree s) ∧
    ∃ s, machine.Reachable s ∧ s.work = .idle ∧
      s.records.map Record.status = [.accepted, .accepted] ∧ s.rows.length = 1 ∧ ¬ Agree s := by
  constructor
  · obtain ⟨s, hs, hp⟩ := Machine.exists_reach_of_runWithin (M := machine) (D := fun _ _ => True)
      (fun _ _ h => h) (start_sampleStart [['a']])
      [.begin 0 0 5 7 false, sampleAccept, .create, .stop, .begin 0 0 5 7 false, sampleReject,
        .save true]
      (fun s => s.work = .idle ∧ s.records.map Record.status = [.rejected] ∧
        s.rows.map Crystallization.revoked = [false] ∧ s.records[0]?.any (·.status = .rejected) ∧
        s.rows[0]?.any fun c => c.source = some 0 ∧ ¬ c.revoked)
      (by decide +kernel)
    obtain ⟨hidle, hstatus, hrevoked, hactive⟩ := of_decide_eq_true hp
    exact ⟨s, hs, hidle, hstatus, hrevoked, not_agree_of_active hactive⟩
  · obtain ⟨s, hs, hp⟩ := Machine.exists_reach_of_runWithin (M := machine) (D := fun _ _ => True)
      (fun _ _ h => h) (start_sampleStart [['a', ' ', 'b'], ['a', '/', 'b']])
      [.begin 0 0 5 7 false, sampleAccept, .create, sampleAccept, .create, .save true]
      (fun s => s.work = .idle ∧ s.records.map Record.status = [.accepted, .accepted] ∧
        s.rows.length = 1 ∧ s.records[0]?.any fun r => s.records[1]?.any fun r' =>
          r.status = .accepted ∧ r'.status = .accepted ∧ r.crystallizationId = r'.crystallizationId)
      (by decide +kernel)
    obtain ⟨hidle, hstatus, hrows, hshared⟩ := of_decide_eq_true hp
    exact ⟨s, hs, hidle, hstatus, hrows, not_agree_of_shared (by decide) hshared⟩

end Companion.Soul

import Companion.Kindled.Counters
import Companion.Kindled.Drafts
import Companion.Kindled.Relationship

/-!
# The slots of the provider

The four places that reserve a slot of `provider_call_count` before `provider.complete`: the review
of the gate, the reflection on a relationship, the draft, and its revision. A slot that is reserved
for a call that does not complete is to be released, so that the count of the day is that of the
completed calls.

`Mark` is what a call has to do with the slots. The marks of a review or a reflection have one shape
(`Guarded`), and those of a draft or a revision another (`Unguarded`), which releases nothing.
`slots_counted` says for each when the count is right.
-/

namespace Companion.Kindled.Slots

open Companion.Memory (Text)
open Companion.Effects Companion.Kindled.Counters

/-- What a call has to do with the slots of the provider. -/
inductive Mark
  | reserve (granted : Bool)
  | release
  /-- The slot of the throttle is entered, and granted or not, or it raises. -/
  | enter (granted : Option Bool)
  /-- `provider.complete` returns, or raises. -/
  | complete (returned : Bool)
  /-- The slot of the throttle is left, or it raises. -/
  | leave (done : Bool)
  deriving DecidableEq

/-! ## The counter -/

/-- The row that `_ensure_counter_row` leaves where nobody comes between its read and its write. -/
def ensured (today : Text) (row : Option Counters.Row) : Counters.Row :=
  (ensureCounterRow (row.map (·.resetDate)) today row).getD ⟨today, 0, 0⟩

/-- The row of the counters before and after the calls of the marks, one after the other. The store
answers a reservation by the row. -/
def Served (caps : Counters.Caps) (today : Text) :
    Option Counters.Row → List Mark → Option Counters.Row → Prop
  | row, [], row' => row' = row
  | row, .reserve granted :: marks, row' =>
    granted = (update caps (ensured today row) .tryReserveProvider).2 ∧
      Served caps today (some (update caps (ensured today row) .tryReserveProvider).1) marks row'
  | row, .release :: marks, row' =>
    Served caps today (some (update caps (ensured today row) .releaseProviderSlot).1) marks row'
  | row, _ :: marks, row' => Served caps today row marks row'

/-- The `provider_call_count` of a day. -/
def providerCount (today : Text) (row : Option Counters.Row) : ℕ := (getCounters row today).2

/-- The calls that returned. -/
def completed (marks : List Mark) : ℕ := marks.count (.complete true)

/-- The net change of the count is the number of calls that returned. -/
def Counted (today : Text) (row row' : Option Counters.Row) (marks : List Mark) : Prop :=
  providerCount today row' = providerCount today row + completed marks

instance (today : Text) (row row' : Option Counters.Row) (marks : List Mark) :
    Decidable (Counted today row row' marks) :=
  inferInstanceAs (Decidable (_ = _))

variable {caps : Counters.Caps} {today : Text} {row row' : Option Counters.Row} {ms : List Mark}

theorem ensured_eq (today : Text) (row : Option Counters.Row) :
    (ensured today row).resetDate = today ∧
      (ensured today row).provider = providerCount today row := by
  cases row with
  | none => exact ⟨rfl, rfl⟩
  | some r =>
    by_cases h : r.resetDate = today
    · simp [ensured, ensureCounterRow, providerCount, getCounters, h]
    · simp [ensured, ensureCounterRow, providerCount, getCounters, h]

/-- The count of the day, from mark to mark. -/
def Counts (cap : ℕ) : ℕ → List Mark → ℕ → Prop
  | n, [], n' => n' = n
  | n, .reserve granted :: ms, n' =>
    granted = decide (n < cap) ∧ Counts cap (if n < cap then n + 1 else n) ms n'
  | n, .release :: ms, n' => Counts cap (n - 1) ms n'
  | n, _ :: ms, n' => Counts cap n ms n'

theorem providerCount_some {r : Counters.Row} (h : r.resetDate = today) :
    providerCount today (some r) = r.provider := by
  simp [providerCount, getCounters, h]

theorem providerCount_reserve :
    (update caps (ensured today row) .tryReserveProvider).2 =
        decide (providerCount today row < caps.provider) ∧
      providerCount today (some (update caps (ensured today row) .tryReserveProvider).1) =
        if providerCount today row < caps.provider then providerCount today row + 1
        else providerCount today row := by
  obtain ⟨hlabel, hcount⟩ := ensured_eq today row
  simp only [update, hcount]
  split_ifs with h
  · exact ⟨(decide_eq_true h).symm, providerCount_some hlabel⟩
  · exact ⟨(decide_eq_false h).symm, (providerCount_some hlabel).trans hcount⟩

theorem providerCount_release :
    providerCount today (some (update caps (ensured today row) .releaseProviderSlot).1) =
      providerCount today row - 1 := by
  obtain ⟨hlabel, hcount⟩ := ensured_eq today row
  rw [← hcount]
  exact providerCount_some hlabel

/-- The rows of the store have the counts of the day. -/
theorem Served.counts (h : Served caps today row ms row') :
    Counts caps.provider (providerCount today row) ms (providerCount today row') := by
  induction ms generalizing row with
  | nil =>
    obtain rfl : row' = row := h
    rfl
  | cons m ms ih =>
    cases m with
    | reserve granted =>
      obtain ⟨hgranted, hrest⟩ := h
      obtain ⟨hyes, hcount⟩ := @providerCount_reserve caps today row
      have hnext := ih hrest
      rw [hcount] at hnext
      exact ⟨hgranted.trans hyes, hnext⟩
    | release =>
      have hnext := ih h
      rw [providerCount_release] at hnext
      exact hnext
    | _ => exact ih h

/-! ## The shapes -/

/-- The marks of a call that releases its slot where it does not complete, after the reservation. -/
inductive Attempted : List Mark → Prop
  | unprepared : Attempted [.release]
  | unentered : Attempted [.enter none, .release]
  | denied : Attempted [.enter (some false), .release, .leave true]
  | deniedTwice : Attempted [.enter (some false), .release, .leave false, .release]
  | returned : Attempted [.enter (some true), .complete true, .leave true]
  | refunded : Attempted [.enter (some true), .complete true, .leave false, .release]
  | raised (done : Bool) :
    Attempted [.enter (some true), .complete false, .leave done, .release]

/-- The marks of a review or a reflection. -/
inductive Guarded : List Mark → Prop
  | nothing : Guarded []
  | refused : Guarded [.reserve false]
  | attempted {ms : List Mark} (h : Attempted ms) : Guarded (.reserve true :: ms)

/-- The marks of a draft or a revision. -/
inductive Unguarded : List Mark → Prop
  | nothing : Unguarded []
  | unentered : Unguarded [.enter none]
  | denied (done : Bool) : Unguarded [.enter (some false), .leave done]
  | refused (done : Bool) : Unguarded [.enter (some true), .reserve false, .leave done]
  | called (returned done : Bool) :
    Unguarded [.enter (some true), .reserve true, .complete returned, .leave done]

/-- Nothing goes wrong at the end of the slot: it is left without an exception, or the call in it
has raised, or it was denied while the count was zero. -/
def LeavesWell (n : ℕ) (ms : List Mark) : Prop :=
  .leave false ∈ ms → .complete true ∉ ms ∧ (.enter (some false) ∈ ms → n = 0)

/-- No call raises. -/
def NoneRaises (ms : List Mark) : Prop := .complete false ∉ ms

/-- After a reservation, the count is one up before the rest. -/
theorem counts_reserved {cap n n' : ℕ} (h : Counts cap n (.reserve true :: ms) n') :
    Counts cap (n + 1) ms n' := by
  obtain ⟨hfree, hrest⟩ := h
  have hlt : n < cap := of_decide_eq_true hfree.symm
  rwa [if_pos hlt] at hrest

theorem Attempted.counts_iff {cap n n' : ℕ} (h : Attempted ms)
    (hcounts : Counts cap (n + 1) ms n') :
    n' = n + completed ms ↔ LeavesWell n ms := by
  cases h with
  | unprepared =>
    have hn : n' = n + 1 - 1 := hcounts
    simp [completed, LeavesWell, hn]
  | unentered =>
    have hn : n' = n + 1 - 1 := hcounts
    simp [completed, LeavesWell, hn]
  | denied =>
    have hn : n' = n + 1 - 1 := hcounts
    simp [completed, LeavesWell, hn]
  | deniedTwice =>
    -- The second release takes the slot of another call, where there is one.
    have hn : n' = n + 1 - 1 - 1 := hcounts
    have hleaves :
        LeavesWell n [.enter (some false), .release, .leave false, .release] ↔ n = 0 := by
      simp [LeavesWell]
    rw [hleaves, hn]
    show n + 1 - 1 - 1 = n + 0 ↔ n = 0
    omega
  | returned =>
    have hn : n' = n + 1 := hcounts
    simp [completed, LeavesWell, hn]
  | refunded =>
    -- The slot of a call that has returned is released.
    have hn : n' = n + 1 - 1 := hcounts
    simp [completed, LeavesWell, hn]
  | raised done =>
    have hn : n' = n + 1 - 1 := hcounts
    simp [completed, LeavesWell, hn]

theorem Guarded.counts_iff {cap n n' : ℕ} (h : Guarded ms) (hcounts : Counts cap n ms n') :
    n' = n + completed ms ↔ LeavesWell n ms := by
  cases h with
  | nothing =>
    obtain rfl : n' = n := hcounts
    simp [completed, LeavesWell]
  | refused =>
    obtain ⟨hfull, hrest⟩ := hcounts
    have hge : ¬ n < cap := of_decide_eq_false hfull.symm
    have hn : n' = n := by rwa [if_neg hge] at hrest
    simp [completed, LeavesWell, hn]
  | @attempted ms h =>
    have hiff := h.counts_iff (counts_reserved hcounts)
    have hcompleted : completed (.reserve true :: ms) = completed ms :=
      List.count_cons_of_ne (show Mark.reserve true ≠ .complete true from nofun)
    have hleaves : LeavesWell n (.reserve true :: ms) ↔ LeavesWell n ms := by
      simp [LeavesWell]
    rw [hcompleted, hleaves]
    exact hiff

theorem Unguarded.counts_iff {cap n n' : ℕ} (h : Unguarded ms)
    (hcounts : Counts cap n ms n') : n' = n + completed ms ↔ NoneRaises ms := by
  cases h with
  | nothing =>
    obtain rfl : n' = n := hcounts
    simp [completed, NoneRaises]
  | unentered =>
    obtain rfl : n' = n := hcounts
    simp [completed, NoneRaises]
  | denied done =>
    obtain rfl : n' = n := hcounts
    simp [completed, NoneRaises]
  | refused done =>
    obtain ⟨hfull, hrest⟩ := hcounts
    have hge : ¬ n < cap := of_decide_eq_false hfull.symm
    have hn : n' = n := by rwa [if_neg hge] at hrest
    simp [completed, NoneRaises, hn]
  | called returned done =>
    have hn : n' = n + 1 := @counts_reserved [.complete returned, .leave done] cap n n' hcounts
    cases returned with
    | true => simp [completed, NoneRaises, hn]
    | false => simp [completed, NoneRaises, hn]

/-- The marks of a slot with a guarded call in it, which raises or not. -/
inductive Slot : Bool → List Mark → Prop
  | unentered : Slot true [.enter none]
  | denied (done : Bool) : Slot (!done) [.enter (some false), .release, .leave done]
  | called (returned done : Bool) :
    Slot (!(returned && done)) [.enter (some true), .complete returned, .leave done]

theorem Slot.attempted (h : Slot false ms) : Attempted ms := by
  generalize hraised : false = raised at h
  cases h with
  | unentered => cases hraised
  | denied done =>
    cases done with
    | true => exact .denied
    | false => cases hraised
  | called returned done =>
    cases returned with
    | true =>
      cases done with
      | true => exact .returned
      | false => cases hraised
    | false => cases hraised

/-- Where the slot raises, the handler releases. -/
theorem Slot.handled (h : Slot true ms) : Attempted (ms ++ [.release]) := by
  generalize hraised : true = raised at h
  cases h with
  | unentered => exact .unentered
  | denied done =>
    cases done with
    | true => cases hraised
    | false => exact .deniedTwice
  | called returned done =>
    cases returned with
    | false => exact .raised done
    | true =>
      cases done with
      | true => cases hraised
      | false => exact .refunded

/-! ## Programs that guard a call -/

section

variable {Q : Type} {R : Q → Type} {α β : Type}

/-- What the calls of a program are to the slots of a peer and a day. -/
structure Marking (R : Q → Type) where
  mark : Event R → Option Mark
  /-- The store does not raise where a slot is reserved or released. -/
  Answered : Event R → Prop

def Marking.marks (M : Marking R) (u : Trace R) : List Mark := u.filterMap M.mark

variable {M : Marking R} {u : Trace R}

@[simp]
theorem Marking.marks_nil : M.marks [] = [] :=
  rfl

@[simp]
theorem Marking.marks_append (u v : Trace R) : M.marks (u ++ v) = M.marks u ++ M.marks v :=
  List.filterMap_append

@[simp]
theorem Marking.marks_cons (e : Event R) (u : Trace R) :
    M.marks (e :: u) = (M.mark e).toList ++ M.marks u := by
  cases he : M.mark e with
  | none => simp [Marking.marks, he]
  | some m => simp [Marking.marks, he]

/-- A program without marks. -/
theorem Marking.marks_of_only {p : Prog R α} {o : Option α}
    (hp : Only (fun q => ∀ r, M.mark ⟨q, r⟩ = none) p) (h : Runs p u o) : M.marks u = [] :=
  List.filterMap_eq_nil_iff.mpr fun e he => hp.of_runs h e he e.reply

/-- The programs that enter and leave a slot, and that release one. -/
structure Guards (M : Marking R) (enter : Prog R Bool) (leave release : Prog R Unit) : Prop where
  enter : ∀ {u o}, Runs enter u o → M.marks u = [.enter o]
  leave : ∀ {u o}, Runs leave u o → M.marks u = [.leave o.isSome]
  release : ∀ {u o}, (∀ e ∈ u, M.Answered e) → Runs release u o →
    o = some () ∧ M.marks u = [.release]

variable {enter : Prog R Bool} {leave release : Prog R Unit}

/-- A slot is released, and what follows makes no call. -/
theorem Guards.released (hg : Guards M enter leave release) {a : α} {o : Option α}
    (hstore : ∀ e ∈ u, M.Answered e) (h : Runs (release >>= fun _ => pure a) u o) :
    o = some a ∧ M.marks u = [.release] := by
  rcases runs_bind.mp h with ⟨_, v, w, rfl, hrelease, rfl, rfl⟩ | ⟨-, hrelease⟩
  · rw [List.append_nil] at hstore ⊢
    exact ⟨rfl, (hg.release hstore hrelease).2⟩
  · cases (hg.release hstore hrelease).1

/-- A guarded call in a slot. -/
theorem Guards.slot (hg : Guards M enter leave release) {call : Prog R β} {f : β → α}
    (hcall : ∀ {u o}, Runs call u o → M.marks u = [.complete o.isSome])
    (hstore : ∀ e ∈ u, M.Answered e) {o : Option (Option α)}
    (h : Runs (do
      let granted ← enter
      Prog.ensuring
        (if granted then do
          let raw ← call
          pure (some (f raw))
        else do
          release
          pure none) leave) u o) : Slot o.isNone (M.marks u) := by
  rcases runs_bind.mp h with ⟨granted, v₁, w, rfl, henter, hrest⟩ | ⟨rfl, henter⟩
  · obtain ⟨y, v₂, v₃, rfl, hbody, done, hleave, rfl⟩ := runs_ensuring.mp hrest
    have hv : ∀ e ∈ v₂, M.Answered e := fun e he =>
      hstore e (List.mem_append_right _ (List.mem_append_left _ he))
    rw [Marking.marks_append, Marking.marks_append, hg.enter henter, hg.leave hleave]
    cases granted with
    | false =>
      obtain ⟨rfl, hmarks⟩ := hg.released hv hbody
      rw [hmarks]
      cases done with
      | none => exact .denied false
      | some done => exact .denied true
    | true =>
      rw [if_pos rfl] at hbody
      rcases runs_bind.mp hbody with ⟨raw, v, w, rfl, hraw, rfl, rfl⟩ | ⟨rfl, hraw⟩
      · rw [List.append_nil, hcall hraw]
        cases done with
        | none => exact .called true false
        | some done => exact .called true true
      · rw [hcall hraw]
        cases done with
        | none => exact .called false false
        | some done => exact .called false true
  · rw [hg.enter henter]
    exact .unentered

/-- A slot whose exceptions are handled by a release. -/
theorem Guards.attempted (hg : Guards M enter leave release) {r : Prog R (Option α)}
    {o : Option (Option α)}
    (hr : ∀ v o, (∀ e ∈ v, M.Answered e) → Runs r v o →
      Slot o.isNone (M.marks v) ∨ o = none ∧ M.marks v = [])
    (hstore : ∀ e ∈ u, M.Answered e)
    (h : Runs (r.tryExcept (release >>= fun _ => pure none)) u o) : Attempted (M.marks u) := by
  rcases runs_tryExcept.mp h with ⟨ho, hrun⟩ | ⟨v, w, rfl, hrun, hhandler⟩
  · rcases hr u o hstore hrun with hslot | ⟨rfl, -⟩
    · cases o with
      | none => exact absurd rfl ho
      | some found => exact hslot.attempted
    · exact absurd rfl ho
  · obtain ⟨hv, hw⟩ := List.forall_mem_append.mp hstore
    rw [Marking.marks_append, (hg.released hw hhandler).2]
    rcases hr v none hv hrun with hslot | ⟨-, hnil⟩
    · exact hslot.handled
    · rw [hnil]
      exact .unprepared

/-- A call that is made where the store grants a slot, and what follows has no marks. -/
theorem guarded_of_attempted {found : Bool} {r : Prog R α} {f : α → Prog R β} {a : β}
    {o : Option β} (hr : ∀ v o, (∀ e ∈ v, M.Answered e) → Runs r v o → Attempted (M.marks v))
    (hf : ∀ y, Only (fun q => ∀ r, M.mark ⟨q, r⟩ = none) (f y))
    (hstore : ∀ e ∈ u, M.Answered e) (h : Runs (if found then r >>= f else pure a) u o) :
    Guarded (.reserve found :: M.marks u) := by
  cases found with
  | false =>
    obtain ⟨rfl, -⟩ := h
    exact .refused
  | true =>
    rw [if_pos rfl] at h
    rcases runs_bind.mp h with ⟨y, v, w, rfl, hrun, hrest⟩ | ⟨-, hrun⟩
    · rw [Marking.marks_append, Marking.marks_of_only (hf y) hrest, List.append_nil]
      exact .attempted (hr v _ (List.forall_mem_append.mp hstore).1 hrun)
    · exact .attempted (hr u _ hstore hrun)

end

/-! ## The calls of the link -/

/-- The mark of a call of the link. -/
def linkMark (peer today : Text) : Event Call.Reply → Option Mark
  | ⟨.reserveProvider p d, some granted⟩ =>
    if p = peer ∧ d = today then some (.reserve granted) else none
  | ⟨.releaseProvider p d, some _⟩ => if p = peer ∧ d = today then some .release else none
  | ⟨.enterSlot, granted⟩ => some (.enter granted)
  | ⟨.complete _, reply⟩ => some (.complete reply.isSome)
  | ⟨.exitSlot, reply⟩ => some (.leave reply.isSome)
  | _ => none

/-- The request of another peer is not counted. -/
example (granted : Bool) (h : peer ≠ []) :
    linkMark peer today ⟨.reserveProvider [] today, some granted⟩ = none := by
  simp [linkMark, h.symm]

def linkMarking (peer today : Text) : Marking Call.Reply where
  mark := linkMark peer today
  Answered
    | ⟨.reserveProvider _ _, reply⟩ => reply ≠ none
    | ⟨.releaseProvider _ _, reply⟩ => reply ≠ none
    | _ => True

variable {peer : Text} {u : Trace Call.Reply} {α : Type} {o : Option α}

@[simp]
theorem mark_linkMarking (e : Event Call.Reply) :
    (linkMarking peer today).mark e = linkMark peer today e :=
  rfl

theorem guards_link : Guards (linkMarking peer today) (ask .enterSlot) (ask .exitSlot)
    (ask (.releaseProvider peer today)) where
  enter h := by
    obtain rfl := runs_ask.mp h
    rfl
  leave h := by
    obtain rfl := runs_ask.mp h
    rfl
  release {u o} hstore h := by
    obtain rfl := runs_ask.mp h
    cases o with
    | none => exact absurd rfl (hstore _ List.mem_cons_self)
    | some o => simp [linkMark]

theorem marks_complete {prompt : Prompt} {o : Option Text} (h : Runs (ask (.complete prompt)) u o) :
    (linkMarking peer today).marks u = [.complete o.isSome] := by
  obtain rfl := runs_ask.mp h
  rfl

theorem attempted_reflect {p : Payload} {stage summary reason : Text}
    {o : Option (Option (ℚ × Text))} (hstore : ∀ e ∈ u, (linkMarking peer today).Answered e)
    (h : Runs (reflect p peer stage summary reason today) u o) :
    Attempted ((linkMarking peer today).marks u) := by
  refine guards_link.attempted (fun v o hv hrun => ?_) hstore h
  rcases runs_ask_bind.mp hrun with ⟨b, w, rfl, hrest⟩ | ⟨rfl, rfl⟩
  · rcases runs_bind.mp hrest with ⟨hint, w₁, w₂, rfl, hhint, hslot⟩ | ⟨rfl, hhint⟩
    · obtain ⟨rfl, -⟩ := runs_hintText hhint
      have hw : ∀ e ∈ w₂, (linkMarking peer today).Answered e := fun e he =>
        hv e (List.mem_cons_of_mem _ he)
      exact .inl (guards_link.slot marks_complete hw hslot)
    · have hno : ∀ e ∈ w, False := (only_hintText (P := fun _ => False) _).of_runs hhint
      obtain rfl : w = [] := List.eq_nil_iff_forall_not_mem.mpr hno
      exact .inr ⟨rfl, rfl⟩
  · exact .inr ⟨rfl, rfl⟩

/-- A reservation that the store answers. -/
theorem reserve_answered {f : Bool → Link α} (hstore : ∀ e ∈ u, (linkMarking peer today).Answered e)
    (h : Runs (do
      let reserved : Bool ← ask (.reserveProvider peer today)
      f reserved) u o) :
    ∃ granted w, u = ⟨.reserveProvider peer today, some granted⟩ :: w ∧
      (∀ e ∈ w, (linkMarking peer today).Answered e) ∧
      (linkMarking peer today).marks u = .reserve granted :: (linkMarking peer today).marks w ∧
      Runs (f granted) w o := by
  rcases runs_ask_bind.mp h with ⟨granted, w, rfl, hrest⟩ | ⟨-, rfl⟩
  · exact ⟨granted, w, rfl, fun e he => hstore e (List.mem_cons_of_mem _ he),
      by simp [linkMark], hrest⟩
  · exact absurd rfl (hstore _ List.mem_cons_self)

theorem guarded_review {S : Setting} {p : Payload} {stage summary reason : Text}
    {o : Option Decision} (hstore : ∀ e ∈ u, (linkMarking peer today).Answered e)
    (h : Runs (S.review p peer stage summary reason today) u o) :
    Guarded ((linkMarking peer today).marks u) := by
  rw [Setting.review] at h
  cases hfilter : S.prefilter (payloadText p) with
  | some found =>
    simp only [hfilter, runs_pure] at h
    rw [h.1]
    exact .nothing
  | none =>
    simp only [hfilter] at h
    obtain ⟨granted, w, rfl, hw, hmarks, hrest⟩ := reserve_answered hstore h
    rw [hmarks]
    refine guarded_of_attempted (fun v o hv hrun => attempted_reflect hv hrun) (fun found => ?_)
      hw hrest
    cases found with
    | none => trivial
    | some found => trivial

/-- The slot of a draft or a revision. -/
theorem unguarded_of_withSlot {prompt : Prompt} {f : Text → α}
    (hstore : ∀ e ∈ u, (linkMarking peer today).Answered e) {o : Option (Option α)}
    (h : Runs (withSlot fun granted =>
      if granted then do
        let reserved : Bool ← ask (.reserveProvider peer today)
        if reserved then do
          let raw : Text ← ask (.complete prompt)
          pure (some (f raw))
        else pure none
      else pure none) u o) : Unguarded ((linkMarking peer today).marks u) := by
  rcases runs_withSlot.mp h with ⟨granted, v, y, done, rfl, hbody, -⟩ | ⟨-, rfl⟩
  · have hv : ∀ e ∈ v, (linkMarking peer today).Answered e := fun e he =>
      hstore e (List.mem_cons_of_mem _ (List.mem_append_left _ he))
    cases granted with
    | false =>
      obtain ⟨rfl, -⟩ := hbody
      exact .denied done.isSome
    | true =>
      rw [if_pos rfl] at hbody
      obtain ⟨granted, w, rfl, -, hmarks, hrest⟩ := reserve_answered hv hbody
      cases granted with
      | false =>
        obtain ⟨rfl, -⟩ := hrest
        simpa [linkMark] using Unguarded.refused done.isSome
      | true =>
        rw [if_pos rfl] at hrest
        rcases runs_ask_bind.mp hrest with ⟨raw, w, rfl, rfl, -⟩ | ⟨-, rfl⟩
        · simpa [linkMark] using Unguarded.called true done.isSome
        · simpa [linkMark] using Unguarded.called false done.isSome
  · exact .unentered

theorem unguarded_generateDraft {stage summary : Text} {o : Option (Option Text)}
    (hstore : ∀ e ∈ u, (linkMarking peer today).Answered e)
    (h : Runs (Setting.generateDraft peer stage summary today) u o) :
    Unguarded ((linkMarking peer today).marks u) := by
  rcases runs_ask_bind.mp h with ⟨row, w, rfl, hslot⟩ | ⟨-, rfl⟩
  · have hw : ∀ e ∈ w, (linkMarking peer today).Answered e := fun e he =>
      hstore e (List.mem_cons_of_mem _ he)
    simpa [linkMark] using unguarded_of_withSlot (f := id) hw hslot
  · exact .nothing

theorem unguarded_regenerate {x : Sending} {p : Payload} {constraints : Option (Json Text)}
    {o : Option (Option Payload)} (hstore : ∀ e ∈ u, (linkMarking x.peer x.today).Answered e)
    (h : Runs (x.regenerate p constraints) u o) :
    Unguarded ((linkMarking x.peer x.today).marks u) := by
  have hconstraints : ∀ {v : Trace Call.Reply} {o : Option Text},
      Runs (constraintsText constraints) v o → v = [] := fun hrun =>
    List.eq_nil_iff_forall_not_mem.mpr
      ((only_constraintsText (P := fun _ => False) _).of_runs hrun)
  rcases runs_bind.mp h with ⟨c, v, w, rfl, hc, hrest⟩ | ⟨-, hc⟩
  · obtain rfl := hconstraints hc
    rcases runs_tryExcept.mp hrest with ⟨-, hslot⟩ | ⟨v', w', rfl, hslot, hhandler⟩
    · exact unguarded_of_withSlot hstore hslot
    · -- The handler makes no call.
      obtain ⟨rfl, -⟩ := hhandler
      rw [List.append_nil] at hstore ⊢
      exact unguarded_of_withSlot hstore hslot
  · rw [hconstraints hc]
    exact .nothing

/-! ## The calls of a reflection -/

/-- The mark of a call of a reflection. -/
def reflectionMark (peer today : Text) : Event Relationship.Call.Reply → Option Mark
  | ⟨.reserveProvider p d, some granted⟩ =>
    if p = peer ∧ d = today then some (.reserve granted) else none
  | ⟨.releaseProvider p d, some _⟩ => if p = peer ∧ d = today then some .release else none
  | ⟨.enterSlot, granted⟩ => some (.enter granted)
  | ⟨.complete _ _, reply⟩ => some (.complete reply.isSome)
  | ⟨.exitSlot, reply⟩ => some (.leave reply.isSome)
  | _ => none

/-- The request of another peer is not counted. -/
example (granted : Bool) (h : peer ≠ []) :
    reflectionMark peer today ⟨.reserveProvider [] today, some granted⟩ = none := by
  simp [reflectionMark, h.symm]

def reflectionMarking (peer today : Text) : Marking Relationship.Call.Reply where
  mark := reflectionMark peer today
  Answered
    | ⟨.reserveProvider _ _, reply⟩ => reply ≠ none
    | ⟨.releaseProvider _ _, reply⟩ => reply ≠ none
    | _ => True

section

variable {L : Relationship.Library} {x : Relationship.Reflection}
  {u : Trace Relationship.Call.Reply}

@[simp]
theorem mark_reflectionMarking (e : Event Relationship.Call.Reply) :
    (reflectionMarking peer today).mark e = reflectionMark peer today e :=
  rfl

theorem guards_reflection :
    Guards (reflectionMarking peer today) (Relationship.ask .enterSlot) (Relationship.ask .exitSlot)
      (Relationship.ask (.releaseProvider peer today)) where
  enter h := by
    obtain rfl := runs_ask.mp h
    rfl
  leave h := by
    obtain rfl := runs_ask.mp h
    rfl
  release {u o} hstore h := by
    obtain rfl := runs_ask.mp h
    cases o with
    | none => exact absurd rfl (hstore _ List.mem_cons_self)
    | some o => simp [reflectionMark]

theorem attempted_attempt {stage : Text} {o : Option (Option Text)}
    (hstore : ∀ e ∈ u, (reflectionMarking x.peer x.today).Answered e)
    (h : Runs (x.attempt stage) u o) :
    Attempted ((reflectionMarking x.peer x.today).marks u) := by
  refine guards_reflection.attempted (fun v o hv hrun => .inl ?_) hstore h
  refine guards_reflection.slot (f := id) (fun hcall => ?_) hv hrun
  obtain rfl := runs_ask.mp hcall
  rfl

theorem guarded_reflection {o : Option Relationship.RelationshipState}
    (hstore : ∀ e ∈ u, (reflectionMarking x.peer x.today).Answered e)
    (h : Runs (L.runRelationshipReflection x) u o) :
    Guarded ((reflectionMarking x.peer x.today).marks u) := by
  rcases runs_ask_bind.mp h with ⟨found, w, rfl, hrest⟩ | ⟨-, rfl⟩
  · have hw : ∀ e ∈ w, (reflectionMarking x.peer x.today).Answered e := fun e he =>
      hstore e (List.mem_cons_of_mem _ he)
    have hrow : (reflectionMarking x.peer x.today).marks (⟨.row x.peer, some found⟩ :: w) =
        (reflectionMarking x.peer x.today).marks w :=
      rfl
    rw [hrow]
    dsimp only at hrest
    split_ifs at hrest with hday
    · rcases runs_ask_bind.mp hrest with ⟨granted, v, rfl, hcalled⟩ | ⟨-, rfl⟩
      · have hv : ∀ e ∈ v, (reflectionMarking x.peer x.today).Answered e := fun e he =>
          hw e (List.mem_cons_of_mem _ he)
        have hreserve : (reflectionMarking x.peer x.today).marks
            (⟨.reserveProvider x.peer x.today, some granted⟩ :: v) =
            .reserve granted :: (reflectionMarking x.peer x.today).marks v := by
          simp [reflectionMark]
        rw [hreserve]
        refine guarded_of_attempted (fun v o hv hrun => attempted_attempt hv hrun) (fun got => ?_)
          hv hcalled
        cases got with
        | none => trivial
        | some raw =>
          dsimp only
          split
          · trivial
          · exact Relationship.only_conclude (fun _ _ => rfl) (fun _ _ => rfl) (fun _ _ _ => rfl) ..
          · trivial
      · exact absurd rfl (hw _ List.mem_cons_self)
    · obtain ⟨rfl, -⟩ := hrest
      exact .nothing
  · exact .nothing

end

/-! ## The count of the day -/

/-- The places that reserve a slot. -/
inductive Site
  | review
  | reflection
  | draft
  | revision
  deriving DecidableEq

/-- The marks of an execution of a place for a peer and a day, whatever the throttle and the
provider do. -/
inductive Execution (peer today : Text) : Site → List Mark → Prop
  | review {S : Setting} {p : Payload} {stage summary reason : Text} {u : Trace Call.Reply}
      {o : Option Decision} (hstore : ∀ e ∈ u, (linkMarking peer today).Answered e)
      (h : Runs (S.review p peer stage summary reason today) u o) :
    Execution peer today .review ((linkMarking peer today).marks u)
  | reflection {L : Relationship.Library} {x : Relationship.Reflection}
      {u : Trace Relationship.Call.Reply} {o : Option Relationship.RelationshipState}
      (hpeer : x.peer = peer) (htoday : x.today = today)
      (hstore : ∀ e ∈ u, (reflectionMarking peer today).Answered e)
      (h : Runs (L.runRelationshipReflection x) u o) :
    Execution peer today .reflection ((reflectionMarking peer today).marks u)
  | draft {stage summary : Text} {u : Trace Call.Reply} {o : Option (Option Text)}
      (hstore : ∀ e ∈ u, (linkMarking peer today).Answered e)
      (h : Runs (Setting.generateDraft peer stage summary today) u o) :
    Execution peer today .draft ((linkMarking peer today).marks u)
  | revision {x : Sending} {p : Payload} {constraints : Option (Json Text)}
      {u : Trace Call.Reply} {o : Option (Option Payload)} (hpeer : x.peer = peer)
      (htoday : x.today = today) (hstore : ∀ e ∈ u, (linkMarking peer today).Answered e)
      (h : Runs (x.regenerate p constraints) u o) :
    Execution peer today .revision ((linkMarking peer today).marks u)

/-- The throttle and the provider do nothing that the place miscounts, where the count was `n`. -/
def Site.Regular : Site → ℕ → List Mark → Prop
  | review, n, marks => LeavesWell n marks
  | reflection, n, marks => LeavesWell n marks
  | draft, _, marks => NoneRaises marks
  | revision, _, marks => NoneRaises marks

theorem Guarded.completed_le (h : Guarded ms) : completed ms ≤ 1 := by
  cases h with
  | nothing => decide
  | refused => decide
  | attempted h =>
    cases h with
    | raised done => cases done <;> decide
    | _ => decide

theorem Unguarded.completed_le (h : Unguarded ms) : completed ms ≤ 1 := by
  cases h with
  | called returned done => cases returned <;> cases done <;> decide
  | denied done => cases done <;> decide
  | refused done => cases done <;> decide
  | _ => decide

/-- In every execution the net change of the count is the number of the calls that returned, which
is at most one, just in case nothing happens that the place miscounts: a draft or a revision keeps
the slot of a call that raises, and a review or a reflection releases a slot once more where the
slot of the throttle raises at its end. -/
theorem slots_counted (caps : Counters.Caps) (peer today : Text) (site : Site) (marks : List Mark)
    (h : Execution peer today site marks) (row row' : Option Counters.Row)
    (hserved : Served caps today row marks row') :
    completed marks ≤ 1 ∧
      (Counted today row row' marks ↔ site.Regular (providerCount today row) marks) := by
  have hcounts := hserved.counts
  cases h with
  | review hstore hrun =>
    have hshape := guarded_review hstore hrun
    exact ⟨hshape.completed_le, hshape.counts_iff hcounts⟩
  | reflection hpeer htoday hstore hrun =>
    subst hpeer htoday
    have hshape := guarded_reflection hstore hrun
    exact ⟨hshape.completed_le, hshape.counts_iff hcounts⟩
  | draft hstore hrun =>
    have hshape := unguarded_generateDraft hstore hrun
    exact ⟨hshape.completed_le, hshape.counts_iff hcounts⟩
  | revision hpeer htoday hstore hrun =>
    subst hpeer htoday
    have hshape := unguarded_regenerate hstore hrun
    exact ⟨hshape.completed_le, hshape.counts_iff hcounts⟩

/-- Slots are free, and the provider raises. -/
def failing : Env Call.Reply := fun t c =>
  match c with
  | .complete _ => none
  | c => unhindered t c

/-- The calls of a draft that is not made. -/
def failedDraft : Trace Call.Reply :=
  ((Setting.generateDraft "moss".toList "stranger".toList [] "2026-07-01".toList).run failing []).1

theorem execution_failedDraft :
    Execution "moss".toList "2026-07-01".toList .draft
      [.enter (some true), .reserve true, .complete false, .leave true] := by
  refine .draft (u := failedDraft) (fun e he => ?_) (runs_run ..)
  obtain ⟨t, ht⟩ := exists_reply_of_mem he
  obtain ⟨c, r⟩ := e
  obtain rfl : r = failing t c := ht
  cases c <;> first | trivial | exact nofun

theorem slots_counted_failed :
    let marks : List Mark := [.enter (some true), .reserve true, .complete false, .leave true]
    let row : Counters.Row := ⟨"2026-07-01".toList, 0, 1⟩
    completed marks ≤ 1 ∧
      (Counted "2026-07-01".toList none (some row) marks ↔
        Site.draft.Regular (providerCount "2026-07-01".toList none) marks) :=
  slots_counted ⟨20, 60⟩ _ _ _ _ execution_failedDraft _ _ ⟨rfl, rfl⟩

/-- A call that raises is counted. -/
theorem failed_draft_counted :
    let marks : List Mark := [.enter (some true), .reserve true, .complete false, .leave true]
    let row : Counters.Row := ⟨"2026-07-01".toList, 0, 1⟩
    Execution "moss".toList "2026-07-01".toList .draft marks ∧
      Served ⟨20, 60⟩ "2026-07-01".toList none marks (some row) ∧
      ¬ Counted "2026-07-01".toList none (some row) marks :=
  ⟨execution_failedDraft, ⟨rfl, rfl⟩, by decide⟩

end Companion.Kindled.Slots

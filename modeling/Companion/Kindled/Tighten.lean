import Companion.Kindled.Engine

/-!
# The tighten band of the disclosure budget

Below `KINDLED_LINK_BUDGET_DEPLETED_THRESHOLD` a decision to send is held. Between it and
`KINDLED_LINK_BUDGET_TIGHTEN_THRESHOLD` it is turned into one to revise (`_apply_budget`), and the
revision is reviewed again under the same budget. So the second review turns into one to revise as
well, which `_act_on_decision` takes for one to hold: nothing is sent in the band either
(`tighten_band_holds`).
-/

namespace Companion.Kindled

open Companion.Memory Companion.Effects

/-- The budget is below the threshold to tighten, and not depleted. -/
def InTightenBand (b : ℚ) : Prop := budgetDepletedThreshold ≤ b ∧ b < budgetTightenThreshold

instance (b : ℚ) : Decidable (InTightenBand b) :=
  inferInstanceAs (Decidable (_ ∧ _))

/-- Whoever reads the budget of the peer finds `b`. -/
def BudgetIs (x : Sending) (b : ℚ) (u : Trace Call.Reply) : Prop :=
  ∀ b', ⟨.budget x.peer, some b'⟩ ∈ u → b' = b

/-- The body of a revision that the model has returned. -/
def revisionOf : Event Call.Reply → Option Text
  | ⟨.complete (.revision _ _), r⟩ => r
  | _ => none

/-- The revisions that the model has returned. -/
def revisions (u : Trace Call.Reply) : List Text := u.filterMap revisionOf

/-- One revision is asked for, and it is what is sent. -/
def SendsRevision (p : Payload) (u : Trace Call.Reply) (o : Option Action) : Prop :=
  ∃ body, revisions u = [body] ∧ sends u = [⟨body, p.hint⟩] ∧ o = some .send

/-- A call is answered in favour of the message: the session is open and has caps to spare, slots
are free, the budget is `b`, and the model answers with a decision to send, or with a revision that
passes the pre-filter. -/
def Favours (S : Setting) (x : Sending) (hint : Option Hint) (b : ℚ) : Event Call.Reply → Prop
  | ⟨.session _ _, r⟩ => ∃ row : SessionRow, r = some (some row) ∧
      row.isOpen = true ∧ row.spaced x.now = true ∧ row.msgCount < sessionMsgCap
  | ⟨.counters _ _, r⟩ => ∃ c : Counters, r = some c ∧ c.underCaps = true
  | ⟨.stage _, r⟩ => r ≠ none
  | ⟨.reserveProvider _ _, r⟩ => r = some true
  | ⟨.budget _, r⟩ => r = some b
  | ⟨.enterSlot, r⟩ => r = some true
  | ⟨.exitSlot, r⟩ => r ≠ none
  | ⟨.complete (.gate _ _ _ _ _ _), r⟩ =>
    ∃ raw, r = some raw ∧ (S.parseVerdict raw).action = .send
  | ⟨.complete (.revision _ _), r⟩ =>
    ∃ body, r = some body ∧ S.prefilter (payloadText ⟨body, hint⟩) = none
  | _ => True

/-- A draft that passes the pre-filter, on the day that its time is in, where every call is answered
in its favour. -/
structure Favoured (S : Setting) (x : Sending) (p : Payload) (b : ℚ) (u : Trace Call.Reply) :
    Prop where
  today : x.today = S.dayOf x.now
  prefilter : S.prefilter (payloadText p) = none
  /-- The hint has a JSON text. -/
  hint : ∃ hint, hintText p.hint = pure hint
  calls : ∀ e ∈ u, Favours S x p.hint b e

variable {S : Setting} {x : Sending} {p q : Payload} {hint : Option Hint} {b : ℚ} {α : Type}
  {u : Trace Call.Reply} {o : Option α}

@[simp]
theorem revisions_append (u v : Trace Call.Reply) :
    revisions (u ++ v) = revisions u ++ revisions v :=
  List.filterMap_append

@[simp]
theorem revisions_nil : revisions [] = [] :=
  rfl

@[simp]
theorem revisions_cons (e : Event Call.Reply) (u : Trace Call.Reply) :
    revisions (e :: u) = (revisionOf e).toList ++ revisions u := by
  cases he : revisionOf e with
  | none => simp [revisions, he]
  | some body => simp [revisions, he]

/-- A call whose favourable replies are no exceptions is followed by the rest. -/
theorem favoured_ask {c : Call} {f : c.Reply → Link α} (hreply : ¬ Favours S x hint b ⟨c, none⟩)
    (hfav : ∀ e ∈ u, Favours S x hint b e) (h : Runs (ask c >>= f) u o) :
    ∃ r w, u = ⟨c, some r⟩ :: w ∧ Favours S x hint b ⟨c, some r⟩ ∧ (∀ e ∈ w, Favours S x hint b e) ∧
      Runs (f r) w o := by
  rcases runs_ask_bind.mp h with ⟨r, w, rfl, hrest⟩ | ⟨-, rfl⟩
  · obtain ⟨hr, hw⟩ := List.forall_mem_cons.mp hfav
    exact ⟨r, w, rfl, hr, hw, hrest⟩
  · exact absurd (hfav _ List.mem_cons_self) hreply

/-- A slot is granted, and its body decides. -/
theorem favoured_withSlot {body : Bool → Link α} (hfav : ∀ e ∈ u, Favours S x hint b e)
    (h : Runs (withSlot body) u o) :
    ∃ v, u = ⟨.enterSlot, some true⟩ :: (v ++ [⟨.exitSlot, some ()⟩]) ∧
      (∀ e ∈ v, Favours S x hint b e) ∧ Runs (body true) v o := by
  rcases runs_withSlot.mp h with ⟨granted, v, y, done, rfl, hbody, ho⟩ | ⟨-, rfl⟩
  · obtain ⟨hgranted, hrest⟩ := List.forall_mem_cons.mp hfav
    obtain ⟨hv, hexit⟩ := List.forall_mem_append.mp hrest
    obtain rfl : granted = true := Option.some.inj hgranted
    obtain ⟨⟨⟩, rfl⟩ := Option.ne_none_iff_exists'.mp (hexit _ List.mem_cons_self)
    obtain rfl : o = y := ho
    exact ⟨v, rfl, hv, hbody⟩
  · exact absurd (hfav _ List.mem_cons_self) nofun

/-- A program that comes to a value in every favourable run is followed by the rest. -/
theorem favoured_bind {β : Type} {r : Link β} {f : β → Link α} {P : β → Trace Call.Reply → Prop}
    (hr : ∀ v o, (∀ e ∈ v, Favours S x hint b e) → Runs r v o → ∃ a, o = some a ∧ P a v)
    (hfav : ∀ e ∈ u, Favours S x hint b e) (h : Runs (r >>= f) u o) :
    ∃ a v w, u = v ++ w ∧ P a v ∧ (∀ e ∈ w, Favours S x hint b e) ∧ Runs (f a) w o := by
  rcases runs_bind.mp h with ⟨a, v, w, rfl, hfirst, hrest⟩ | ⟨-, hfirst⟩
  · obtain ⟨hv, hw⟩ := List.forall_mem_append.mp hfav
    obtain ⟨_, ⟨⟩, hP⟩ := hr v _ hv hfirst
    exact ⟨a, v, w, rfl, hP, hw, hrest⟩
  · obtain ⟨_, ho, -⟩ := hr u none hfav hfirst
    cases ho

/-- An exception that no favourable run comes to is not handled. -/
theorem favoured_tryExcept {r handler : Link α} {P : α → Trace Call.Reply → Prop}
    (hr : ∀ v o, (∀ e ∈ v, Favours S x hint b e) → Runs r v o → ∃ a, o = some a ∧ P a v)
    (hfav : ∀ e ∈ u, Favours S x hint b e) (h : Runs (r.tryExcept handler) u o) :
    ∃ a, o = some a ∧ P a u := by
  rcases runs_tryExcept.mp h with ⟨-, hrun⟩ | ⟨v, w, rfl, hrun, -⟩
  · exact hr u o hfav hrun
  · obtain ⟨_, ho, -⟩ := hr v none (List.forall_mem_append.mp hfav).1 hrun
    cases ho

/-- A test of the row of the session says yes. -/
theorem favoured_session {f : SessionRow → Bool}
    (hf : ∀ row : SessionRow, row.spaced x.now = true → row.msgCount < sessionMsgCap → f row = true)
    {o : Option Bool} (hfav : ∀ e ∈ u, Favours S x hint b e)
    (h : Runs (do
      let row : Option SessionRow ← ask (.session x.peer x.session)
      pure (row.any f)) u o) :
    ∃ a, o = some a ∧ a = true ∧ revisions u = [] := by
  obtain ⟨_, w, rfl, ⟨row, ⟨⟩, -, hgap, hcap⟩, -, rfl, rfl⟩ :=
    favoured_ask (by rintro ⟨_, ⟨⟩, -⟩) hfav h
  exact ⟨_, rfl, hf row hgap hcap, rfl⟩

/-- The session is open, and no cap is reached. -/
theorem favoured_sendAllowed {o : Option Bool} (hfav : ∀ e ∈ u, Favours S x hint b e)
    (h : Runs x.sendAllowed u o) : ∃ a, o = some a ∧ a = true ∧ revisions u = [] := by
  unfold Sending.sendAllowed at h
  obtain ⟨_, w, rfl, ⟨row, ⟨⟩, hopen, -, -⟩, hw, h⟩ :=
    favoured_ask (by rintro ⟨_, ⟨⟩, -⟩) hfav h
  rw [if_pos (show Option.any (·.isOpen) (some row) = true from hopen)] at h
  obtain ⟨_, v₁, w₁, rfl, ⟨rfl, hv₁⟩, hw, h⟩ := favoured_bind
    (fun v o => favoured_session fun row hgap _ => hgap) hw h
  rw [if_pos rfl] at h
  obtain ⟨_, v₂, w₂, rfl, ⟨rfl, hv₂⟩, hw, h⟩ := favoured_bind
    (fun v o => favoured_session fun row _ hcap => decide_eq_true hcap) hw h
  rw [if_pos rfl] at h
  obtain ⟨_, w₃, rfl, ⟨c, ⟨⟩, hcaps⟩, -, rfl, rfl⟩ := favoured_ask (by rintro ⟨_, ⟨⟩, -⟩) hw h
  refine ⟨_, rfl, hcaps, ?_⟩
  simp [revisionOf, hv₁, hv₂]

/-- A reflection has found the budget `b`, and its verdict is to send. -/
def Judged (S : Setting) (b : ℚ) (r : Option (ℚ × Text)) (u : Trace Call.Reply) : Prop :=
  revisions u = [] ∧ ∃ raw, r = some (b, raw) ∧ (S.parseVerdict raw).action = .send

theorem favoured_reflect {stage t : Text} (hhint : hintText q.hint = pure t)
    {o : Option (Option (ℚ × Text))} (hfav : ∀ e ∈ u, Favours S x hint b e)
    (h : Runs (reflect q x.peer stage x.summary x.reason x.today) u o) :
    ∃ r, o = some r ∧ Judged S b r u := by
  refine favoured_tryExcept (P := Judged S b) (fun w o hw hrun => ?_) hfav h
  rw [hhint] at hrun
  obtain ⟨_, w, rfl, ⟨⟩, hw, hrun⟩ := favoured_ask (by exact nofun) hw hrun
  obtain ⟨w, rfl, hw, hrun⟩ := favoured_withSlot hw hrun
  rw [if_pos rfl] at hrun
  obtain ⟨raw, w, rfl, ⟨_, ⟨⟩, hverdict⟩, -, rfl, rfl⟩ :=
    favoured_ask (by rintro ⟨_, ⟨⟩, -⟩) hw hrun
  exact ⟨_, rfl, by simp [revisionOf], raw, rfl, hverdict⟩

/-- A decision to send, which the band has turned into one to revise. -/
def Tightened (d : Decision) (u : Trace Call.Reply) : Prop :=
  revisions u = [] ∧ d.action = .revise ∧
    d.revisionConstraints = some (.str "Say less about the user; keep it general.".toList)

/-- In the band a favourable review turns the decision to send into one to revise. -/
theorem favoured_gated {stage : Text} {o : Option Decision} (hb : InTightenBand b)
    (hfilter : S.prefilter (payloadText q) = none) (hhint : ∃ t, hintText q.hint = pure t)
    (hfav : ∀ e ∈ u, Favours S x hint b e)
    (h : Runs (x.gated S q stage) u o) : ∃ d, o = some d ∧ Tightened d u := by
  obtain ⟨t, hhint⟩ := hhint
  rw [Sending.gated, Setting.review] at h
  simp only [hfilter] at h
  obtain ⟨_, v, rfl, ⟨⟩, hv, h⟩ := favoured_ask (by rintro ⟨⟩) hfav h
  rw [if_pos rfl] at h
  obtain ⟨r, w, w', rfl, ⟨hrev, raw, rfl, hverdict⟩, -, rfl, rfl⟩ :=
    favoured_bind (P := Judged S b) (fun w o => favoured_reflect hhint) hv h
  have htight : applyBudget (S.parseVerdict raw) b =
      ⟨.revise, some (.str "Say less about the user; keep it general.".toList),
        (S.parseVerdict raw).textureScore⟩ := by
    rw [applyBudget, if_pos hverdict, if_neg (not_lt.mpr hb.1), if_pos hb.2]
  rw [htight]
  exact ⟨_, rfl, by simp [hrev, revisionOf], rfl, rfl⟩

/-- A revision that passes the pre-filter, and has the hint of the draft. -/
def Revised (S : Setting) (p : Payload) (r : Option Payload) (u : Trace Call.Reply) : Prop :=
  ∃ body, r = some ⟨body, p.hint⟩ ∧ revisions u = [body] ∧
    S.prefilter (payloadText ⟨body, p.hint⟩) = none

theorem favoured_regenerate {constraints : Text} (hne : constraints ≠ [])
    {o : Option (Option Payload)} (hfav : ∀ e ∈ u, Favours S x p.hint b e)
    (h : Runs (x.regenerate p (some (.str constraints))) u o) :
    ∃ r, o = some r ∧ Revised S p r u := by
  have htext : constraintsText (some (.str constraints)) = pure constraints := by
    simp [constraintsText, Json.truthy, hne]
  rw [Sending.regenerate, htext] at h
  refine favoured_tryExcept (P := Revised S p) (fun w o hw hrun => ?_) hfav h
  obtain ⟨w, rfl, hw, hrun⟩ := favoured_withSlot hw hrun
  rw [if_pos rfl] at hrun
  obtain ⟨_, w, rfl, ⟨⟩, hw, hrun⟩ := favoured_ask (by rintro ⟨⟩) hw hrun
  rw [if_pos rfl] at hrun
  obtain ⟨body, w, rfl, ⟨_, ⟨⟩, hfilter⟩, -, rfl, rfl⟩ :=
    favoured_ask (by rintro ⟨_, ⟨⟩, -⟩) hw hrun
  exact ⟨_, rfl, body, rfl, by simp [revisionOf], hfilter⟩

/-- In the band a favourable second review leads to a decision to revise again. -/
theorem favoured_second {o : Option Decision} (hb : InTightenBand b)
    (hfilter : S.prefilter (payloadText q) = none) (hhint : ∃ t, hintText q.hint = pure t)
    (hfav : ∀ e ∈ u, Favours S x hint b e)
    (h : Runs (do
      let stage : Text ← ask (.stage x.peer)
      x.gated S q stage) u o) : ∃ d, o = some d ∧ Tightened d u := by
  obtain ⟨stage, w, rfl, -, hw, h⟩ := favoured_ask (by exact fun h => h rfl) hfav h
  obtain ⟨d, rfl, hrev, hd⟩ := favoured_gated hb hfilter hhint
    hw h
  exact ⟨d, rfl, by simp [revisionOf, hrev], hd⟩

/-- In the band the revision of a decision is held. -/
theorem favoured_revised {sendFn : Payload → Link Unit} {d : Decision} {o : Option Action}
    (hb : InTightenBand b) (hhint : ∃ t, hintText p.hint = pure t)
    (hd : d.revisionConstraints = some (.str "Say less about the user; keep it general.".toList))
    (hfav : ∀ e ∈ u, Favours S x p.hint b e)
    (h : Runs (x.revised S sendFn p d) u o) : o = some .hold ∧ ∃ body, revisions u = [body] := by
  rw [Sending.revised, hd] at h
  obtain ⟨_, v, w, rfl, ⟨body, rfl, hbody, hfilter⟩, hw, h⟩ := favoured_bind
    (P := Revised S p) (fun v o => favoured_regenerate (by decide)) hfav h
  obtain ⟨second, v', w, rfl, ⟨hrev, hagain, -⟩, -, h⟩ := favoured_bind (P := Tightened)
    (fun v o hv => favoured_tryExcept (fun v o => favoured_second hb hfilter hhint) hv) hw h
  rw [if_pos hagain] at h
  obtain ⟨rfl, rfl⟩ := h
  exact ⟨rfl, body, by simp [hbody, hrev]⟩

/-- In the band a favoured draft is revised once, and the revision is held. -/
theorem favoured_processOutbound {sendFn : Payload → Link Unit} {o : Option Action}
    (hb : InTightenBand b) (hfav : Favoured S x p b u)
    (h : Runs (x.processOutbound S sendFn p) u o) :
    o = some .hold ∧ ∃ body, revisions u = [body] := by
  obtain ⟨htoday, hfilter, hhint, hcalls⟩ := hfav
  rw [Sending.processOutbound, if_pos htoday] at h
  obtain ⟨_, v, w, rfl, ⟨rfl, hv⟩, hw, h⟩ :=
    favoured_bind (fun v o => favoured_sendAllowed) hcalls h
  rw [if_pos rfl] at h
  obtain ⟨stage, w, rfl, -, hw, h⟩ := favoured_ask (by exact fun h => h rfl) hw h
  obtain ⟨d, v', w, rfl, ⟨hrev, haction, hd⟩, hw, h⟩ := favoured_bind (P := Tightened)
    (fun v o hv => favoured_tryExcept (fun v o => favoured_gated hb hfilter hhint) hv) hw h
  simp only [Sending.settle, haction] at h
  obtain ⟨ho, body, hbody⟩ := favoured_revised hb hhint hd hw h
  exact ⟨ho, body, by simp [revisionOf, hv, hrev, hbody]⟩

/-- In the band nothing is sent, whatever is answered. Where every call is answered in favour of the
draft, one revision is asked for, and it is held. -/
theorem tighten_band_holds (S : Setting) (x : Sending) (p : Payload) (b : ℚ) (hb : InTightenBand b)
    (u : Trace Call.Reply) (o : Option Action)
    (h : Runs (x.processOutbound S (fun q => ask (.send q)) p) u o) (hbudget : BudgetIs x b u) :
    sends u = [] ∧ o ≠ some .send ∧ ¬ SendsRevision p u o ∧
      (Favoured S x p b u → o = some .hold ∧ ∃ body, revisions u = [body]) := by
  have hsent : sends u = [] ∧ o ≠ some .send := by
    rcases processOutbound_cases h with ⟨hu, ho⟩ | ⟨q, a, v, g, s, w, so, hq, -, -⟩
    · exact ⟨hu.sends_eq_nil, ho⟩
    · -- A reflection that lets a payload pass has found a budget above the band.
      obtain ⟨rfl, @⟨_, _, _, b', _, _, hread, _⟩, -, -⟩ := hq
      have hb' : b' = b := hbudget b' (by simp)
      rw [hb'] at hread
      exact absurd hb.2 (not_lt.mpr hread)
  refine ⟨hsent.1, hsent.2, ?_, fun hfav => favoured_processOutbound hb hfav h⟩
  rintro ⟨body, -, -, ho⟩
  exact hsent.2 ho

/-- Every call is answered in favour of a message, at a budget within the band. -/
def banded : Env Call.Reply := fun t c =>
  match c with
  | .budget _ => some (1 / 10 : ℚ)
  | c => unhindered t c

/-- A message within the band. -/
def sampleSending : Sending :=
  ⟨"moss".toList, "s1".toList, [], "reply".toList, 0, "2026-07-01".toList⟩

theorem favours_banded (t : Trace Call.Reply) (c : Call) :
    Favours lenient sampleSending none (1 / 10) ⟨c, banded t c⟩ := by
  cases c with
  | session peer session => exact ⟨⟨true, 0, none⟩, rfl, rfl, rfl, by decide⟩
  | counters peer today => exact ⟨⟨0, 0⟩, rfl, rfl⟩
  | complete prompt =>
    cases prompt with
    | gate => exact ⟨_, rfl, by decide +kernel⟩
    | revision => exact ⟨_, rfl, rfl⟩
    | draft => trivial
  | _ => first | rfl | trivial | exact nofun

theorem tighten_band_holds_banded :
    let r := (sampleSending.processOutbound lenient (fun q => ask (.send q))
      ⟨"hello".toList, none⟩).run banded []
    sends r.1 = [] ∧ r.2 ≠ some .send ∧ ¬ SendsRevision ⟨"hello".toList, none⟩ r.1 r.2 ∧
      (Favoured lenient sampleSending ⟨"hello".toList, none⟩ (1 / 10) r.1 →
        r.2 = some .hold ∧ ∃ body, revisions r.1 = [body]) := by
  refine tighten_band_holds _ _ _ (1 / 10) (by decide +kernel) _ _ (runs_run ..) fun b hb => ?_
  obtain ⟨t, ht⟩ := exists_reply_of_mem hb
  exact Option.some.inj ht

/-- A favoured message within the band, whose revision is not sent. -/
theorem revision_not_sent :
    let r := (sampleSending.processOutbound lenient (fun q => ask (.send q))
      ⟨"hello".toList, none⟩).run banded []
    InTightenBand (1 / 10) ∧ Favoured lenient sampleSending ⟨"hello".toList, none⟩ (1 / 10) r.1 ∧
      ¬ SendsRevision ⟨"hello".toList, none⟩ r.1 r.2 := by
  refine ⟨by decide +kernel, ⟨by decide, rfl, ⟨_, rfl⟩, fun e he => ?_⟩, ?_⟩
  · obtain ⟨t, ht⟩ := exists_reply_of_mem he
    obtain ⟨c, r⟩ := e
    obtain rfl : r = banded t c := ht
    exact favours_banded t c
  · rintro ⟨body, -, -, ho⟩
    exact absurd ho (by decide +kernel)

end Companion.Kindled

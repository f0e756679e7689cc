import Companion.Initiate.ReviewTick

/-!
# The numbers of the candidates

The reflection is shown the candidates under numbers from 1 on (`build_user_message`), and the tick
takes the `candidate_index` of a decision for a place from 0 on (`run_initiate_review_tick`). A
filter of the first number demotes the second candidate (`filters_the_next`).

`applied_iff` says for which decisions this does no harm: those that filter a place have to filter
the next one too, and nothing else may be said about what they filter.
-/

namespace Companion.Initiate.Review

open Companion.JsonText
open Tick (about filtered promotedIds undecided)

/-! ## The message -/

/-- `_part_of_day` -/
def partOfDay (hour : ℕ) : Text :=
  if 5 ≤ hour ∧ hour < 12 then "morning".toList
  else if 12 ≤ hour ∧ hour < 17 then "afternoon".toList
  else if 17 ≤ hour ∧ hour < 21 then "evening".toList
  else "night".toList

/-- The number under which the candidate at a place is listed. -/
def listedNumber (place : ℕ) : ℕ := place + 1

/-- The candidates with their numbers. -/
def numbered (summaries : List Text) : List Text :=
  summaries.zipIdx.map fun p =>
    "[".toList ++ Nat.toDigits 10 (listedNumber p.2) ++ "] ".toList ++ p.1

/-- `build_user_message`, with the local time as it is written, its hour and its weekday. -/
def buildUserMessage (userName nowLocal : Text) (hour : ℕ) (weekday outboundRecallBlock : Text)
    (candidateSummaries : List Text) : Text :=
  "=== Current time (".toList ++ userName ++ "'s local) ===\n".toList ++ nowLocal ++
    "  —  ".toList ++ partOfDay hour ++ "  —  ".toList ++ weekday ++
    ("\n\n=== Recent outbound (last 5 sends + acknowledged_unclear from last 24h) " ++
      "===\n").toList ++ outboundRecallBlock ++
    "\n\n=== Candidates surfaced since last tick ===\n".toList ++
    List.intercalate "\n\n".toList (numbered candidateSummaries) ++
    ("\n\n=== Your task ===\nFor each candidate, decide: promote or filter.\n" ++
      "Promote at most 2. The default is filter.\n").toList

variable {F : Type}

/-! ## What a candidate comes to -/

/-- A draft of the candidate was written between two states. -/
def Demoted (s s' : State F) (c : InitiateCandidate F) : Prop :=
  c.candidateId ∈ (s'.drafts.drop s.drafts.length).map Draft.candidateId

/-- The candidate was composed between two states, as its audit row tells. -/
def Composed (s s' : State F) (c : InitiateCandidate F) : Prop :=
  c.candidateId ∈ (s'.audit.drop s.audit.length).map ReviewRow.candidateId

/-- A decision filters under an index. -/
def FiltersIndex (ds : List (DDecision F)) (index : ℕ) : Prop :=
  ∃ d ∈ ds, d.isFilter = true ∧ d.candidateIndex = index

/-- The decisions are applied to the candidates under the numbers that these are listed under. -/
structure Applied (candidates : List (InitiateCandidate F)) (ds : List (DDecision F))
    (s s' : State F) : Prop where
  one : ∀ c ∈ candidates,
    (Demoted s s' c ∧ ¬ Composed s s' c) ∨ (Composed s s' c ∧ ¬ Demoted s s' c)
  named : ∀ (place : ℕ) (c : InitiateCandidate F), candidates[place]? = some c →
    Demoted s s' c → FiltersIndex ds (listedNumber place)
  unnamed : ∀ (place : ℕ) (c : InitiateCandidate F), candidates[place]? = some c →
    (∀ d ∈ ds, d.candidateIndex ≠ listedNumber place) → Composed s s' c ∧ ¬ Demoted s s' c

/-- Where the place of a candidate is filtered, each place of its id is filtered and not promoted,
and its number is filtered too. -/
def Aligned (candidates : List (InitiateCandidate F)) (ds : List (DDecision F)) : Prop :=
  ∀ (filteredPlace place : ℕ) (c c' : InitiateCandidate F),
    candidates[filteredPlace]? = some c → candidates[place]? = some c' →
      c.candidateId = c'.candidateId → FiltersIndex ds filteredPlace →
        FiltersIndex ds place ∧ (∀ d ∈ ds, d.candidateIndex = place → d.isFilter = true) ∧
          FiltersIndex ds (listedNumber place)

/-! ## The tick -/

/-- The ids are texts, as the schema has them. -/
def Named (candidates : List (InitiateCandidate F)) : Prop :=
  ∀ c ∈ candidates, ∃ id, c.candidateId = .str id

theorem about_eq_some {candidates : List (InitiateCandidate F)} {d : DDecision F}
    {c : InitiateCandidate F} : about candidates d = some c ↔
      ∃ place : ℕ, d.candidateIndex = place ∧ candidates[place]? = some c := by
  unfold about
  constructor
  · intro h
    split_ifs at h with hnonneg
    exact ⟨d.candidateIndex.toNat, (Int.toNat_of_nonneg hnonneg).symm, h⟩
  · rintro ⟨place, hindex, hc⟩
    rw [hindex, if_pos (Int.natCast_nonneg place), Int.toNat_natCast]
    exact hc

theorem mem_filtered {candidates : List (InitiateCandidate F)} {ds : List (DDecision F)}
    {c : InitiateCandidate F} : c ∈ filtered candidates ds ↔
      ∃ place : ℕ, candidates[place]? = some c ∧ FiltersIndex ds place := by
  unfold filtered FiltersIndex
  rw [List.mem_filterMap]
  constructor
  · rintro ⟨d, hd, habout⟩
    obtain ⟨hin, hfilter⟩ := List.mem_filter.mp hd
    obtain ⟨place, hindex, hc⟩ := about_eq_some.mp habout
    exact ⟨place, hc, d, hin, hfilter, hindex⟩
  · rintro ⟨place, hc, d, hd, hfilter, hindex⟩
    exact ⟨d, List.mem_filter.mpr ⟨hd, hfilter⟩, about_eq_some.mpr ⟨place, hindex, hc⟩⟩

/-- The ids that are promoted: of the candidates at a place that a decision promotes, or that none
is about. -/
theorem mem_promoted {candidates : List (InitiateCandidate F)} {ds : List (DDecision F)}
    {id : Value F} : id ∈ promotedIds candidates ds ++ undecided candidates ds ↔
      ∃ (place : ℕ) (c : InitiateCandidate F), candidates[place]? = some c ∧ c.candidateId = id ∧
        ((∃ d ∈ ds, d.candidateIndex = place ∧ d.isFilter = false) ∨
          ∀ d ∈ ds, d.candidateIndex ≠ place) := by
  rw [List.mem_append]
  unfold promotedIds undecided
  constructor
  · rintro (hmem | hmem)
    · obtain ⟨c, hc, hid⟩ := List.mem_map.mp hmem
      obtain ⟨d, hd, habout⟩ := List.mem_filterMap.mp hc
      obtain ⟨hin, hfilter⟩ := List.mem_filter.mp hd
      obtain ⟨place, hindex, hplace⟩ := about_eq_some.mp habout
      exact ⟨place, c, hplace, hid, .inl ⟨d, hin, hindex, by simpa using hfilter⟩⟩
    · obtain ⟨⟨c, place⟩, hp, hid⟩ := List.mem_map.mp hmem
      obtain ⟨hin, hnone⟩ := List.mem_filter.mp hp
      refine ⟨place, c, List.mem_zipIdx_iff_getElem?.mp hin, hid, .inr ?_⟩
      simpa using hnone
  · rintro ⟨place, c, hplace, hid, ⟨d, hd, hindex, hfilter⟩ | hnone⟩
    · refine .inl (List.mem_map.mpr ⟨c, List.mem_filterMap.mpr ⟨d, ?_, ?_⟩, hid⟩)
      · exact List.mem_filter.mpr ⟨hd, by simpa using hfilter⟩
      · exact about_eq_some.mpr ⟨place, hindex, hplace⟩
    · refine .inr (List.mem_map.mpr ⟨(c, place), List.mem_filter.mpr ⟨?_, ?_⟩, hid⟩)
      · exact List.mem_zipIdx_iff_getElem?.mpr hplace
      · simpa using hnone

section Tick

variable {t : Tick F} {s : State F}

theorem untilPause_of_never (hpause : ∀ place, t.shouldPause place = false) (n : ℕ)
    (ps : List (InitiateCandidate F × ℕ)) : t.untilPause n ps = ps := by
  induction ps with
  | nil => rfl
  | cons p rest ih => rw [Tick.untilPause, ih, hpause, if_neg (by simp)]

/-- Ids that are texts are equal where they are the same. -/
theorem eq_iff_of_named {candidates : List (InitiateCandidate F)} (hids : Named candidates)
    {c c' : InitiateCandidate F} (hc : c ∈ candidates) (hc' : c' ∈ candidates) :
    t.builtins.eq c.candidateId c'.candidateId = true ↔ c.candidateId = c'.candidateId := by
  obtain ⟨id, hid⟩ := hids c hc
  obtain ⟨id', hid'⟩ := hids c' hc'
  rw [hid, hid', t.builtins.eq_str, decide_eq_true_eq]
  exact ⟨fun h => by rw [h], fun h => by cases h; rfl⟩

theorem ids_of_verdicts {ps : List (InitiateCandidate F × ℕ)} {rows : List (ReviewRow F)}
    (h : List.Forall₂ t.Verdict ps rows) :
    rows.map ReviewRow.candidateId = ps.map fun p => p.1.candidateId := by
  induction h with
  | nil => rfl
  | cons hverdict _ ih => rw [List.map_cons, List.map_cons, ih, hverdict.candidateId]

/-- A tick that is not put off and whose reflection has returned decisions: whom it demotes and
whom it composes. -/
theorem tick_outcome (hs : Tick.Ready s) (hids : Named (t.fetched s)) (hslot : t.slot = true)
    (hpause : ∀ place, t.shouldPause place = false) {result : DReflectionResult F} {call : DCallRow}
    (hrun : t.reflection s = .ok (result, call))
    (hparsed : result.decisions = [] → call.failureType = none) (c : InitiateCandidate F)
    (hc : c ∈ t.fetched s) :
    (Demoted s (t.runInitiateReviewTick s).1 c ↔
        ∃ c' ∈ filtered (t.fetched s) result.decisions, c'.candidateId = c.candidateId) ∧
      (Composed s (t.runInitiateReviewTick s).1 c ↔ c.candidateId ∈
        promotedIds (t.fetched s) result.decisions ++ undecided (t.fetched s) result.decisions) := by
  obtain ⟨demoted, composed, hreviewed, -, -, hreturned, hraised⟩ := t.tick_spec hs
  have hnone : (t.runInitiateReviewTick s).2 = none := by
    cases hsnd : (t.runInitiateReviewTick s).2 with
    | none => rfl
    | some e =>
      obtain herror | ⟨c, hc, hhash⟩ := hraised e hsnd
      · rw [hrun] at herror
        cases herror
      · obtain ⟨id, hid⟩ := hids c hc
        rw [hid] at hhash
        cases hhash
  obtain ⟨rfl, rfl⟩ := hreturned hnone
  have hplan : t.plan s = ⟨filtered (t.fetched s) result.decisions,
      (t.fetched s).zipIdx.filter fun p => t.Promoted
        (promotedIds (t.fetched s) result.decisions ++ undecided (t.fetched s) result.decisions)
        p.1⟩ := by
    unfold Tick.plan Tick.planOf
    rw [hrun]
    dsimp only
    -- Without decisions the reflection has not failed, so that neither of the other cases is met.
    rw [if_neg, if_neg, if_pos hslot, untilPause_of_never hpause]
    · rintro ⟨hempty, hlimit⟩
      rw [hparsed (List.isEmpty_iff.mp hempty)] at hlimit
      cases hlimit
    · rintro ⟨hempty, houtage⟩
      rw [hparsed (List.isEmpty_iff.mp hempty)] at houtage
      cases houtage
  rw [hplan] at hreviewed
  constructor
  · unfold Demoted
    rw [List.map_drop, hreviewed.drafts, List.drop_left' (List.length_map _), List.mem_map]
  · obtain ⟨rows, hrows, hverdicts⟩ := hreviewed.audit
    unfold Composed
    rw [hrows, List.drop_left]
    rw [ids_of_verdicts hverdicts, List.mem_map]
    constructor
    · rintro ⟨⟨c', place⟩, hp, hid⟩
      obtain ⟨hin, hpromoted⟩ := List.mem_filter.mp hp
      obtain ⟨id, hmem, heq⟩ := List.any_eq_true.mp (of_decide_eq_true hpromoted)
      obtain ⟨_, c'', hplace, rfl, -⟩ := mem_promoted.mp hmem
      rw [eq_iff_of_named hids (List.mem_of_getElem? hplace)
        (List.fst_mem_of_mem_zipIdx hin)] at heq
      rw [← hid]
      exact heq ▸ hmem
    · intro hmem
      obtain ⟨place, hplace⟩ := List.mem_iff_getElem?.mp hc
      refine ⟨(c, place), List.mem_filter.mpr ⟨List.mem_zipIdx_iff_getElem?.mpr hplace, ?_⟩, rfl⟩
      refine decide_eq_true (List.any_eq_true.mpr ⟨_, hmem, ?_⟩)
      exact (eq_iff_of_named hids hc hc).mpr rfl

/-- In a tick that is not put off, the decisions are applied under the listed numbers if and only
if they are aligned. -/
theorem applied_iff (hs : Tick.Ready s) (hids : Named (t.fetched s)) (hslot : t.slot = true)
    (hpause : ∀ place, t.shouldPause place = false) {result : DReflectionResult F} {call : DCallRow}
    (hrun : t.reflection s = .ok (result, call))
    (hparsed : result.decisions = [] → call.failureType = none) :
    Applied (t.fetched s) result.decisions s (t.runInitiateReviewTick s).1 ↔
      Aligned (t.fetched s) result.decisions := by
  have houtcome := tick_outcome hs hids hslot hpause hrun hparsed
  simp only [mem_filtered, mem_promoted] at houtcome
  generalize (t.runInitiateReviewTick s).1 = s' at houtcome ⊢
  generalize t.fetched s = candidates at houtcome ⊢
  generalize result.decisions = ds at houtcome ⊢
  constructor
  · rintro ⟨hone, hnamed, -⟩ filteredPlace place c c' hc hc' hid hfilters
    have hmem' := List.mem_of_getElem? hc'
    obtain ⟨hdemoted, hcomposed⟩ := houtcome c' hmem'
    have hd : Demoted s s' c' := hdemoted.mpr ⟨c, ⟨filteredPlace, hc, hfilters⟩, hid⟩
    have hnot : ¬ Composed s s' c' := by
      obtain ⟨-, hnot⟩ | ⟨-, hnot⟩ := hone c' hmem'
      · exact hnot
      · exact absurd hd hnot
    have hall : ∀ d ∈ ds, d.candidateIndex = place → d.isFilter = true := by
      intro d hd hindex
      by_contra hfilter
      exact hnot (hcomposed.mpr ⟨place, c', hc', rfl,
        .inl ⟨d, hd, hindex, eq_false_of_ne_true hfilter⟩⟩)
    refine ⟨?_, hall, hnamed place c' hc' hd⟩
    by_contra hno
    refine hnot (hcomposed.mpr ⟨place, c', hc', rfl, .inr fun d hd hindex => ?_⟩)
    exact hno ⟨d, hd, hall d hd hindex, hindex⟩
  · intro haligned
    -- Demoted is a candidate whose own place is filtered, and then it is not composed.
    have hdemoted : ∀ (place : ℕ) (c : InitiateCandidate F), candidates[place]? = some c →
        Demoted s s' c → FiltersIndex ds (listedNumber place) ∧ ¬ Composed s s' c := by
      intro place c hc hd
      obtain ⟨hdem, hcomp⟩ := houtcome c (List.mem_of_getElem? hc)
      obtain ⟨c', ⟨place', hc', hfilters⟩, hid⟩ := hdem.mp hd
      refine ⟨(haligned place' place c' c hc' hc hid hfilters).2.2, fun hcomposed => ?_⟩
      obtain ⟨place'', c'', hc'', hid'', hsome⟩ := hcomp.mp hcomposed
      obtain ⟨⟨d, hd, hfilter, hindex⟩, hall, -⟩ :=
        haligned place' place'' c' c'' hc' hc'' (hid.trans hid''.symm) hfilters
      obtain ⟨d', hd', hindex', hnot⟩ | hnone := hsome
      · rw [hall d' hd' hindex'] at hnot
        cases hnot
      · exact hnone d hd hindex
    have hcomposed : ∀ (place : ℕ) (c : InitiateCandidate F), candidates[place]? = some c →
        ¬ Demoted s s' c → Composed s s' c := by
      intro place c hc hd
      obtain ⟨hdem, hcomp⟩ := houtcome c (List.mem_of_getElem? hc)
      refine hcomp.mpr ⟨place, c, hc, rfl, ?_⟩
      by_cases hnone : ∀ d ∈ ds, d.candidateIndex ≠ place
      · exact .inr hnone
      · push Not at hnone
        obtain ⟨d, hd', hindex⟩ := hnone
        refine .inl ⟨d, hd', hindex, eq_false_of_ne_true fun hfilter => hd (hdem.mpr ?_)⟩
        exact ⟨c, ⟨place, hc, d, hd', hfilter, hindex⟩, rfl⟩
    refine ⟨fun c hc => ?_, fun place c hc hd => (hdemoted place c hc hd).1,
      fun place c hc hnone => ?_⟩
    · obtain ⟨place, hplace⟩ := List.mem_iff_getElem?.mp hc
      by_cases hd : Demoted s s' c
      · exact .inl ⟨hd, (hdemoted place c hplace hd).2⟩
      · exact .inr ⟨hcomposed place c hplace hd, hd⟩
    · have hnot : ¬ Demoted s s' c := fun hd => by
        obtain ⟨d, hd, -, hindex⟩ := (hdemoted place c hc hd).1
        exact hnone d hd hindex
      exact ⟨hcomposed place c hc hnot, hnot⟩

end Tick

/-! ## Two candidates -/

/-- A decision to filter under an index, as a reply has it. -/
def filterText (index : ℕ) : Text :=
  "\x7b\"candidate_index\": ".toList ++ Nat.toDigits 10 index ++
    ", \"decision\": \"filter\", \"reason\": \"weather\", \"confidence\": \"high\"\x7d".toList

/-- A reply that filters under some indices. -/
def replyText (indices : List ℕ) : Text :=
  "\x7b\"decisions\": [".toList ++ List.intercalate ", ".toList (indices.map filterText) ++
    "]\x7d".toList

/-- A tick whose reflection gets such a reply. -/
def filteringTick (indices : List ℕ) : Tick Unit :=
  { sampleTick with deps := { sampleTick.deps with haiku := .ok (replyText indices) } }

def secondCandidate : InitiateCandidate Unit :=
  { sampleCandidate with candidateId := .str (name "ic_2") }

def twoCandidates : State Unit := ⟨[sampleCandidate.toDict, secondCandidate.toDict], [], [], []⟩

theorem read_twoCandidates :
    readCandidates twoCandidates.queue = .ok [sampleCandidate, secondCandidate] :=
  readCandidates_map_toDict [sampleCandidate, secondCandidate]

theorem fetched_twoCandidates (indices : List ℕ) :
    (filteringTick indices).fetched twoCandidates = [sampleCandidate, secondCandidate] := by
  rw [Tick.fetched, read_twoCandidates]
  rfl

theorem named_twoCandidates : Named [sampleCandidate, secondCandidate] := by
  intro c hc
  simp only [List.mem_cons, List.not_mem_nil, or_false] at hc
  obtain rfl | rfl := hc
  · exact ⟨_, rfl⟩
  · exact ⟨_, rfl⟩

/-- What the reflection makes of the reply. -/
def readsIndices (indices : List ℕ) : Bool :=
  (run noFloats sampleBuiltins (filteringTick indices).deps
    [sampleCandidate, secondCandidate]).toOption.any fun r =>
      r.1.decisions.map DDecision.candidateIndex = indices.map Int.ofNat &&
        r.1.decisions.all DDecision.isFilter && r.2.failureType.isNone

theorem reflection_of_reads {indices : List ℕ} (h : readsIndices indices = true) :
    ∃ result call, (filteringTick indices).reflection twoCandidates = .ok (result, call) ∧
      call.failureType = none ∧ (∀ d ∈ result.decisions, d.isFilter = true) ∧
      ∀ index, FiltersIndex result.decisions index ↔ index ∈ indices := by
  unfold readsIndices at h
  cases hrun : run noFloats sampleBuiltins (filteringTick indices).deps
    [sampleCandidate, secondCandidate] with
  | error e =>
    rw [hrun] at h
    cases h
  | ok r =>
    obtain ⟨result, call⟩ := r
    rw [hrun] at h
    simp only [Except.toOption, Option.any_some, Bool.and_eq_true, decide_eq_true_eq,
      List.all_eq_true, Option.isNone_iff_eq_none] at h
    obtain ⟨⟨hindices, hfilter⟩, hfailure⟩ := h
    refine ⟨result, call, ?_, hfailure, hfilter, fun index => ?_⟩
    · rw [Tick.reflection, fetched_twoCandidates]
      exact hrun
    · have hmem : (index : ℤ) ∈ result.decisions.map DDecision.candidateIndex ↔
          index ∈ indices := by
        rw [hindices, List.mem_map]
        simp
      rw [← hmem, List.mem_map]
      constructor
      · rintro ⟨d, hd, -, hindex⟩
        exact ⟨d, hd, hindex⟩
      · rintro ⟨d, hd, hindex⟩
        exact ⟨d, hd, hfilter d hd, hindex⟩

/-- A reply that filters 1 and 2 is applied as the numbers are listed: the second candidate is
demoted. -/
theorem applied_iff_oneTwo : ∃ result call,
    (filteringTick [1, 2]).reflection twoCandidates = .ok (result, call) ∧
      Applied ((filteringTick [1, 2]).fetched twoCandidates) result.decisions twoCandidates
        ((filteringTick [1, 2]).runInitiateReviewTick twoCandidates).1 := by
  obtain ⟨result, call, hrun, hfailure, hfilter, hindices⟩ :=
    reflection_of_reads (by decide +kernel : readsIndices [1, 2] = true)
  refine ⟨result, call, hrun, (applied_iff (t := filteringTick [1, 2]) ⟨_, read_twoCandidates⟩ ?_
    rfl (fun _ => rfl) hrun fun _ => hfailure).mpr ?_⟩
  · rw [fetched_twoCandidates]
    exact named_twoCandidates
  · rw [fetched_twoCandidates]
    intro filteredPlace place c c' hc hc' hid hfilters
    simp only [hindices]
    obtain ⟨rfl, rfl⟩ : filteredPlace = 1 ∧ place = 1 := by
      have hlt := (List.getElem?_eq_some_iff.mp hc).1
      have hlt' := (List.getElem?_eq_some_iff.mp hc').1
      simp only [List.length_cons, List.length_nil] at hlt hlt'
      have hin := (hindices filteredPlace).mp hfilters
      simp only [List.mem_cons, List.not_mem_nil, or_false] at hin
      obtain rfl : filteredPlace = 1 := by omega
      refine ⟨rfl, ?_⟩
      by_contra hne
      obtain rfl : place = 0 := by omega
      obtain rfl := Option.some.inj hc
      obtain rfl := Option.some.inj hc'
      have hids : name "ic_2" = name "ic_1" := Value.str.inj hid
      exact absurd hids (by decide)
    exact ⟨by decide, fun d hd _ => hfilter d hd, by decide⟩

/-- A reply that filters the first number demotes the second candidate. -/
theorem filters_the_next : ¬ ∀ (t : Tick Unit) (s : State Unit) (result : DReflectionResult Unit)
    (call : DCallRow), Tick.Ready s → Named (t.fetched s) → t.slot = true →
      (∀ place, t.shouldPause place = false) → t.reflection s = .ok (result, call) →
      (result.decisions = [] → call.failureType = none) →
      Applied (t.fetched s) result.decisions s (t.runInitiateReviewTick s).1 := by
  intro hall
  obtain ⟨result, call, hrun, hfailure, -, hindices⟩ :=
    reflection_of_reads (by decide +kernel : readsIndices [1] = true)
  have hnamed : Named ((filteringTick [1]).fetched twoCandidates) := by
    rw [fetched_twoCandidates]
    exact named_twoCandidates
  have hready : Tick.Ready twoCandidates := ⟨_, read_twoCandidates⟩
  have happlied := hall (filteringTick [1]) twoCandidates result call hready hnamed rfl
    (fun _ => rfl) hrun fun _ => hfailure
  have hplace : ((filteringTick [1]).fetched twoCandidates)[1]? = some secondCandidate := by
    rw [fetched_twoCandidates]
    rfl
  have hdemoted := (tick_outcome hready hnamed rfl (fun _ => rfl) hrun (fun _ => hfailure)
    secondCandidate (List.mem_of_getElem? hplace)).1.mpr
      ⟨secondCandidate, mem_filtered.mpr ⟨1, hplace, (hindices 1).mpr (by decide)⟩, rfl⟩
  -- No decision filters the number 2, under which this candidate was listed.
  have hnumber := happlied.named 1 secondCandidate hplace hdemoted
  exact absurd ((hindices 2).mp hnumber) (by decide)

end Companion.Initiate.Review

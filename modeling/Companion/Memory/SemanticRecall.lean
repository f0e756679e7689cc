import Companion.Dict
import Companion.Memory.RerankWidth

/-!
# The semantic search of a message

`search_paragraphs` of `brain/memory/semantic_recall.py` from the scores on: each query of a message
has a coarse cut of the memories by cosine, each memory goes to the query with its best cosine, and
the queries are served one after the other, each reranking a prefix of its candidates within what is
left of the message's fifty, else taking the cosine path.

The walk of a cut stops early, and gives what the two filters give (`walkCoarseCut_eq`). A candidate
is that of one query (`mem_assigned`). The queries are given the widths of `allocate_widths`
(`map_width_serve`), which are the greatest along the order of service (`le_allocate`).

How a message is split into queries, the embedding, and the times and rows that are recorded are
left out: a query is its cosines.
-/

namespace Companion.Memory.SemanticRecall

open RerankWidth

variable {μ : Type} [DecidableEq μ]

/-- The memories that can be found, each once, with which of them are of the monologue family. -/
structure Pool (μ : Type) where
  ids : List μ
  isFamily : μ → Bool
  nodup : ids.Nodup

/-- Pairs in descending order of their scores, where equal ones keep their order. -/
def byScore (pairs : List (μ × ℚ)) : List (μ × ℚ) := pairs.mergeSort fun a b => b.2 ≤ a.2

/-- The loop of `_walk_coarse_cut`. -/
def walkCut (isFamily : μ → Bool) (size : ℕ) :
    ℕ → List (μ × ℚ) → List (μ × ℚ) → List (μ × ℚ) → List (μ × ℚ)
  | _, genuine, family, [] => genuine ++ family
  | rank, genuine, family, pair :: rest =>
    if size ≤ rank ∧ size ≤ genuine.length then genuine ++ family
    else if isFamily pair.1 then
      walkCut isFamily size (rank + 1) genuine (if rank < size then family ++ [pair] else family) rest
    else
      walkCut isFamily size (rank + 1) (if genuine.length < size then genuine ++ [pair] else genuine)
        family rest

/-- `_walk_coarse_cut` -/
def walkCoarseCut (isFamily : μ → Bool) (size : ℕ) (ordered : List (μ × ℚ)) : List (μ × ℚ) :=
  walkCut isFamily size 0 [] [] ordered

/-- The coarse cut of a query. -/
def coarseCut (pool : Pool μ) (cosine : μ → ℚ) : List (μ × ℚ) :=
  walkCoarseCut pool.isFamily candidatePool (byScore (pool.ids.map fun mid => (mid, cosine mid)))

/-! ## The queries' candidates -/

/-- A pair of a cut is entered in `best` if the memory has no better cosine there. -/
def enter (qi : ℕ) (best : Dict μ (ℚ × ℕ)) (pair : μ × ℚ) : Dict μ (ℚ × ℕ) :=
  match best.get? pair.1 with
  | none => best.set pair.1 (pair.2, qi)
  | some (cosine, _) => if cosine < pair.2 then best.set pair.1 (pair.2, qi) else best

/-- `best`, the cosine of each memory and the query that has it. -/
def bestQueries (searched : List (List (μ × ℚ))) : Dict μ (ℚ × ℕ) :=
  searched.zipIdx.foldl (fun best cut => cut.1.foldl (enter cut.2) best) ∅

/-- `assigned`, where `present` says which memories are still there. -/
def assigned (present : μ → Bool) (searched : List (List (μ × ℚ))) : List (List (μ × ℚ)) :=
  let best := bestQueries searched
  searched.zipIdx.map fun cut =>
    (cut.1.filter fun pair => (best.get? pair.1).map Prod.snd = some cut.2).filter fun pair =>
      present pair.1

/-! ## The rankings -/

/-- How a ranking came to its scores. -/
inductive Path
  | reranked
  | cosine
  deriving DecidableEq

/-- A `GatedRanking` without its tail. -/
structure Ranking (μ : Type) where
  path : Path
  ranked : List (μ × ℚ)
  passMark : ℚ

/-- `GatedRanking` -/
structure GatedRanking (μ : Type) where
  own : Ranking μ
  tail : Option (Ranking μ)

/-- `genuine_first` -/
def genuineFirst (isFamily : μ → Bool) (ids : List μ) : List μ :=
  ids.filter (fun mid => !isFamily mid) ++ ids.filter isFamily

/-- `genuine_first_ranking` -/
def genuineFirstRanking (isFamily : μ → Bool) (scored : List (μ × ℚ)) : List (μ × ℚ) :=
  scored.mergeSort fun a b =>
    (!isFamily a.1 && isFamily b.1) || (isFamily a.1 = isFamily b.1 && b.2 ≤ a.2)

/-- What a query is told while it is ranked. -/
structure Ask where
  rerank : Surroundings
  rerankFloor : Option ℚ
  cosineFloor : Option ℚ

variable (isFamily : μ → Bool)

/-- `_cosine_ranking` -/
def cosineRanking (coarse : List (μ × ℚ)) (floor : Option ℚ) : Option (Ranking μ) :=
  floor.map fun passMark => ⟨.cosine, genuineFirstRanking isFamily coarse, passMark⟩

/-- `_cosine_tail` -/
def cosineTail (coarse : List (μ × ℚ)) (rerankedIds : List μ) (floor : Option ℚ) :
    Option (Ranking μ) :=
  let unrerankedFamily := coarse.filter fun pair => pair.1 ∉ rerankedIds ∧ isFamily pair.1
  if unrerankedFamily = [] then none else cosineRanking isFamily unrerankedFamily floor

/-- `_reranked_ranking` -/
def rerankedRanking (coarse : List (μ × ℚ)) (coarseIds : List μ) (ask : Ask) (budget : ℚ)
    (maxReal : ℕ) : Option (GatedRanking μ) × ℕ :=
  if min coarseIds.length maxReal < rerankMinRealCandidates then (none, 0)
  else
    match rerankForRecall coarseIds.length ask.rerank budget maxReal with
    | none => (none, 0)
    | some outcome =>
      match outcome.normalization with
      | none => (none, if outcome.handOff = some .normalization then outcome.width else 0)
      | some scores =>
        let scoredIds := coarseIds.take outcome.width
        (ask.rerankFloor.map fun passMark =>
          ⟨⟨.reranked, genuineFirstRanking isFamily (scoredIds.zip scores), passMark⟩,
            cosineTail isFamily coarse scoredIds ask.cosineFloor⟩, outcome.width)

/-- `rank_and_gate` -/
def rankAndGate (coarse : List (μ × ℚ)) (ask : Ask) (budget : ℚ) (maxReal : ℕ) :
    Option (GatedRanking μ) × ℕ :=
  let coarseIds := genuineFirst isFamily (coarse.map Prod.fst)
  let (gated, width) := rerankedRanking isFamily coarse coarseIds ask budget maxReal
  match gated with
  | some gated => (some gated, width)
  | none => ((cosineRanking isFamily coarse ask.cosineFloor).map (⟨·, none⟩), width)

/-! ## Serving -/

/-- The key of `_serve_order`. -/
def serveLe (best : ℕ → Option ℚ) (i j : ℕ) : Bool :=
  match best i, best j with
  | none, none => i ≤ j
  | none, some _ => false
  | some _, none => true
  | some a, some b => b < a || (a = b && i ≤ j)

/-- `_serve_order` of `n` queries. -/
def serveOrder (n : ℕ) (best : ℕ → Option ℚ) : List ℕ := (List.range n).mergeSort (serveLe best)

/-- `_allocate_next` -/
def allocateNext (fittedWidth used : ℕ) : ℕ :=
  let width := min fittedWidth (candidatePool - used)
  if rerankMinRealCandidates ≤ width then width else 0

/-- The loop of `allocate_widths`, over the queries that are left. -/
def allocate (fitted : ℕ → ℕ) : ℕ → (ℕ → ℕ) → List ℕ → ℕ → ℕ
  | _, widths, [] => widths
  | used, widths, i :: rest =>
    let width := allocateNext (fitted i) used
    allocate fitted (used + width) (Function.update widths i width) rest

/-- `allocate_widths` -/
def allocateWidths (fitted : List (ℕ × Option ℚ)) : List ℕ :=
  let widths := allocate (fun i => (fitted.map Prod.fst).getD i 0) 0 (fun _ => 0)
    (serveOrder fitted.length fun i => (fitted.map Prod.snd).getD i none)
  (List.range fitted.length).map widths

/-- `ParagraphOutcome` -/
structure ParagraphOutcome (μ : Type) where
  index : ℕ
  gated : Option (GatedRanking μ)
  rerankedWidth : ℕ

/-- The loop that serves the queries, over those that are left. -/
def serve (candidates : ℕ → List (μ × ℚ)) (asks : ℕ → Ask) (share : ℚ) (rerankerDown : Bool) :
    ℕ → List ℕ → List (ParagraphOutcome μ)
  | _, [] => []
  | used, qi :: rest =>
    if candidates qi = [] then
      ⟨qi, none, 0⟩ :: serve candidates asks share rerankerDown used rest
    else
      let (gated, reranked) := rankAndGate isFamily (candidates qi) (asks qi) share
        (if rerankerDown then 0 else candidatePool - used)
      ⟨qi, gated, reranked⟩ :: serve candidates asks share rerankerDown (used + reranked) rest

/-- The best cosine of a query's candidates. -/
def bestCosine (candidates : List (μ × ℚ)) : Option ℚ := (candidates.map Prod.snd).max?

/-- A message at the point where its queries are served: each query is its cosines. -/
structure Search (μ : Type) where
  pool : Pool μ
  /-- Which of the memories are still there. -/
  present : μ → Bool
  cosines : List (μ → ℚ)
  asks : ℕ → Ask
  /-- The time that each query has. -/
  share : ℚ
  rerankerDown : Bool

/-- The candidates of a query. -/
def Search.candidates (search : Search μ) (qi : ℕ) : List (μ × ℚ) :=
  (assigned search.present (search.cosines.map (coarseCut search.pool))).getD qi []

/-- What the queries come to, in the order in which they are served. -/
def Search.outcomes (search : Search μ) : List (ParagraphOutcome μ) :=
  serve search.pool.isFamily search.candidates search.asks search.share search.rerankerDown 0
    (serveOrder search.cosines.length fun qi => bestCosine (search.candidates qi))

/-- The candidates that a query reranks where all fifty are left. -/
def fittedWidth (coarse : List (μ × ℚ)) (ask : Ask) (budget : ℚ) : ℕ :=
  (rankAndGate isFamily coarse ask budget candidatePool).2

/-- The widths that the queries may have, where the reranker serves them. -/
def Search.fitted (search : Search μ) (qi : ℕ) : ℕ :=
  if search.rerankerDown then 0
  else fittedWidth search.pool.isFamily (search.candidates qi) (search.asks qi) search.share

/-- The outcomes in the order of the queries. -/
def Search.paragraphs (search : Search μ) : List (ParagraphOutcome μ) :=
  (List.range search.cosines.length).filterMap fun qi => search.outcomes.find? (·.index = qi)

/-! ## The coarse cut -/

variable {isFamily} {size : ℕ}

omit [DecidableEq μ] in
theorem walkCut_eq {ordered genuine family : List (μ × ℚ)} {rank : ℕ} (h : genuine.length ≤ size) :
    walkCut isFamily size rank genuine family ordered =
      (genuine ++ (ordered.filter fun pair => !isFamily pair.1).take (size - genuine.length)) ++
        (family ++ (ordered.take (size - rank)).filter fun pair => isFamily pair.1) := by
  induction ordered generalizing rank genuine family with
  | nil => simp [walkCut]
  | cons pair rest ih =>
    unfold walkCut
    by_cases hstop : size ≤ rank ∧ size ≤ genuine.length
    · rw [if_pos hstop, Nat.sub_eq_zero_of_le hstop.1, Nat.sub_eq_zero_of_le hstop.2]
      simp
    rw [if_neg hstop]
    -- The rank of the pair is within the size, or the rest is of no account to the family.
    have hrank : size - rank = size - (rank + 1) + 1 ∨ size - rank = 0 ∧ size - (rank + 1) = 0 := by
      omega
    cases hfamily : isFamily pair.1 with
    | true =>
      rw [if_pos rfl, ih h, List.filter_cons_of_neg (by simp [hfamily])]
      rcases hrank with hin | ⟨hout, hout'⟩
      · rw [if_pos (by omega), hin, List.take_succ_cons, List.filter_cons_of_pos (by simpa using hfamily),
          List.append_assoc family]
        rfl
      · rw [if_neg (by omega), hout, hout', List.take_zero, List.take_zero]
    | false =>
      have htake : ((pair :: rest).take (size - rank)).filter (fun pair => isFamily pair.1) =
          (rest.take (size - (rank + 1))).filter fun pair => isFamily pair.1 := by
        rcases hrank with hin | ⟨hout, hout'⟩
        · rw [hin, List.take_succ_cons, List.filter_cons_of_neg (by simp [hfamily])]
        · rw [hout, hout', List.take_zero, List.take_zero]
      rw [if_neg (by simp), List.filter_cons_of_pos (by simp [hfamily]), htake]
      by_cases hroom : genuine.length < size
      · have hsize : size - genuine.length = size - (genuine ++ [pair]).length + 1 := by
          rw [List.length_append, List.length_singleton]
          omega
        rw [if_pos hroom, ih (by rw [List.length_append]; exact hroom), hsize, List.take_succ_cons,
          List.append_assoc genuine]
        rfl
      · have hfull : size - genuine.length = 0 := by
          omega
        rw [if_neg hroom, ih h, hfull, List.take_zero, List.take_zero]

omit [DecidableEq μ] in
/-- The walk keeps the first genuine pairs, and the family pairs among the first of all. -/
theorem walkCoarseCut_eq (isFamily : μ → Bool) (size : ℕ) (ordered : List (μ × ℚ)) :
    walkCoarseCut isFamily size ordered =
      (ordered.filter fun pair => !isFamily pair.1).take size ++
        (ordered.take size).filter fun pair => isFamily pair.1 :=
  walkCut_eq (Nat.zero_le size)

/-! ## The queries' candidates -/

/-- The pairs of the cuts, with their queries. -/
def entered (searched : List (List (μ × ℚ))) : List ((μ × ℚ) × ℕ) :=
  searched.zipIdx.flatMap fun cut => cut.1.map (·, cut.2)

/-- What is kept of the pairs that were seen: the best cosine of each, and the first query that has
it. -/
structure Keeps (seen : List ((μ × ℚ) × ℕ)) (best : Dict μ (ℚ × ℕ)) : Prop where
  none : ∀ mid, best.get? mid = none → ∀ t ∈ seen, t.1.1 ≠ mid
  mem : ∀ mid c q, best.get? mid = some (c, q) → ((mid, c), q) ∈ seen
  best : ∀ mid c q, best.get? mid = some (c, q) →
    ∀ t ∈ seen, t.1.1 = mid → t.1.2 ≤ c ∧ (t.1.2 = c → q ≤ t.2)

/-- A pair takes the place of what it is better than. -/
theorem Keeps.set {seen : List ((μ × ℚ) × ℕ)} {best : Dict μ (ℚ × ℕ)} (h : Keeps seen best)
    {pair : μ × ℚ} {qi : ℕ} (hpair : ∀ t ∈ seen, t.1.1 = pair.1 → t.1.2 < pair.2) :
    Keeps (seen ++ [(pair, qi)]) (best.set pair.1 (pair.2, qi)) := by
  refine ⟨fun mid hnone t ht => ?_, fun mid c q hget => ?_, fun mid c q hget t ht hmid => ?_⟩
  · rw [Dict.get?_set] at hnone
    split_ifs at hnone with hmid
    rcases List.mem_append.mp ht with ht | ht
    · exact h.none mid hnone t ht
    · rw [List.mem_singleton.mp ht]
      exact Ne.symm hmid
  · rw [Dict.get?_set] at hget
    split_ifs at hget with hmid
    · obtain ⟨rfl, rfl⟩ := Prod.mk.inj (Option.some.inj hget)
      exact List.mem_append_right _ (List.mem_singleton.mpr (by rw [hmid]))
    · exact List.mem_append_left _ (h.mem mid c q hget)
  · rw [Dict.get?_set] at hget
    split_ifs at hget with hpairmid
    · obtain ⟨rfl, rfl⟩ := Prod.mk.inj (Option.some.inj hget)
      rcases List.mem_append.mp ht with ht | ht
      · have hlt := hpair t ht (hmid.trans hpairmid)
        exact ⟨hlt.le, fun heq => absurd heq hlt.ne⟩
      · rw [List.mem_singleton.mp ht]
        exact ⟨le_rfl, fun _ => le_rfl⟩
    · rcases List.mem_append.mp ht with ht | ht
      · exact h.best mid c q hget t ht hmid
      · rw [List.mem_singleton.mp ht] at hmid
        exact absurd hmid.symm hpairmid

/-- A pair of a later query is entered where its cosine is better. -/
theorem Keeps.enter {seen : List ((μ × ℚ) × ℕ)} {best : Dict μ (ℚ × ℕ)} (h : Keeps seen best)
    {pair : μ × ℚ} {qi : ℕ} (hqi : ∀ t ∈ seen, t.2 ≤ qi) :
    Keeps (seen ++ [(pair, qi)]) (enter qi best pair) := by
  unfold SemanticRecall.enter
  cases hget : best.get? pair.1 with
  | none => exact h.set fun t ht hmid => absurd hmid (h.none _ hget t ht)
  | some kept =>
    obtain ⟨cosine, q⟩ := kept
    dsimp only
    split_ifs with hbetter
    · exact h.set fun t ht hmid => ((h.best _ _ _ hget t ht hmid).1).trans_lt hbetter
    · refine ⟨fun mid hnone t ht => ?_, fun mid c q' hmem => ?_, fun mid c q' hmem t ht hmid => ?_⟩
      · rcases List.mem_append.mp ht with ht | ht
        · exact h.none mid hnone t ht
        · rw [List.mem_singleton.mp ht]
          rintro rfl
          rw [hget] at hnone
          cases hnone
      · exact List.mem_append_left _ (h.mem mid c q' hmem)
      · rcases List.mem_append.mp ht with ht | ht
        · exact h.best mid c q' hmem t ht hmid
        · rw [List.mem_singleton.mp ht] at hmid ⊢
          obtain rfl : pair.1 = mid := hmid
          rw [hget] at hmem
          obtain ⟨rfl, rfl⟩ := Prod.mk.inj (Option.some.inj hmem)
          exact ⟨not_lt.mp hbetter, fun _ => hqi _ (h.mem _ _ _ hget)⟩

omit [DecidableEq μ] in
theorem pairwise_entered (searched : List (List (μ × ℚ))) :
    (entered searched).Pairwise fun t t' => t.2 ≤ t'.2 := by
  have hindex : searched.zipIdx.Pairwise fun cut cut' => cut.2 ≤ cut'.2 := by
    refine List.pairwise_iff_getElem.mpr fun i j hi hj hij => ?_
    rw [List.getElem_zipIdx, List.getElem_zipIdx]
    exact Nat.add_le_add_left hij.le 0
  refine List.pairwise_flatMap.mpr ⟨fun cut _ => ?_, hindex.imp fun hle t ht t' ht' => ?_⟩
  · exact List.pairwise_map.mpr (List.pairwise_of_forall fun _ _ => le_rfl)
  · obtain ⟨pair, -, rfl⟩ := List.mem_map.mp ht
    obtain ⟨pair', -, rfl⟩ := List.mem_map.mp ht'
    exact hle

theorem keeps_bestQueries (searched : List (List (μ × ℚ))) :
    Keeps (entered searched) (bestQueries searched) := by
  have hfold : bestQueries searched =
      (entered searched).foldl (fun best t => SemanticRecall.enter t.2 best t.1) ∅ := by
    rw [entered, List.foldl_flatMap]
    simp only [List.foldl_map]
    rfl
  rw [hfold]
  have hpairwise := pairwise_entered searched
  clear hfold
  generalize entered searched = ts at hpairwise ⊢
  induction ts using List.reverseRecOn with
  | nil =>
    refine ⟨fun mid _ t ht => absurd ht List.not_mem_nil, fun mid c q hget => ?_,
      fun mid c q hget => ?_⟩
    · cases hget
    · cases hget
  | append_singleton ts t ih =>
    obtain ⟨hts, -, hlast⟩ := List.pairwise_append.mp hpairwise
    rw [List.foldl_append]
    exact (ih hts).enter fun t' ht' => hlast t' ht' t (List.mem_singleton.mpr rfl)

omit [DecidableEq μ] in
/-- The pairs of a query's cut. -/
theorem mem_entered {searched : List (List (μ × ℚ))} {pair : μ × ℚ} {qi : ℕ} :
    (pair, qi) ∈ entered searched ↔ pair ∈ searched.getD qi [] := by
  rw [entered, List.mem_flatMap, List.getD_eq_getElem?_getD]
  constructor
  · rintro ⟨⟨cut, q⟩, hcut, hpair⟩
    obtain ⟨p, hp, heq⟩ := List.mem_map.mp hpair
    obtain ⟨rfl, rfl⟩ := Prod.mk.inj heq
    rw [List.mk_mem_zipIdx_iff_getElem?.mp hcut]
    exact hp
  · intro hpair
    cases hcut : searched[qi]? with
    | none =>
      rw [hcut] at hpair
      exact absurd hpair List.not_mem_nil
    | some cut =>
      rw [hcut] at hpair
      exact ⟨(cut, qi), List.mk_mem_zipIdx_iff_getElem?.mpr hcut, List.mem_map_of_mem hpair⟩

/-- A candidate of a query is a pair of its cut whose cosine is the best of its memory in all cuts,
and is in no earlier one. -/
theorem mem_assigned {present : μ → Bool} {searched : List (List (μ × ℚ))}
    (hnodup : ∀ qi, ((searched.getD qi []).map Prod.fst).Nodup) {mid : μ} {c : ℚ} {qi : ℕ} :
    (mid, c) ∈ (assigned present searched).getD qi [] ↔
      present mid = true ∧ (mid, c) ∈ searched.getD qi [] ∧
        ∀ j c', (mid, c') ∈ searched.getD j [] → c' ≤ c ∧ (c' = c → qi ≤ j) := by
  have hkeeps := keeps_bestQueries searched
  have hassigned : (mid, c) ∈ (assigned present searched).getD qi [] ↔ present mid = true ∧
      (mid, c) ∈ searched.getD qi [] ∧
        ((bestQueries searched).get? mid).map Prod.snd = some qi := by
    rw [List.getD_eq_getElem?_getD, List.getD_eq_getElem?_getD, assigned, List.getElem?_map,
      List.getElem?_zipIdx]
    cases searched[qi]? with
    | none => simp
    | some cut => simp [and_left_comm]
  rw [hassigned]
  refine and_congr_right fun _ => and_congr_right fun hmem => ?_
  constructor
  · intro hbest
    obtain ⟨⟨c₀, q⟩, hget, rfl⟩ := Option.map_eq_some_iff.mp hbest
    -- The query's cut has one pair of the memory, and it is the one that was kept.
    have hkept := mem_entered.mp (hkeeps.mem _ _ _ hget)
    obtain rfl : c₀ = c := congrArg Prod.snd
      (List.inj_on_of_nodup_map (hnodup q) hkept hmem rfl)
    exact fun j c' hc' => hkeeps.best _ _ _ hget _ (mem_entered.mpr hc') rfl
  · intro hbest
    cases hget : (bestQueries searched).get? mid with
    | none => exact absurd rfl (hkeeps.none _ hget _ (mem_entered.mpr hmem))
    | some kept =>
      obtain ⟨c₀, q⟩ := kept
      have hkept := mem_entered.mp (hkeeps.mem _ _ _ hget)
      obtain ⟨hle, hfirst⟩ := hkeeps.best _ _ _ hget _ (mem_entered.mpr hmem) rfl
      obtain ⟨hle', hfirst'⟩ := hbest q c₀ hkept
      have heq : c₀ = c := le_antisymm hle' hle
      exact congrArg some (le_antisymm (hfirst heq.symm) (hfirst' heq))

/-- What does not satisfy `p` comes first. -/
theorem perm_filter_append {α : Type} (p : α → Bool) (l : List α) :
    (l.filter (fun a => !p a) ++ l.filter p).Perm l :=
  List.perm_append_comm.trans (List.filter_append_perm p l)

omit [DecidableEq μ] in
/-- A coarse cut leaves out some of the memories. -/
theorem coarseCut_subperm (pool : Pool μ) (cosine : μ → ℚ) :
    (coarseCut pool cosine).Subperm (pool.ids.map fun mid => (mid, cosine mid)) := by
  rw [coarseCut, walkCoarseCut_eq]
  have hperm : (byScore (pool.ids.map fun mid => (mid, cosine mid))).Perm
      (pool.ids.map fun mid => (mid, cosine mid)) := List.mergeSort_perm _ _
  refine List.Subperm.trans (List.Subperm.trans (List.Sublist.subperm ?_)
    (perm_filter_append (fun pair : μ × ℚ => pool.isFamily pair.1) _).subperm) hperm.subperm
  exact (List.take_sublist _ _).append ((List.take_sublist _ _).filter _)

omit [DecidableEq μ] in
theorem nodup_coarseCut (pool : Pool μ) (cosine : μ → ℚ) :
    ((coarseCut pool cosine).map Prod.fst).Nodup := by
  have hids : (pool.ids.map fun mid => (mid, cosine mid)).map Prod.fst = pool.ids := by
    rw [List.map_map]
    exact List.map_id _
  obtain ⟨cut, hperm, hsub⟩ := coarseCut_subperm pool cosine
  have hcut := hsub.map Prod.fst
  rw [hids] at hcut
  exact (hperm.map Prod.fst).nodup_iff.mp (pool.nodup.sublist hcut)

omit [DecidableEq μ] in
theorem nodup_searched (search : Search μ) (qi : ℕ) :
    (((search.cosines.map (coarseCut search.pool)).getD qi []).map Prod.fst).Nodup := by
  rw [List.getD_eq_getElem?_getD, List.getElem?_map]
  cases search.cosines[qi]? with
  | none => exact List.nodup_nil
  | some cosine => exact nodup_coarseCut _ _

omit [DecidableEq μ] in
theorem mem_searched {search : Search μ} {qi : ℕ} {pair : μ × ℚ} :
    pair ∈ (search.cosines.map (coarseCut search.pool)).getD qi [] ↔
      ∃ cosine, search.cosines[qi]? = some cosine ∧ pair ∈ coarseCut search.pool cosine := by
  rw [List.getD_eq_getElem?_getD, List.getElem?_map]
  cases search.cosines[qi]? with
  | none => simp
  | some cosine => simp

/-- The first query whose cut has a memory with its best cosine. -/
theorem exists_first_best (search : Search μ) {mid : μ} {qi : ℕ} {c : ℚ}
    (h : (mid, c) ∈ (search.cosines.map (coarseCut search.pool)).getD qi []) :
    ∃ q c', (mid, c') ∈ (search.cosines.map (coarseCut search.pool)).getD q [] ∧
      ∀ j c'', (mid, c'') ∈ (search.cosines.map (coarseCut search.pool)).getD j [] →
        c'' ≤ c' ∧ (c'' = c' → q ≤ j) := by
  have hkeeps := keeps_bestQueries (search.cosines.map (coarseCut search.pool))
  cases hget : (bestQueries (search.cosines.map (coarseCut search.pool))).get? mid with
  | none => exact absurd rfl (hkeeps.none _ hget _ (mem_entered.mpr h))
  | some kept =>
    exact ⟨kept.2, kept.1, mem_entered.mp (hkeeps.mem _ _ _ hget), fun j c'' hj =>
      hkeeps.best _ _ _ hget _ (mem_entered.mpr hj) rfl⟩

/-- A cut is the best genuine memories, and the family memories among the best of all. Each memory
of a cut that is still there is a candidate of one query: the first of those in whose cut it has its
best cosine. -/
theorem Search.candidates_spec (search : Search μ) :
    (∀ cosine, coarseCut search.pool cosine =
      ((byScore (search.pool.ids.map fun mid => (mid, cosine mid))).filter fun pair =>
          !search.pool.isFamily pair.1).take candidatePool ++
        ((byScore (search.pool.ids.map fun mid => (mid, cosine mid))).take candidatePool).filter
          fun pair => search.pool.isFamily pair.1) ∧
    (∀ mid c qi, (mid, c) ∈ search.candidates qi ↔ search.present mid = true ∧
      (∃ cosine, search.cosines[qi]? = some cosine ∧ (mid, c) ∈ coarseCut search.pool cosine) ∧
      ∀ (j : ℕ) cosine, search.cosines[j]? = some cosine →
        ∀ c', (mid, c') ∈ coarseCut search.pool cosine → c' ≤ c ∧ (c' = c → qi ≤ j)) ∧
    ∀ mid, search.present mid = true →
      (∃ cosine ∈ search.cosines, mid ∈ (coarseCut search.pool cosine).map Prod.fst) →
        ∃! qi, mid ∈ (search.candidates qi).map Prod.fst := by
  have hmem : ∀ mid c qi, (mid, c) ∈ search.candidates qi ↔ search.present mid = true ∧
      (mid, c) ∈ (search.cosines.map (coarseCut search.pool)).getD qi [] ∧
        ∀ j c', (mid, c') ∈ (search.cosines.map (coarseCut search.pool)).getD j [] →
          c' ≤ c ∧ (c' = c → qi ≤ j) :=
    fun mid c qi => mem_assigned (nodup_searched search)
  refine ⟨fun cosine => walkCoarseCut_eq _ _ _, fun mid c qi => ?_, fun mid hmid hcut => ?_⟩
  · rw [hmem, mem_searched]
    refine and_congr_right fun _ => and_congr_right fun _ => ?_
    constructor
    · intro h j cosine hj c' hc'
      exact h j c' (mem_searched.mpr ⟨cosine, hj, hc'⟩)
    · intro h j c' hc'
      obtain ⟨cosine, hj, hc'⟩ := mem_searched.mp hc'
      exact h j cosine hj c' hc'
  · obtain ⟨cosine, hcosine, hmem'⟩ := hcut
    obtain ⟨qi, hqi⟩ := List.getElem?_of_mem hcosine
    obtain ⟨⟨_, c⟩, hpair, rfl⟩ := List.mem_map.mp hmem'
    obtain ⟨q, c', hq, hbest⟩ := exists_first_best search (mem_searched.mpr ⟨cosine, hqi, hpair⟩)
    refine ⟨q, List.mem_map.mpr ⟨_, (hmem _ c' q).mpr ⟨hmid, hq, hbest⟩, rfl⟩, ?_⟩
    intro q' hq'
    obtain ⟨⟨_, c₁⟩, hpair', rfl⟩ := List.mem_map.mp hq'
    obtain ⟨-, hin, hbest'⟩ := (hmem _ c₁ q').mp hpair'
    -- Each of the two has the best cosine, and is the first that has it.
    obtain ⟨hle, hfirst⟩ := hbest q' c₁ hin
    obtain ⟨hle', hfirst'⟩ := hbest' q c' hq
    have heq : c₁ = c' := le_antisymm hle hle'
    exact le_antisymm (hfirst' heq.symm) (hfirst heq)

/-! ## Serving -/

theorem serveOrder_perm (n : ℕ) (best : ℕ → Option ℚ) : (serveOrder n best).Perm (List.range n) :=
  List.mergeSort_perm _ _

/-- The widths along an order of service. -/
def widthsAlong (fitted : ℕ → ℕ) : ℕ → List ℕ → List ℕ
  | _, [] => []
  | used, i :: rest =>
    allocateNext (fitted i) used :: widthsAlong fitted (used + allocateNext (fitted i) used) rest

variable {fitted : ℕ → ℕ} {used : ℕ} {order : List ℕ}

theorem allocate_of_notMem {widths : ℕ → ℕ} {i : ℕ} (h : i ∉ order) :
    allocate fitted used widths order i = widths i := by
  induction order generalizing used widths with
  | nil => rfl
  | cons j rest ih =>
    obtain ⟨hij, hrest⟩ := List.ne_and_not_mem_of_not_mem_cons h
    exact (ih hrest).trans (Function.update_of_ne hij _ _)

theorem map_allocate (h : order.Nodup) (widths : ℕ → ℕ) :
    order.map (allocate fitted used widths order) = widthsAlong fitted used order := by
  induction order generalizing used widths with
  | nil => rfl
  | cons i rest ih =>
    obtain ⟨hi, hrest⟩ := List.nodup_cons.mp h
    rw [List.map_cons, widthsAlong]
    refine congrArg₂ _ ?_ (ih hrest _)
    exact (allocate_of_notMem hi).trans (Function.update_self _ _ _)

/-- What the queries of an order of service may be given. -/
structure Feasible (fitted : ℕ → ℕ) (used : ℕ) (order widths : List ℕ) : Prop where
  each : List.Forall₂ (fun i width => width = 0 ∨ rerankMinRealCandidates ≤ width ∧ width ≤ fitted i)
    order widths
  sum : used + widths.sum ≤ candidatePool

theorem feasible_widthsAlong (h : used ≤ candidatePool) :
    Feasible fitted used order (widthsAlong fitted used order) := by
  induction order generalizing used with
  | nil => exact ⟨.nil, h⟩
  | cons i rest ih =>
    have hnext : allocateNext (fitted i) used = 0 ∨ rerankMinRealCandidates ≤ allocateNext (fitted i) used ∧
        allocateNext (fitted i) used ≤ fitted i := by
      unfold allocateNext
      dsimp only
      split_ifs with hmin
      · exact .inr ⟨hmin, min_le_left _ _⟩
      · exact .inl rfl
    have hroom : used + allocateNext (fitted i) used ≤ candidatePool := by
      unfold allocateNext
      dsimp only
      split_ifs
      · omega
      · exact h
    have hrest := ih hroom
    refine ⟨.cons hnext hrest.each, ?_⟩
    rw [widthsAlong, List.sum_cons, ← add_assoc]
    exact hrest.sum

/-- No other widths are greater along the order of service. -/
theorem le_widthsAlong {widths : List ℕ} (h : Feasible fitted used order widths) :
    widths = widthsAlong fitted used order ∨
      List.Lex (· < ·) widths (widthsAlong fitted used order) := by
  induction order generalizing used widths with
  | nil =>
    obtain ⟨heach, -⟩ := h
    cases heach
    exact .inl rfl
  | cons i rest ih =>
    obtain ⟨heach, hsum⟩ := h
    cases heach with
    | @cons _ width _ widths hwidth heach =>
      rw [List.sum_cons] at hsum
      have hle : width ≤ allocateNext (fitted i) used := by
        unfold allocateNext
        dsimp only
        split_ifs with hmin
        · omega
        · omega
      rw [widthsAlong]
      rcases hle.lt_or_eq with hlt | rfl
      · exact .inr (.rel hlt)
      · rw [← add_assoc] at hsum
        exact (ih ⟨heach, hsum⟩).imp (congrArg _) .cons

/-! ## The widths that the queries are given -/

omit [DecidableEq μ] in
theorem length_genuineFirst (isFamily : μ → Bool) (ids : List μ) :
    (genuineFirst isFamily ids).length = ids.length :=
  (perm_filter_append isFamily ids).length_eq

/-- What a query reranks. -/
theorem rankAndGate_width {coarse : List (μ × ℚ)} {ask : Ask} {budget : ℚ} {maxReal : ℕ} :
    (rankAndGate isFamily coarse ask budget maxReal).2 =
      rerankedWidth coarse.length ask.rerank budget maxReal := by
  have hids : (genuineFirst isFamily (coarse.map Prod.fst)).length = coarse.length := by
    rw [length_genuineFirst, List.length_map]
  have hwidth : (rerankedRanking isFamily coarse (genuineFirst isFamily (coarse.map Prod.fst)) ask
      budget maxReal).2 = rerankedWidth coarse.length ask.rerank budget maxReal := by
    unfold rerankedRanking
    rw [hids]
    split_ifs with hfew
    · rw [rerankedWidth_form, if_pos]
      rcases min_lt_iff.mp hfew with hcoarse | hreal
      · exact .inl ((min_le_left _ _).trans_lt hcoarse)
      · exact .inr (.inl ((min_le_left _ _).trans_lt hreal))
    · unfold rerankedWidth
      cases hr : rerankForRecall coarse.length ask.rerank budget maxReal with
      | none => rfl
      | some r =>
        dsimp only
        cases hscores : r.normalization with
        | none =>
          rw [if_neg (handOff_ne_normalization hr)]
          rfl
        | some scores => rfl
  rw [← hwidth]
  unfold rankAndGate
  dsimp only
  split
  · rfl
  · rfl

/-- A query that is served is allocated what is left of its fitted width. -/
theorem rankAndGate_allocate {coarse : List (μ × ℚ)} {ask : Ask} {budget : ℚ} :
    (rankAndGate isFamily coarse ask budget (candidatePool - used)).2 =
      allocateNext (fittedWidth isFamily coarse ask budget) used := by
  rw [fittedWidth, rankAndGate_width, rankAndGate_width, rerankedWidth_eq (Nat.sub_le _ _)]
  rfl

theorem rankAndGate_nil {ask : Ask} {budget : ℚ} {maxReal : ℕ} :
    (rankAndGate isFamily ([] : List (μ × ℚ)) ask budget maxReal).2 = 0 := by
  rw [rankAndGate_width, rerankedWidth_form]
  refine if_pos (.inl ?_)
  rw [List.length_nil]
  decide

/-- The queries are given what `allocate_widths` gives. -/
theorem map_width_serve (search : Search μ) :
    (serve search.pool.isFamily search.candidates search.asks search.share search.rerankerDown used
      order).map ParagraphOutcome.rerankedWidth = widthsAlong search.fitted used order := by
  induction order generalizing used with
  | nil => rfl
  | cons qi rest ih =>
    have hnone : ∀ u, allocateNext 0 u = 0 := by
      intro u
      unfold allocateNext
      rw [Nat.zero_min]
      rfl
    unfold serve
    by_cases hempty : search.candidates qi = []
    · have hzero : search.fitted qi = 0 := by
        unfold Search.fitted fittedWidth
        rw [hempty, rankAndGate_nil, ite_self]
      rw [if_pos hempty, List.map_cons, ih, widthsAlong, hzero, hnone, Nat.add_zero]
    · have hwidth : (rankAndGate search.pool.isFamily (search.candidates qi) (search.asks qi)
          search.share (if search.rerankerDown then 0 else candidatePool - used)).2 =
            allocateNext (search.fitted qi) used := by
        unfold Search.fitted
        split_ifs
        · rw [hnone, rankAndGate_width, rerankedWidth_form]
          exact if_pos (.inr (.inl (by decide)))
        · exact rankAndGate_allocate
      rw [if_neg hempty]
      dsimp only
      rw [List.map_cons, ih, widthsAlong, hwidth]

theorem map_index_serve (search : Search μ) :
    (serve search.pool.isFamily search.candidates search.asks search.share search.rerankerDown used
      order).map ParagraphOutcome.index = order := by
  induction order generalizing used with
  | nil => rfl
  | cons qi rest ih =>
    unfold serve
    dsimp only
    by_cases hempty : search.candidates qi = []
    · rw [if_pos hempty, List.map_cons, ih]
    · rw [if_neg hempty, List.map_cons, ih]

/-- The widths of a message, as `allocate_widths` gives them. -/
def Search.widths (search : Search μ) : List ℕ :=
  allocateWidths ((List.range search.cosines.length).map fun qi =>
    (search.fitted qi, bestCosine (search.candidates qi)))

theorem Search.candidates_of_le (search : Search μ) {qi : ℕ} (h : search.cosines.length ≤ qi) :
    search.candidates qi = [] := by
  unfold Search.candidates assigned
  rw [List.getD_eq_getElem?_getD, List.getElem?_eq_none]
  · rfl
  · rw [List.length_map, List.length_zipIdx, List.length_map]
    exact h

theorem Search.widths_eq (search : Search μ) : search.widths =
    (List.range search.cosines.length).map (allocate search.fitted 0 (fun _ => 0)
      (search.outcomes.map ParagraphOutcome.index)) := by
  have hfitted : (fun i => (((List.range search.cosines.length).map fun qi =>
      (search.fitted qi, bestCosine (search.candidates qi))).map Prod.fst).getD i 0) =
        search.fitted := by
    funext i
    rw [List.map_map, List.getD_eq_getElem?_getD, List.getElem?_map]
    by_cases hi : i < search.cosines.length
    · rw [List.getElem?_range hi]
      rfl
    · have hzero : search.fitted i = 0 := by
        unfold Search.fitted fittedWidth
        rw [search.candidates_of_le (not_lt.mp hi), rankAndGate_nil, ite_self]
      rw [List.getElem?_eq_none (by rw [List.length_range]; exact not_lt.mp hi), hzero]
      rfl
  have hbest : (fun i => (((List.range search.cosines.length).map fun qi =>
      (search.fitted qi, bestCosine (search.candidates qi))).map Prod.snd).getD i none) =
        fun qi => bestCosine (search.candidates qi) := by
    funext i
    rw [List.map_map, List.getD_eq_getElem?_getD, List.getElem?_map]
    by_cases hi : i < search.cosines.length
    · rw [List.getElem?_range hi]
      rfl
    · rw [List.getElem?_eq_none (by rw [List.length_range]; exact not_lt.mp hi),
        search.candidates_of_le (not_lt.mp hi)]
      rfl
  unfold Search.widths allocateWidths
  dsimp only
  rw [hfitted, hbest, List.length_map, List.length_range, Search.outcomes, map_index_serve]

theorem serveLe_total (best : ℕ → Option ℚ) (i j : ℕ) : serveLe best i j || serveLe best j i := by
  unfold serveLe
  cases best i with
  | none =>
    cases best j with
    | none => simpa using Nat.le_total i j
    | some b => rfl
  | some a =>
    cases best j with
    | none => rfl
    | some b =>
      rcases lt_trichotomy a b with hlt | rfl | hgt
      · simp [hlt]
      · simpa using Nat.le_total i j
      · simp [hgt]

theorem serveLe_trans (best : ℕ → Option ℚ) (i j k : ℕ) (hij : serveLe best i j)
    (hjk : serveLe best j k) : serveLe best i k := by
  unfold serveLe at hij hjk ⊢
  cases hi : best i with
  | none =>
    cases hk : best k with
    | none =>
      cases hj : best j with
      | none =>
        simp only [hi, hj, hk, decide_eq_true_eq] at hij hjk ⊢
        exact hij.trans hjk
      | some b => simp [hi, hj] at hij
    | some c =>
      cases hj : best j with
      | none => simp [hj, hk] at hjk
      | some b => simp [hi, hj] at hij
  | some a =>
    cases hk : best k with
    | none => rfl
    | some c =>
      cases hj : best j with
      | none => simp [hj, hk] at hjk
      | some b =>
        simp only [hi, hj, hk, Bool.or_eq_true, Bool.and_eq_true, decide_eq_true_eq] at hij hjk ⊢
        rcases hij with hab | ⟨rfl, hle⟩
        · rcases hjk with hbc | ⟨rfl, -⟩
          · exact .inl (hbc.trans hab)
          · exact .inl hab
        · exact hjk.imp_right fun h => ⟨h.1, hle.trans h.2⟩

/-- The queries are served by their best cosine, each with the width that `allocate_widths` gives
it. No other widths of which none is too small or too large are greater along the order of service,
and none are more than fifty in all. -/
theorem Search.outcomes_widths (search : Search μ) :
    (search.outcomes.map ParagraphOutcome.index).Perm (List.range search.cosines.length) ∧
    (search.outcomes.map ParagraphOutcome.index).Pairwise
      (fun i j => serveLe (fun qi => bestCosine (search.candidates qi)) i j) ∧
    (∀ o ∈ search.outcomes, search.widths[o.index]? = some o.rerankedWidth) ∧
    Feasible search.fitted 0 (search.outcomes.map ParagraphOutcome.index)
      (search.outcomes.map ParagraphOutcome.rerankedWidth) ∧
    ∀ widths, Feasible search.fitted 0 (search.outcomes.map ParagraphOutcome.index) widths →
      widths = search.outcomes.map ParagraphOutcome.rerankedWidth ∨
        List.Lex (· < ·) widths (search.outcomes.map ParagraphOutcome.rerankedWidth) := by
  have hindex : search.outcomes.map ParagraphOutcome.index =
      serveOrder search.cosines.length fun qi => bestCosine (search.candidates qi) :=
    map_index_serve search
  have hwidths : search.outcomes.map ParagraphOutcome.rerankedWidth =
      widthsAlong search.fitted 0 (search.outcomes.map ParagraphOutcome.index) := by
    rw [hindex]
    exact map_width_serve search
  have hperm : (search.outcomes.map ParagraphOutcome.index).Perm
      (List.range search.cosines.length) := by
    rw [hindex]
    exact serveOrder_perm _ _
  refine ⟨hperm, ?_, fun o ho => ?_, ?_, fun widths h => ?_⟩
  · rw [hindex]
    exact List.pairwise_mergeSort (serveLe_trans _) (serveLe_total _) _
  · have hrange := hperm.mem_iff.mp (List.mem_map_of_mem ho)
    have heach : (search.outcomes.map ParagraphOutcome.index).map
        (allocate search.fitted 0 (fun _ => 0) (search.outcomes.map ParagraphOutcome.index)) =
          widthsAlong search.fitted 0 (search.outcomes.map ParagraphOutcome.index) :=
      map_allocate (hperm.nodup_iff.mpr List.nodup_range) _
    rw [← hwidths, List.map_map] at heach
    rw [search.widths_eq, List.getElem?_map, List.getElem?_range (List.mem_range.mp hrange)]
    exact congrArg some (List.map_inj_left.mp heach o ho)
  · rw [hwidths]
    exact feasible_widthsAlong (Nat.zero_le _)
  · rw [hwidths]
    exact le_widthsAlong h

end Companion.Memory.SemanticRecall

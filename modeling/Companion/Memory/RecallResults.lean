import Companion.Memory.SemanticRecall
import Mathlib.Data.Finset.Insert
import Mathlib.Data.Finset.Card
import Mathlib.Data.List.MinMax

/-!
# The results of a recall

From the rankings of a message's queries to what is shown: `paragraph_result_groups`,
`order_result_groups`, `assemble_with_guarantees` and `merge_with_keyword` of
`brain/memory/semantic_recall.py`. Only what clears the floor of its own ranking is a result, the
results stand in the order of their groups, and the best genuine memory of each query is kept first.

The two caps, of the semantic results and of these with the keyword hits, are applied one after the
other. What the first one keeps of the guaranteed memories the second one keeps too
(`recall_spec`).
-/

namespace Companion.Memory.RecallResults

open SemanticRecall

variable {μ α : Type} [DecidableEq μ]

/-- The groups of the results. -/
inductive Group
  | rerankedGenuine
  | rerankedFamily
  | cosineGenuine
  | keywordGenuine
  | cosineFamily
  | keywordFamily
  deriving DecidableEq

/-- An order that `result_group_order` accepts: it names each group once. -/
structure GroupOrder where
  groups : List Group
  nodup : groups.Nodup
  complete : ∀ g, g ∈ groups

/-- `RECALL_RESULT_GROUP_ORDER` -/
def recallResultGroupOrder : GroupOrder where
  groups := [.rerankedGenuine, .rerankedFamily, .cosineGenuine, .keywordGenuine, .cosineFamily,
    .keywordFamily]
  nodup := by decide
  complete g := by cases g <;> decide

/-- `result_group` -/
def resultGroup (path : Path) (monologueFamily : Bool) : Group :=
  match path, monologueFamily with
  | .reranked, false => .rerankedGenuine
  | .reranked, true => .rerankedFamily
  | .cosine, false => .cosineGenuine
  | .cosine, true => .cosineFamily

/-- The first of each id, but none that was seen before. -/
def firstPerId (id : α → μ) : Finset μ → List α → List α
  | _, [] => []
  | seen, a :: rest =>
    if id a ∈ seen then firstPerId id seen rest else a :: firstPerId id (insert (id a) seen) rest

/-- A loop that adds to what is kept until that is enough. -/
def keepUpTo (cap : ℕ) : Finset μ → List μ → Finset μ
  | kept, [] => kept
  | kept, mid :: rest => if cap ≤ kept.card then kept else keepUpTo cap (insert mid kept) rest

/-- `in_order`, the ids of all groups. -/
def inOrder (order : GroupOrder) (groups : Group → List μ) : List μ :=
  firstPerId id ∅ (order.groups.flatMap groups)

/-- `order_result_groups` -/
def orderResultGroups (order : GroupOrder) (groups : Group → List μ) (cap : ℕ) (guaranteed : List μ) :
    List μ :=
  let inOrder := inOrder order groups
  let kept := keepUpTo cap (keepUpTo cap ∅ (guaranteed.filter (· ∈ inOrder))) inOrder
  inOrder.filter (· ∈ kept)

/-! ## The semantic results -/

/-- `AssembledHit` -/
structure AssembledHit (μ : Type) where
  memoryId : μ
  score : ℚ
  path : Path
  paragraph : ℕ
  monologueFamily : Bool

/-- `AssembledHit.group` -/
def AssembledHit.group (hit : AssembledHit μ) : Group := resultGroup hit.path hit.monologueFamily

/-- The rankings of a query: its own, and its tail. -/
def rankings (gated : GatedRanking μ) : List (Ranking μ) := gated.own :: gated.tail.toList

/-- What clears the floor of a ranking. -/
def cleared (ranking : Ranking μ) : List (μ × ℚ) :=
  ranking.ranked.filter fun pair => ranking.passMark ≤ pair.2

variable (isFamily : μ → Bool)

/-- The hits of a query. -/
def hitsOf (outcome : ParagraphOutcome μ) : List (AssembledHit μ) :=
  outcome.gated.toList.flatMap fun gated => (rankings gated).flatMap fun ranking =>
    (cleared ranking).map fun pair => ⟨pair.1, pair.2, ranking.path, outcome.index, isFamily pair.1⟩

/-- `members` of a group. -/
def members (outcomes : List (ParagraphOutcome μ)) (g : Group) : List (AssembledHit μ) :=
  (outcomes.flatMap (hitsOf isFamily)).filter fun hit => hit.group = g

/-- `own_genuine` of a query. -/
def ownGenuine (outcome : ParagraphOutcome μ) : List (AssembledHit μ) :=
  outcome.gated.toList.flatMap fun gated =>
    ((cleared gated.own).filter fun pair => !isFamily pair.1).map fun pair =>
      ⟨pair.1, pair.2, gated.own.path, outcome.index, false⟩

/-- The best of a query's own genuine hits, the first of equal ones. -/
def best (outcome : ParagraphOutcome μ) : Option (AssembledHit μ) :=
  (ownGenuine isFamily outcome).argmax AssembledHit.score

/-- `by_score` -/
def hitsByScore (hits : List (AssembledHit μ)) : List (AssembledHit μ) :=
  hits.mergeSort fun a b => b.score ≤ a.score

/-- The best hits of the queries on one path. -/
def guaranteedOn (path : Path) (outcomes : List (ParagraphOutcome μ)) : List (AssembledHit μ) :=
  hitsByScore ((outcomes.filterMap (best isFamily)).filter fun hit => hit.path = path)

/-- `paragraph_result_groups` -/
def paragraphResultGroups (outcomes : List (ParagraphOutcome μ)) :
    (Group → List (AssembledHit μ)) × List (AssembledHit μ) :=
  let heads := guaranteedOn isFamily .cosine outcomes
  let headIds := heads.map AssembledHit.memoryId
  let groups : Group → List (AssembledHit μ)
    | .rerankedGenuine => hitsByScore (members isFamily outcomes .rerankedGenuine)
    | .rerankedFamily => hitsByScore (members isFamily outcomes .rerankedFamily)
    | .cosineGenuine => heads ++
        (hitsByScore (members isFamily outcomes .cosineGenuine)).filter fun hit =>
          hit.memoryId ∉ headIds
    | .cosineFamily =>
        firstPerId AssembledHit.memoryId ∅ (hitsByScore (members isFamily outcomes .cosineFamily))
    | .keywordGenuine => []
    | .keywordFamily => []
  (groups, guaranteedOn isFamily .reranked outcomes ++ heads)

/-- `assemble_with_guarantees` -/
def assembleWithGuarantees (order : GroupOrder) (outcomes : List (ParagraphOutcome μ)) (cap : ℕ) :
    List (AssembledHit μ) × List μ :=
  let (groups, guaranteed) := paragraphResultGroups isFamily outcomes
  let guaranteedIds := guaranteed.map AssembledHit.memoryId
  let ids := orderResultGroups order (fun g => (groups g).map AssembledHit.memoryId) cap guaranteedIds
  let listed := order.groups.flatMap groups
  (ids.filterMap fun mid => listed.find? fun hit => hit.memoryId = mid, guaranteedIds)

/-- `groups` of `merge_with_keyword`. -/
def mergedGroups (semantic : List (μ × Group)) (keyword : List μ) (g : Group) : List μ :=
  let semantic := firstPerId Prod.fst ∅ semantic
  let keyword := firstPerId id (semantic.map Prod.fst).toFinset keyword
  (semantic.filter fun pair => pair.2 = g).map Prod.fst ++
    keyword.filter fun mid => (if isFamily mid then Group.keywordFamily else .keywordGenuine) = g

/-- `merge_with_keyword` -/
def mergeWithKeyword (order : GroupOrder) (semantic : List (μ × Group)) (keyword : List μ) (cap : ℕ)
    (guaranteed : List μ) : List μ :=
  orderResultGroups order (mergedGroups isFamily semantic keyword) cap
    (guaranteed.filter (· ∈ semantic.map Prod.fst))

/-- `MAX_STANDOUT_COUNT` -/
def maxStandoutCount : ℕ := 9

/-- The memories of a turn with semantic results, from the outcomes of its queries and the keyword
hits. -/
def recallTurn (order : GroupOrder) (outcomes : List (ParagraphOutcome μ)) (keyword : List μ) : List μ :=
  let (hits, guaranteedIds) := assembleWithGuarantees isFamily order outcomes maxStandoutCount
  mergeWithKeyword isFamily order (hits.map fun hit => (hit.memoryId, hit.group)) keyword
    maxStandoutCount guaranteedIds

/-! ## What comes first -/

variable {key : α → μ} {seen : Finset μ} {l : List α}

theorem firstPerId_sublist : (firstPerId key seen l).Sublist l := by
  induction l generalizing seen with
  | nil => exact .slnil
  | cons a l ih =>
    unfold firstPerId
    split_ifs
    · exact ih.cons a
    · exact ih.cons_cons a

theorem mem_map_firstPerId {mid : μ} :
    mid ∈ (firstPerId key seen l).map key ↔ mid ∉ seen ∧ mid ∈ l.map key := by
  induction l generalizing seen with
  | nil => simp [firstPerId]
  | cons a l ih =>
    unfold firstPerId
    split_ifs with ha
    · rw [ih, List.map_cons, List.mem_cons]
      refine and_congr_right fun hmid => ⟨.inr, fun h => h.resolve_left ?_⟩
      rintro rfl
      exact hmid ha
    · rw [List.map_cons, List.map_cons, List.mem_cons, List.mem_cons, ih, Finset.mem_insert, not_or]
      by_cases hmid : mid = key a
      · rw [hmid]
        exact iff_of_true (.inl rfl) ⟨ha, .inl rfl⟩
      · tauto

theorem nodup_firstPerId : ((firstPerId key seen l).map key).Nodup := by
  induction l generalizing seen with
  | nil => exact List.nodup_nil
  | cons a l ih =>
    unfold firstPerId
    split_ifs with ha
    · exact ih
    · rw [List.map_cons, List.nodup_cons]
      refine ⟨fun hmem => ?_, ih⟩
      exact (mem_map_firstPerId.mp hmem).1 (Finset.mem_insert_self _ _)

theorem map_firstPerId : (firstPerId key seen l).map key = firstPerId id seen (l.map key) := by
  induction l generalizing seen with
  | nil => rfl
  | cons a l ih =>
    rw [List.map_cons, firstPerId, firstPerId]
    simp only [id_eq]
    split_ifs
    · exact ih
    · rw [List.map_cons, ih]

theorem mem_firstPerId {ids : List μ} {mid : μ} :
    mid ∈ firstPerId id seen ids ↔ mid ∉ seen ∧ mid ∈ ids := by
  have h : mid ∈ (firstPerId id seen ids).map id ↔ mid ∉ seen ∧ mid ∈ ids.map id :=
    mem_map_firstPerId
  rwa [List.map_id, List.map_id] at h

theorem nodup_ids {ids : List μ} : (firstPerId id seen ids).Nodup := by
  have h : ((firstPerId id seen ids).map id).Nodup := nodup_firstPerId
  rwa [List.map_id] at h

theorem firstPerId_of_nodup {ids : List μ} (h : ids.Nodup) :
    firstPerId id seen ids = ids.filter (· ∉ seen) := by
  induction ids generalizing seen with
  | nil => rfl
  | cons mid ids ih =>
    obtain ⟨hmid, hids⟩ := List.nodup_cons.mp h
    unfold firstPerId
    by_cases hseen : mid ∈ seen
    · rw [id_eq, if_pos hseen, List.filter_cons_of_neg (by simpa using hseen), ih hids]
    · rw [id_eq, if_neg hseen, List.filter_cons_of_pos (by simpa using hseen), ih hids]
      refine congrArg _ (List.filter_congr fun other hother => ?_)
      have hne : other ≠ mid := fun heq => hmid (heq ▸ hother)
      simp [hne]

/-- What a loop keeps: the first ones, until that is enough. -/
theorem keepUpTo_eq {cap : ℕ} {kept : Finset μ} {ids : List μ} :
    keepUpTo cap kept ids =
      kept ∪ ((firstPerId id kept ids).take (cap - kept.card)).toFinset := by
  induction ids generalizing kept with
  | nil => simp [keepUpTo, firstPerId]
  | cons mid ids ih =>
    unfold keepUpTo
    by_cases hcap : cap ≤ kept.card
    · rw [if_pos hcap, Nat.sub_eq_zero_of_le hcap]
      simp
    rw [if_neg hcap, ih, firstPerId, id_eq]
    by_cases hmid : mid ∈ kept
    · rw [if_pos hmid, Finset.insert_eq_of_mem hmid]
    · have hroom : cap - kept.card = cap - (kept.card + 1) + 1 := by
        omega
      rw [if_neg hmid, Finset.card_insert_of_notMem hmid, hroom, List.take_succ_cons,
        List.toFinset_cons, Finset.insert_union, Finset.union_insert]

/-! ## The order of the results -/

variable {order : GroupOrder} {groups : Group → List μ} {cap : ℕ} {guaranteed : List μ}

theorem nodup_inOrder : (inOrder order groups).Nodup :=
  nodup_ids

theorem mem_inOrder {mid : μ} : mid ∈ inOrder order groups ↔ ∃ g, mid ∈ groups g := by
  rw [inOrder, mem_firstPerId, List.mem_flatMap]
  constructor
  · rintro ⟨-, g, -, hmid⟩
    exact ⟨g, hmid⟩
  · rintro ⟨g, hmid⟩
    exact ⟨Finset.notMem_empty _, g, order.complete g, hmid⟩

/-- The guaranteed ids that are listed and kept. -/
def keptFirst (order : GroupOrder) (groups : Group → List μ) (cap : ℕ) (guaranteed : List μ) : List μ :=
  (firstPerId id ∅ (guaranteed.filter (· ∈ inOrder order groups))).take cap

theorem nodup_keptFirst : (keptFirst order groups cap guaranteed).Nodup :=
  nodup_ids.sublist (List.take_sublist _ _)

theorem keptFirst_subset {mid : μ} (h : mid ∈ keptFirst order groups cap guaranteed) :
    mid ∈ guaranteed ∧ mid ∈ inOrder order groups := by
  have hmem := (mem_firstPerId.mp (List.mem_of_mem_take h)).2
  obtain ⟨hguaranteed, hlisted⟩ := List.mem_filter.mp hmem
  exact ⟨hguaranteed, of_decide_eq_true hlisted⟩

/-- The result is what is guaranteed, and the first of the rest. -/
theorem orderResultGroups_eq : orderResultGroups order groups cap guaranteed =
    (inOrder order groups).filter fun mid => mid ∈ keptFirst order groups cap guaranteed ∨
      mid ∈ ((inOrder order groups).filter (· ∉ keptFirst order groups cap guaranteed)).take
        (cap - (keptFirst order groups cap guaranteed).length) := by
  have hfirst : keepUpTo cap ∅ (guaranteed.filter (· ∈ inOrder order groups)) =
      (keptFirst order groups cap guaranteed).toFinset := by
    rw [keepUpTo_eq, Finset.empty_union, Finset.card_empty, Nat.sub_zero]
    rfl
  unfold orderResultGroups
  dsimp only
  rw [hfirst, keepUpTo_eq, firstPerId_of_nodup nodup_inOrder,
    List.toFinset_card_of_nodup nodup_keptFirst]
  simp only [Finset.mem_union, List.mem_toFinset]

/-- What is listed of the first of a list is these. -/
theorem filter_mem_take {ids : List μ} (h : ids.Nodup) (n : ℕ) :
    ids.filter (· ∈ ids.take n) = ids.take n := by
  have hdrop : (ids.drop n).filter (· ∈ ids.take n) = [] := by
    refine List.filter_eq_nil_iff.mpr fun mid hmid => ?_
    rw [decide_eq_true_eq]
    exact fun htake => List.disjoint_take_drop h le_rfl htake hmid
  have htake : (ids.take n).filter (· ∈ ids.take n) = ids.take n :=
    List.filter_eq_self.mpr fun mid hmid => decide_eq_true hmid
  calc ids.filter (· ∈ ids.take n)
      = (ids.take n ++ ids.drop n).filter (· ∈ ids.take n) := by rw [List.take_append_drop]
    _ = ids.take n := by rw [List.filter_append, htake, hdrop, List.append_nil]

/-- What the result of an order has to be: at most `cap` ids in the order of their groups, with the
first that are guaranteed, and of the others the first. -/
structure Ordered (order : GroupOrder) (groups : Group → List μ) (cap : ℕ) (guaranteed result : List μ) :
    Prop where
  sublist : result.Sublist (inOrder order groups)
  length : result.length = min cap (inOrder order groups).length
  keeps : ∀ mid ∈ keptFirst order groups cap guaranteed, mid ∈ result
  rest : result.filter (· ∉ keptFirst order groups cap guaranteed) <+:
    (inOrder order groups).filter (· ∉ keptFirst order groups cap guaranteed)

/-- What is not guaranteed of the result. -/
theorem filter_orderResultGroups : (orderResultGroups order groups cap guaranteed).filter
    (· ∉ keptFirst order groups cap guaranteed) =
      ((inOrder order groups).filter (· ∉ keptFirst order groups cap guaranteed)).take
        (cap - (keptFirst order groups cap guaranteed).length) := by
  rw [orderResultGroups_eq]
  have hnodup : ((inOrder order groups).filter
      (· ∉ keptFirst order groups cap guaranteed)).Nodup := nodup_inOrder.filter _
  refine Eq.trans ?_ (filter_mem_take hnodup _)
  rw [List.filter_filter, List.filter_filter]
  refine List.filter_congr fun mid _ => ?_
  by_cases hmid : mid ∈ keptFirst order groups cap guaranteed
  · simp [hmid]
  · simp [hmid]

/-- A list without repetitions has those that are in another one in some order. -/
theorem length_filter_mem {ids ids' : List μ} (h : ids.Nodup) (h' : ids'.Nodup)
    (hsub : ∀ mid ∈ ids', mid ∈ ids) : (ids.filter (· ∈ ids')).length = ids'.length := by
  refine ((List.perm_ext_iff_of_nodup (h.filter _) h').mpr fun mid => ?_).length_eq
  rw [List.mem_filter, decide_eq_true_eq]
  exact and_iff_right_of_imp (hsub mid)

theorem ordered_orderResultGroups :
    Ordered order groups cap guaranteed (orderResultGroups order groups cap guaranteed) := by
  have hkeeps : ∀ mid ∈ keptFirst order groups cap guaranteed,
      mid ∈ orderResultGroups order groups cap guaranteed := by
    intro mid hmid
    rw [orderResultGroups_eq, List.mem_filter]
    exact ⟨(keptFirst_subset hmid).2, decide_eq_true (.inl hmid)⟩
  have hsub : (orderResultGroups order groups cap guaranteed).Sublist (inOrder order groups) := by
    rw [orderResultGroups_eq]
    exact List.filter_sublist
  refine ⟨hsub, ?_, hkeeps, ?_⟩
  · have hcap : (keptFirst order groups cap guaranteed).length ≤ cap := List.length_take_le _ _
    have hresult := List.length_eq_length_filter_add
      (l := orderResultGroups order groups cap guaranteed)
      (· ∈ keptFirst order groups cap guaranteed)
    have hall := List.length_eq_length_filter_add (l := inOrder order groups)
      (· ∈ keptFirst order groups cap guaranteed)
    have hrest : ((orderResultGroups order groups cap guaranteed).filter
        (· ∉ keptFirst order groups cap guaranteed)).length =
          (((inOrder order groups).filter (· ∉ keptFirst order groups cap guaranteed)).take
            (cap - (keptFirst order groups cap guaranteed).length)).length :=
      congrArg List.length filter_orderResultGroups
    rw [length_filter_mem (nodup_inOrder.sublist hsub) nodup_keptFirst hkeeps] at hresult
    rw [length_filter_mem nodup_inOrder nodup_keptFirst fun mid hmid => (keptFirst_subset hmid).2]
      at hall
    rw [List.length_take] at hrest
    simp only [decide_not] at hrest
    omega
  · rw [filter_orderResultGroups]
    exact List.take_prefix _ _

/-- The ids stand in the order of their groups. -/
theorem inOrder_pairwise : ∃ tagged : List (μ × Group), tagged.map Prod.fst = inOrder order groups ∧
    (∀ pair ∈ tagged, pair.1 ∈ groups pair.2) ∧
    tagged.Pairwise fun p q => order.groups.idxOf p.2 ≤ order.groups.idxOf q.2 := by
  have htags : (order.groups.flatMap fun g => (groups g).map (·, g)).map Prod.fst =
      order.groups.flatMap groups := by
    rw [List.map_flatMap]
    simp only [List.map_map, Function.comp_def, List.map_id']
  have hindex : order.groups.Pairwise fun g g' => order.groups.idxOf g ≤ order.groups.idxOf g' := by
    refine List.pairwise_iff_getElem.mpr fun i j hi hj hij => ?_
    rw [List.Nodup.idxOf_getElem order.nodup, List.Nodup.idxOf_getElem order.nodup]
    exact hij.le
  refine ⟨firstPerId Prod.fst ∅ (order.groups.flatMap fun g => (groups g).map (·, g)), ?_,
    fun pair hpair => ?_, ?_⟩
  · rw [map_firstPerId, htags]
    rfl
  · obtain ⟨g, -, hmem⟩ := List.mem_flatMap.mp (firstPerId_sublist.subset hpair)
    obtain ⟨mid, hmid, rfl⟩ := List.mem_map.mp hmem
    exact hmid
  · refine List.Pairwise.sublist firstPerId_sublist (List.pairwise_flatMap.mpr
      ⟨fun g _ => ?_, hindex.imp fun hle p hp q hq => ?_⟩)
    · exact List.pairwise_map.mpr (List.pairwise_of_forall fun _ _ => le_rfl)
    · obtain ⟨mid, -, rfl⟩ := List.mem_map.mp hp
      obtain ⟨mid', -, rfl⟩ := List.mem_map.mp hq
      exact hle

/-- A part of the ids in order stands in the order of the groups. -/
theorem Ordered.pairwise {result : List μ} (h : Ordered order groups cap guaranteed result) :
    ∃ tagged : List (μ × Group), tagged.map Prod.fst = result ∧
      (∀ pair ∈ tagged, pair.1 ∈ groups pair.2) ∧
      tagged.Pairwise fun p q => order.groups.idxOf p.2 ≤ order.groups.idxOf q.2 := by
  obtain ⟨tagged, hmap, hmem, hpairwise⟩ : ∃ tagged : List (μ × Group),
      tagged.map Prod.fst = inOrder order groups ∧ (∀ pair ∈ tagged, pair.1 ∈ groups pair.2) ∧
      tagged.Pairwise fun p q => order.groups.idxOf p.2 ≤ order.groups.idxOf q.2 := inOrder_pairwise
  obtain ⟨part, hsub, rfl⟩ := List.sublist_map_iff.mp (hmap ▸ h.sublist)
  exact ⟨part, rfl, fun pair hpair => hmem pair (hsub.subset hpair), hpairwise.sublist hsub⟩

/-! ## The semantic results -/

variable {isFamily} {outcomes : List (ParagraphOutcome μ)}

omit [DecidableEq μ] in
theorem mem_hitsByScore {hits : List (AssembledHit μ)} {hit : AssembledHit μ} :
    hit ∈ hitsByScore hits ↔ hit ∈ hits :=
  (List.mergeSort_perm _ _).mem_iff

omit [DecidableEq μ] in
/-- A query's own genuine hits are some of its hits. -/
theorem mem_ownGenuine {outcome : ParagraphOutcome μ} {hit : AssembledHit μ}
    (h : hit ∈ ownGenuine isFamily outcome) :
    hit ∈ hitsOf isFamily outcome ∧ hit.monologueFamily = false := by
  obtain ⟨gated, hgated, hmem⟩ := List.mem_flatMap.mp h
  obtain ⟨pair, hpair, rfl⟩ := List.mem_map.mp hmem
  obtain ⟨hcleared, hgenuine⟩ := List.mem_filter.mp hpair
  have hfamily : isFamily pair.1 = false := by simpa using hgenuine
  refine ⟨List.mem_flatMap.mpr ⟨gated, hgated, List.mem_flatMap.mpr
    ⟨gated.own, List.mem_cons_self, List.mem_map.mpr ⟨pair, hcleared, ?_⟩⟩⟩, rfl⟩
  rw [hfamily]

omit [DecidableEq μ] in
theorem mem_guaranteedOn {path : Path} {hit : AssembledHit μ} :
    hit ∈ guaranteedOn isFamily path outcomes ↔
      hit.path = path ∧ ∃ outcome ∈ outcomes, best isFamily outcome = some hit := by
  rw [guaranteedOn, mem_hitsByScore, List.mem_filter, List.mem_filterMap, decide_eq_true_eq]
  exact and_comm

omit [DecidableEq μ] in
theorem best_mem {outcome : ParagraphOutcome μ} {hit : AssembledHit μ}
    (h : best isFamily outcome = some hit) : hit ∈ ownGenuine isFamily outcome :=
  List.argmax_mem h

/-- The hits of a group are hits of the queries, and of that group. -/
theorem mem_paragraphResultGroups {g : Group} {hit : AssembledHit μ}
    (h : hit ∈ (paragraphResultGroups isFamily outcomes).1 g) :
    hit.group = g ∧ ∃ outcome ∈ outcomes, hit ∈ hitsOf isFamily outcome := by
  have hmembers : ∀ g', hit ∈ members isFamily outcomes g' →
      hit.group = g' ∧ ∃ outcome ∈ outcomes, hit ∈ hitsOf isFamily outcome := by
    intro g' hmem
    obtain ⟨hin, hgroup⟩ := List.mem_filter.mp hmem
    exact ⟨of_decide_eq_true hgroup, List.mem_flatMap.mp hin⟩
  cases g with
  | rerankedGenuine => exact hmembers _ (mem_hitsByScore.mp h)
  | rerankedFamily => exact hmembers _ (mem_hitsByScore.mp h)
  | cosineGenuine =>
    rcases List.mem_append.mp h with hhead | hrest
    · obtain ⟨hpath, outcome, houtcome, hbest⟩ := mem_guaranteedOn.mp hhead
      obtain ⟨hmem, hgenuine⟩ := mem_ownGenuine (best_mem hbest)
      refine ⟨?_, outcome, houtcome, hmem⟩
      rw [AssembledHit.group, hpath, hgenuine]
      rfl
    · exact hmembers _ (mem_hitsByScore.mp (List.mem_of_mem_filter hrest))
  | keywordGenuine => cases h
  | cosineFamily => exact hmembers _ (mem_hitsByScore.mp (firstPerId_sublist.subset h))
  | keywordFamily => cases h

/-- Each hit of a query has its id in a group. -/
theorem exists_group {outcome : ParagraphOutcome μ} (houtcome : outcome ∈ outcomes)
    {hit : AssembledHit μ} (h : hit ∈ hitsOf isFamily outcome) :
    ∃ g, hit.memoryId ∈ ((paragraphResultGroups isFamily outcomes).1 g).map AssembledHit.memoryId := by
  have hmem : hit ∈ hitsByScore (members isFamily outcomes hit.group) :=
    mem_hitsByScore.mpr (List.mem_filter.mpr
      ⟨List.mem_flatMap.mpr ⟨outcome, houtcome, h⟩, decide_eq_true rfl⟩)
  have hid := List.mem_map_of_mem (f := AssembledHit.memoryId) hmem
  refine ⟨hit.group, ?_⟩
  cases hgroup : hit.group with
  | rerankedGenuine =>
    rw [hgroup] at hid
    exact hid
  | rerankedFamily =>
    rw [hgroup] at hid
    exact hid
  | cosineGenuine =>
    rw [hgroup] at hmem
    show hit.memoryId ∈ List.map _ (_ ++ _)
    rw [List.map_append, List.mem_append]
    by_cases hhead : hit.memoryId ∈
        (guaranteedOn isFamily .cosine outcomes).map AssembledHit.memoryId
    · exact .inl hhead
    · exact .inr (List.mem_map_of_mem (List.mem_filter.mpr ⟨hmem, decide_eq_true hhead⟩))
  | keywordGenuine =>
    obtain ⟨mid, score, path, paragraph, family⟩ := hit
    cases path <;> cases family <;> cases hgroup
  | cosineFamily =>
    rw [hgroup] at hid
    exact mem_map_firstPerId.mpr ⟨Finset.notMem_empty _, hid⟩
  | keywordFamily =>
    obtain ⟨mid, score, path, paragraph, family⟩ := hit
    cases path <;> cases family <;> cases hgroup

/-- The ids of the groups of the semantic results. -/
def semanticGroups (isFamily : μ → Bool) (outcomes : List (ParagraphOutcome μ)) (g : Group) : List μ :=
  ((paragraphResultGroups isFamily outcomes).1 g).map AssembledHit.memoryId

/-- The ids of the guaranteed hits, in their order. -/
def guaranteedIds (isFamily : μ → Bool) (outcomes : List (ParagraphOutcome μ)) : List μ :=
  (guaranteedOn isFamily .reranked outcomes ++ guaranteedOn isFamily .cosine outcomes).map
    AssembledHit.memoryId

/-- The ids of what clears the floor of its own ranking. -/
def clearedIds (isFamily : μ → Bool) (outcomes : List (ParagraphOutcome μ)) : Finset μ :=
  ((outcomes.flatMap (hitsOf isFamily)).map AssembledHit.memoryId).toFinset

theorem mem_clearedIds {mid : μ} : mid ∈ clearedIds isFamily outcomes ↔
    mid ∈ inOrder order (semanticGroups isFamily outcomes) := by
  rw [clearedIds, List.mem_toFinset, List.mem_map, mem_inOrder]
  constructor
  · rintro ⟨hit, hhit, rfl⟩
    obtain ⟨outcome, houtcome, h⟩ := List.mem_flatMap.mp hhit
    exact exists_group houtcome h
  · rintro ⟨g, hmid⟩
    obtain ⟨hit, hhit, rfl⟩ := List.mem_map.mp hmid
    obtain ⟨-, outcome, houtcome, h⟩ := mem_paragraphResultGroups hhit
    exact ⟨hit, List.mem_flatMap.mpr ⟨outcome, houtcome, h⟩, rfl⟩

omit [DecidableEq μ] in
theorem map_filterMap_eq {β : Type} {f : μ → Option β} {key : β → μ} {ids : List μ}
    (h : ∀ mid ∈ ids, ∃ b, f mid = some b ∧ key b = mid) : (ids.filterMap f).map key = ids := by
  induction ids with
  | nil => rfl
  | cons mid ids ih =>
    obtain ⟨b, hb, rfl⟩ := h mid List.mem_cons_self
    rw [List.filterMap_cons_some hb, List.map_cons, ih fun m hm => h m (List.mem_cons_of_mem _ hm)]

/-- The assembled hits have the ids in order. -/
theorem map_assembled (cap : ℕ) :
    (assembleWithGuarantees isFamily order outcomes cap).1.map AssembledHit.memoryId =
      orderResultGroups order (semanticGroups isFamily outcomes) cap
        (guaranteedIds isFamily outcomes) := by
  refine map_filterMap_eq fun mid hmid => ?_
  have hlisted := ordered_orderResultGroups.sublist.subset hmid
  obtain ⟨g, hg⟩ := mem_inOrder.mp hlisted
  obtain ⟨hit, hhit, rfl⟩ := List.mem_map.mp hg
  have hfound : ((order.groups.flatMap (paragraphResultGroups isFamily outcomes).1).find?
      fun other => other.memoryId = hit.memoryId).isSome := by
    rw [List.find?_isSome]
    exact ⟨hit, List.mem_flatMap.mpr ⟨g, order.complete g, hhit⟩, decide_eq_true rfl⟩
  obtain ⟨other, hother⟩ := Option.isSome_iff_exists.mp hfound
  have hsame := List.find?_some hother
  exact ⟨other, hother, by simpa using hsame⟩

/-! ## The results with the keyword hits -/

theorem mem_mergedGroups {semantic : List (μ × Group)} {keyword : List μ} {mid : μ} :
    (∃ g, mid ∈ mergedGroups isFamily semantic keyword g) ↔
      mid ∈ semantic.map Prod.fst ∨ mid ∈ keyword := by
  have hsemantic : mid ∈ (firstPerId Prod.fst ∅ semantic).map Prod.fst ↔
      mid ∈ semantic.map Prod.fst := by
    rw [mem_map_firstPerId]
    exact and_iff_right (Finset.notMem_empty _)
  unfold mergedGroups
  constructor
  · rintro ⟨g, hmid⟩
    rcases List.mem_append.mp hmid with hleft | hright
    · obtain ⟨pair, hpair, rfl⟩ := List.mem_map.mp hleft
      exact .inl (hsemantic.mp (List.mem_map_of_mem (List.mem_of_mem_filter hpair)))
    · exact .inr (mem_firstPerId.mp (List.mem_of_mem_filter hright)).2
  · intro hmid
    by_cases hin : mid ∈ semantic.map Prod.fst
    · obtain ⟨pair, hpair, rfl⟩ := List.mem_map.mp (hsemantic.mpr hin)
      exact ⟨pair.2, List.mem_append_left _
        (List.mem_map_of_mem (List.mem_filter.mpr ⟨hpair, decide_eq_true rfl⟩))⟩
    · refine ⟨_, List.mem_append_right _ (List.mem_filter.mpr ⟨mem_firstPerId.mpr ⟨?_, ?_⟩,
        decide_eq_true rfl⟩)⟩
      · rw [List.mem_toFinset]
        exact fun h => hin (hsemantic.mp h)
      · exact hmid.resolve_left hin

/-- An id that does not come does not have to be seen. -/
theorem firstPerId_insert {ids : List μ} {mid : μ} (h : mid ∉ ids) :
    firstPerId id (insert mid seen) ids = firstPerId id seen ids := by
  induction ids generalizing seen with
  | nil => rfl
  | cons other ids ih =>
    obtain ⟨hne, hids⟩ := List.ne_and_not_mem_of_not_mem_cons h
    rw [firstPerId, firstPerId, id_eq]
    by_cases hother : other ∈ seen
    · rw [if_pos (Finset.mem_insert_of_mem hother), if_pos hother, ih hids]
    · have hnone : other ∉ insert mid seen := by
        rw [Finset.mem_insert, not_or]
        exact ⟨hne.symm, hother⟩
      rw [if_neg hnone, if_neg hother, Finset.insert_comm, ih hids]

/-- What comes first of a part is the part of what comes first. -/
theorem firstPerId_filter (p : μ → Bool) {ids : List μ} :
    firstPerId id seen (ids.filter p) = (firstPerId id seen ids).filter p := by
  induction ids generalizing seen with
  | nil => rfl
  | cons mid ids ih =>
    rw [firstPerId, id_eq]
    cases hp : p mid with
    | true =>
      rw [List.filter_cons_of_pos hp, firstPerId, id_eq]
      split_ifs
      · exact ih
      · rw [List.filter_cons_of_pos hp, ih]
    | false =>
      rw [List.filter_cons_of_neg (by simp [hp])]
      split_ifs
      · exact ih
      · have hnone : mid ∉ ids.filter p := by
          simp [hp]
        rw [List.filter_cons_of_neg (by simp [hp]), ← ih, firstPerId_insert hnone]

/-- The ids of the assembled hits. -/
def assembledIds (isFamily : μ → Bool) (order : GroupOrder) (outcomes : List (ParagraphOutcome μ)) :
    List μ :=
  orderResultGroups order (semanticGroups isFamily outcomes) maxStandoutCount
    (guaranteedIds isFamily outcomes)

/-- The groups of the semantic results with the keyword hits. -/
def recallGroups (isFamily : μ → Bool) (order : GroupOrder) (outcomes : List (ParagraphOutcome μ))
    (keyword : List μ) : Group → List μ :=
  mergedGroups isFamily
    ((assembleWithGuarantees isFamily order outcomes maxStandoutCount).1.map fun hit =>
      (hit.memoryId, hit.group)) keyword

theorem recall_eq (keyword : List μ) : recallTurn isFamily order outcomes keyword =
    orderResultGroups order (recallGroups isFamily order outcomes keyword) maxStandoutCount
      ((guaranteedIds isFamily outcomes).filter (· ∈ assembledIds isFamily order outcomes)) := by
  have hids : ((assembleWithGuarantees isFamily order outcomes maxStandoutCount).1.map fun hit =>
      (hit.memoryId, hit.group)).map Prod.fst = assembledIds isFamily order outcomes := by
    rw [List.map_map]
    exact map_assembled maxStandoutCount
  unfold recallTurn mergeWithKeyword
  dsimp only
  rw [hids]
  rfl

/-- The semantic results and the keyword hits. -/
theorem mem_recallGroups {keyword : List μ} {mid : μ} :
    mid ∈ inOrder order (recallGroups isFamily order outcomes keyword) ↔
      mid ∈ assembledIds isFamily order outcomes ∨ mid ∈ keyword := by
  rw [mem_inOrder, recallGroups, mem_mergedGroups, List.map_map, assembledIds,
    ← map_assembled maxStandoutCount]
  rfl

/-- The guaranteed ids that the first cap keeps. -/
def firstGuaranteed (isFamily : μ → Bool) (outcomes : List (ParagraphOutcome μ)) : List μ :=
  (firstPerId id ∅ (guaranteedIds isFamily outcomes)).take maxStandoutCount

/-- A guaranteed id is listed, and clears the floor. -/
theorem mem_guaranteedIds {mid : μ} (h : mid ∈ guaranteedIds isFamily outcomes) :
    mid ∈ clearedIds isFamily outcomes := by
  obtain ⟨hit, hhit, rfl⟩ := List.mem_map.mp h
  have hbest : ∃ outcome ∈ outcomes, best isFamily outcome = some hit :=
    (List.mem_append.mp hhit).elim (fun h => (mem_guaranteedOn.mp h).2)
      fun h => (mem_guaranteedOn.mp h).2
  obtain ⟨outcome, houtcome, hbest⟩ := hbest
  exact List.mem_toFinset.mpr (List.mem_map_of_mem
    (List.mem_flatMap.mpr ⟨outcome, houtcome, (mem_ownGenuine (best_mem hbest)).1⟩))

theorem keptFirst_eq (order : GroupOrder) : keptFirst order (semanticGroups isFamily outcomes) maxStandoutCount
    (guaranteedIds isFamily outcomes) = firstGuaranteed isFamily outcomes := by
  rw [keptFirst, List.filter_eq_self.mpr, firstGuaranteed]
  intro mid hmid
  exact decide_eq_true (mem_clearedIds.mp (mem_guaranteedIds hmid))

/-- What the first cap keeps of the guaranteed ids the second cap keeps. -/
theorem mem_recall_of_guaranteed {keyword : List μ} {mid : μ}
    (h : mid ∈ firstGuaranteed isFamily outcomes) : mid ∈ recallTurn isFamily order outcomes keyword := by
  have hassembled : ∀ m ∈ firstGuaranteed isFamily outcomes,
      m ∈ assembledIds isFamily order outcomes := by
    intro m hm
    rw [← keptFirst_eq order] at hm
    exact ordered_orderResultGroups.keeps m hm
  rw [recall_eq]
  refine ordered_orderResultGroups.keeps mid ?_
  -- The ids that the first cap keeps come first among those that the second is given.
  have hlisted : ((guaranteedIds isFamily outcomes).filter
      (· ∈ assembledIds isFamily order outcomes)).filter
        (· ∈ inOrder order (recallGroups isFamily order outcomes keyword)) =
      (guaranteedIds isFamily outcomes).filter (· ∈ assembledIds isFamily order outcomes) := by
    refine List.filter_eq_self.mpr fun m hm => ?_
    exact decide_eq_true (mem_recallGroups.mpr (.inl (of_decide_eq_true (List.mem_filter.mp hm).2)))
  have hsplit : (firstPerId id ∅ (guaranteedIds isFamily outcomes)).filter
      (· ∈ assembledIds isFamily order outcomes) = firstGuaranteed isFamily outcomes ++
        ((firstPerId id ∅ (guaranteedIds isFamily outcomes)).drop maxStandoutCount).filter
          (· ∈ assembledIds isFamily order outcomes) := by
    have hfirst : (firstGuaranteed isFamily outcomes).filter
        (· ∈ assembledIds isFamily order outcomes) = firstGuaranteed isFamily outcomes :=
      List.filter_eq_self.mpr fun m hm => decide_eq_true (hassembled m hm)
    conv_lhs => rw [← List.take_append_drop maxStandoutCount
      (firstPerId id ∅ (guaranteedIds isFamily outcomes)), List.filter_append]
    rw [← firstGuaranteed, hfirst]
  rw [keptFirst, hlisted, firstPerId_filter, hsplit]
  have hlength : (firstGuaranteed isFamily outcomes).length ≤ maxStandoutCount :=
    List.length_take_le _ _
  rw [List.take_append, List.take_of_length_le hlength]
  exact List.mem_append_left _ h

/-! ## A turn with semantic results -/

/-- What a turn has to show: at most nine memories, all that there are if these are fewer, in the
order of their groups. Each is a keyword hit or clears the floor of its own ranking, and the first
nine of the queries' best genuine memories are there. -/
structure Recalled (isFamily : μ → Bool) (order : GroupOrder) (outcomes : List (ParagraphOutcome μ))
    (keyword result : List μ) : Prop where
  nodup : result.Nodup
  length : result.length =
    min maxStandoutCount (clearedIds isFamily outcomes ∪ keyword.toFinset).card
  sound : ∀ mid ∈ result, mid ∈ clearedIds isFamily outcomes ∨ mid ∈ keyword
  guaranteed : ∀ mid ∈ firstGuaranteed isFamily outcomes, mid ∈ result
  ordered : ∃ tagged : List (μ × Group), tagged.map Prod.fst = result ∧
    (∀ pair ∈ tagged, pair.1 ∈ recallGroups isFamily order outcomes keyword pair.2) ∧
    tagged.Pairwise fun p q => order.groups.idxOf p.2 ≤ order.groups.idxOf q.2

theorem card_inOrder {groups : Group → List μ} {ids : Finset μ}
    (h : ∀ mid, mid ∈ inOrder order groups ↔ mid ∈ ids) : (inOrder order groups).length = ids.card := by
  rw [← List.toFinset_card_of_nodup nodup_inOrder]
  refine congrArg Finset.card (Finset.ext fun mid => ?_)
  rw [List.mem_toFinset, h]

theorem length_assembledIds : (assembledIds isFamily order outcomes).length =
    min maxStandoutCount (clearedIds isFamily outcomes).card := by
  rw [assembledIds, ordered_orderResultGroups.length, card_inOrder fun mid => mem_clearedIds.symm]

theorem assembledIds_subset {mid : μ} (h : mid ∈ assembledIds isFamily order outcomes) :
    mid ∈ clearedIds isFamily outcomes :=
  mem_clearedIds.mpr (ordered_orderResultGroups.sublist.subset h)

theorem nodup_assembledIds : (assembledIds isFamily order outcomes).Nodup :=
  nodup_inOrder.sublist ordered_orderResultGroups.sublist

/-- The first cap leaves nothing out that the second one had room for. -/
theorem min_card_assembled (keyword : List μ) :
    min maxStandoutCount ((assembledIds isFamily order outcomes).toFinset ∪ keyword.toFinset).card =
      min maxStandoutCount (clearedIds isFamily outcomes ∪ keyword.toFinset).card := by
  have hlength : (assembledIds isFamily order outcomes).toFinset.card =
      min maxStandoutCount (clearedIds isFamily outcomes).card := by
    rw [List.toFinset_card_of_nodup nodup_assembledIds, length_assembledIds]
  have hsubset : (assembledIds isFamily order outcomes).toFinset ⊆ clearedIds isFamily outcomes :=
    fun mid hmid => assembledIds_subset (List.mem_toFinset.mp hmid)
  by_cases hfew : (clearedIds isFamily outcomes).card ≤ maxStandoutCount
  · rw [min_eq_right hfew] at hlength
    rw [Finset.eq_of_subset_of_card_le hsubset hlength.ge]
  -- With more than nine the first cap alone fills the result.
  · rw [min_eq_left (le_of_not_ge hfew)] at hlength
    have hsome : maxStandoutCount ≤
        ((assembledIds isFamily order outcomes).toFinset ∪ keyword.toFinset).card :=
      hlength.ge.trans (Finset.card_le_card Finset.subset_union_left)
    have hall : maxStandoutCount ≤ (clearedIds isFamily outcomes ∪ keyword.toFinset).card :=
      (le_of_not_ge hfew).trans (Finset.card_le_card Finset.subset_union_left)
    rw [min_eq_left hsome, min_eq_left hall]

/-- Every turn with semantic results shows what it has to. -/
theorem recall_spec (isFamily : μ → Bool) (order : GroupOrder)
    (outcomes : List (ParagraphOutcome μ)) (keyword : List μ) :
    Recalled isFamily order outcomes keyword (recallTurn isFamily order outcomes keyword) where
  nodup := by
    rw [recall_eq]
    exact nodup_inOrder.sublist ordered_orderResultGroups.sublist
  length := by
    have hcard : (inOrder order (recallGroups isFamily order outcomes keyword)).length =
        ((assembledIds isFamily order outcomes).toFinset ∪ keyword.toFinset).card := by
      refine card_inOrder fun mid => ?_
      rw [mem_recallGroups, Finset.mem_union, List.mem_toFinset, List.mem_toFinset]
    rw [recall_eq, ordered_orderResultGroups.length, hcard, min_card_assembled]
  sound mid hmid := by
    rw [recall_eq] at hmid
    have hlisted := ordered_orderResultGroups.sublist.subset hmid
    exact (mem_recallGroups.mp hlisted).imp_left assembledIds_subset
  guaranteed mid hmid := mem_recall_of_guaranteed hmid
  ordered := by
    rw [recall_eq]
    exact ordered_orderResultGroups.pairwise

end Companion.Memory.RecallResults

import Companion.Effects
import Companion.Memory.Store
import Mathlib.Algebra.Order.Floor.Ring
import Mathlib.Data.Rat.Floor

/-!
# The filtered keyword search

`_fts_rows_kept` of `brain/memory/store.py`, behind `search_fts_scored` with a row filter: the rows
of a statement that pass `keep`, at most `limit`. It filters a first page, and where that came back
full with a row dropped, walks on past it. Without a budget the walk goes through the statement
again (`ftsRowsKept`); with one it reads pages of a narrow statement, of a size that the clock
allows, and asks before each row whether to go on (`ftsRowsKeptWithin`).

The result is that of filtering all rows and then taking `limit` of them (`ftsRowsKept_eq`), or
under a budget a prefix of it with at least the first page's rows (`filters_then_limits`). What the
budget answers is arbitrary, and each of its calls may raise.

The rows that match are given in the order of the statement, which is that of the narrow one too,
and no row changes during the search.
-/

namespace Companion.Memory.KeywordWalk

open Companion.Effects

/-- A row of the wide statement, `m.*` with its score. -/
structure Hit where
  id : MemoryId
  row : Row
  bm25 : ℚ
  deriving DecidableEq

/-- The memories, and the rows that match a query, in the order of the statement. -/
structure Matching where
  rows : Dict MemoryId Row
  hits : List Hit
  /-- No memory is there twice. -/
  nodup : (hits.map Hit.id).Nodup
  stored : ∀ h ∈ hits, rows.get? h.id = some h.row

namespace Matching

/-- The rows of the narrow statement, the ids with their scores. -/
def ordering (m : Matching) : List (MemoryId × ℚ) := m.hits.map fun h => (h.id, h.bm25)

end Matching

section Search

variable (m : Matching) (limit : ℕ) (keep : Text → Bool)

/-- The rows of the first query. -/
def firstPage : List Hit := m.hits.take limit

/-- Those of the first query that pass. -/
def firstKept : List Hit := (firstPage m limit).filter fun h => keep h.row.content

/-- The first query has dropped no row, or was not full. -/
def settled : Bool :=
  (firstKept m limit keep).length = (firstPage m limit).length ||
    (firstPage m limit).length < limit

/-! ## Without a budget -/

/-- The loop over the statement without a limit. -/
def walkOn (seen : List MemoryId) (kept : List Hit) : List Hit → List Hit
  | [] => kept
  | h :: hs =>
    if h.id ∈ seen then walkOn seen kept hs
    else if keep h.row.content then
      if limit ≤ (kept ++ [h]).length then kept ++ [h] else walkOn (h.id :: seen) (kept ++ [h]) hs
    else walkOn (h.id :: seen) kept hs

/-- `_fts_rows_kept` without a budget. -/
def ftsRowsKept (limit : Option ℕ) : List Hit :=
  match limit with
  | none => m.hits.filter fun h => keep h.row.content
  | some limit =>
    if settled m limit keep then firstKept m limit keep
    else walkOn limit keep ((firstPage m limit).map Hit.id) (firstKept m limit keep) m.hits

/-! ## With a budget -/

/-- A call of the budget. -/
inductive Query
  | now
  | begin
  | allows (rowsJudged chars : ℕ)
  | finish (chars : ℕ)
  deriving DecidableEq

/-- What a call is answered. `begin` gives the seconds that are left. -/
abbrev Query.Reply : Query → Type
  | now => ℚ
  | begin => Option ℚ
  | allows _ _ => Bool
  | finish _ => Unit

/-- A program of such calls. -/
abbrev Budgeted (α : Type) := Prog Query.Reply α

abbrev ask (q : Query) : Budgeted q.Reply := Prog.ask q

/-- A call within the `try`, with its reply, or none where it raises. -/
def attempt (q : Query) : Budgeted (Option q.Reply) := .call q fun r => .ret r

/-- `sys.maxsize` -/
def maxsize : ℕ := 2 ^ 63 - 1

/-- `_page_rows` -/
def pageRows (remaining perRow : ℚ) : ℕ :=
  if remaining ≤ 0 ∨ remaining < perRow then 0
  else if perRow ≤ 0 then 1
  else min ⌊remaining / perRow⌋.toNat maxsize

/-- The locals of the walk: `seen`, `kept`, `judged` and `chars`. -/
structure Walk where
  seen : List MemoryId
  kept : List Hit
  judged : ℕ
  chars : ℕ

namespace Walk

def see (w : Walk) (id : MemoryId) : Walk := { w with seen := id :: w.seen }

def judge (w : Walk) (chars : ℕ) : Walk :=
  { w with judged := w.judged + 1, chars := w.chars + chars }

def add (w : Walk) (h : Hit) : Walk := { w with kept := w.kept ++ [h] }

end Walk

/-- How the loop over a page ends: at its end, by `done`, or by an exception. -/
inductive Stop
  | more
  | done
  | raised
  deriving DecidableEq

/-- The loop over the rows of a page, with how many of them were judged. -/
def judgePage (w : Walk) (pageJudged : ℕ) : List (MemoryId × ℚ) → Budgeted (Walk × ℕ × Stop)
  | [] => pure (w, pageJudged, .more)
  | (id, score) :: rows =>
    if id ∈ w.seen then judgePage w pageJudged rows
    else
      match m.rows.get? id with
      | none => judgePage (w.see id) pageJudged rows
      | some row => do
        match ← attempt (.allows w.judged (w.chars + row.content.length)) with
        | none => pure (w.see id, pageJudged, .raised)
        | some false => pure (w.see id, pageJudged, .done)
        | some true =>
          let w := (w.see id).judge row.content.length
          if keep row.content then
            let w := w.add ⟨id, row, score⟩
            if limit ≤ w.kept.length then pure (w, pageJudged + 1, .done)
            else judgePage w (pageJudged + 1) rows
          else judgePage w (pageJudged + 1) rows

/-- The costs `own_worst` and `per_row` after a page, or none where the clock raises. -/
def measure (ownWorst perRow pageBegan : ℚ) (pageJudged : ℕ) : Budgeted (Option (ℚ × ℚ)) :=
  if pageJudged = 0 then pure (some (ownWorst, perRow))
  else do
    match ← attempt .now with
    | none => pure none
    | some t =>
      let worst := max ownWorst ((t - pageBegan) / pageJudged)
      pure (some (worst, worst))

/-- A page, with the costs after it. -/
def readPage (ownWorst perRow : ℚ) (w : Walk) (rows : List (MemoryId × ℚ)) :
    Budgeted (Walk × Stop × ℚ × ℚ) := do
  match ← attempt .now with
  | none => pure (w, .raised, ownWorst, perRow)
  | some pageBegan =>
    let (w, pageJudged, stop) ← judgePage m limit keep w 0 rows
    if stop = .raised then pure (w, .raised, ownWorst, perRow)
    else
      match ← measure ownWorst perRow pageBegan pageJudged with
      | none => pure (w, .raised, ownWorst, perRow)
      | some (ownWorst, perRow) => pure (w, stop, ownWorst, perRow)

/-- The loop over the pages, of the rows that the cursor has not read yet. The result says whether
it ended by an exception. -/
def readPages (left started ownWorst perRow : ℚ) (w : Walk) (rows : List (MemoryId × ℚ)) :
    Budgeted (Walk × Bool) := do
  match ← attempt .now with
  | none => pure (w, true)
  | some t =>
    let page := pageRows (left - (t - started)) perRow
    if _hpage : page < 1 then pure (w, false)
    else
      let (w, stop, ownWorst, perRow) ← readPage m limit keep ownWorst perRow w (rows.take page)
      if stop = .raised then pure (w, true)
      else if _hmore : stop = .done ∨ (rows.take page).length < page then pure (w, false)
      else readPages left started ownWorst perRow w (rows.drop page)
termination_by rows.length
decreasing_by
  have hlength : page ≤ (rows.take page).length := by
    rw [not_or] at _hmore
    exact not_lt.mp _hmore.2
  rw [List.length_take] at hlength
  rw [List.length_drop]
  omega

/-- The `try`, after `begin` has given `left`. -/
def walkWithin (left overhead perRow : ℚ) (w : Walk) : Budgeted (Walk × Bool) := do
  match ← attempt .now with
  | none => pure (w, true)
  | some started =>
    if left - overhead < perRow then pure (w, false)
    else readPages m limit keep left started 0 perRow w m.ordering

/-- The `try` from the first page on, and the `finally` after it. -/
def walkGranted (left overhead perRow : ℚ) : Budgeted (List Hit) := do
  let (w, raised) ← walkWithin m limit keep left overhead perRow
    ⟨(firstPage m limit).map Hit.id, firstKept m limit keep, 0, 0⟩
  let _ ← ask (.finish (if w.judged = 0 then 0 else w.chars))
  if raised then .raise else pure w.kept

/-- `_fts_rows_kept` with a budget. -/
def ftsRowsKeptWithin : Budgeted (List Hit) := do
  let began ← ask .now
  let executed ← ask .now
  if settled m limit keep then pure (firstKept m limit keep)
  else do
    let fetched ← ask .now
    match ← ask .begin with
    | none => pure (firstKept m limit keep)
    | some left =>
      walkGranted m limit keep left (executed - began)
        ((fetched - executed) / (firstPage m limit).length)

end Search

/-! ## What is new in a list of rows -/

/-- The rows whose id is not among those that were seen. -/
def fresh (seen : List MemoryId) (hs : List Hit) : List Hit := hs.filter fun h => h.id ∉ seen

theorem fresh_cons (seen : List MemoryId) (h : Hit) (hs : List Hit) :
    fresh seen (h :: hs) = if h.id ∈ seen then fresh seen hs else h :: fresh seen hs := by
  unfold fresh
  rw [List.filter_cons]
  by_cases hid : h.id ∈ seen
  · simp [hid]
  · simp [hid]

/-- What is new depends on the ids of the rows alone. -/
theorem fresh_congr {seen seen' : List MemoryId} {hs : List Hit}
    (h : ∀ x ∈ hs, x.id ∈ seen ↔ x.id ∈ seen') : fresh seen hs = fresh seen' hs :=
  List.filter_congr fun x hx => by rw [decide_eq_decide, not_congr (h x hx)]

/-- A row that was seen is not among the rows after it. -/
theorem fresh_see {seen : List MemoryId} {h : Hit} {hs : List Hit}
    (hnodup : ((h :: hs).map Hit.id).Nodup) : fresh (h.id :: seen) hs = fresh seen hs := by
  refine fresh_congr fun x hx => ?_
  have hne : x.id ≠ h.id := by
    intro heq
    exact (List.nodup_cons.mp hnodup).1 (heq ▸ List.mem_map_of_mem hx)
  rw [List.mem_cons]
  exact or_iff_right hne

variable {m : Matching} {limit : ℕ} {keep : Text → Bool}

/-- Those of the rows that pass. -/
def passing (keep : Text → Bool) (hs : List Hit) : List Hit := hs.filter fun h => keep h.row.content

theorem passing_cons (keep : Text → Bool) (h : Hit) (hs : List Hit) :
    passing keep (h :: hs) =
      if keep h.row.content then h :: passing keep hs else passing keep hs := by
  rw [passing, List.filter_cons]
  rfl

/-- The walk past the first page comes to the first rows that pass, of those that are new. -/
theorem walkOn_eq {seen : List MemoryId} {kept hs : List Hit} (hnodup : (hs.map Hit.id).Nodup)
    (hkept : kept.length < limit) :
    walkOn limit keep seen kept hs = (kept ++ passing keep (fresh seen hs)).take limit := by
  induction hs generalizing seen kept with
  | nil =>
    rw [fresh, List.filter_nil, passing, List.filter_nil, List.append_nil,
      List.take_of_length_le hkept.le]
    rfl
  | cons h hs ih =>
    have htail := (List.nodup_cons.mp hnodup).2
    rw [walkOn, fresh_cons]
    by_cases hid : h.id ∈ seen
    · rw [if_pos hid, if_pos hid]
      exact ih htail hkept
    · rw [if_neg hid, if_neg hid, passing_cons]
      by_cases hkeep : keep h.row.content = true
      · rw [if_pos hkeep, if_pos hkeep, List.append_cons kept h (passing keep _)]
        split_ifs with hfull
        · have hlength : (kept ++ [h]).length = limit := by
            rw [List.length_append, List.length_singleton] at hfull ⊢
            omega
          rw [List.take_append_of_le_length hlength.ge, List.take_of_length_le hlength.le]
        · rw [ih htail (not_le.mp hfull), fresh_see hnodup]
      · rw [if_neg hkeep, if_neg hkeep, ih htail hkept, fresh_see hnodup]

/-- Past the first page, the rows after it are new. -/
theorem fresh_firstPage : fresh ((firstPage m limit).map Hit.id) m.hits = m.hits.drop limit := by
  have hnodup := m.nodup
  rw [← List.take_append_drop limit m.hits, List.map_append, List.nodup_append] at hnodup
  have hfirst : (firstPage m limit).filter (fun h => h.id ∉ (firstPage m limit).map Hit.id) = [] := by
    rw [List.filter_eq_nil_iff]
    intro h hh
    simpa using ⟨h, hh, rfl⟩
  have hlater : (m.hits.drop limit).filter (fun h => h.id ∉ (firstPage m limit).map Hit.id) =
      m.hits.drop limit := by
    rw [List.filter_eq_self]
    intro h hh
    rw [decide_eq_true_eq]
    exact fun hin => hnodup.2.2 h.id hin h.id (List.mem_map_of_mem hh) rfl
  calc fresh ((firstPage m limit).map Hit.id) m.hits =
        fresh ((firstPage m limit).map Hit.id) (firstPage m limit ++ m.hits.drop limit) := by
          rw [firstPage, List.take_append_drop]
    _ = m.hits.drop limit := by rw [fresh, List.filter_append, hfirst, hlater, List.nil_append]

/-- The rows that pass are those of the first page and those after it. -/
theorem passing_hits :
    passing keep m.hits = firstKept m limit keep ++ passing keep (m.hits.drop limit) := by
  conv_lhs => rw [← List.take_append_drop limit m.hits]
  exact List.filter_append _ _

/-- Where the first page settles it, its rows that pass are the result. -/
theorem firstKept_of_settled (h : settled m limit keep = true) :
    firstKept m limit keep = (passing keep m.hits).take limit := by
  have hkept : (firstKept m limit keep).length ≤ (firstPage m limit).length :=
    List.length_filter_le _ _
  have hfirst : (firstPage m limit).length = min limit m.hits.length := List.length_take
  have hpassing := @passing_hits m limit keep
  rw [settled, Bool.or_eq_true, decide_eq_true_eq, decide_eq_true_eq] at h
  rw [hpassing]
  by_cases hfull : (firstPage m limit).length < limit
  · -- The page has all rows.
    have hdrop : m.hits.drop limit = [] := List.drop_eq_nil_of_le (by omega)
    rw [hdrop, passing, List.filter_nil, List.append_nil, List.take_of_length_le (by omega)]
  · rw [List.take_append_of_le_length (by omega), List.take_of_length_le (by omega)]

theorem length_firstKept_lt (h : settled m limit keep = false) :
    (firstKept m limit keep).length < limit := by
  have hkept : (firstKept m limit keep).length ≤ (firstPage m limit).length :=
    List.length_filter_le _ _
  have hfirst : (firstPage m limit).length = min limit m.hits.length := List.length_take
  rw [settled, Bool.or_eq_false_iff, decide_eq_false_iff_not, decide_eq_false_iff_not] at h
  omega

/-- Without a budget, the result is that of filtering first and limiting then. -/
theorem ftsRowsKept_eq (m : Matching) (keep : Text → Bool) (limit : ℕ) :
    ftsRowsKept m keep (some limit) = (passing keep m.hits).take limit := by
  rw [ftsRowsKept]
  cases h : settled m limit keep with
  | true => exact firstKept_of_settled h
  | false =>
    show walkOn limit keep _ _ m.hits = _
    rw [walkOn_eq m.nodup (length_firstKept_lt h), fresh_firstPage, ← passing_hits]

/-! ## The walk under a budget -/

theorem runs_attempt_bind {α : Type} {q : Query} {f : Option q.Reply → Budgeted α}
    {u : Trace Query.Reply} {o : Option α} :
    Runs (attempt q >>= f) u o ↔ ∃ r v, u = ⟨q, r⟩ :: v ∧ Runs (f r) v o :=
  Iff.rfl

/-- A call has raised. -/
def Raised (u : Trace Query.Reply) : Prop := ∃ e ∈ u, e.reply = none

theorem raised_cons (q : Query) (v : Trace Query.Reply) : Raised (⟨q, none⟩ :: v) :=
  ⟨_, List.mem_cons_self, rfl⟩

theorem Raised.mono {u v : Trace Query.Reply} (h : Raised u) (hsub : ∀ e ∈ u, e ∈ v) : Raised v := by
  obtain ⟨e, he, hnone⟩ := h
  exact ⟨e, hsub e he, hnone⟩

/-- A walk goes on from one state to another, over rows that are new. -/
structure Went (limit : ℕ) (keep : Text → Bool) (w w' : Walk) (news : List Hit) : Prop where
  grows : w.kept <+: w'.kept
  within : w'.kept <+: w.kept ++ passing keep news
  length_le : w'.kept.length ≤ limit

theorem Went.of_kept {w w' : Walk} {news : List Hit} (h : w'.kept = w.kept)
    (hlength : w.kept.length < limit) : Went limit keep w w' news where
  grows := h ▸ List.prefix_rfl
  within := h ▸ List.prefix_append _ _
  length_le := h ▸ hlength.le

/-- A walk that ends early has gone over part of the rows. -/
theorem Went.early {w w' : Walk} {news : List Hit} (h : Went limit keep w w' news)
    (later : List Hit) : Went limit keep w w' (news ++ later) where
  grows := h.grows
  within := by
    rw [passing, List.filter_append, ← List.append_assoc]
    exact h.within.trans (List.prefix_append _ _)
  length_le := h.length_le

/-- A walk that has kept all that passes among the first rows goes on over the later ones. -/
theorem Went.append {w w₁ w' : Walk} {news later : List Hit}
    (hkept : w₁.kept = w.kept ++ passing keep news) (h : Went limit keep w₁ w' later) :
    Went limit keep w w' (news ++ later) where
  grows := (hkept ▸ List.prefix_append _ _ : w.kept <+: w₁.kept).trans h.grows
  within := by
    have hwithin := h.within
    rwa [hkept, List.append_assoc, passing, passing, ← List.filter_append] at hwithin
  length_le := h.length_le

/-- A page that was read to its end: all that passes is kept, and all ids are seen. -/
structure ReadAll (limit : ℕ) (keep : Text → Bool) (w w' : Walk) (hs : List Hit) : Prop where
  kept : w'.kept = w.kept ++ passing keep (fresh w.seen hs)
  length_lt : w'.kept.length < limit
  mem_seen : ∀ id, id ∈ w'.seen ↔ id ∈ w.seen ∨ id ∈ hs.map Hit.id

/-- A row that was seen before makes no difference. -/
theorem ReadAll.seen {w w' : Walk} {h : Hit} {hs : List Hit} (hid : h.id ∈ w.seen)
    (hall : ReadAll limit keep w w' hs) : ReadAll limit keep w w' (h :: hs) where
  kept := by
    rw [fresh_cons, if_pos hid]
    exact hall.kept
  length_lt := hall.length_lt
  mem_seen id := by
    rw [hall.mem_seen, List.map_cons, List.mem_cons]
    constructor
    · rintro (h | h)
      · exact .inl h
      · exact .inr (.inr h)
    · rintro (h | rfl | h)
      · exact .inl h
      · exact .inl hid
      · exact .inr h

/-- A new row is judged, and the others are read after it. -/
theorem ReadAll.judged {w w₁ w' : Walk} {h : Hit} {hs : List Hit} (hid : h.id ∉ w.seen)
    (hnodup : ((h :: hs).map Hit.id).Nodup) (hseen : w₁.seen = h.id :: w.seen)
    (hkept : w₁.kept = w.kept ++ passing keep [h]) (hall : ReadAll limit keep w₁ w' hs) :
    ReadAll limit keep w w' (h :: hs) where
  kept := by
    rw [hall.kept, hkept, hseen, fresh_see hnodup, fresh_cons, if_neg hid, List.append_assoc, passing,
      passing, ← List.filter_append]
    rfl
  length_lt := hall.length_lt
  mem_seen id := by
    rw [hall.mem_seen, hseen, List.map_cons, List.mem_cons, List.mem_cons]
    exact or_assoc.trans or_left_comm

/-- The rows of the narrow statement. -/
def narrow (hs : List Hit) : List (MemoryId × ℚ) := hs.map fun h => (h.id, h.bm25)

/-- What reading the rows of a page comes to. -/
structure PageRead (limit : ℕ) (keep : Text → Bool) (w w' : Walk) (hs : List Hit) (stop : Stop)
    (u : Trace Query.Reply) : Prop where
  went : Went limit keep w w' (fresh w.seen hs)
  raised : stop = .raised → Raised u
  all : stop = .more → ReadAll limit keep w w' hs

/-- A row that was seen before makes no difference to a page. -/
theorem PageRead.seen {w w' : Walk} {h : Hit} {hs : List Hit} {stop : Stop} {u : Trace Query.Reply}
    (hid : h.id ∈ w.seen) (hread : PageRead limit keep w w' hs stop u) :
    PageRead limit keep w w' (h :: hs) stop u where
  went := by
    rw [fresh_cons, if_pos hid]
    exact hread.went
  raised := hread.raised
  all hstop := (hread.all hstop).seen hid

/-- A new row of a page is judged, and the others are read after it. -/
theorem PageRead.judged {w w₁ w' : Walk} {h : Hit} {hs : List Hit} {stop : Stop}
    {u : Trace Query.Reply} (hread : PageRead limit keep w₁ w' hs stop u) (e : Event Query.Reply)
    (hid : h.id ∉ w.seen) (hnodup : ((h :: hs).map Hit.id).Nodup) (hseen : w₁.seen = h.id :: w.seen)
    (hkept : w₁.kept = w.kept ++ passing keep [h]) :
    PageRead limit keep w w' (h :: hs) stop (e :: u) where
  went := by
    have hwent := hread.went.append hkept
    rw [hseen, fresh_see hnodup] at hwent
    rw [fresh_cons, if_neg hid]
    exact hwent
  raised hstop := (hread.raised hstop).mono fun _ => List.mem_cons_of_mem e
  all hstop := (hread.all hstop).judged hid hnodup hseen hkept

/-- What the loop over a page comes to. -/
theorem judgePage_spec {hs : List Hit} {w : Walk} {n : ℕ} {u : Trace Query.Reply}
    {o : Option (Walk × ℕ × Stop)} (hnodup : (hs.map Hit.id).Nodup)
    (hstored : ∀ h ∈ hs, m.rows.get? h.id = some h.row) (hlength : w.kept.length < limit)
    (hrun : Runs (judgePage m limit keep w n (narrow hs)) u o) :
    ∃ w' n' stop, o = some (w', n', stop) ∧ PageRead limit keep w w' hs stop u := by
  induction hs generalizing w n u with
  | nil =>
    obtain ⟨-, rfl⟩ := hrun
    refine ⟨w, n, .more, rfl, .of_kept rfl hlength, nofun, fun _ => ⟨?_, hlength, fun id => ?_⟩⟩
    · exact (List.append_nil _).symm
    · simp
  | cons h hs ih =>
    have htail := (List.nodup_cons.mp hnodup).2
    have hrest := fun x hx => hstored x (List.mem_cons_of_mem h hx)
    rw [narrow, List.map_cons, judgePage] at hrun
    -- A row that was on an earlier page is passed over without a call.
    split_ifs at hrun with hid
    · obtain ⟨w', n', stop, rfl, hread⟩ := ih htail hrest hlength hrun
      exact ⟨w', n', stop, rfl, hread.seen hid⟩
    · simp only [hstored h List.mem_cons_self] at hrun
      obtain ⟨r, v, rfl, hv⟩ := runs_attempt_bind.mp hrun
      rcases r with _ | _ | _
      · obtain ⟨-, rfl⟩ := hv
        exact ⟨_, _, _, rfl, .of_kept rfl hlength, fun _ => raised_cons _ _, nofun⟩
      · -- The time is up: the rows that are left are not read.
        obtain ⟨-, rfl⟩ := hv
        exact ⟨_, _, _, rfl, .of_kept rfl hlength, nofun, nofun⟩
      · -- The row is judged; the ones after it are new just where they were before.
        dsimp only at hv
        split_ifs at hv with hkeep hfull
        · have hpass : passing keep (h :: fresh w.seen hs) = h :: passing keep (fresh w.seen hs) := by
            rw [passing_cons, if_pos hkeep]
          obtain ⟨-, rfl⟩ := hv
          refine ⟨_, _, _, rfl, ⟨List.prefix_append _ _, ?_, ?_⟩, nofun, nofun⟩
          · rw [fresh_cons, if_neg hid, hpass, List.append_cons]
            exact List.prefix_append _ _
          · show (w.kept ++ [h]).length ≤ limit
            rw [List.length_append, List.length_singleton]
            exact hlength
        · have hone : w.kept ++ [h] = w.kept ++ passing keep [h] := by
            rw [passing_cons, if_pos hkeep]
            rfl
          obtain ⟨w', n', stop, rfl, hread⟩ := ih htail hrest (not_le.mp hfull) hv
          exact ⟨w', n', stop, rfl, hread.judged _ hid hnodup rfl hone⟩
        · have hone : ((w.see h.id).judge h.row.content.length).kept =
              w.kept ++ passing keep [h] := by
            rw [passing_cons, if_neg hkeep]
            exact (List.append_nil _).symm
          obtain ⟨w', n', stop, rfl, hread⟩ :=
            ih (w := (w.see h.id).judge h.row.content.length) htail hrest hlength hv
          exact ⟨w', n', stop, rfl, hread.judged _ hid hnodup rfl hone⟩

theorem measure_spec {ownWorst perRow pageBegan : ℚ} {n : ℕ} {u : Trace Query.Reply}
    {o : Option (Option (ℚ × ℚ))} (h : Runs (measure ownWorst perRow pageBegan n) u o) :
    ∃ costs, o = some costs ∧ (costs = none → Raised u) := by
  unfold measure at h
  split_ifs at h
  · exact ⟨_, h.2, nofun⟩
  · obtain ⟨r, v, rfl, hv⟩ := runs_attempt_bind.mp h
    cases r with
    | none => exact ⟨_, hv.2, fun _ => raised_cons _ _⟩
    | some t => exact ⟨_, hv.2, nofun⟩

/-- What a page comes to. -/
theorem readPage_spec {ownWorst perRow : ℚ} {hs : List Hit} {w : Walk} {u : Trace Query.Reply}
    {o : Option (Walk × Stop × ℚ × ℚ)} (hnodup : (hs.map Hit.id).Nodup)
    (hstored : ∀ h ∈ hs, m.rows.get? h.id = some h.row) (hlength : w.kept.length < limit)
    (hrun : Runs (readPage m limit keep ownWorst perRow w (narrow hs)) u o) :
    ∃ w' stop costs, o = some (w', stop, costs) ∧ PageRead limit keep w w' hs stop u := by
  obtain ⟨r, v, rfl, hv⟩ := runs_attempt_bind.mp hrun
  cases r with
  | none =>
    obtain ⟨-, rfl⟩ := hv
    exact ⟨_, _, _, rfl, .of_kept rfl hlength, fun _ => raised_cons _ _, nofun⟩
  | some pageBegan =>
    rcases runs_bind.mp hv with ⟨a, v₁, v₂, rfl, hjudge, hv₂⟩ | ⟨rfl, hjudge⟩
    · obtain ⟨w₁, n₁, stop, ha, hread⟩ := judgePage_spec hnodup hstored hlength hjudge
      obtain rfl := Option.some.inj ha
      have hsub : ∀ e ∈ v₁, e ∈ (⟨.now, some pageBegan⟩ : Event Query.Reply) :: (v₁ ++ v₂) :=
        fun e he => List.mem_cons_of_mem _ (List.mem_append_left _ he)
      dsimp only at hv₂
      -- A page whose reading raised is not measured.
      by_cases hstop : stop = .raised
      · rw [if_pos hstop] at hv₂
        obtain ⟨-, rfl⟩ := hv₂
        exact ⟨_, _, _, rfl, hread.went, fun _ => (hread.raised hstop).mono hsub, nofun⟩
      · rw [if_neg hstop] at hv₂
        rcases runs_bind.mp hv₂ with ⟨costs, v₃, v₄, rfl, hmeasure, hv₄⟩ | ⟨rfl, hmeasure⟩
        · obtain ⟨_, hcosts, hfailed⟩ := measure_spec hmeasure
          obtain rfl := Option.some.inj hcosts
          rcases costs with _ | costs
          · obtain ⟨-, rfl⟩ := hv₄
            refine ⟨_, _, _, rfl, hread.went, fun _ => (hfailed rfl).mono fun e he => ?_, nofun⟩
            exact List.mem_cons_of_mem _ (List.mem_append_right _ (List.mem_append_left _ he))
          · obtain ⟨-, rfl⟩ := hv₄
            exact ⟨_, _, _, rfl, hread.went, fun h => absurd h hstop, hread.all⟩
        · obtain ⟨costs, hcosts, -⟩ := measure_spec hmeasure
          cases hcosts
    · obtain ⟨w₁, n₁, stop, ha, -⟩ := judgePage_spec hnodup hstored hlength hjudge
      cases ha

/-- A walk that ends by itself, or where a call has raised. -/
def Ended (limit : ℕ) (keep : Text → Bool) (w : Walk) (news : List Hit) (u : Trace Query.Reply)
    (o : Option (Walk × Bool)) : Prop :=
  ∃ w' raised, o = some (w', raised) ∧ Went limit keep w w' news ∧ (raised = true → Raised u)

theorem ended_raised {w : Walk} {news : List Hit} (hlength : w.kept.length < limit) (q : Query)
    (v : Trace Query.Reply) : Ended limit keep w news (⟨q, none⟩ :: v) (some (w, true)) :=
  ⟨w, true, rfl, .of_kept rfl hlength, fun _ => raised_cons q v⟩

theorem ended_here {w : Walk} {news : List Hit} (hlength : w.kept.length < limit)
    (u : Trace Query.Reply) : Ended limit keep w news u (some (w, false)) :=
  ⟨w, false, rfl, .of_kept rfl hlength, nofun⟩

/-- What the loop over the pages comes to. -/
theorem readPages_spec {left started ownWorst perRow : ℚ} {hs : List Hit} {w : Walk}
    {u : Trace Query.Reply} {o : Option (Walk × Bool)} (hnodup : (hs.map Hit.id).Nodup)
    (hstored : ∀ h ∈ hs, m.rows.get? h.id = some h.row) (hlength : w.kept.length < limit)
    (hrun : Runs (readPages m limit keep left started ownWorst perRow w (narrow hs)) u o) :
    Ended limit keep w (fresh w.seen hs) u o := by
  -- Each page has a row at least, so that fewer are left for the next one.
  induction hn : hs.length using Nat.strong_induction_on generalizing hs w u ownWorst perRow with
  | _ n ih =>
    rw [readPages] at hrun
    obtain ⟨r, v, rfl, hv⟩ := runs_attempt_bind.mp hrun
    cases r with
    | none =>
      obtain ⟨-, rfl⟩ := hv
      exact ended_raised hlength _ _
    | some t =>
      dsimp only at hv
      generalize pageRows (left - (t - started)) perRow = page at hv
      by_cases hpage : page < 1
      · rw [dif_pos hpage] at hv
        obtain ⟨-, rfl⟩ := hv
        exact ended_here hlength _
      · rw [dif_neg hpage] at hv
        have htake : (narrow hs).take page = narrow (hs.take page) := List.map_take.symm
        have hdrop : (narrow hs).drop page = narrow (hs.drop page) := List.map_drop.symm
        have hsplit : fresh w.seen hs =
            fresh w.seen (hs.take page) ++ fresh w.seen (hs.drop page) := by
          rw [fresh, fresh, fresh, ← List.filter_append, List.take_append_drop]
        have hfirst : ∀ h ∈ hs.take page, m.rows.get? h.id = some h.row :=
          fun h hh => hstored h (List.mem_of_mem_take hh)
        rw [← List.take_append_drop page hs, List.map_append, List.nodup_append] at hnodup
        rw [htake, hdrop] at hv
        rw [hsplit]
        rcases runs_bind.mp hv with ⟨a, v₁, v₂, rfl, hpageRun, hv₂⟩ | ⟨rfl, hpageRun⟩
        · obtain ⟨w₁, stop, costs, ha, hread⟩ := readPage_spec hnodup.1 hfirst hlength hpageRun
          obtain rfl := Option.some.inj ha
          dsimp only at hv₂
          split_ifs at hv₂ with hstop hmore
          · obtain ⟨-, rfl⟩ := hv₂
            exact ⟨w₁, true, rfl, hread.went.early _, fun _ => (hread.raised hstop).mono
              fun e he => List.mem_cons_of_mem _ (List.mem_append_left _ he)⟩
          · obtain ⟨-, rfl⟩ := hv₂
            exact ⟨w₁, false, rfl, hread.went.early _, nofun⟩
          · -- The page was full and was read to its end: the others follow.
            have hall : stop = .more := by
              cases stop with
              | more => rfl
              | done => exact absurd (.inl rfl) hmore
              | raised => exact absurd rfl hstop
            obtain ⟨hkept, hlt, hseen⟩ := hread.all hall
            have hshorter : (hs.drop page).length < n := by
              rw [not_or, not_lt, narrow, List.length_map, List.length_take] at hmore
              rw [List.length_drop]
              omega
            -- The rows that are left were not on this page: their ids are not among those that it
            -- added.
            have hfresh : fresh w₁.seen (hs.drop page) = fresh w.seen (hs.drop page) := by
              refine fresh_congr fun x hx => ?_
              rw [hseen]
              refine or_iff_left fun hin => ?_
              exact hnodup.2.2 _ hin _ (List.mem_map_of_mem hx) rfl
            obtain ⟨w', raised, rfl, hrest, hlater⟩ := ih _ hshorter hnodup.2.1
              (fun h hh => hstored h (List.mem_of_mem_drop hh)) hlt hv₂ rfl
            rw [hfresh] at hrest
            exact ⟨w', raised, rfl, hrest.append hkept, fun ht => (hlater ht).mono
              fun e he => List.mem_cons_of_mem _ (List.mem_append_right _ he)⟩
        · obtain ⟨w₁, stop, costs, ha, -⟩ := readPage_spec hnodup.1 hfirst hlength hpageRun
          cases ha

/-- What the `try` comes to. -/
theorem walkWithin_spec {left overhead perRow : ℚ} {w : Walk} {u : Trace Query.Reply}
    {o : Option (Walk × Bool)} (hlength : w.kept.length < limit)
    (hrun : Runs (walkWithin m limit keep left overhead perRow w) u o) :
    Ended limit keep w (fresh w.seen m.hits) u o := by
  obtain ⟨r, v, rfl, hv⟩ := runs_attempt_bind.mp hrun
  cases r with
  | none =>
    obtain ⟨-, rfl⟩ := hv
    exact ended_raised hlength _ _
  | some started =>
    dsimp only at hv
    split_ifs at hv
    · obtain ⟨-, rfl⟩ := hv
      exact ended_here hlength _
    · obtain ⟨w', raised, ho, hwent, hraised⟩ := readPages_spec m.nodup m.stored hlength hv
      exact ⟨w', raised, ho, hwent, fun ht => (hraised ht).mono fun _ => List.mem_cons_of_mem _⟩

/-! ## The calls of the walk -/

/-- The clock is read, or a row asked for. -/
def Quiet : Query → Prop
  | .now => True
  | .allows _ _ => True
  | _ => False

theorem only_attempt_bind {α : Type} {q : Query} {f : Option q.Reply → Budgeted α} (hq : Quiet q)
    (hf : ∀ r, Only Quiet (f r)) : Only Quiet (attempt q >>= f) :=
  ⟨hq, hf⟩

theorem judgePage_quiet (w : Walk) (n : ℕ) (rows : List (MemoryId × ℚ)) :
    Only Quiet (judgePage m limit keep w n rows) := by
  induction rows generalizing w n with
  | nil => exact only_pure _
  | cons r rows ih =>
    obtain ⟨id, score⟩ := r
    rw [judgePage]
    split_ifs
    · exact ih w n
    · split
      · exact ih _ n
      · refine only_attempt_bind trivial fun r => ?_
        rcases r with _ | _ | _
        · exact only_pure _
        · exact only_pure _
        · dsimp only
          split_ifs
          · exact only_pure _
          · exact ih _ _
          · exact ih _ _

theorem readPages_quiet (left started ownWorst perRow : ℚ) (w : Walk) (rows : List (MemoryId × ℚ)) :
    Only Quiet (readPages m limit keep left started ownWorst perRow w rows) := by
  induction hn : rows.length using Nat.strong_induction_on generalizing rows w ownWorst perRow with
  | _ n ih =>
    -- A page reads the clock, asks for rows and is measured by the clock.
    have hpage : ∀ page, Only Quiet (readPage m limit keep ownWorst perRow w (rows.take page)) := by
      refine fun page => only_attempt_bind trivial fun r => ?_
      cases r with
      | none => exact only_pure _
      | some pageBegan =>
        refine .bind (judgePage_quiet w 0 _) fun a => ?_
        dsimp only
        split_ifs
        · exact only_pure _
        · refine .bind ?_ fun costs => ?_
          · unfold measure
            split_ifs
            · exact only_pure _
            · refine only_attempt_bind trivial fun r => ?_
              cases r with
              | none => exact only_pure _
              | some t => exact only_pure _
          · cases costs with
            | none => exact only_pure _
            | some costs => exact only_pure _
    rw [readPages]
    refine only_attempt_bind trivial fun r => ?_
    cases r with
    | none => exact only_pure _
    | some t =>
      dsimp only
      generalize pageRows (left - (t - started)) perRow = page
      by_cases hone : page < 1
      · rw [dif_pos hone]
        exact only_pure _
      · rw [dif_neg hone]
        refine .bind (hpage page) fun a => ?_
        split_ifs with hstop hmore
        · exact only_pure _
        · exact only_pure _
        · refine ih _ ?_ _ _ _ _ rfl
          rw [not_or, not_lt, List.length_take] at hmore
          rw [List.length_drop]
          omega

theorem walkWithin_quiet (left overhead perRow : ℚ) (w : Walk) :
    Only Quiet (walkWithin m limit keep left overhead perRow w) := by
  refine only_attempt_bind trivial fun r => ?_
  cases r with
  | none => exact only_pure _
  | some started =>
    dsimp only
    split_ifs
    · exact only_pure _
    · exact readPages_quiet _ _ _ _ _ _

/-! ## The search -/

def isFinish : Query → Bool
  | .finish _ => true
  | _ => false

/-- How often `finish` is called. -/
def finishes (u : Trace Query.Reply) : ℕ := u.countP fun e => isFinish e.query

/-- `begin` has given some time. -/
def Granted (u : Trace Query.Reply) : Prop := ∃ left, ⟨.begin, some (some left)⟩ ∈ u

/-- What a search under a budget has to come to: a prefix of the rows that pass, with those of the
first page. It raises only where a call of the budget does, and calls `finish` once where it was
granted time. -/
structure Searched (m : Matching) (limit : ℕ) (keep : Text → Bool) (u : Trace Query.Reply)
    (o : Option (List Hit)) : Prop where
  initial : ∀ kept ∈ o, kept <+: (passing keep m.hits).take limit
  first : ∀ kept ∈ o, ∀ h ∈ firstPage m limit, keep h.row.content = true → h ∈ kept
  nodup : ∀ kept ∈ o, (kept.map Hit.id).Nodup
  raises : o = none → Raised u
  finish : Granted u → finishes u = 1

/-- A call before the first page is filtered raises. -/
theorem searched_raise {u : Trace Query.Reply} (hu : ¬Granted u) (hraised : Raised u) :
    Searched m limit keep u none where
  initial := nofun
  first := nofun
  nodup := nofun
  raises _ := hraised
  finish hgranted := absurd hgranted hu

theorem nodup_of_prefix {kept : List Hit} (h : kept <+: (passing keep m.hits).take limit) :
    (kept.map Hit.id).Nodup := by
  have hsub : kept.Sublist m.hits :=
    (h.sublist.trans (List.take_sublist _ _)).trans List.filter_sublist
  exact (hsub.map Hit.id).nodup m.nodup

/-- The rows of the first page that pass are a result, before anything is granted. -/
theorem searched_firstKept {u : Trace Query.Reply} (hu : ¬Granted u)
    (h : firstKept m limit keep <+: (passing keep m.hits).take limit) :
    Searched m limit keep u (some (firstKept m limit keep)) where
  initial kept hkept := by
    obtain rfl := Option.some.inj hkept
    exact h
  first kept hkept hit hhit hkeep := by
    obtain rfl := Option.some.inj hkept
    exact List.mem_filter.mpr ⟨hhit, hkeep⟩
  nodup kept hkept := by
    obtain rfl := Option.some.inj hkept
    exact nodup_of_prefix h
  raises := nofun
  finish hgranted := absurd hgranted hu

/-- The first page's rows that pass come first. -/
theorem firstKept_initial (h : settled m limit keep = false) :
    firstKept m limit keep <+: (passing keep m.hits).take limit := by
  rw [List.prefix_take_iff, @passing_hits m limit]
  exact ⟨List.prefix_append _ _, (length_firstKept_lt h).le⟩

/-- A walk from the first page on leads to an initial part of the rows that pass. -/
theorem Went.initial {w w' : Walk} (hkept : w.kept = firstKept m limit keep)
    (hwent : Went limit keep w w' (m.hits.drop limit)) :
    w'.kept <+: (passing keep m.hits).take limit := by
  rw [List.prefix_take_iff, @passing_hits m limit, ← hkept]
  exact ⟨hwent.within, hwent.length_le⟩

/-- Once time is granted, `finish` is called after the walk and not within it. -/
theorem finishes_walk {v : Trace Query.Reply} (hquiet : ∀ e ∈ v, Quiet e.query)
    {u w : Trace Query.Reply} (hu : finishes u = 0) (hw : finishes w = 1) :
    finishes (u ++ (v ++ w)) = 1 := by
  have hv : finishes v = 0 := by
    refine List.countP_eq_zero.mpr fun e he => ?_
    obtain ⟨q, r⟩ := e
    have hq : Quiet q := hquiet _ he
    cases q with
    | now => exact Bool.false_ne_true
    | allows rowsJudged chars => exact Bool.false_ne_true
    | begin => exact hq.elim
    | finish chars => exact hq.elim
  unfold finishes at hu hv hw ⊢
  rw [List.countP_append, List.countP_append, hu, hv, hw]

/-- Once time is granted, the search comes to what it has to, with any calls before it. -/
theorem searched_walkGranted {left overhead perRow : ℚ} {u v : Trace Query.Reply}
    {o : Option (List Hit)} (hsettled : settled m limit keep = false) (hu : finishes u = 0)
    (hrun : Runs (walkGranted m limit keep left overhead perRow) v o) :
    Searched m limit keep (u ++ v) o := by
  have hquiet := @walkWithin_quiet m limit keep left overhead perRow
    ⟨(firstPage m limit).map Hit.id, firstKept m limit keep, 0, 0⟩
  rcases runs_bind.mp hrun with ⟨a, v₁, v₂, rfl, hwalk, hv₂⟩ | ⟨rfl, hwalk⟩
  · obtain ⟨w', raised, ha, hwent, hraised⟩ := walkWithin_spec (length_firstKept_lt hsettled) hwalk
    obtain rfl := Option.some.inj ha
    rw [fresh_firstPage] at hwent
    have hinitial := hwent.initial rfl
    -- Whether the walk raised or not, `finish` comes after it.
    have hone : ∀ r, finishes [⟨.finish (if w'.judged = 0 then 0 else w'.chars), r⟩] = 1 :=
      fun _ => rfl
    rcases runs_ask_bind.mp hv₂ with ⟨⟨⟩, v₃, rfl, hv₃⟩ | ⟨rfl, rfl⟩
    · cases raised with
      | true =>
        obtain ⟨rfl, rfl⟩ := hv₃
        refine ⟨nofun, nofun, nofun, fun _ => (hraised rfl).mono fun e he => ?_, fun _ => ?_⟩
        · exact List.mem_append_right _ (List.mem_append_left _ he)
        · exact finishes_walk (hquiet.of_runs hwalk) hu (hone _)
      | false =>
        obtain ⟨rfl, rfl⟩ := hv₃
        refine ⟨?_, ?_, ?_, nofun, fun _ => finishes_walk (hquiet.of_runs hwalk) hu (hone _)⟩
        · rintro kept ⟨⟩
          exact hinitial
        · rintro kept ⟨⟩ h hh hkeep
          exact hwent.grows.subset (List.mem_filter.mpr ⟨hh, hkeep⟩)
        · rintro kept ⟨⟩
          exact nodup_of_prefix hinitial
    · refine ⟨nofun, nofun, nofun, fun _ => ?_, fun _ => ?_⟩
      · exact (raised_cons _ _).mono fun e he =>
          List.mem_append_right _ (List.mem_append_right _ he)
      · exact finishes_walk (hquiet.of_runs hwalk) hu (hone _)
  · obtain ⟨w', raised, ha, -⟩ := walkWithin_spec (length_firstKept_lt hsettled) hwalk
    cases ha

/-- Under a budget, whatever its calls are answered, the search comes to what it has to. -/
theorem ftsRowsKeptWithin_spec {u : Trace Query.Reply} {o : Option (List Hit)}
    (hrun : Runs (ftsRowsKeptWithin m limit keep) u o) : Searched m limit keep u o := by
  unfold ftsRowsKeptWithin at hrun
  -- A call that raises before the grant ends the search, and nothing was granted.
  rcases runs_ask_bind.mp hrun with ⟨began, v, rfl, hv⟩ | ⟨rfl, rfl⟩
  · rcases runs_ask_bind.mp hv with ⟨executed, v₁, rfl, hv₁⟩ | ⟨rfl, rfl⟩
    · cases hsettled : settled m limit keep with
      | true =>
        rw [if_pos hsettled] at hv₁
        obtain ⟨rfl, rfl⟩ := hv₁
        have hfirst := firstKept_of_settled hsettled
        exact searched_firstKept (by simp [Granted]) (hfirst ▸ List.prefix_rfl)
      | false =>
        rw [if_neg (by rw [hsettled]; decide)] at hv₁
        have hinitial := firstKept_initial hsettled
        rcases runs_ask_bind.mp hv₁ with ⟨fetched, v₂, rfl, hv₂⟩ | ⟨rfl, rfl⟩
        · rcases runs_ask_bind.mp hv₂ with ⟨left, v₃, rfl, hv₃⟩ | ⟨rfl, rfl⟩
          · cases left with
            | none =>
              obtain ⟨rfl, rfl⟩ := hv₃
              exact searched_firstKept (by simp [Granted]) hinitial
            | some left =>
              exact searched_walkGranted (u := [_, _, _, _]) hsettled rfl hv₃
          · exact searched_raise (by simp [Granted]) (by simp [Raised])
        · exact searched_raise (by simp [Granted]) (by simp [Raised])
    · exact searched_raise (by simp [Granted]) (by simp [Raised])
  · exact searched_raise (by simp [Granted]) (by simp [Raised])

/-- The search filters first and limits then: without a budget to the end, and with one, in every
environment, as far as it got. -/
theorem filters_then_limits (m : Matching) (limit : ℕ) (keep : Text → Bool) :
    ftsRowsKept m keep (some limit) = (passing keep m.hits).take limit ∧
      ∀ env : Env Query.Reply,
        let (calls, result) := (ftsRowsKeptWithin m limit keep).run env []
        Searched m limit keep calls result :=
  ⟨ftsRowsKept_eq m keep limit, fun env => ftsRowsKeptWithin_spec (runs_run env _ [])⟩

end Companion.Memory.KeywordWalk

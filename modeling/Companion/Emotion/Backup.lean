import Companion.Emotion.Queue
import Companion.Emotion.Recovery

/-!
# A recovery counts once

The files of `Queue`, with `.bak1`, into which a save copies the main file before it replaces it.
When the main file is lost, a drain takes the copy, folds into it what happened since from the
memories and the change log, and then folds the whole queue. `recovered_once` says what that drain
counts, and that it counts it once.

A line can be in the copy and in the queue where a state is saved while the queue, which a drain has
folded, could not be emptied. The recovery folds such a line again.
-/

namespace Companion.Emotion

open Companion.Memory Companion.Runs

/-- A part of a write that lands as a whole. -/
inductive Effect (K : Type*)
  /-- `.bak1` becomes `.bak2`. -/
  | rotate
  /-- The copy of the main file becomes `.bak1`. -/
  | setAside
  | write (w : Write K)

/-- The files, and the state of `.bak1` with the lines that are folded into it. -/
structure Backed (K : Type*) where
  files : Files K
  bak : Option (EngineState K × List LineId)
  deriving DecidableEq

section Machine

variable {K : Type*}

/-- `save_with_backup_text` for the state, and the emptying of the queue. -/
def Write.effects : Write K → List (Effect K)
  | .saveState s folded => [.rotate, .setAside, .write (.saveState s folded)]
  | .emptyQueue => [.write .emptyQueue]

def Backed.perform (drain : Bool) (s : Backed K) : Effect K → Backed K
  | .rotate => { s with bak := none }
  | .setAside =>
    -- There is no main file before the first save.
    if s.files.state.savedAt = none then s
    else { s with bak := some (s.files.state, s.files.folded) }
  | .write w => { s with files := s.files.perform drain w }

/-- Writes of which the first effects land. -/
def Backed.land (drain : Bool) (s : Backed K) (ws : List (Write K)) (landed : ℕ) : Backed K :=
  ((ws.flatMap Write.effects).take landed).foldl (Backed.perform drain) s

/-- Each line that is folded is of a queue that was emptied. -/
def Files.Settled (s : Files K) : Prop := ∀ l ∈ s.folded, l.1 < s.emptied.length

/-- The lines of items that are read of the queue. -/
def Files.lines (s : Files K) (items : List (Item K)) : List LineId :=
  (items.filterMap Item.line).map (s.emptied.length, ·)

variable [Field K] [LinearOrder K] (S : Setting K)

def Backed.apply (s : Backed K) (job : Job K) (now : Instant) (landed : ℕ) : Backed K :=
  s.land job.isDrain (s.files.writes S job now) landed

/-- The files of one persona and `.bak1`, while the main file can be read. -/
def backed : Machine (Backed K) (Step K) where
  init s := (queueing S).init s.files ∧ s.bak = none
  step s a :=
    match a with
    | .append record landed => some { s with files := s.files.append record landed }
    | .apply job now landed => some (s.apply S job now landed)

/-- No state is put aside while the queue holds a line that is folded into it. -/
def SettledSaves (s : Backed K) : Step K → Prop
  | .append _ _ => True
  | .apply job now landed =>
    1 < landed →
      (∃ state folded, (s.files.writes S job now)[0]? = some (.saveState state folded)) →
      s.files.Settled

theorem settledSaves_of_settled {s : Backed K} (a : Step K) (h : s.files.Settled) :
    SettledSaves S s a := by
  cases a with
  | append record landed => trivial
  | apply job now landed => exact fun _ _ => h

/-- The row was created since, or opened since and before each event of the queue. -/
def Row.CountsFrom (r : Row K) (since : Instant) (queued : List (Item K)) : Prop :=
  since ≤ r.created ∨ ∃ t ∈ r.accessed, since ≤ t ∧ ∀ i ∈ queued, t < i.event.time

/-- What a recovery from a copy of `since` counts: `points` from the memories and the change log,
and `kept` of the events that are queued. -/
structure CountedOnce (since : Instant) (database : Dict Text (Row K)) (queued : List (Item K))
    (points : List (Point K)) (kept : List (Item K)) : Prop where
  /-- A memory that counts has one entry, of its row. -/
  entry : ∀ id row, database.get? id = some row → row.emotions.entries ≠ [] →
    row.CountsFrom since queued →
    ∃ time, since ≤ time ∧ entriesOf id points = [⟨time, .row id row⟩]
  /-- One that does not has none. -/
  noEntry : ∀ id row, database.get? id = some row →
    ¬ (row.emotions.entries ≠ [] ∧ row.CountsFrom since queued) → entriesOf id points = []
  /-- A change that is replayed is before the whole queue. -/
  change : ∀ p ∈ points, ∀ e, p.payload = .change e → ∀ i ∈ queued, e.time < i.event.time
  /-- A commit or an assignment of a memory with an entry is not folded. -/
  ownMemory : ∀ i ∈ kept, ∀ id ∈ i.event.ownMemory, entriesOf id points = []

end Machine

/-! ## What lands of a job -/

section Landing

variable {K : Type*} {drain : Bool} {ws : List (Write K)}

/-- The files after a first part of the writes. -/
abbrev Files.after (f : Files K) (drain : Bool) (ws : List (Write K)) (n : ℕ) : Files K :=
  (ws.take n).foldl (Files.perform drain) f

theorem length_emptied_le (ws : List (Write K)) (f : Files K) :
    f.emptied.length ≤ (ws.foldl (Files.perform drain) f).emptied.length := by
  induction ws generalizing f with
  | nil => exact le_rfl
  | cons w ws ih =>
    refine le_trans ?_ (ih (f.perform drain w))
    cases w with
    | saveState state folded => exact le_rfl
    | emptyQueue =>
      show f.emptied.length ≤ (f.emptied ++ [f.queue]).length
      rw [List.length_append]
      omega

theorem emptied_after_mono (f : Files K) {n m : ℕ} (h : n ≤ m) :
    (f.after drain ws n).emptied.length ≤ (f.after drain ws m).emptied.length := by
  have htake : (ws.take m).take n = ws.take n := by rw [List.take_take, Nat.min_eq_left h]
  have hsplit := List.take_append_drop n (ws.take m)
  rw [htake] at hsplit
  unfold Files.after
  rw [← hsplit, List.foldl_append]
  exact length_emptied_le _ _

/-- What is put aside: the state before a save whose first effect lands. -/
def PutAside (drain : Bool) (f : Files K) (ws : List (Write K)) (landed m : ℕ)
    (bak : EngineState K × List LineId) : Prop :=
  ∃ n ≤ m, n + 1 < landed ∧ (∃ state folded, ws[n]? = some (.saveState state folded)) ∧
    (f.after drain ws n).state.savedAt.isSome ∧
    bak = ((f.after drain ws n).state, (f.after drain ws n).folded)

theorem PutAside.cons {f : Files K} {w : Write K} {landed m : ℕ}
    {bak : EngineState K × List LineId}
    (h : PutAside drain (f.perform drain w) ws landed m bak) :
    PutAside drain f (w :: ws) (landed + 1) (m + 1) bak := by
  obtain ⟨n, hnm, hlanded, hsave, hsaved, hbak⟩ := h
  exact ⟨n + 1, by omega, by omega, hsave, hsaved, hbak⟩

theorem PutAside.mono {f : Files K} {landed landed' m m' : ℕ} {bak : EngineState K × List LineId}
    (h : PutAside drain f ws landed m bak) (hlanded : landed ≤ landed') (hm : m ≤ m') :
    PutAside drain f ws landed' m' bak := by
  obtain ⟨n, hnm, hn, hrest⟩ := h
  exact ⟨n, by omega, by omega, hrest⟩

/-- A save up to its last effect: the files are as they were, and the state that there is is put
aside. -/
theorem begin_save (drain : Bool) (s : Backed K) (state : EngineState K) (folded : List (Item K))
    (ws : List (Write K)) :
    ((s.perform drain .rotate).perform drain .setAside).files = s.files ∧
      ∀ bak ∈ ((s.perform drain .rotate).perform drain .setAside).bak,
        PutAside drain s.files (.saveState state folded :: ws) 2 0 bak := by
  show (if s.files.state.savedAt = none then (⟨s.files, none⟩ : Backed K)
      else ⟨s.files, some (s.files.state, s.files.folded)⟩).files = s.files ∧
    ∀ bak ∈ (if s.files.state.savedAt = none then (⟨s.files, none⟩ : Backed K)
      else ⟨s.files, some (s.files.state, s.files.folded)⟩).bak, _
  split_ifs with hsaved
  · exact ⟨rfl, fun bak hbak => nomatch hbak⟩
  · refine ⟨rfl, fun bak hbak => ?_⟩
    obtain rfl := Option.some.inj hbak
    exact ⟨0, le_rfl, Nat.one_lt_two, ⟨state, folded, rfl⟩, Option.isSome_iff_ne_none.mpr hsaved, rfl⟩

/-- What lands leaves the files after a first part of the writes. A copy is the one that there was,
or what the last save to begin has put aside. -/
theorem land_cases (drain : Bool) (ws : List (Write K)) (s : Backed K) (landed : ℕ) :
    ∃ m, (s.land drain ws landed).files = s.files.after drain ws m ∧
      ∀ bak ∈ (s.land drain ws landed).bak,
        s.bak = some bak ∨ PutAside drain s.files ws landed m bak := by
  induction ws generalizing s landed with
  | nil =>
    have hland : s.land drain [] landed = s := by
      rw [Backed.land, List.flatMap_nil, List.take_nil]
      rfl
    rw [hland]
    exact ⟨0, rfl, fun bak hbak => Or.inl hbak⟩
  | cons w ws ih =>
    cases w with
    | emptyQueue =>
      match landed with
      | 0 => exact ⟨0, rfl, fun bak hbak => Or.inl hbak⟩
      | l + 1 =>
        obtain ⟨m, hfiles, hbak⟩ := ih (s.perform drain (.write .emptyQueue)) l
        refine ⟨m + 1, hfiles, fun bak hmem => ?_⟩
        rcases hbak bak hmem with hsame | hput
        · exact Or.inl hsame
        · exact Or.inr hput.cons
    | saveState state folded =>
      obtain ⟨hbegun, haside⟩ := begin_save drain s state folded ws
      match landed with
      | 0 => exact ⟨0, rfl, fun bak hbak => Or.inl hbak⟩
      | 1 => exact ⟨0, rfl, fun bak hbak => nomatch hbak⟩
      | 2 => exact ⟨0, hbegun, fun bak hbak => Or.inr (haside bak hbak)⟩
      | l + 3 =>
        let w : Write K := .saveState state folded
        let s₁ := ((s.perform drain .rotate).perform drain .setAside).perform drain (.write w)
        have hfirst : s₁.files = s.files.perform drain w := by
          show Files.perform drain ((s.perform drain .rotate).perform drain .setAside).files w = _
          rw [hbegun]
        obtain ⟨m, hfiles, hbak⟩ := ih s₁ l
        rw [hfirst] at hfiles hbak
        refine ⟨m + 1, hfiles, fun bak hmem => ?_⟩
        rcases hbak bak hmem with hsame | hput
        · -- The first save is the only one to begin.
          exact Or.inr ((haside bak hsame).mono (by omega) (by omega))
        · exact Or.inr (hput.cons.mono (by omega) le_rfl)

end Landing

/-! ## Runs -/

section Runs

variable {K : Type*} [Field K] [LinearOrder K] [IsStrictOrderedRing K] {S : Setting K} {s : Backed K}

/-- A save that is not the first write follows the emptying of the queue. -/
theorem emptied_before_save {f : Files K} {job : Job K} {now : Instant} {n : ℕ}
    {state : EngineState K} {folded : List (Item K)}
    (h : (f.writes S job now)[n + 1]? = some (.saveState state folded)) :
    (f.writes S job now)[n]? = some .emptyQueue := by
  cases job with
  | drain =>
    rcases writes_drain (S := S) f now with ⟨s₁, -, hwrites⟩ | ⟨-, s₁, hwrites⟩
    · rw [hwrites] at h ⊢
      unfold emptyAndRemember at h ⊢
      split_ifs at h ⊢
      · match n with
        | 0 => exact nomatch h
        | 1 => rfl
        | n + 2 => exact nomatch h
      · exact nomatch h
    · rw [hwrites] at h ⊢
      unfold emptyAndRemember at h ⊢
      split_ifs at h ⊢
      · match n with
        | 0 => rfl
        | n + 1 => exact nomatch h
      · exact nomatch h
  | direct events =>
    rcases writes_direct (S := S) f events now with hwrites | ⟨s₁, kept, -, -, hwrites⟩
    · rw [hwrites] at h
      exact nomatch h
    · rw [hwrites] at h
      exact nomatch h

/-- What is put aside before a save holds no line of the queue, if that is so of a first save. -/
theorem PutAside.settled {f : Files K} (h : f.Inv S) {job : Job K} {now : Instant} {landed m : ℕ}
    {bak : EngineState K × List LineId}
    (hput : PutAside job.isDrain f (f.writes S job now) landed m bak)
    (hfirst : 1 < landed →
      (∃ state folded, (f.writes S job now)[0]? = some (.saveState state folded)) → f.Settled) :
    ∀ l ∈ bak.2, l.1 < (f.after job.isDrain (f.writes S job now) m).emptied.length := by
  obtain ⟨n, hnm, hlanded, hsave, -, rfl⟩ := hput
  intro l hl
  refine Nat.lt_of_lt_of_le ?_ (emptied_after_mono f hnm)
  cases n with
  | zero => exact hfirst hlanded hsave l hl
  | succ n =>
    obtain ⟨state, folded, hsave⟩ := hsave
    have hempty := emptied_before_save hsave
    -- The queue has just been emptied, and its position with it.
    have hstale : (f.after job.isDrain (f.writes S job now) (n + 1)).stale = true := by
      unfold Files.after
      rw [List.take_add_one, hempty, List.foldl_append]
      rfl
    have hinv : (f.after job.isDrain (f.writes S job now) (n + 1)).Inv S := h.apply job now (n + 1)
    rcases hinv.before l hl with hlt | ⟨-, hfresh, -⟩
    · exact hlt
    · rw [hstale] at hfresh
      exact nomatch hfresh

/-- What is known of the copy: it was saved, and holds no line twice. -/
structure Backed.Inv (S : Setting K) (s : Backed K) : Prop where
  files : s.files.Inv S
  saved : ∀ bak ∈ s.bak, bak.1.savedAt.isSome
  nodup : ∀ bak ∈ s.bak, bak.2.Nodup

/-- No line of the copy is of the queue. -/
def Backed.Apart (s : Backed K) : Prop :=
  ∀ bak ∈ s.bak, ∀ l ∈ bak.2, l.1 < s.files.emptied.length

theorem Backed.Inv.apply (h : s.Inv S) (job : Job K) (now : Instant) (landed : ℕ) :
    (s.apply S job now landed).Inv S := by
  obtain ⟨m, hfiles, hbak⟩ := land_cases job.isDrain (s.files.writes S job now) s landed
  have hinv : (s.apply S job now landed).files.Inv S := by
    unfold Backed.apply
    rw [hfiles]
    exact h.files.apply job now m
  refine ⟨hinv, fun bak hmem => ?_, fun bak hmem => ?_⟩
  · rcases hbak bak hmem with hsame | ⟨n, -, -, -, hsaved, rfl⟩
    · exact h.saved bak hsame
    · exact hsaved
  · rcases hbak bak hmem with hsame | ⟨n, -, -, -, -, rfl⟩
    · exact h.nodup bak hsame
    · exact (h.files.apply job now n).nodup

theorem Backed.Apart.apply (hapart : s.Apart) (h : s.Inv S) {job : Job K} {now : Instant}
    {landed : ℕ} (hsettled : SettledSaves S s (.apply job now landed)) :
    (s.apply S job now landed).Apart := by
  obtain ⟨m, hfiles, hbak⟩ := land_cases job.isDrain (s.files.writes S job now) s landed
  intro bak hmem l hl
  unfold Backed.apply at hmem ⊢
  rw [hfiles]
  rcases hbak bak hmem with hsame | hput
  · exact Nat.lt_of_lt_of_le (hapart bak hsame l hl) (emptied_after_mono s.files (Nat.zero_le m))
  · exact hput.settled h.files hsettled l hl

theorem backed_inv_of_reach {C : Backed K → Step K → Prop} (h : (backed S).Reach C s) :
    s.Inv S := by
  refine h.invariant ?_ ?_
  · intro s hs
    obtain ⟨hfiles, hbak⟩ := hs
    have hnone : ∀ bak, bak ∉ s.bak := by
      intro bak hmem
      rw [hbak] at hmem
      exact nomatch hmem
    exact ⟨inv_of_reachable (.init hfiles), fun b hb => absurd hb (hnone b),
      fun b hb => absurd hb (hnone b)⟩
  · intro s a s' hs _ hstep
    cases a with
    | append record landed =>
      obtain rfl := Option.some.inj hstep
      exact ⟨hs.files.append record landed, hs.saved, hs.nodup⟩
    | apply job now landed =>
      obtain rfl := Option.some.inj hstep
      exact hs.apply job now landed

theorem apart_of_reach (h : (backed S).Reach (SettledSaves S) s) : s.Apart := by
  induction h with
  | init hs =>
    intro b hb
    rw [hs.2] at hb
    exact nomatch hb
  | @step s s' a hreach hsettled hstep ih =>
    cases a with
    | append record landed =>
      obtain rfl := Option.some.inj hstep
      exact ih
    | apply job now landed =>
      obtain rfl := Option.some.inj hstep
      exact ih.apply (backed_inv_of_reach hreach) hsettled

omit [IsStrictOrderedRing K] in
/-- What the points of a catch-up and the fold of the queue count. -/
theorem countedOnce_catchUp (database : Dict Text (Row K)) (log : List (Event K))
    (queued : List (Item K)) (since : Instant) :
    CountedOnce since database queued (catchUpPoints database log queued since)
      (keep (rowIds (catchUpPoints database log queued since)) (inTimeOrder queued)) := by
  have hentries : ∀ id row, database.get? id = some row →
      entriesOf id (catchUpPoints database log queued since) =
        (rowPoint since (queued.map fun i => i.event.time).min? (id, row)).toList :=
    fun id row hrow => entriesOf_replayPoints hrow _ _
  have hfolds : ∀ row : Row K,
      (row.foldsAt since (queued.map fun i => i.event.time).min?).isSome ↔
        row.CountsFrom since queued := by
    intro row
    unfold Row.CountsFrom
    simp only [isSome_foldsAt, lt_oldest_iff]
  constructor
  · intro id row hrow hemotions hcounts
    obtain ⟨time, htime⟩ := Option.isSome_iff_exists.mp ((hfolds row).mpr hcounts)
    refine ⟨time, le_of_foldsAt htime, ?_⟩
    rw [hentries id row hrow, rowPoint, if_neg hemotions, htime]
    rfl
  · intro id row hrow hnot
    rw [hentries id row hrow, rowPoint]
    by_cases hemotions : row.emotions.entries = []
    · rw [if_pos hemotions]
      rfl
    · have hnone : row.foldsAt since (queued.map fun i => i.event.time).min? = none := by
        rw [← Option.not_isSome_iff_eq_none, hfolds]
        exact fun hcounts => hnot ⟨hemotions, hcounts⟩
      rw [if_neg hemotions, hnone]
      rfl
  · intro p hp e he
    have hwithin := within_of_change hp he
    exact lt_oldest_iff.mp (within_iff.mp hwithin).2
  · intro i hi id hid
    exact entriesOf_eq_nil.mpr (notMem_of_mem_keep hi hid)

/-- **A recovery counts once.** After any run, a drain that finds the main file lost and `.bak1` not
too old brings that copy forward and folds the whole queue into it. A memory with emotions has one
entry if it was created since the copy was saved, or opened since and before the queue, and none if
not; no change of the queue's time is replayed; and no commit or assignment of a memory with an
entry folds. No line folds twice of those that the drain reads, and none is in the copy already,
where no state was put aside over a queue that was folded and not yet emptied. -/
theorem recovered_once (S : Setting K) {s : Backed K} (h : (backed S).Reachable s)
    {copy : EngineState K} {folded : List LineId} (hbak : s.bak = some (copy, folded))
    (database : Dict Text (Row K)) (log : List (Event K)) :
    ∃ saved, copy.savedAt = some saved ∧ ∀ now, now - saved ≤ longHalfLife →
      ∃ r points state kept more,
        copy.recovered S now (some database) log s.files.queue = some (r, points) ∧
        r.state =
          { points.foldl (fun s p => s.foldPoint S saved r.now p) copy with queueLine := 0 } ∧
        r.apply S .drain s.files.queue = .saveState state kept :: more ∧
        CountedOnce saved database (S.readQueue s.files.queue 0).items points kept ∧
        folded.Nodup ∧ (s.files.lines kept).Nodup ∧
        ((backed S).Reach (SettledSaves S) s → (folded ++ s.files.lines kept).Nodup) := by
  have hinv := backed_inv_of_reach h
  obtain ⟨saved, hsaved⟩ : ∃ saved, copy.savedAt = some saved :=
    Option.isSome_iff_exists.mp (hinv.saved _ hbak)
  refine ⟨saved, hsaved, fun now hnow => ?_⟩
  obtain ⟨r, hr, hstate, hskip, hcaughtUp, hread⟩ :=
    exists_recovered S hsaved hnow database log s.files.queue
  have hcounted := countedOnce_catchUp database log (S.readQueue s.files.queue 0).items saved
  rw [← hskip] at hcounted
  have hitems : (r.intake S .drain s.files.queue).items = (S.readQueue s.files.queue 0).items := by
    unfold Ready.intake
    rw [hread]
    rfl
  obtain ⟨s', kept, hfolded, ⟨-, hwrites⟩ | ⟨hsaves, -⟩⟩ :=
    apply_cases (S := S) r .drain s.files.queue
  · have hkept : keep r.skipIds (inTimeOrder (S.readQueue s.files.queue 0).items) = kept := by
      rw [← hitems]
      exact congrArg Prod.snd hfolded
    have hnodup : (s.files.lines kept).Nodup := by
      rw [← hkept]
      exact (nodup_lines_keep _ _ _).map fun i j hij => (Prod.mk.inj hij).2
    rw [hkept] at hcounted
    refine ⟨r, _, _, kept, _, hr, hstate, hwrites, hcounted, hinv.nodup _ hbak, hnodup, ?_⟩
    intro hsettled
    refine List.nodup_append.mpr ⟨hinv.nodup _ hbak, hnodup, ?_⟩
    rintro l hl _ hnew rfl
    obtain ⟨i, -, rfl⟩ := List.mem_map.mp hnew
    exact Nat.lt_irrefl _ (apart_of_reach hsettled _ hbak _ hl)
  · -- A step that has caught up saves.
    exfalso
    simp [Ready.saves, hcaughtUp] at hsaves

end Runs

/-! ## Two runs -/

/-- The direct apply of a memory that was just created. -/
def applyCreated (id : String) (time : Instant) : Step ℚ :=
  .apply (.direct [⟨.commit, time, some id.toList, Dict.empty.set "joy".toList 1, 1, 0⟩]) time 3

/-- A memory `m` that was last opened at the start of 2026. -/
def sampleMemories (created : Instant) : Dict Text (Row ℚ) :=
  Dict.empty.set "m".toList
    ⟨created, some 1767225600000000, Dict.empty.set "joy".toList 1, 1⟩

/-- The showing of that memory. -/
def sampleShowing : Event ℚ :=
  ⟨.showing, 1767225600000000, some "m".toList, Dict.empty.set "joy".toList 1, 1, 0⟩

def showingRecord : Text :=
  ("\x7b\"kind\":\"showing\",\"at\":\"2026-01-01T00:00:00Z\",\"memory_id\":\"m\"," ++
    "\"emotions\":\x7b\"joy\":1.0\x7d,\"modifier\":1.0\x7d").toList

/-- The zone UTC, and a reader of that showing. -/
def Setting.showing : Setting ℚ :=
  .utc fun text => if text = showingRecord then some sampleShowing else none

/-- The first queue is folded and emptied, and a commit then puts that state aside. The recovery
replays the memory that was created since, and folds the line of the second queue. -/
theorem recovered_once_sample :
    ∃ (s : Backed ℚ) (copy : EngineState ℚ) (r : Ready ℚ) (points : List (Point ℚ))
      (state : EngineState ℚ) (kept : List (Item ℚ)) (more : List (Write ℚ)),
      s.bak = some (copy, [(0, 0)]) ∧
      copy.recovered Setting.sample 1767225700000000
        (some (sampleMemories 1767225560000000)) [sampleChange] s.files.queue = some (r, points) ∧
      r.apply Setting.sample .drain s.files.queue = .saveState state kept :: more ∧
      CountedOnce 1767225550000000 (sampleMemories 1767225560000000)
        (Setting.sample.readQueue s.files.queue 0).items points kept ∧
      ([(0, 0)] ++ s.files.lines kept).Nodup := by
  obtain ⟨s, hreach, hs⟩ := Machine.exists_reach_of_runWithin (M := backed Setting.sample)
    (C := SettledSaves Setting.sample)
    (D := fun s _ => ∀ l ∈ s.files.folded, l.1 < s.files.emptied.length)
    (fun s a hsettled => settledSaves_of_settled _ a hsettled)
    (s := ⟨⟨.empty, [], [], [], false, []⟩, none⟩) ⟨rfl, rfl⟩
    [applyCreated "l" 1767225500000000, .append sampleRecord 80, .apply .drain 1767225550000000 7,
      applyCreated "m" 1767225560000000, .append sampleRecord 80]
    (fun s => s.bak.any fun b => b.2 = [(0, 0)] ∧ b.1.savedAt = some 1767225550000000)
    (by decide +kernel)
  obtain ⟨⟨copy, folded⟩, hbak, hcopy⟩ := (Option.any_eq_true _ _).mp hs
  obtain ⟨rfl, hsavedAt⟩ := of_decide_eq_true hcopy
  obtain ⟨saved, hsaved, hnow⟩ := recovered_once Setting.sample (hreach.mono fun _ _ _ => trivial)
    hbak (sampleMemories 1767225560000000) [sampleChange]
  obtain rfl := Option.some.inj (hsaved.symm.trans hsavedAt)
  obtain ⟨r, points, state, kept, more, hr, -, hwrites, hcounted, -, -, hnodup⟩ :=
    hnow 1767225700000000 (by decide)
  exact ⟨s, copy, r, points, state, kept, more, hbak, hr, hwrites, hcounted, hnodup hreach⟩

/-- The state that the first write saves, the lines that it folds, and the writes after it. -/
def savedFirst {K : Type*} :
    List (Write K) → Option (EngineState K × List (Item K) × List (Write K))
  | .saveState state kept :: more => some (state, kept, more)
  | _ => none

theorem eq_cons_of_savedFirst {K : Type*} {writes more : List (Write K)} {state : EngineState K}
    {kept : List (Item K)} (h : savedFirst writes = some (state, kept, more)) :
    writes = .saveState state kept :: more := by
  rcases writes with _ | ⟨_ | _, _⟩
  · cases h
  · cases h
    rfl
  · cases h

/-- A memory that was created before the copy was saved, and opened since, has no entry: its showing
is the oldest event of the queue. And a line folds twice: its queue could not be emptied, and a
commit has put aside the state that holds it. -/
theorem not_recovered_once :
    (∃ (s : Backed ℚ) (copy : EngineState ℚ) (folded : List LineId) (r : Ready ℚ)
      (points : List (Point ℚ)),
      (backed Setting.showing).Reach (SettledSaves Setting.showing) s ∧
      s.bak = some (copy, folded) ∧ copy.savedAt = some 1767225550000000 ∧
      copy.recovered Setting.showing 1767225700000000
        (some (sampleMemories 1767225540000000)) [] s.files.queue = some (r, points) ∧
      entriesOf "m".toList points = []) ∧
    ∃ (s : Backed ℚ) (copy : EngineState ℚ) (folded : List LineId) (r : Ready ℚ)
      (points : List (Point ℚ)) (state : EngineState ℚ) (kept : List (Item ℚ))
      (more : List (Write ℚ)),
      (backed Setting.sample).Reachable s ∧ s.bak = some (copy, folded) ∧
      copy.recovered Setting.sample 1767225700000000 (some (sampleMemories 1767225560000000)) []
        s.files.queue = some (r, points) ∧
      r.apply Setting.sample .drain s.files.queue = .saveState state kept :: more ∧
      (0, 0) ∈ folded ∧ (0, 0) ∈ s.files.lines kept := by
  constructor
  · obtain ⟨s, hreach, hs⟩ := Machine.exists_reach_of_runWithin (M := backed Setting.showing)
      (C := SettledSaves Setting.showing) (D := fun s _ => s.files.folded = [])
      (fun s a (hnone : s.files.folded = []) => settledSaves_of_settled _ a fun l hl => by
        rw [hnone] at hl
        cases hl)
      (s := ⟨⟨.empty, [], [], [], false, []⟩, none⟩) ⟨rfl, rfl⟩
      [applyCreated "m" 1767225540000000, applyCreated "n" 1767225550000000,
        applyCreated "o" 1767225560000000, .append showingRecord 120]
      (fun s => s.bak.any fun b => b.1.savedAt = some 1767225550000000 ∧
        (b.1.recovered Setting.showing 1767225700000000 (some (sampleMemories 1767225540000000)) []
          s.files.queue).any fun x => (entriesOf "m".toList x.2).isEmpty)
      (by decide +kernel)
    obtain ⟨⟨copy, folded⟩, hbak, hcopy⟩ := (Option.any_eq_true _ _).mp hs
    obtain ⟨hsaved, hrecovered⟩ := of_decide_eq_true hcopy
    obtain ⟨⟨r, points⟩, hr, hnone⟩ := (Option.any_eq_true _ _).mp hrecovered
    exact ⟨s, copy, folded, r, points, hreach, hbak, hsaved, hr, List.isEmpty_iff.mp hnone⟩
  · obtain ⟨s, hreach, hs⟩ := Machine.exists_reach_of_runWithin (M := backed Setting.sample)
      (C := fun _ _ => True) (D := fun _ _ => True) (fun _ _ _ => trivial)
      (s := ⟨⟨.empty, [], [], [], false, []⟩, none⟩) ⟨rfl, rfl⟩
      [.append sampleRecord 80, .apply .drain 1767225550000000 3, applyCreated "m" 1767225560000000]
      (fun s => s.bak.any fun b => (0, 0) ∈ b.2 ∧
        (b.1.recovered Setting.sample 1767225700000000 (some (sampleMemories 1767225560000000)) []
          s.files.queue).any fun x => (savedFirst (x.1.apply Setting.sample .drain s.files.queue)).any
            fun write => (0, 0) ∈ s.files.lines write.2.1)
      (by decide +kernel)
    obtain ⟨⟨copy, folded⟩, hbak, hcopy⟩ := (Option.any_eq_true _ _).mp hs
    obtain ⟨hfolded, hrecovered⟩ := of_decide_eq_true hcopy
    obtain ⟨⟨r, points⟩, hr, hwrites⟩ := (Option.any_eq_true _ _).mp hrecovered
    obtain ⟨⟨state, kept, more⟩, hfirst, hlines⟩ := (Option.any_eq_true _ _).mp hwrites
    exact ⟨s, copy, folded, r, points, state, kept, more, hreach, hbak, hr,
      eq_cons_of_savedFirst hfirst, hfolded, of_decide_eq_true hlines⟩

end Companion.Emotion

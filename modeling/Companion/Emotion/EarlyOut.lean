import Companion.Emotion.Recovery
import Companion.Runs
import Mathlib.Logic.Function.Basic

/-!
# The early-out of the drain

`_can_skip` of `brain/emotion/engine.py` lets a drain return without the lock: the queue file has
the key that it had when this engine last found it empty, and the open day is not over. Any number
of engines, in any processes, share the two files. A step of one of them can end after any of its
writes, and what it loads can be the main file, a copy that holds any state, or nothing.

Of the stat key of a file it is only taken that a file that is replaced or appended to has a key
that none had before. The zone is the same throughout.
-/

namespace Companion.Emotion

open Companion.Memory Companion.Runs

/-- The state file and the queue file, each with its key. -/
structure KeyedFiles (K : Type*) where
  /-- A main file that cannot be used has no state. -/
  main : Option (ℕ × Option (EngineState K))
  queue : Option (ℕ × Text)
  /-- The number of keys that were given to files. -/
  keys : ℕ

/-- `EmotionEngine` -/
structure Engine (K : Type*) where
  /-- `none` is `_UNSET`. -/
  lastQueueKey : Option (Option ℕ)
  catchUpFailed : Bool
  /-- The load that `StateCache` keeps: its key and its state. -/
  cache : Option (ℕ × EngineState K)

/-- What `read_state` finds. -/
inductive Load (K : Type*)
  | main
  /-- A copy, with what a catch-up reads beside it, and the switch: whether it is there, or none
  where that is not known. -/
  | copy (s : EngineState K) (database : Option (Dict Text (Row K))) (log : List (Event K))
      (switch : Option Bool)
  /-- No state, whether because there is no file at all. -/
  | nothing (missing : Bool) (switch : Option Bool)

/-- What a step does once it has loaded. -/
inductive Outcome (K : Type*)
  | ready (r : Ready K)
  /-- `_mark_failed` -/
  | failed
  /-- `_skip_for_unknown_switch` -/
  | skipped

/-- The files, and the engines that use them. -/
structure World (I K : Type*) where
  disk : KeyedFiles K
  engine : I → Engine K

inductive Act (I K : Type*)
  /-- A hook appends a record, of which the first characters land, or none where the file does not
  open. -/
  | append (record : Text) (landed : Option ℕ)
  /-- The main file is gone, or replaced by what cannot be used. -/
  | damage (gone : Bool)
  /-- An engine gets the state from its cache, where the main file can be read or not. -/
  | get (i : I) (readable : Bool)
  /-- A drain or a direct apply, of which the first writes land. Where there are more to land than
  writes, a drain can take the key of the queue. -/
  | apply (i : I) (job : Job K) (load : Load K) (now : Instant) (landed : ℕ)
  | restart (i : I)

section Definitions

variable {I K : Type*} [DecidableEq I] [Field K] [LinearOrder K] (S : Setting K)

def KeyedFiles.mainKey (d : KeyedFiles K) : Option ℕ := d.main.map Prod.fst

def KeyedFiles.queueKey (d : KeyedFiles K) : Option ℕ := d.queue.map Prod.fst

/-- The state of the main file, where it can be used. -/
def KeyedFiles.state? (d : KeyedFiles K) : Option (EngineState K) := d.main.bind Prod.snd

def KeyedFiles.queueText (d : KeyedFiles K) : Text := d.queue.elim [] Prod.snd

/-- A write lands, in a file with a new key. -/
def KeyedFiles.perform (d : KeyedFiles K) : Write K → KeyedFiles K
  | .saveState s _ => { d with main := some (d.keys, some s), keys := d.keys + 1 }
  | .emptyQueue => { d with queue := some (d.keys, []), keys := d.keys + 1 }

/-- A file to which nothing is appended keeps its key. -/
def KeyedFiles.append (d : KeyedFiles K) (record : Text) : Option ℕ → KeyedFiles K
  | none => d
  | some landed =>
    let added := (appendPayload d.queueText record).take landed
    if added = [] ∧ d.queue ≠ none then d
    else { d with queue := some (d.keys, d.queueText ++ added), keys := d.keys + 1 }

def KeyedFiles.damage (d : KeyedFiles K) (gone : Bool) : KeyedFiles K :=
  if gone then { d with main := none }
  else { d with main := some (d.keys, none), keys := d.keys + 1 }

/-- An engine as it is made. -/
def Engine.fresh : Engine K := ⟨none, false, none⟩

/-- `StateCache.get`, of which only a state of the main file counts here. -/
def Engine.load (e : Engine K) (d : KeyedFiles K) : Option (EngineState K) :=
  match e.cache.filter fun c => d.mainKey = some c.1 with
  | some c => some c.2
  | none => d.state?

/-- What the cache keeps after `get`. -/
def Engine.get (e : Engine K) (d : KeyedFiles K) (readable : Bool) : Engine K :=
  match e.cache.filter fun c => d.mainKey = some c.1 with
  | some _ => e
  | none =>
    { e with
      cache := if readable then d.main.bind fun file => file.2.map fun s => (file.1, s) else none }

/-- An empty state where there is none that can be used, once the switch is known missing. -/
def Outcome.empty (switch : Option Bool) (now : Instant) (fallbackEmpty : Bool) : Outcome K :=
  match switch with
  | some true => .failed
  | none => .skipped
  | some false => .ready ⟨.empty, now, [], false, fallbackEmpty, none, none⟩

/-- What comes of a load, or none where the files do not admit it. -/
def Load.outcome (d : KeyedFiles K) (now : Instant) : Load K → Option (Outcome K)
  | .main => d.state?.map fun s => .ready (Ready.main s now)
  | .copy s database log switch =>
    match s.recovered S now database log d.queueText with
    | some r => some (.ready r.1)
    | none => some (.empty switch (s.savedAt.elim now (max now)) true)
  | .nothing missing switch =>
    if missing = true ∧ d.main ≠ none then none else some (.empty switch now (!missing))

/-- The engine after `_run_apply`. -/
def Engine.applied (e : Engine K) (job : Job K) (load : Load K) (writes : List (Write K))
    (landed : ℕ) (after : KeyedFiles K) : Engine K where
  lastQueueKey :=
    match job with
    | .drain => if writes.length < landed then some after.queueKey else none
    | .direct _ => e.lastQueueKey
  catchUpFailed :=
    match load, writes.take landed with
    | .main, _ => false
    | _, .saveState _ _ :: _ => false
    | _, _ => e.catchUpFailed
  cache := e.cache

/-- `_run_apply` -/
def World.apply (w : World I K) (i : I) (job : Job K) (load : Load K) (now : Instant)
    (landed : ℕ) : Option (World I K) :=
  let e := w.engine i
  let unset :=
    match job with
    | .drain => none
    | .direct _ => e.lastQueueKey
  (load.outcome S w.disk now).map fun outcome =>
    match outcome with
    | .ready r =>
      let writes := r.apply S job w.disk.queueText
      let disk := (writes.take landed).foldl KeyedFiles.perform w.disk
      ⟨disk, Function.update w.engine i (e.applied job load writes landed disk)⟩
    | .failed =>
      { w with
        engine := Function.update w.engine i { e with lastQueueKey := unset, catchUpFailed := true } }
    | .skipped =>
      { w with engine := Function.update w.engine i { e with lastQueueKey := unset } }

/-- The engines of one persona. -/
def engines : Machine (World I K) (Act I K) where
  init w := w = ⟨⟨none, none, 0⟩, fun _ => .fresh⟩
  step w a :=
    match a with
    | .append record landed => some { w with disk := w.disk.append record landed }
    | .damage gone => some { w with disk := w.disk.damage gone }
    | .get i readable =>
      some { w with engine := Function.update w.engine i ((w.engine i).get w.disk readable) }
    | .apply i job load now landed => w.apply S i job load now landed
    | .restart i => some { w with engine := Function.update w.engine i .fresh }

/-- `_can_skip` -/
def World.canSkip (w : World I K) (i : I) (now : Instant) : Bool :=
  let e := w.engine i
  e.lastQueueKey = some w.disk.queueKey && !e.catchUpFailed &&
    ((e.load w.disk).bind EngineState.activeDay).any (S.dayOf now ≤ ·)

/-- A queue that has no lines, with the position at its start. -/
def KeyedFiles.Drained (d : KeyedFiles K) : Prop :=
  completeLines d.queueText = [] ∧ ∀ s, d.state? = some s → s.queueLine = 0

end Definitions

section Steps

variable {I K : Type*} [Field K] [LinearOrder K] {S : Setting K} {d : KeyedFiles K}
  {r : Ready K}

/-! ## Days -/

/-- A state was saved on a day that is not after the open one. -/
def EngineState.Timed (S : Setting K) (s : EngineState K) : Prop :=
  ∀ t, s.savedAt = some t → ∃ day, s.activeDay = some day ∧ S.dayOf t ≤ day

theorem activeDay_folded (r : Ready K) (items : List (Item K)) :
    ∃ day, (r.folded S items).1.activeDay = some day ∧ S.dayOf r.now ≤ day := by
  obtain ⟨day, hday, hle, -⟩ := activeDay_closeDays (S := S) _ r.now
  exact ⟨day, hday, hle⟩

/-! ## Loads -/

/-- What is known of a step that has loaded. -/
structure Ready.Of (S : Setting K) (d : KeyedFiles K) (r : Ready K) : Prop where
  read : r.queueRead = none ∨ r.queueRead = some (S.readQueue d.queueText 0)
  loaded : (∃ s now, d.state? = some s ∧ r = Ready.main s now) ∨
    r.state.queueLine = 0 ∧
      (r.caughtUp = true ∨ r.fallbackEmpty = true ∨ d.main = none ∧ r.state.savedAt = none)

theorem of_recovered {s : EngineState K} {now : Instant} {database : Option (Dict Text (Row K))}
    {log : List (Event K)} {r : Ready K × List (Point K)}
    (h : s.recovered S now database log d.queueText = some r) : r.1.Of S d := by
  obtain ⟨⟨state, points⟩, hcatch, rfl⟩ := Option.map_eq_some_iff.mp h
  obtain ⟨saved, -, hdatabase⟩ := Option.bind_eq_some_iff.mp hcatch
  obtain ⟨rows, -, hstate⟩ := Option.map_eq_some_iff.mp hdatabase
  have hline : state.queueLine = 0 := (congrArg (fun x => x.1.queueLine) hstate).symm
  exact ⟨Or.inr rfl, Or.inr ⟨hline, Or.inl rfl⟩⟩

theorem of_empty {switch : Option Bool} {now : Instant} {fallbackEmpty : Bool} {r : Ready K}
    (h : Outcome.empty switch now fallbackEmpty = .ready r)
    (hnone : fallbackEmpty = true ∨ d.main = none) : r.Of S d := by
  unfold Outcome.empty at h
  split at h
  · cases h
  · cases h
  · cases h
    exact ⟨Or.inl rfl, Or.inr ⟨rfl, Or.inr (hnone.imp_right fun hmain => ⟨hmain, rfl⟩)⟩⟩

theorem of_outcome {load : Load K} {now : Instant} {r : Ready K}
    (h : load.outcome S d now = some (.ready r)) : r.Of S d := by
  cases load with
  | main =>
    obtain ⟨s, hs, hr⟩ := Option.map_eq_some_iff.mp h
    cases hr
    exact ⟨Or.inl rfl, Or.inl ⟨s, now, hs, rfl⟩⟩
  | copy s database log switch =>
    unfold Load.outcome at h
    dsimp only at h
    cases hrecovered : s.recovered S now database log d.queueText with
    | some r' =>
      rw [hrecovered] at h
      cases h
      exact of_recovered hrecovered
    | none =>
      rw [hrecovered] at h
      exact of_empty (Option.some.inj h) (Or.inl rfl)
  | nothing missing switch =>
    unfold Load.outcome at h
    dsimp only at h
    split_ifs at h with hthere
    refine of_empty (Option.some.inj h) ?_
    cases missing with
    | false => exact Or.inl rfl
    | true => exact Or.inr (not_not.mp fun hmain => hthere ⟨rfl, hmain⟩)

theorem endLine_of (hr : r.Of S d) :
    (r.intake S .drain d.queueText).endLine = some (completeLines d.queueText).length := by
  unfold Ready.intake
  rcases hr.read with h | h
  · rw [h]
    rfl
  · rw [h]
    rfl

/-- A step that saves nothing has loaded the main file, or there is none. -/
theorem of_unsaved (hr : r.Of S d) {intake : Intake K} {s : EngineState K} {kept : List (Item K)}
    (h : r.saves intake s kept = false) :
    (∃ s now, d.state? = some s ∧ r = Ready.main s now) ∨
      r.state.queueLine = 0 ∧ d.main = none ∧ r.state.savedAt = none := by
  rcases hr.loaded with hmain | ⟨hline, hcaughtUp | hfallback | hnone⟩
  · exact Or.inl hmain
  · simp [Ready.saves, hcaughtUp] at h
  · simp [Ready.saves, hfallback] at h
  · exact Or.inr ⟨hline, hnone⟩

omit [Field K] [LinearOrder K] in
/-- The state that a step saves last, with the position 0. -/
theorem mem_emptyAndRemember {s : EngineState K} {endLine : Option ℕ} {t : EngineState K}
    {kept : List (Item K)} (h : .saveState t kept ∈ emptyAndRemember s endLine) :
    t = { s with queueLine := 0 } := by
  unfold emptyAndRemember at h
  split_ifs at h
  · rcases List.mem_cons.mp h with h | h
    · cases h
    · cases List.mem_singleton.mp h
      rfl
  · cases h

variable [IsStrictOrderedRing K]

/-- The folds keep the times and the position that were loaded. -/
theorem header_of (hr : r.Of S d) (job : Job K) :
    (r.folded S (r.intake S job d.queueText).items).1.header = r.state.header := by
  have hread : ∀ read, r.queueRead = some read →
      ∃ file fromLine, read = S.readQueue file fromLine := by
    intro read hread
    rcases hr.read with h | h
    · exact nomatch h.symm.trans hread
    · exact ⟨_, _, Option.some.inj (hread.symm.trans h)⟩
  refine header_folded r fun i hi => ?_
  obtain ⟨e, he⟩ := check_of_mem_intake hread hi
  exact modifier_check he

/-! ## Writes -/

theorem timed_of_mem_apply (hr : r.Of S d) (htimed : ∀ s, d.state? = some s → s.Timed S)
    {job : Job K} {t : EngineState K} {kept : List (Item K)}
    (h : .saveState t kept ∈ r.apply S job d.queueText) : t.Timed S := by
  obtain ⟨s, kept', hfolded, ⟨-, hwrites⟩ | ⟨hsaves, hwrites⟩⟩ :=
    apply_cases (S := S) r job d.queueText
  · obtain ⟨day, hactive, hday⟩ :=
      activeDay_folded (S := S) r (r.intake S job d.queueText).items
    rw [hfolded] at hactive
    rw [hwrites] at h
    -- It is saved at the time up to which the days are closed.
    have hstamped : ∀ line, ({ r.stamped (r.intake S job d.queueText).endLine s with
        queueLine := line } : EngineState K).Timed S := by
      rintro line _ ⟨⟩
      exact ⟨day, hactive, hday⟩
    rcases List.mem_cons.mp h with h | h
    · cases h
      exact hstamped _
    · rw [mem_emptyAndRemember h]
      exact hstamped 0
  · rw [hwrites] at h
    rw [mem_emptyAndRemember h]
    have hheader := header_of hr job
    rw [hfolded] at hheader
    have hsavedAt : s.savedAt = r.state.savedAt := congrArg (fun h => h.1) hheader
    intro u hu
    replace hu : r.state.savedAt = some u := hsavedAt ▸ hu
    rcases of_unsaved hr hsaves with ⟨loaded, now, hloaded, rfl⟩ | ⟨-, -, hnone⟩
    · obtain ⟨day, hactive, hday⟩ := htimed loaded hloaded u hu
      refine ⟨day, ?_, hday⟩
      -- The open day is the one that was loaded.
      by_contra hne
      have hclosed : (Ready.main loaded now).saves
          ((Ready.main loaded now).intake S job d.queueText) s kept' = true := by
        simp only [Ready.saves, Ready.main, hactive] at hne ⊢
        simp [hne]
      rw [hclosed] at hsaves
      cases hsaves
    · rw [hnone] at hu
      cases hu

/-- Over an empty queue a step saves one state at most, with the position 0. -/
theorem apply_of_noLines (hr : r.Of S d) (hqueue : completeLines d.queueText = [])
    (hline : ∀ s, d.state? = some s → s.queueLine = 0) (job : Job K) :
    r.apply S job d.queueText = [] ∨
      ∃ (s : EngineState K) (kept : List (Item K)), s.queueLine = 0 ∧
        r.apply S job d.queueText = [.saveState s kept] := by
  -- The position that was loaded is 0, and no line is read after it.
  have hloaded : r.state.queueLine = 0 := by
    rcases hr.loaded with ⟨s, now, hs, rfl⟩ | ⟨hzero, -⟩
    · exact hline s hs
    · exact hzero
  have hend : (r.intake S job d.queueText).endLine.getD 0 = 0 ∧
      ∀ s : EngineState K, emptyAndRemember s (r.intake S job d.queueText).endLine = [] := by
    cases job with
    | drain =>
      rw [endLine_of hr, hqueue]
      exact ⟨rfl, fun _ => rfl⟩
    | direct events => exact ⟨rfl, fun _ => rfl⟩
  obtain ⟨s, kept, hfolded, ⟨-, hwrites⟩ | ⟨-, hwrites⟩⟩ := apply_cases (S := S) r job d.queueText
  · refine Or.inr ⟨_, kept, ?_, by rw [hwrites, hend.2]⟩
    have hheader := header_of hr job
    rw [hfolded] at hheader
    have hkept : s.queueLine = 0 := (congrArg (fun h => h.2.2) hheader).trans hloaded
    show (r.intake S job d.queueText).endLine.getD s.queueLine = 0
    rw [hkept]
    exact hend.1
  · exact Or.inl (by rw [hwrites, hend.2])

/-- What a drain leaves whose writes all land. -/
theorem drained_of_apply (hr : r.Of S d) :
    ((r.apply S .drain d.queueText).foldl KeyedFiles.perform d).Drained := by
  have hend := endLine_of hr
  obtain ⟨s, kept, hfolded, ⟨-, hwrites⟩ | ⟨hsaves, hwrites⟩⟩ :=
    apply_cases (S := S) r .drain d.queueText
  · -- The position is saved after the last line, or the queue is emptied and the position put back.
    rw [hwrites, hend]
    cases hn : (completeLines d.queueText).length with
    | zero =>
      refine ⟨List.length_eq_zero_iff.mp hn, ?_⟩
      rintro _ ⟨⟩
      rfl
    | succ n =>
      refine ⟨rfl, ?_⟩
      rintro _ ⟨⟩
      rfl
  · rw [hwrites, hend]
    cases hn : (completeLines d.queueText).length with
    | zero =>
      refine ⟨List.length_eq_zero_iff.mp hn, fun t ht => ?_⟩
      rcases of_unsaved hr hsaves with ⟨loaded, now, hloaded, rfl⟩ | ⟨-, hnone, -⟩
      · have hheader := header_of hr .drain
        rw [hfolded] at hheader
        have hline := queueLine_of_unsaved (congrArg (fun h => h.2.2) hheader) hsaves
        obtain rfl := Option.some.inj (ht.symm.trans hloaded)
        exact hline.trans hn
      · have hstate : d.state? = none := by rw [KeyedFiles.state?, hnone]; rfl
        exact nomatch hstate.symm.trans ht
    | succ n =>
      refine ⟨rfl, ?_⟩
      rintro _ ⟨⟩
      rfl

/-- A step over a queue with no lines leaves the position at its start. -/
theorem KeyedFiles.Drained.apply (hr : r.Of S d) (h : d.Drained) (job : Job K) (landed : ℕ) :
    (((r.apply S job d.queueText).take landed).foldl KeyedFiles.perform d).Drained := by
  rcases apply_of_noLines hr h.1 h.2 job with hwrites | ⟨s, kept, hline, hwrites⟩
  · rw [hwrites, List.take_nil]
    exact h
  · rw [hwrites]
    cases landed with
    | zero => exact h
    | succ n =>
      rw [List.take_succ_cons, List.take_nil]
      refine ⟨h.1, ?_⟩
      rintro _ ⟨⟩
      exact hline

end Steps

section Keys

variable {K : Type*} {d d' d'' : KeyedFiles K}

/-! ## Keys -/

/-- What becomes of the files: one that has changed has a new key. -/
structure KeyedFiles.Later (d d' : KeyedFiles K) : Prop where
  keys : d.keys ≤ d'.keys
  main : d'.main = d.main ∨ ∀ k, d'.mainKey = some k → d.keys ≤ k ∧ k < d'.keys
  queue : d'.queue = d.queue ∨ ∃ k, d'.queueKey = some k ∧ d.keys ≤ k ∧ k < d'.keys

theorem KeyedFiles.Later.refl (d : KeyedFiles K) : d.Later d := ⟨le_rfl, Or.inl rfl, Or.inl rfl⟩

theorem KeyedFiles.Later.trans (h : d.Later d') (h' : d'.Later d'') : d.Later d'' where
  keys := h.keys.trans h'.keys
  main := by
    rcases h'.main with hsame | hnew
    · rw [hsame, KeyedFiles.mainKey, hsame]
      exact h.main.imp_right fun hmain k hk =>
        ⟨(hmain k hk).1, (hmain k hk).2.trans_le h'.keys⟩
    · exact Or.inr fun k hk => ⟨h.keys.trans (hnew k hk).1, (hnew k hk).2⟩
  queue := by
    rcases h'.queue with hsame | ⟨k, hk, hle, hlt⟩
    · rw [hsame, KeyedFiles.queueKey, hsame]
      rcases h.queue with hqueue | ⟨k, hk, hle, hlt⟩
      · exact Or.inl hqueue
      · exact Or.inr ⟨k, hk, hle, hlt.trans_le h'.keys⟩
    · exact Or.inr ⟨k, hk, h.keys.trans hle, hlt⟩

theorem later_perform (d : KeyedFiles K) (write : Write K) : d.Later (d.perform write) := by
  cases write with
  | saveState s kept =>
    refine ⟨Nat.le_succ _, Or.inr ?_, Or.inl rfl⟩
    rintro k ⟨⟩
    exact ⟨le_rfl, Nat.lt_succ_self _⟩
  | emptyQueue => exact ⟨Nat.le_succ _, Or.inl rfl, Or.inr ⟨d.keys, rfl, le_rfl, Nat.lt_succ_self _⟩⟩

theorem later_writes (d : KeyedFiles K) (writes : List (Write K)) :
    d.Later (writes.foldl KeyedFiles.perform d) := by
  induction writes generalizing d with
  | nil => exact .refl d
  | cons write writes ih => exact (later_perform d write).trans (ih _)

theorem later_append (d : KeyedFiles K) (record : Text) (landed : Option ℕ) :
    d.Later (d.append record landed) := by
  cases landed with
  | none => exact .refl d
  | some n =>
    simp only [KeyedFiles.append]
    split_ifs
    · exact .refl d
    · exact ⟨Nat.le_succ _, Or.inl rfl, Or.inr ⟨d.keys, rfl, le_rfl, Nat.lt_succ_self _⟩⟩

theorem later_damage (d : KeyedFiles K) (gone : Bool) : d.Later (d.damage gone) := by
  cases gone with
  | true => exact ⟨le_rfl, Or.inr nofun, Or.inl rfl⟩
  | false =>
    refine ⟨Nat.le_succ _, Or.inr ?_, Or.inl rfl⟩
    rintro k ⟨⟩
    exact ⟨le_rfl, Nat.lt_succ_self _⟩

theorem state?_append (d : KeyedFiles K) (record : Text) (landed : Option ℕ) :
    (d.append record landed).state? = d.state? := by
  cases landed with
  | none => rfl
  | some n =>
    simp only [KeyedFiles.append]
    split_ifs <;> rfl

theorem state?_damage (d : KeyedFiles K) (gone : Bool) : (d.damage gone).state? = none := by
  cases gone <;> rfl

theorem queueText_damage (d : KeyedFiles K) (gone : Bool) :
    (d.damage gone).queueText = d.queueText := by
  cases gone <;> rfl

/-- No file has a key that was not given yet. -/
def KeyedFiles.Keyed (d : KeyedFiles K) : Prop :=
  (∀ k, d.mainKey = some k → k < d.keys) ∧ ∀ k, d.queueKey = some k → k < d.keys

theorem KeyedFiles.Keyed.later (h : d.Keyed) (hlater : d.Later d') : d'.Keyed := by
  constructor
  · intro k hk
    rcases hlater.main with hsame | hnew
    · rw [KeyedFiles.mainKey, hsame] at hk
      exact (h.1 k hk).trans_le hlater.keys
    · exact (hnew k hk).2
  · intro k hk
    rcases hlater.queue with hsame | ⟨k', hk', -, hlt⟩
    · rw [KeyedFiles.queueKey, hsame] at hk
      exact (h.2 k hk).trans_le hlater.keys
    · obtain rfl := Option.some.inj (hk.symm.trans hk')
      exact hlt

/-! ## Engines -/

/-- What an engine knows. -/
structure Engine.Knows (e : Engine K) (d : KeyedFiles K) : Prop where
  cached : ∀ k s, e.cache = some (k, s) →
    k < d.keys ∧ (d.mainKey = some k → d.state? = some s)
  remembered : ∀ key, e.lastQueueKey = some key →
    (∀ k, key = some k → k < d.keys) ∧ (key = d.queueKey → d.Drained)

theorem knows_fresh (d : KeyedFiles K) : Engine.fresh.Knows d where
  cached _ _ hcache := absurd hcache (Option.not_mem_none _)
  remembered _ hlast := absurd hlast (Option.not_mem_none _)

/-- What has the key that an engine knows has not changed. -/
theorem Engine.Knows.later {e : Engine K} (h : e.Knows d) (hlater : d.Later d')
    (hdrained : d'.queue = d.queue → d.Drained → d'.Drained) : e.Knows d' where
  cached k s hcache := by
    obtain ⟨hlt, hstate⟩ := h.cached k s hcache
    refine ⟨hlt.trans_le hlater.keys, fun hkey => ?_⟩
    rcases hlater.main with hsame | hnew
    · rw [KeyedFiles.mainKey, hsame] at hkey
      rw [KeyedFiles.state?, hsame]
      exact hstate hkey
    · -- A file that was written has a key that nobody knew.
      exact absurd hlt (not_lt.mpr (hnew k hkey).1)
  remembered key hlast := by
    obtain ⟨hlt, hempty⟩ := h.remembered key hlast
    refine ⟨fun k hk => (hlt k hk).trans_le hlater.keys, fun hkey => ?_⟩
    rcases hlater.queue with hsame | ⟨k, hk, hle, -⟩
    · rw [KeyedFiles.queueKey, hsame] at hkey
      exact hdrained hsame (hempty hkey)
    · exact absurd (hlt k (hkey.trans hk)) (not_lt.mpr hle)

theorem Engine.Knows.get {e : Engine K} (h : e.Knows d) (hkeyed : d.Keyed) (readable : Bool) :
    (e.get d readable).Knows d := by
  unfold Engine.get
  split
  · exact h
  · refine ⟨fun k s hcache => ?_, h.remembered⟩
    cases readable with
    | false => exact nomatch hcache
    | true =>
      -- What is loaded now is kept under the key that the file has now.
      obtain ⟨file, hmain, hfile⟩ := Option.bind_eq_some_iff.mp hcache
      obtain ⟨_, hstate, heq⟩ := Option.map_eq_some_iff.mp hfile
      obtain ⟨rfl, rfl⟩ := Prod.mk.inj heq
      refine ⟨hkeyed.1 _ (by rw [KeyedFiles.mainKey, hmain]; rfl), fun _ => ?_⟩
      rw [KeyedFiles.state?, hmain]
      exact hstate

end Keys

section Runs

variable {I K : Type*} [DecidableEq I] [Field K] [LinearOrder K] [IsStrictOrderedRing K]
  {S : Setting K} {w w' : World I K}

/-! ## Runs -/

/-- What holds of the files and of every engine. -/
structure World.Inv (S : Setting K) (w : World I K) : Prop where
  keyed : w.disk.Keyed
  timed : ∀ s, w.disk.state? = some s → s.Timed S
  knows : ∀ i, (w.engine i).Knows w.disk

omit [DecidableEq I] [IsStrictOrderedRing K] in
/-- The files change. -/
theorem World.Inv.files (h : w.Inv S) {disk : KeyedFiles K} (hlater : w.disk.Later disk)
    (htimed : ∀ s, disk.state? = some s → s.Timed S)
    (hdrained : disk.queue = w.disk.queue → w.disk.Drained → disk.Drained) :
    World.Inv S ⟨disk, w.engine⟩ where
  keyed := h.keyed.later hlater
  timed := htimed
  knows j := (h.knows j).later hlater hdrained

omit [IsStrictOrderedRing K] in
/-- One engine changes. -/
theorem World.Inv.update (h : w.Inv S) {i : I} {e : Engine K} (he : e.Knows w.disk) :
    World.Inv S ⟨w.disk, Function.update w.engine i e⟩ where
  keyed := h.keyed
  timed := h.timed
  knows j := by
    show (Function.update w.engine i e j).Knows w.disk
    by_cases hj : j = i
    · rw [hj, Function.update_self]
      exact he
    · rw [Function.update_of_ne hj]
      exact h.knows j

omit [DecidableEq I] [Field K] [LinearOrder K] [IsStrictOrderedRing K] in
/-- The states that are saved are all that the main file can hold. -/
theorem state?_writes {d : KeyedFiles K} {s : EngineState K} (writes : List (Write K))
    (h : (writes.foldl KeyedFiles.perform d).state? = some s) :
    d.state? = some s ∨ ∃ kept, .saveState s kept ∈ writes := by
  induction writes generalizing d with
  | nil => exact Or.inl h
  | cons write writes ih =>
    rcases ih h with hstate | ⟨kept, hmem⟩
    · cases write with
      | saveState t kept =>
        cases hstate
        exact Or.inr ⟨kept, List.mem_cons_self⟩
      | emptyQueue => exact Or.inl hstate
    · exact Or.inr ⟨kept, List.mem_cons_of_mem _ hmem⟩

/-- The step that has loaded. -/
theorem World.Inv.ready (h : w.Inv S) {r : Ready K} (hr : r.Of S w.disk) (i : I) (job : Job K)
    (load : Load K) (landed : ℕ) :
    let writes := r.apply S job w.disk.queueText
    let disk := (writes.take landed).foldl KeyedFiles.perform w.disk
    World.Inv S ⟨disk, Function.update w.engine i
      ((w.engine i).applied job load writes landed disk)⟩ := by
  intro writes disk
  have hfiles : World.Inv S ⟨disk, w.engine⟩ := by
    refine h.files (later_writes w.disk _) ?_ (fun _ hdrained => hdrained.apply hr job landed)
    intro s hs
    rcases state?_writes _ hs with hstate | ⟨kept, hmem⟩
    · exact h.timed s hstate
    · exact timed_of_mem_apply hr h.timed (List.mem_of_mem_take hmem)
  have hknows := hfiles.knows i
  refine hfiles.update ⟨hknows.cached, fun key hlast => ?_⟩
  cases job with
  | direct events => exact hknows.remembered key hlast
  | drain =>
    -- The key is taken when all writes have landed.
    simp only [Engine.applied] at hlast
    split_ifs at hlast with hall
    obtain rfl := Option.some.inj hlast
    have hwrites : writes.take landed = writes := List.take_of_length_le hall.le
    refine ⟨hfiles.keyed.2, fun _ => ?_⟩
    show ((writes.take landed).foldl KeyedFiles.perform w.disk).Drained
    rw [hwrites]
    exact drained_of_apply hr

theorem World.Inv.step {a : Act I K} (h : w.Inv S) (hstep : (engines S).step w a = some w') :
    w'.Inv S := by
  cases a with
  | append record landed =>
    obtain rfl := Option.some.inj hstep
    have hstate := state?_append w.disk record landed
    refine h.files (later_append w.disk record landed) (by rw [hstate]; exact h.timed) ?_
    intro hqueue hdrained
    rw [KeyedFiles.Drained, hstate, KeyedFiles.queueText, hqueue]
    exact hdrained
  | damage gone =>
    obtain rfl := Option.some.inj hstep
    have hnone : ∀ s, (w.disk.damage gone).state? ≠ some s := fun s hs =>
      Option.not_mem_none s ((state?_damage w.disk gone).symm.trans hs)
    refine h.files (later_damage w.disk gone) (fun s hs => absurd hs (hnone s)) ?_
    intro _ hdrained
    rw [KeyedFiles.Drained, queueText_damage]
    exact ⟨hdrained.1, fun s hs => absurd hs (hnone s)⟩
  | get i readable =>
    obtain rfl := Option.some.inj hstep
    exact h.update ((h.knows i).get h.keyed readable)
  | restart i =>
    obtain rfl := Option.some.inj hstep
    exact h.update (knows_fresh _)
  | apply i job load now landed =>
    obtain ⟨outcome, houtcome, rfl⟩ := Option.map_eq_some_iff.mp hstep
    have hunset : ∀ failed, (Engine.mk
        (match job with
          | .drain => none
          | .direct _ => (w.engine i).lastQueueKey) failed (w.engine i).cache).Knows w.disk := by
      intro failed
      refine ⟨(h.knows i).cached, fun key hlast => ?_⟩
      cases job with
      | drain => exact nomatch hlast
      | direct events => exact (h.knows i).remembered key hlast
    cases outcome with
    | ready r => exact h.ready (of_outcome houtcome) i job load landed
    | failed => exact h.update (hunset true)
    | skipped => exact h.update (hunset (w.engine i).catchUpFailed)

theorem inv_of_reachable_engines (h : (engines S).Reachable w) : w.Inv S := by
  refine h.invariant ?_ ?_
  · rintro _ rfl
    exact ⟨⟨nofun, nofun⟩, fun s hs => absurd hs (Option.not_mem_none s), fun _ => knows_fresh _⟩
  · intro w a w' hinv _ hstep
    exact hinv.step hstep

/-! ## The early-out -/

omit [DecidableEq I] [Field K] [LinearOrder K] [IsStrictOrderedRing K] in
/-- What the cache gives is the state of the main file. -/
theorem load_eq {e : Engine K} {d : KeyedFiles K} (h : e.Knows d) : e.load d = d.state? := by
  unfold Engine.load
  cases hcache : e.cache.filter fun c => d.mainKey = some c.1 with
  | none => rfl
  | some c =>
    obtain ⟨hkept, hkey⟩ := Option.filter_eq_some_iff.mp hcache
    exact ((h.cached c.1 c.2 hkept).2 (of_decide_eq_true hkey)).symm

/-- **The early-out is sound.** After any run, where an engine can skip a drain, the drain would
read no line of the queue and fold nothing, close no day, save nothing and leave the queue. -/
theorem skip_sound (h : (engines S).Reachable w) {i : I} {now : Instant}
    (hskip : w.canSkip S i now = true) :
    ∃ s, w.disk.state? = some s ∧
      let r := Ready.main s now
      let intake := r.intake S .drain w.disk.queueText
      intake.items = [] ∧ r.folded S intake.items = (s.pruneRepeats r.now, []) ∧
        r.saves intake (s.pruneRepeats r.now) [] = false ∧
        r.apply S .drain w.disk.queueText = [] ∧
        ∀ landed, ∃ w', w.apply S i .drain .main now landed = some w' ∧ w'.disk = w.disk := by
  obtain ⟨hkeyed, htimed, hknows⟩ := inv_of_reachable_engines h
  unfold World.canSkip at hskip
  simp only [Bool.and_eq_true, decide_eq_true_eq] at hskip
  obtain ⟨⟨hlast, -⟩, hopen⟩ := hskip
  rw [load_eq (hknows i)] at hopen
  -- The key of the queue is the one that was remembered, so that nothing was appended since.
  obtain ⟨hqueue, hline⟩ := ((hknows i).remembered _ hlast).2 rfl
  obtain ⟨day, hday, hnow⟩ := (Option.any_eq_true _ _).mp hopen
  obtain ⟨s, hs, hactive⟩ := Option.bind_eq_some_iff.mp hday
  -- The time of the step is held to the last save, which was on the open day or before it.
  have hheld : S.dayOf (Ready.main s now).now ≤ day := by
    show S.dayOf (s.savedAt.elim now (max now)) ≤ day
    cases hsaved : s.savedAt with
    | none => exact of_decide_eq_true hnow
    | some t =>
      obtain ⟨day', hday', hle⟩ := htimed s hs t hsaved
      obtain rfl := Option.some.inj (hactive.symm.trans hday')
      rcases max_choice now t with hmax | hmax
      · rw [Option.elim_some, hmax]
        exact of_decide_eq_true hnow
      · rw [Option.elim_some, hmax]
        exact hle
  have hintake : (Ready.main s now).intake S .drain w.disk.queueText = ⟨[], some 0, false⟩ := by
    simp [Ready.intake, Ready.main, Setting.readQueue, hqueue, effectiveFrom]
  have hfolded : (Ready.main s now).folded S [] =
      (s.pruneRepeats (Ready.main s now).now, []) := by
    have hclose := closeDays_of_le hactive hheld
    show ((s.closeDays S (Ready.main s now).now).pruneRepeats (Ready.main s now).now, []) = _
    rw [hclose]
  have hsaves : (Ready.main s now).saves ⟨[], some 0, false⟩
      (s.pruneRepeats (Ready.main s now).now) [] = false := by
    simp [Ready.saves, Ready.main, EngineState.pruneRepeats, hline s hs]
  have happly : (Ready.main s now).apply S .drain w.disk.queueText = [] := by
    unfold Ready.apply
    simp only [hintake, hfolded]
    rw [if_neg (by rw [hsaves]; exact Bool.false_ne_true)]
    rfl
  refine ⟨s, hs, ?_⟩
  dsimp only
  rw [hintake]
  refine ⟨rfl, hfolded, hsaves, happly, ?_⟩
  intro landed
  have hload : (Load.main : Load K).outcome S w.disk now = some (.ready (Ready.main s now)) := by
    rw [Load.outcome, hs, Option.map_some]
  refine ⟨_, congrArg (Option.map _) hload, ?_⟩
  simp only [happly, List.take_nil, List.foldl_nil]

/-- A commit of the first day by one engine, and a drain of the other, which then skips. -/
theorem skip_sound_sample :
    ∃ (w : World Bool ℚ) (s : EngineState ℚ), (engines Setting.sample).Reachable w ∧
      w.canSkip Setting.sample true 1767225600000000 = true ∧ w.disk.state? = some s ∧
      (Ready.main s 1767225600000000).apply Setting.sample .drain w.disk.queueText = [] := by
  obtain ⟨w, hreach, hskip⟩ := Machine.exists_reach_of_runWithin
    (M := engines (I := Bool) Setting.sample) (C := fun _ _ => True) (D := fun _ _ => True)
    (fun _ _ _ => trivial) (s := ⟨⟨none, none, 0⟩, fun _ => .fresh⟩) rfl
    [.apply false (.direct [⟨.commit, 1767225600000000, some "m".toList,
        Dict.empty.set "joy".toList 1, 1, 0⟩]) (.nothing true (some false)) 1767225600000000 2,
      .append sampleRecord (some 80), .apply true .drain .main 1767225600000000 9,
      .get true true]
    (fun w => w.canSkip Setting.sample true 1767225600000000) (by decide +kernel)
  obtain ⟨s, hs, -, -, -, happly, -⟩ := skip_sound hreach hskip
  exact ⟨w, s, hreach, hskip, hs, happly⟩

end Runs

end Companion.Emotion

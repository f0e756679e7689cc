import Mathlib.Data.Set.Subsingleton
import Mathlib.Logic.Function.Basic
import Mathlib.Order.Basic
import Companion.Runs

/-!
# The per-session compaction lock

`acquire_compaction_lock` and `release_compaction_lock` of `brain/ingest/buffer.py`, for any number
of callers on one session, one file operation at a time. A caller creates the lock file exclusively
and then writes its payload. A caller that finds the file reads it, judges it by the recorded
process (`process_identity.holder_alive`) or, where that lives, by the age of the file, and reaps
it: it unlinks whatever file is there and creates its own exclusively.

Two steps of a reap are apart from the judgement they act on. The unlink may meet a file that
another caller created since (`exclusion_fails`), and a payload that its creator has yet to write
reads as that of no process. Where neither happens the lock excludes (`holders_subsingleton`).

`creator` and the `since` of a phase are bookkeeping of the model: no operation reads them.
-/

namespace Companion.Ingest.CompactionLock

open Companion.Runs

/-- What `token_of` reads for a pid. -/
inductive TokenReading
  | gone
  | unknown
  | token (t : ℕ)
  deriving DecidableEq

/-- What the process table answers. -/
structure Processes where
  /-- `token_of` -/
  tokenOf : ℤ → TokenReading
  /-- `pid_is_alive`, the check of a file in the older format -/
  pidIsAlive : ℤ → Bool

/-- `holder_alive`: whether the holder recorded in a lock file is still alive. -/
def Processes.holderAlive (P : Processes) (pid : ℤ) (recorded : Option ℕ) : Bool :=
  if pid ≤ 0 then false
  else
    match recorded with
    | some t =>
      match P.tokenOf pid with
      | .unknown => true
      | .gone => false
      | .token u => u == t
    | none => P.pidIsAlive pid

/-- The payload of a lock file, as far as `acquire_compaction_lock` reads it. -/
structure Payload where
  pid : ℤ
  token : Option ℕ
  deriving DecidableEq

/-- The payloads that the callers write; the process of a caller stays alive. -/
structure Callers (P : Processes) where
  payload : ℕ → Payload
  alive : ∀ c, P.holderAlive (payload c).pid (payload c).token = true

/-- A lock file. Its payload is `none` from its creation to the write of the payload, and its
creator is `none` when it is the file that a crashed process left behind. -/
structure LockFile where
  inode : ℕ
  creator : Option ℕ
  payload : Option Payload
  mtime : ℤ
  deriving DecidableEq

/-- Where a caller is between two file operations. -/
inductive Phase
  /-- Outside `acquire_compaction_lock`. -/
  | idle
  /-- The exclusive create found a file; `read_json` is next. -/
  | reading
  /-- The recorded holder is alive; `stat` is next. -/
  | stating
  /-- The file judged is to be reaped; `unlink` is next. -/
  | reaping (judged : Option LockFile)
  /-- The second exclusive create is next. -/
  | recreating
  /-- The file is created; the write of its payload is next. -/
  | writing (inode : ℕ) (since : ℤ)
  /-- Between a `True` and the release. -/
  | holding (inode : ℕ) (since : ℤ)
  deriving DecidableEq

/-- The lock file of one session and its callers. -/
structure State where
  now : ℤ
  file : Option LockFile
  nextInode : ℕ
  phase : ℕ → Phase

/-- A step: the next file operation of a caller, or the passing of time. -/
inductive Act
  | turn (c : ℕ)
  | tick (d : ℕ)
  deriving DecidableEq

namespace State

/-- Move one caller to a phase. -/
def setPhase (s : State) (c : ℕ) (p : Phase) : State :=
  { s with phase := Function.update s.phase c p }

/-- The exclusive create, with no file there. -/
def create (s : State) (c : ℕ) : State :=
  { s with
    file := some ⟨s.nextInode, some c, none, s.now⟩
    nextInode := s.nextInode + 1
    phase := Function.update s.phase c (.writing s.nextInode s.now) }

/-- The write of the payload into the file that the caller created, if it is still at the path. -/
def writePayload (s : State) (p : Payload) (inode : ℕ) : Option LockFile :=
  s.file.map fun f => if f.inode = inode then { f with payload := some p, mtime := s.now } else f

/-- A caller holds the lock. -/
def Holding (s : State) (c : ℕ) : Prop := ∃ i t, s.phase c = .holding i t

/-- A caller has created the file `inode` at `since`, and has not released it. -/
def Owns (s : State) (c inode : ℕ) (since : ℤ) : Prop :=
  s.phase c = .writing inode since ∨ s.phase c = .holding inode since

end State

section Machine

variable (P : Processes) (K : Callers P) (stale : ℤ)

/-- The judgement of the file read: a missing file, or one whose payload is not there, has no
holder, and one of a live holder is still to be judged by its age. -/
def judgedDead (file : Option LockFile) : Bool :=
  match file.bind LockFile.payload with
  | none => true
  | some p => !P.holderAlive p.pid p.token

/-- The next file operation of caller `c`. -/
def turn (s : State) (c : ℕ) : State :=
  match s.phase c with
  | .idle => if s.file.isNone then s.create c else s.setPhase c .reading
  | .reading => s.setPhase c (if judgedDead P s.file then .reaping s.file else .stating)
  | .stating =>
    match s.file with
    | none => s.setPhase c .idle
    | some f => s.setPhase c (if stale < s.now - f.mtime then .reaping (some f) else .idle)
  | .reaping _ => { s.setPhase c .recreating with file := none }
  | .recreating => if s.file.isNone then s.create c else s.setPhase c .idle
  | .writing i t => { s.setPhase c (.holding i t) with file := s.writePayload (K.payload c) i }
  | .holding _ _ => { s.setPhase c .idle with file := none }

/-- The lock of one session. At most one file, left by a crashed process, is there at the start. -/
def machine : Machine State Act where
  init s := (∀ c, s.phase c = .idle) ∧ ∀ f, s.file = some f → f.creator = none ∧ f.inode < s.nextInode
  step s a :=
    match a with
    | .turn c => some (turn P K stale s c)
    | .tick d => some { s with now := s.now + d }

/-- Every caller keeps its file for less than `stale_s`. -/
def HeldBriefly (s : State) : Act → Prop
  | .turn _ => 0 < stale
  | .tick d => ∀ c i t, s.Owns c i t → s.now + d - t < stale

/-- The file that a reap unlinks is unchanged since its caller judged it, and is not one whose
creator has yet to write its payload. -/
def ReapsWhatItJudged (s : State) : Act → Prop
  | .turn c =>
    match s.phase c with
    | .reaping j => ∀ f ∈ s.file, j = some f ∧ (f.payload = none → f.creator = none)
    | _ => True
  | .tick _ => True

instance (s : State) (a : Act) : Decidable (ReapsWhatItJudged s a) := by
  unfold ReapsWhatItJudged
  split
  · split <;> infer_instance
  · infer_instance

end Machine

/-! ## The invariant -/

section Invariant

variable {P : Processes} (K : Callers P) (stale : ℤ)

/-- The file of a caller is the one at the path, with the payload once it is written; the file at
the path is the crashed process's or that of a caller; and no file of a caller is judged dead by the
payload it bears. -/
structure Inv (s : State) : Prop where
  /-- A caller that has created a file finds it at the path. -/
  owns : ∀ c i t, s.Owns c i t → ∃ f, s.file = some f ∧ f.inode = i ∧ f.creator = some c
  /-- It was created less than `stale_s` ago, and has been written since. -/
  recent : ∀ c i t, s.Owns c i t →
    t ≤ s.now ∧ s.now - t < stale ∧ ∀ f, s.file = some f → t ≤ f.mtime
  /-- A holder's file bears its payload. -/
  holds : ∀ c i t, s.phase c = .holding i t → ∀ f, s.file = some f → f.payload = some (K.payload c)
  /-- The file at the path belongs to the caller that created it, and bears its payload or none. -/
  created : ∀ f c, s.file = some f → f.creator = some c →
    (∃ t, s.Owns c f.inode t) ∧ ∀ p, f.payload = some p → p = K.payload c
  /-- A file judged by its payload or its age was left by the crashed process. -/
  judged : ∀ c f, s.phase c = .reaping (some f) → f.payload ≠ none → f.creator = none

variable {K stale} {s : State}

/-- Two callers with a file have the same file, so they are one caller. -/
theorem Inv.owns_unique (h : Inv K stale s) {c c' i i' : ℕ} {t t' : ℤ} (hc : s.Owns c i t)
    (hc' : s.Owns c' i' t') : c = c' := by
  obtain ⟨f, hf, -, hfc⟩ := h.owns c i t hc
  obtain ⟨f', hf', -, hfc'⟩ := h.owns c' i' t' hc'
  obtain rfl : f = f' := Option.some.inj (hf.symm.trans hf')
  exact Option.some.inj (hfc.symm.trans hfc')

/-- With no file at the path no caller has one. -/
theorem Inv.not_owns (h : Inv K stale s) (hf : s.file = none) (c i : ℕ) (t : ℤ) : ¬s.Owns c i t := by
  intro hc
  obtain ⟨f, hf', -⟩ := h.owns c i t hc
  simp [hf] at hf'

/-- The callers other than `c` own what they owned when `c` moves. -/
theorem State.owns_update {c c' i : ℕ} {t : ℤ} {p : Phase} (hne : c' ≠ c) (s' : State)
    (hs' : s'.phase = Function.update s.phase c p) : s'.Owns c' i t ↔ s.Owns c' i t := by
  simp [State.Owns, hs', Function.update_of_ne hne]

/-- A move between phases without a file keeps the invariant, if what `c` is to reap was left by the
crashed process or bore no payload. -/
theorem Inv.setPhase (h : Inv K stale s) {c : ℕ} {p : Phase} (hc : ∀ i t, ¬s.Owns c i t)
    (hw : ∀ i t, p ≠ .writing i t) (hh : ∀ i t, p ≠ .holding i t)
    (hp : ∀ f, p = .reaping (some f) → f.payload ≠ none → f.creator = none) :
    Inv K stale (s.setPhase c p) := by
  have hown : ∀ c' i t, (s.setPhase c p).Owns c' i t ↔ s.Owns c' i t := by
    intro c' i t
    by_cases he : c' = c
    · subst he
      simpa [State.setPhase, State.Owns, hw, hh] using hc i t
    · exact State.owns_update he _ rfl
  refine ⟨?_, ?_, ?_, ?_, ?_⟩
  · intro c' i t ho
    exact h.owns c' i t ((hown c' i t).1 ho)
  · intro c' i t ho
    exact h.recent c' i t ((hown c' i t).1 ho)
  · intro c' i t ho
    by_cases he : c' = c
    · subst he
      simp [State.setPhase, hh] at ho
    · exact h.holds c' i t (by simpa [State.setPhase, Function.update_of_ne he] using ho)
  · intro f c' hf hcr
    obtain ⟨⟨t, ho⟩, hpay⟩ := h.created f c' hf hcr
    exact ⟨⟨t, (hown c' f.inode t).2 ho⟩, hpay⟩
  · intro c' f hf
    by_cases he : c' = c
    · subst he
      exact hp f (by simpa [State.setPhase] using hf)
    · exact h.judged c' f (by simpa [State.setPhase, Function.update_of_ne he] using hf)

/-- An exclusive create where no file is there. -/
theorem Inv.create (h : Inv K stale s) (hstale : 0 < stale) (hf : s.file = none) (c : ℕ) :
    Inv K stale (s.create c) := by
  have hnone := h.not_owns hf
  have hown : ∀ c' i t, (s.create c).Owns c' i t → c' = c ∧ i = s.nextInode ∧ t = s.now := by
    intro c' i t ho
    by_cases he : c' = c
    · subst he
      simpa [State.create, State.Owns, eq_comm] using ho
    · exact absurd ((State.owns_update he _ rfl).1 ho) (hnone c' i t)
  refine ⟨?_, ?_, ?_, ?_, ?_⟩
  · intro c' i t ho
    obtain ⟨rfl, rfl, -⟩ := hown c' i t ho
    exact ⟨_, rfl, rfl, rfl⟩
  · intro c' i t ho
    obtain ⟨-, -, rfl⟩ := hown c' i t ho
    refine ⟨le_rfl, by simpa [State.create] using hstale, ?_⟩
    rintro f ⟨⟩
    exact le_rfl
  · intro c' i t ho
    obtain ⟨rfl, -, -⟩ := hown c' i t (.inr ho)
    simp [State.create] at ho
  · rintro f c' ⟨⟩ ⟨⟩
    exact ⟨⟨s.now, .inl (by simp [State.create])⟩, by simp⟩
  · intro c' f hj
    by_cases he : c' = c
    · subst he
      simp [State.create] at hj
    · exact h.judged c' f (by simpa [State.create, Function.update_of_ne he] using hj)

/-- An unlink by `c` that leaves no other caller without its file. -/
theorem Inv.unlink (h : Inv K stale s) {c : ℕ} {p : Phase} (hp : p = .idle ∨ p = .recreating)
    (hothers : ∀ c' i t, c' ≠ c → ¬s.Owns c' i t) :
    Inv K stale { s.setPhase c p with file := none } := by
  have hown : ∀ c' i t, ¬({ s.setPhase c p with file := none } : State).Owns c' i t := by
    intro c' i t
    by_cases he : c' = c
    · subst he
      rcases hp with rfl | rfl <;> simp [State.setPhase, State.Owns]
    · rw [State.owns_update he _ rfl]
      exact hothers c' i t he
  refine ⟨?_, ?_, ?_, by simp, ?_⟩
  · intro c' i t ho
    exact absurd ho (hown c' i t)
  · intro c' i t ho
    exact absurd ho (hown c' i t)
  · intro c' i t ho
    exact absurd (.inr ho) (hown c' i t)
  · intro c' f hj
    by_cases he : c' = c
    · subst he
      rcases hp with rfl | rfl <;> simp [State.setPhase] at hj
    · exact h.judged c' f (by simpa [State.setPhase, Function.update_of_ne he] using hj)

/-- The write of the payload, which meets the caller's own file. -/
theorem Inv.write (h : Inv K stale s) {c i : ℕ} {t : ℤ} (hc : s.phase c = .writing i t) :
    Inv K stale { s.setPhase c (.holding i t) with file := s.writePayload (K.payload c) i } := by
  obtain ⟨f, hf, rfl, hfc⟩ := h.owns c i t (.inl hc)
  have hfile : s.writePayload (K.payload c) f.inode =
      some { f with payload := some (K.payload c), mtime := s.now } := by
    simp [State.writePayload, hf]
  have hown : ∀ c' i' t', ({ s.setPhase c (.holding f.inode t) with
      file := s.writePayload (K.payload c) f.inode } : State).Owns c' i' t' ↔ s.Owns c' i' t' := by
    intro c' i' t'
    by_cases he : c' = c
    · subst he
      simp [State.setPhase, State.Owns, hc]
    · exact State.owns_update he _ rfl
  refine ⟨?_, ?_, ?_, ?_, ?_⟩
  · intro c' i' t' ho
    obtain ⟨f', hf', hi, hcr⟩ := h.owns c' i' t' ((hown c' i' t').1 ho)
    obtain rfl : f = f' := Option.some.inj (hf.symm.trans hf')
    exact ⟨_, hfile, hi, hcr⟩
  · intro c' i' t' ho
    obtain ⟨hle, hlt, -⟩ := h.recent c' i' t' ((hown c' i' t').1 ho)
    refine ⟨hle, hlt, fun f' hf' => ?_⟩
    obtain rfl := Option.some.inj (hfile.symm.trans hf')
    exact hle
  · intro c' i' t' ho f' hf'
    obtain rfl := Option.some.inj (hfile.symm.trans hf')
    have := h.owns_unique ((hown c' i' t').1 (.inr ho)) (.inl hc)
    rw [this]
  · intro f' c' hf' hcr
    obtain rfl := Option.some.inj (hfile.symm.trans hf')
    obtain ⟨⟨t', ho⟩, -⟩ := h.created f c' hf hcr
    refine ⟨⟨t', (hown c' f.inode t').2 ho⟩, ?_⟩
    rintro p ⟨⟩
    rw [h.owns_unique ho (.inl hc)]
  · intro c' f' hj
    by_cases he : c' = c
    · subst he
      simp [State.setPhase] at hj
    · exact h.judged c' f' (by simpa [State.setPhase, Function.update_of_ne he] using hj)

/-- No file that bears a caller's payload is judged dead. -/
theorem Inv.judgedDead (h : Inv K stale s) {f : LockFile} (hf : s.file = some f)
    (hdead : judgedDead P s.file = true) (hpay : f.payload ≠ none) : f.creator = none := by
  obtain ⟨p, hp⟩ := Option.ne_none_iff_exists'.mp hpay
  by_contra hcr
  obtain ⟨c, hc⟩ := Option.ne_none_iff_exists'.mp hcr
  obtain rfl := (h.created f c hf hc).2 p hp
  simp [CompactionLock.judgedDead, hf, hp, K.alive c] at hdead

/-- A file old enough to be reaped by its age is not that of a caller. -/
theorem Inv.stat (h : Inv K stale s) {f : LockFile} (hf : s.file = some f)
    (hage : stale < s.now - f.mtime) : f.creator = none := by
  by_contra hcr
  obtain ⟨c, hc⟩ := Option.ne_none_iff_exists'.mp hcr
  obtain ⟨t, ho⟩ := (h.created f c hf hc).1
  obtain ⟨-, hlt, hle⟩ := h.recent c _ t ho
  have := hle f hf
  omega

/-- Every operation of a caller keeps the invariant. -/
theorem Inv.turn (h : Inv K stale s) (c : ℕ) (hstale : 0 < stale)
    (hreap : ReapsWhatItJudged s (.turn c)) : Inv K stale (turn P K stale s c) := by
  -- Only who writes the lock or holds it owns it.
  have hfree : ∀ p, s.phase c = p → (∀ i t, p ≠ .writing i t) → (∀ i t, p ≠ .holding i t) →
      ∀ i t, ¬s.Owns c i t := by
    rintro p rfl hw hh i t (ho | ho)
    · exact hw i t ho
    · exact hh i t ho
  unfold CompactionLock.turn
  cases hc : s.phase c with
  | idle =>
    dsimp only
    split_ifs with hf
    · exact h.create hstale (by simpa using hf) c
    · exact h.setPhase (hfree _ hc (by simp) (by simp)) (by simp) (by simp) (by simp)
  | reading =>
    dsimp only
    split_ifs with hdead
    · refine h.setPhase (hfree _ hc (by simp) (by simp)) (by simp) (by simp) ?_
      intro f hf
      exact h.judgedDead (by simpa using hf) hdead
    · exact h.setPhase (hfree _ hc (by simp) (by simp)) (by simp) (by simp) (by simp)
  | stating =>
    dsimp only
    cases hf : s.file with
    | none => exact h.setPhase (hfree _ hc (by simp) (by simp)) (by simp) (by simp) (by simp)
    | some f =>
      dsimp only
      split_ifs with hage
      · refine h.setPhase (hfree _ hc (by simp) (by simp)) (by simp) (by simp) ?_
        rintro g ⟨⟩ -
        exact h.stat hf hage
      · exact h.setPhase (hfree _ hc (by simp) (by simp)) (by simp) (by simp) (by simp)
  | reaping j =>
    -- The file is the one that was judged, and that has no owner.
    refine h.unlink (.inr rfl) ?_
    intro c' i t _ ho
    obtain ⟨f, hf, -, hcr⟩ := h.owns c' i t ho
    rw [ReapsWhatItJudged, hc] at hreap
    obtain ⟨rfl, hnone⟩ := hreap f hf
    have : f.creator = none := by
      by_cases hpay : f.payload = none
      · exact hnone hpay
      · exact h.judged c f hc hpay
    simp [this] at hcr
  | recreating =>
    dsimp only
    split_ifs with hf
    · exact h.create hstale (by simpa using hf) c
    · exact h.setPhase (hfree _ hc (by simp) (by simp)) (by simp) (by simp) (by simp)
  | writing i t => exact h.write hc
  | holding i t =>
    refine h.unlink (.inl rfl) fun c' i' t' hne ho => ?_
    exact hne (h.owns_unique ho (.inr hc))

end Invariant

/-! ## Exclusion -/

/-- In a run in which every caller keeps its file for less than `stale_s`, and every reap unlinks
the file that its caller judged, at most one caller holds the lock. -/
theorem holders_subsingleton {P : Processes} (K : Callers P) (stale : ℤ) {s : State}
    (h : (machine P K stale).Reach (fun s a => HeldBriefly stale s a ∧ ReapsWhatItJudged s a) s) :
    {c | s.Holding c}.Subsingleton := by
  have hinv : Inv K stale s := by
    refine h.invariant ?_ ?_
    · rintro s ⟨hidle, hfile⟩
      have hown : ∀ c i t, ¬s.Owns c i t := by simp [State.Owns, hidle]
      refine ⟨fun c i t ho => absurd ho (hown c i t), fun c i t ho => absurd ho (hown c i t),
        fun c i t ho => absurd (.inr ho) (hown c i t), ?_, by simp [hidle]⟩
      intro f c hf hcr
      simp [(hfile f hf).1] at hcr
    · rintro s (c | d) s' hI ⟨hbrief, hreap⟩ hstep
      · obtain rfl := Option.some.inj hstep
        exact hI.turn c hbrief hreap
      · obtain rfl := Option.some.inj hstep
        refine ⟨hI.owns, ?_, hI.holds, hI.created, hI.judged⟩
        intro c i t ho
        obtain ⟨hle, -, hm⟩ := hI.recent c i t ho
        exact ⟨by dsimp only; omega, hbrief c i t ho, hm⟩
  rintro c ⟨i, t, hc⟩ c' ⟨i', t', hc'⟩
  exact hinv.owns_unique (.inr hc) (.inr hc')

/-- A process table in which every process runs and carries its pid as its token, but for the pid 1,
which is gone. -/
def crashedOne : Processes where
  tokenOf pid := if pid = 1 then .gone else .token pid.toNat
  pidIsAlive pid := pid ≠ 1

/-- Callers of the processes 2, 3, and so on. -/
def runningCallers : Callers crashedOne where
  payload c := ⟨c + 2, some (c + 2)⟩
  alive c := by
    have h1 : ¬((c : ℤ) + 2 ≤ 0) := by omega
    have h2 : (c : ℤ) + 2 ≠ 1 := by omega
    have h3 : ((c : ℤ) + 2).toNat = c + 2 := by omega
    simp [Processes.holderAlive, crashedOne, h1, h2, h3]

/-- The lock file that the process 1 left behind. -/
def leftBehind : State where
  now := 1000
  file := some ⟨0, none, some ⟨1, some 1⟩, 990⟩
  nextInode := 1
  phase _ := .idle

theorem leftBehind_init : (machine crashedOne runningCallers 600).init leftBehind := by
  refine ⟨fun _ => rfl, ?_⟩
  rintro f ⟨⟩
  exact ⟨rfl, by decide⟩

/-- A file operation, rather than the passing of time. -/
def IsTurn : Act → Prop
  | .turn _ => True
  | .tick _ => False

instance (a : Act) : Decidable (IsTurn a) := by
  unfold IsTurn
  split <;> infer_instance

/-- A file operation takes no time. -/
theorem IsTurn.heldBriefly {s : State} {a : Act} (ha : IsTurn a) : HeldBriefly 600 s a := by
  cases a with
  | turn c => exact (by decide : (0 : ℤ) < 600)
  | tick d => exact ha.elim

/-- One caller reaps the file of the crashed process and holds the lock. -/
theorem holders_subsingleton_leftBehind :
    ∃ s : State, s.Holding 0 ∧ {c | s.Holding c}.Subsingleton := by
  obtain ⟨s, hs, hp⟩ := Machine.exists_reach_of_runWithin
    (M := machine crashedOne runningCallers 600)
    (C := fun s a => HeldBriefly 600 s a ∧ ReapsWhatItJudged s a)
    (D := fun s a => IsTurn a ∧ ReapsWhatItJudged s a)
    (fun _ _ h => ⟨h.1.heldBriefly, h.2⟩) leftBehind_init
    [.turn 0, .turn 0, .turn 0, .turn 0, .turn 0]
    (fun s => s.phase 0 = .holding 1 1000) (by decide)
  exact ⟨s, ⟨1, 1000, by simpa using hp⟩, holders_subsingleton _ _ hs⟩

/-- Two callers read the file of the crashed process. The first reaps it and acquires; the second
then unlinks the file that the first created, and acquires too. -/
theorem exclusion_fails : ∃ s, (machine crashedOne runningCallers 600).Reach (HeldBriefly 600) s ∧
    ¬{c | s.Holding c}.Subsingleton := by
  obtain ⟨s, hs, hp⟩ := Machine.exists_reach_of_runWithin
    (M := machine crashedOne runningCallers 600) (C := HeldBriefly 600)
    (D := fun _ a => IsTurn a) (fun _ _ h => h.heldBriefly) leftBehind_init
    [.turn 0, .turn 1, .turn 0, .turn 1, .turn 0, .turn 0, .turn 0, .turn 1, .turn 1, .turn 1]
    (fun s => s.phase 0 = .holding 1 1000 ∧ s.phase 1 = .holding 2 1000) (by decide)
  obtain ⟨h0, h1⟩ : s.phase 0 = .holding 1 1000 ∧ s.phase 1 = .holding 2 1000 := by simpa using hp
  refine ⟨s, hs, fun hsub => ?_⟩
  exact absurd (hsub ⟨1, 1000, h0⟩ ⟨2, 1000, h1⟩) (by decide)

end Companion.Ingest.CompactionLock

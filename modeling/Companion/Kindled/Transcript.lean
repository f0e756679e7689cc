import Companion.Dict
import Companion.Memory.Text
import Mathlib.Data.List.Sort

/-!
# The transcript of a peer

The messages of a peer that `poll_and_ingest` accepts (`brain/kindled_link/transport.py`), and
`recent_transcript` of `brain/kindled_link/store.py`, which is to give the latest of them.

The query orders the rows of a peer by their sequence. A sequence rises within its session, by the
high-water mark of the session, and each session starts again. So the order of the sequences is that
of the messages within one session, and not over several: `recent_transcript_recent` says when the
rows that are given are the latest.
-/

namespace Companion.Kindled.Transcript

open Companion.Memory

/-! ## The first rows of a descending order -/

section Ranked

variable {α : Type} (rank : α → ℕ)

/-- The ranks do not rise. -/
def Descending (l : List α) : Prop := l.Pairwise fun a b => rank b ≤ rank a

/-- Each of the first `n` has a rank above those of all that come after it. -/
def Leads : ℕ → List α → Prop
  | 0, _ => True
  | _, [] => True
  | n + 1, a :: l => (∀ b ∈ l, rank b < rank a) ∧ Leads n l

instance decidableLeads : ∀ (n : ℕ) (l : List α), Decidable (Leads rank n l)
  | 0, _ => .isTrue trivial
  | _ + 1, [] => .isTrue trivial
  | n + 1, a :: l =>
    have := decidableLeads n l
    inferInstanceAs (Decidable ((∀ b ∈ l, rank b < rank a) ∧ Leads rank n l))

variable {rank}

/-- Whatever comes first in a descending order has the greatest rank. -/
theorem Descending.head_le {a : α} {l m : List α} (h : Descending rank (a :: l))
    (hperm : (a :: l).Perm m) {b : α} (hb : b ∈ m) : rank b ≤ rank a := by
  rcases List.mem_cons.mp (hperm.mem_iff.mpr hb) with rfl | hmem
  · exact le_rfl
  · exact (List.pairwise_cons.mp h).1 b hmem

variable (rank) in
/-- A list has a descending order. -/
theorem exists_descending (l : List α) : ∃ m, m.Perm l ∧ Descending rank m := by
  classical
  have : Std.Total fun a b : α => rank b ≤ rank a := ⟨fun a b => le_total _ _⟩
  have : IsTrans α fun a b : α => rank b ≤ rank a := ⟨fun _ _ _ hab hbc => hbc.trans hab⟩
  exact ⟨l.insertionSort fun a b => rank b ≤ rank a, List.perm_insertionSort _ _,
    List.pairwise_insertionSort _ _⟩

/-- Where the first ones lead, they come first in every descending order. -/
theorem Leads.take_eq {n : ℕ} {l m : List α} (h : Leads rank n l) (hperm : m.Perm l)
    (hm : Descending rank m) : m.take n = l.take n := by
  induction n generalizing l m with
  | zero => rfl
  | succ n ih =>
    cases l with
    | nil => rw [hperm.eq_nil]
    | cons a l =>
      obtain ⟨hfirst, hrest⟩ := h
      cases m with
      | nil => exact absurd hperm.symm.eq_nil (List.cons_ne_nil _ _)
      | cons b m =>
        have hle : rank a ≤ rank b := hm.head_le hperm List.mem_cons_self
        have hb : b ∈ a :: l := hperm.mem_iff.mp List.mem_cons_self
        rcases List.mem_cons.mp hb with rfl | hmem
        · rw [List.take_succ_cons, List.take_succ_cons,
            ih hrest hperm.cons_inv (List.pairwise_cons.mp hm).2]
        · exact absurd (hfirst b hmem) (not_lt.mpr hle)

/-- Where every descending order starts with the first ones, they lead. -/
theorem leads_of_take_eq {n : ℕ} {l : List α} (hnodup : l.Nodup)
    (h : ∀ m, m.Perm l → Descending rank m → m.take n = l.take n) : Leads rank n l := by
  induction n generalizing l with
  | zero => trivial
  | succ n ih =>
    cases l with
    | nil => trivial
    | cons a l =>
      obtain ⟨hnotMem, hnodup'⟩ := List.nodup_cons.mp hnodup
      have hfirst : ∀ b ∈ l, rank b < rank a := by
        intro b hb
        by_contra hle
        -- The greatest of the others may come first.
        obtain ⟨m, hperm, hm⟩ := exists_descending rank l
        cases m with
        | nil => exact absurd (hperm.mem_iff.mpr hb) List.not_mem_nil
        | cons c m =>
          have hc : rank a ≤ rank c := (not_lt.mp hle).trans (hm.head_le hperm hb)
          obtain ⟨m', hperm', hm'⟩ := exists_descending rank (a :: m)
          have hdesc : Descending rank (c :: m') := by
            refine List.pairwise_cons.mpr ⟨fun d hd => ?_, hm'⟩
            rcases List.mem_cons.mp (hperm'.mem_iff.mp hd) with rfl | hd
            · exact hc
            · exact (List.pairwise_cons.mp hm).1 d hd
          have hall : (c :: m').Perm (a :: l) :=
            (hperm'.cons c).trans ((List.Perm.swap a c m).trans (hperm.cons a))
          have heq := h (c :: m') hall hdesc
          rw [List.take_succ_cons, List.take_succ_cons] at heq
          obtain ⟨rfl, -⟩ := List.cons.inj heq
          exact hnotMem (hperm.mem_iff.mp List.mem_cons_self)
      refine ⟨hfirst, ih hnodup' fun m hperm hm => ?_⟩
      have hdesc : Descending rank (a :: m) :=
        List.pairwise_cons.mpr ⟨fun b hb => (hfirst b (hperm.mem_iff.mp hb)).le, hm⟩
      have heq := h (a :: m) (hperm.cons a) hdesc
      rw [List.take_succ_cons, List.take_succ_cons] at heq
      exact (List.cons.inj heq).2

end Ranked

/-! ## The tables -/

/-- A row of `transcript`. -/
structure Row where
  peer : Text
  session : Text
  seq : ℕ
  direction : Text
  text : Text
  provenance : Text
  ts : Instant
  deriving DecidableEq

/-- The rows of `transcript`, in the order in which they were appended, and `seq_high_water`. -/
structure Tables where
  rows : List Row
  highWater : Dict (Text × Text) ℕ
  deriving DecidableEq

/-- A message that is opened, with the time at which it is. -/
structure Message where
  peer : Text
  session : Text
  sequence : ℕ
  text : Text
  now : Instant
  deriving DecidableEq

/-- The row of a message that is accepted. -/
def Message.row (m : Message) : Row :=
  ⟨m.peer, m.session, m.sequence, "inbound".toList, m.text, "peer".toList, m.now⟩

/-- `get_seq_high_water` -/
def Tables.seqHighWater (t : Tables) (peer session : Text) : ℕ :=
  (t.highWater.get? (peer, session)).getD 0

/-- A message of a session: it is rejected where its sequence is not above the high-water mark, and
accepted otherwise, by `append_transcript` and `set_seq_high_water`. -/
def Tables.receive (t : Tables) (m : Message) : Tables :=
  if m.sequence ≤ t.seqHighWater m.peer m.session then t
  else ⟨t.rows ++ [m.row], t.highWater.set (m.peer, m.session) m.sequence⟩

/-- The tables after a sequence of messages, of any peers and sessions. -/
def received (ms : List Message) : Tables := ms.foldl Tables.receive ⟨[], ∅⟩

/-- The rows of a peer, the latest first. -/
def Tables.latest (t : Tables) (peer : Text) : List Row :=
  (t.rows.filter fun r => r.peer = peer).reverse

/-- An answer of `recent_transcript`: the first rows of the peer in an order of descending
sequences. Rows with the same sequence may come in any order. -/
def RecentTranscript (t : Tables) (peer : Text) (limit : ℕ) (answer : List Row) : Prop :=
  ∃ ordered, ordered.Perm (t.rows.filter fun r => r.peer = peer) ∧ Descending Row.seq ordered ∧
    answer = ordered.take limit

/-! ## The rows that were accepted -/

/-- A row is below the high-water mark of its session, and no row is there twice. -/
structure Inv (t : Tables) : Prop where
  below : ∀ r ∈ t.rows, r.seq ≤ t.seqHighWater r.peer r.session
  nodup : t.rows.Nodup

theorem seqHighWater_set (t : Tables) (rows : List Row) (peer session peer' session' : Text) (n : ℕ) :
    (⟨rows, t.highWater.set (peer, session) n⟩ : Tables).seqHighWater peer' session' =
      if peer' = peer ∧ session' = session then n else t.seqHighWater peer' session' := by
  unfold Tables.seqHighWater
  rw [Dict.get?_set]
  simp only [Prod.mk.injEq]
  split_ifs
  · rfl
  · rfl

theorem Inv.receive {t : Tables} (h : Inv t) (m : Message) : Inv (t.receive m) := by
  unfold Tables.receive
  split_ifs with hle
  · exact h
  · have hlt : t.seqHighWater m.peer m.session < m.sequence := not_le.mp hle
    refine ⟨fun r hr => ?_, ?_⟩
    · rw [seqHighWater_set]
      rcases List.mem_append.mp hr with hold | hnew
      · have hbelow := h.below r hold
        split_ifs with hsession
        · obtain ⟨hp, hs⟩ := hsession
          rw [hp, hs] at hbelow
          exact hbelow.trans hlt.le
        · exact hbelow
      · obtain rfl := List.mem_singleton.mp hnew
        rw [if_pos ⟨rfl, rfl⟩]
        exact le_rfl
    · -- A row of the session has a lower sequence.
      refine List.nodup_append.mpr ⟨h.nodup, List.nodup_singleton _, ?_⟩
      rintro r hr _ hnew rfl
      obtain rfl := List.mem_singleton.mp hnew
      exact absurd (h.below _ hr) hle

theorem inv_received (ms : List Message) : Inv (received ms) := by
  have hfold : ∀ t, Inv t → Inv (ms.foldl Tables.receive t) := by
    induction ms with
    | nil => exact fun t h => h
    | cons m ms ih => exact fun t h => ih _ (h.receive m)
  exact hfold _ ⟨nofun, List.nodup_nil⟩

/-- After every sequence of messages, whatever answers `recent_transcript` gives are the latest rows
of the peer, just in case each of the latest has a greater sequence than all rows of the peer that
were accepted before it. -/
theorem recent_transcript_recent (ms : List Message) (peer : Text) (limit : ℕ) :
    (∃ answer, RecentTranscript (received ms) peer limit answer) ∧
      ((∀ answer, RecentTranscript (received ms) peer limit answer →
          answer = ((received ms).latest peer).take limit) ↔
        Leads Row.seq limit ((received ms).latest peer)) := by
  have hperm : ((received ms).latest peer).Perm
      ((received ms).rows.filter fun r => r.peer = peer) := List.reverse_perm _
  have hnodup : ((received ms).latest peer).Nodup :=
    List.nodup_reverse.mpr ((inv_received ms).nodup.filter _)
  refine ⟨?_, fun h => ?_, fun h => ?_⟩
  · obtain ⟨ordered, hordered, hdesc⟩ :=
      exists_descending Row.seq ((received ms).rows.filter fun r => r.peer = peer)
    exact ⟨_, ordered, hordered, hdesc, rfl⟩
  · exact leads_of_take_eq hnodup fun m hm hdesc => h _ ⟨m, hm.trans hperm, hdesc, rfl⟩
  · rintro _ ⟨ordered, hordered, hdesc, rfl⟩
    exact h.take_eq (hordered.trans hperm.symm) hdesc

/-- Two messages of a session, and the first one of the next. -/
def twoSessions : List Message :=
  [⟨"moss".toList, "s1".toList, 1, "hello".toList, 0⟩,
    ⟨"moss".toList, "s1".toList, 2, "bye".toList, 1⟩,
    ⟨"moss".toList, "s2".toList, 1, "back".toList, 2⟩]

/-- The last message of the first session is given for the latest one. -/
theorem earlier_session_first :
    let t := received twoSessions
    let answer : List Row :=
      [⟨"moss".toList, "s1".toList, 2, "inbound".toList, "bye".toList, "peer".toList, 1⟩]
    RecentTranscript t "moss".toList 1 answer ∧ answer ≠ (t.latest "moss".toList).take 1 := by
  refine ⟨⟨[(received twoSessions).rows[1], (received twoSessions).rows[0],
    (received twoSessions).rows[2]], ?_, ?_, ?_⟩, ?_⟩
  · decide +kernel
  · show List.Pairwise _ _
    decide +kernel
  · decide +kernel
  · decide +kernel

end Companion.Kindled.Transcript

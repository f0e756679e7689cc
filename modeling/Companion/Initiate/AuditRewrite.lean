import Companion.Initiate.AuditRows
import Companion.Runs
import Mathlib.Data.List.Nodup

/-!
# The rewriting of the audit log

`update_audit_state` and `append_audit_row` of `brain/initiate/audit.py`, over the records of
`initiate_audit.jsonl`. An update reads the log and rewrites it under the lock that an append takes
as well, and folds the lag of a reply after it.

A record is written back as the row that is made of it: a record of which none can be made is
dropped, a field that the row does not know is dropped, and an infinite float becomes null. The
update keeps the log but for the delivery block of its row exactly where every record is one that is
written as it is read (`framed_iff`).

A record has a number, by which a fold is told to be the second one of a row. No operation reads it.
-/

namespace Companion.Initiate.AuditRewrite

open Companion.JsonText Companion.Runs
open Companion.Initiate.Review (PyError name get? get?_cons get?_nil item isText hashable)
open Companion.Consolidation.Entries (Python Limits truthy getOrNone setItem nullNonfinite AllFinite
  get?_setItem get?_setItem_ne item_eq_ok)

/-! ## Updates -/

/-- The arguments of `update_audit_state`. -/
structure Update where
  auditId : List CodeUnit
  newState : List CodeUnit
  stamp : List CodeUnit

/-- What a record of the log is to an update: none can be read, the row of another id, or the row
with its transition, and the lag where the row is one whose lag is taken. -/
inductive Line (F : Type)
  | corrupt
  | other (row : AuditRow F)
  | target (row : AuditRow F) (lag : Option (Option ℤ))

namespace Line

variable {F : Type}

/-- The row that is written. -/
def row? : Line F → Option (AuditRow F)
  | corrupt => none
  | other row | target row _ => some row

def isTarget : Line F → Bool
  | target .. => true
  | _ => false

end Line

section Updates

variable {F : Type} (py : Python F ℤ)

/-- `(delivery or {}).get("current_state")` -/
def currentState (delivery : Value F) : Except PyError (Value F) :=
  match delivery with
  | .obj fields => .ok (getOrNone fields "current_state")
  | v => if truthy py v then .error .attributeError else .ok .null

/-- `decision in _SEND_DECISIONS` -/
def isSend (decision : Value F) : Except PyError Bool :=
  if hashable decision then .ok (isText decision "send_notify" || isText decision "send_quiet")
  else .error .typeError

/-- `_reply_lag_seconds`, in microseconds. -/
def replyLag (ts : Value F) (stamp : List CodeUnit) : Option ℤ :=
  match ts with
  | .str s =>
    match py.parseTime s, py.parseTime stamp with
    | some sent, some replied => if 0 ≤ replied - sent then some (replied - sent) else none
    | _, _ => none
  | _ => none

variable (u : Update)

/-- The loop's body for the row of the id. -/
def applyTransition (row : AuditRow F) : Except PyError (Line F) := do
  let oldState ← currentState py row.delivery
  let next ← row.recordTransition u.newState u.stamp
  let send ← isSend row.decision
  if send ∧ u.newState = name "replied_explicit" ∧ ¬ isText oldState "replied_explicit" then
    return .target next (some (replyLag py row.ts u.stamp))
  else return .target next none

/-- The loop's body. -/
def readLine (record : Fields F) : Except PyError (Line F) :=
  match AuditRow.fromDict record with
  | .error .keyError => .ok .corrupt
  | .error e => .error e
  | .ok row =>
    if isUnits u.auditId row.auditId then applyTransition py u row else .ok (.other row)

/-- `lag_seconds` after the loop, with the number of the row that it is the lag of. -/
def lagOf (lines : List (ℕ × Line F)) : Option (ℕ × ℤ) :=
  lines.foldl (fun lag line =>
    match line.2 with
    | .target _ (some lag) => lag.map fun lag => (line.1, lag)
    | _ => lag) none

/-- The rows that are rewritten, none where none of them has the id, and the lag that is folded. -/
def rewrite (records : List (ℕ × Fields F)) :
    Except PyError (Option (List (ℕ × AuditRow F) × Option (ℕ × ℤ))) := do
  let lines ← records.mapM fun r => (readLine py u r.2).map fun line => (r.1, line)
  if lines.any fun line => line.2.isTarget then
    return some (lines.filterMap fun line => line.2.row?.map fun row => (line.1, row), lagOf lines)
  else return none

variable (floats : Floats F) (limits : Limits)

/-- The records that `write_jsonl` writes. -/
def encodeRows (rows : List (ℕ × AuditRow F)) : Option (List (ℕ × Fields F)) :=
  rows.mapM fun r => (encoded floats limits r.2.toDict).map fun fields => (r.1, fields)

end Updates

/-! ## The machine -/

/-- The log with the numbers of its records, the update that holds the lock with the records it has
read, and the lags that are to be folded and those that were. -/
structure State (F : Type) where
  records : List (ℕ × Fields F)
  arrived : ℕ
  running : Option (Update × List (ℕ × Fields F))
  owed : List (ℕ × ℤ)
  folded : List (ℕ × ℤ)

/-- An append, the read of an update, its rewrite, which may fail, and the fold after it, which may
fail. -/
inductive Act (F : Type)
  | append (record : Fields F)
  | read (u : Update)
  | finish (fails : Bool)
  | fold (lag : ℕ × ℤ) (fails : Bool)

section Machine

variable {F : Type} (py : Python F ℤ) (floats : Floats F) (limits : Limits)

/-- The end of an update. One that raises, finds no row, or whose write fails leaves the log. -/
def State.finish (s : State F) (u : Update) (read : List (ℕ × Fields F)) (fails : Bool) :
    Option (State F) :=
  match rewrite py u read with
  | .ok (some (rows, lag)) =>
    if fails then some { s with running := none }
    else (encodeRows floats limits rows).map fun records =>
      { s with records, running := none, owed := s.owed ++ lag.toList }
  | .ok none | .error _ => some { s with running := none }

def State.step (s : State F) : Act F → Option (State F)
  | .append record =>
    if s.running.isSome then none
    else some { s with records := s.records ++ [(s.arrived, record)], arrived := s.arrived + 1 }
  | .read u => if s.running.isSome then none else some { s with running := some (u, s.records) }
  | .finish fails => s.running.bind fun (u, read) => s.finish py floats limits u read fails
  | .fold lag fails =>
    if lag ∈ s.owed then
      some { s with
        owed := s.owed.erase lag
        folded := if fails then s.folded else lag :: s.folded }
    else none

/-- A log of any records, with no update under way. -/
structure State.Start (s : State F) : Prop where
  numbers : s.records.map Prod.fst = List.range s.arrived
  running : s.running = none
  owed : s.owed = []
  folded : s.folded = []

def machine : Machine (State F) (Act F) := ⟨State.Start, State.step py floats limits⟩

end Machine

/-! ## What an update makes of a record -/

section Transitions

variable {F : Type} {py : Python F ℤ} {u : Update}

/-- A record that has the id of the update. -/
def HasId (u : Update) (d : Fields F) : Prop := get? d "audit_id" = some (.str u.auditId)

/-- A delivery block to which a transition can be added. -/
def Open (state : List CodeUnit) (delivery : Value F) : Prop :=
  delivery = .null ∨ ∃ fields transitions, delivery = .obj fields ∧
    get? fields "state_transitions" = some (.arr transitions) ∧
    (state = name "delivered" → (get? fields "delivered_at").isSome)

/-- A record whose row takes the transition of the update. -/
def Takes (u : Update) (d : Fields F) : Prop :=
  hashable (getOrNone d "decision") ∧ Open u.newState (getOrNone d "delivery")

/-- A record that the update moves into `replied_explicit`, from another state and with a lag. -/
structure Folds (py : Python F ℤ) (u : Update) (d : Fields F) : Prop where
  id : HasId u d
  sent : isSend (getOrNone d "decision") = .ok true
  replied : u.newState = name "replied_explicit"
  moved : currentState py (getOrNone d "delivery") ≠ .ok (.str (name "replied_explicit"))
  lag : (replyLag py (getOrNone d "ts") u.stamp).isSome

/-- A delivery block of which an earlier transition went into `replied_explicit` with a lag. -/
def Replied (py : Python F ℤ) (ts delivery : Value F) : Prop :=
  ∃ fields transitions t stamp, delivery = .obj fields ∧
    get? fields "state_transitions" = some (.arr transitions) ∧ .obj t ∈ transitions ∧
    get? t "to" = some (.str (name "replied_explicit")) ∧ get? t "at" = some (.str stamp) ∧
    (replyLag py ts stamp).isSome

/-- A record that has been in `replied_explicit` before. -/
def RepliedBefore (py : Python F ℤ) (d : Fields F) : Prop :=
  Replied py (getOrNone d "ts") (getOrNone d "delivery")

theorem isText_iff {v : Value F} {text : String} : isText v text = true ↔ v = .str (name text) := by
  cases v <;> simp [isText]

theorem isUnits_iff {v : Value F} {s : List CodeUnit} : isUnits s v = true ↔ v = .str s := by
  cases v <;> simp [isUnits]

theorem asList_eq_ok {v : Value F} {items : List (Value F)} :
    AuditRow.asList v = .ok items ↔ v = .arr items := by
  cases v <;> simp [AuditRow.asList]

/-- A transition goes to the end of the block's transitions, and leaves the rest of the row. -/
theorem recordTransition_eq_ok {row row' : AuditRow F} {state stamp : List CodeUnit}
    (h : row.recordTransition state stamp = .ok row') :
    ∃ before transitions after, row.block state stamp = .ok before ∧
      get? before "state_transitions" = some (.arr transitions) ∧
      row' = { row with delivery := .obj after } ∧
      get? after "state_transitions" =
        some (.arr (transitions ++ [AuditRow.transition state stamp])) := by
  simp only [AuditRow.recordTransition, bind_eq_ok, item_eq_ok, asList_eq_ok] at h
  obtain ⟨before, hbefore, _, hget, transitions, rfl, h⟩ := h
  refine ⟨before, transitions, ?_⟩
  split_ifs at h with hstate
  · obtain ⟨deliveredAt, -, h⟩ := bind_eq_ok.mp h
    split at h
    · obtain rfl := Except.ok.inj h
      refine ⟨_, hbefore, hget, rfl, ?_⟩
      rw [get?_setItem_ne (by decide), get?_setItem_ne (by decide), get?_setItem]
    · obtain rfl := Except.ok.inj h
      refine ⟨_, hbefore, hget, rfl, ?_⟩
      rw [get?_setItem_ne (by decide), get?_setItem]
  · obtain rfl := Except.ok.inj h
    refine ⟨_, hbefore, hget, rfl, ?_⟩
    rw [get?_setItem_ne (by decide), get?_setItem]

/-- The blocks to which a transition is added. -/
theorem exists_recordTransition (row : AuditRow F) (state stamp : List CodeUnit) :
    (∃ row', row.recordTransition state stamp = .ok row') ↔ Open state row.delivery := by
  have hdeliveredAt : ∀ (fields : Fields F) (v : Value F),
      get? (setItem (setItem fields "state_transitions" v) "current_state" (.str state))
        "delivered_at" = get? fields "delivered_at" := by
    intro fields v
    rw [get?_setItem_ne (by decide), get?_setItem_ne (by decide)]
  constructor
  · rintro ⟨row', h⟩
    obtain ⟨before, transitions, -, hblock, hget, -⟩ := recordTransition_eq_ok h
    unfold AuditRow.block at hblock
    split at hblock
    · rename_i hnull
      exact .inl hnull
    · rename_i fields hobj
      obtain rfl := Except.ok.inj hblock
      refine .inr ⟨fields, transitions, hobj, hget, fun hstate => ?_⟩
      -- A transition to `delivered` reads the time of the delivery.
      simp only [AuditRow.recordTransition, bind_eq_ok, item_eq_ok, asList_eq_ok, if_pos hstate]
        at h
      obtain ⟨before, hbefore, _, -, transitions', -, deliveredAt, hread, -⟩ := h
      rw [AuditRow.block, hobj] at hbefore
      obtain rfl := Except.ok.inj hbefore
      rw [hdeliveredAt] at hread
      exact Option.isSome_iff_exists.mpr ⟨_, hread⟩
    · cases hblock
  · intro hopen
    have hblock : ∃ before transitions, row.block state stamp = .ok before ∧
        get? before "state_transitions" = some (.arr transitions) ∧
        (state = name "delivered" → (get? before "delivered_at").isSome) := by
      rcases hopen with hnull | ⟨fields, transitions, hobj, hget, hat⟩
      · refine ⟨_, [], by rw [AuditRow.block, hnull], ?_, fun _ => ?_⟩ <;> simp +decide
      · exact ⟨fields, transitions, by rw [AuditRow.block, hobj], hget, hat⟩
    obtain ⟨before, transitions, hbefore, hget, hat⟩ := hblock
    simp only [AuditRow.recordTransition, bind_eq_ok, item_eq_ok, asList_eq_ok]
    by_cases hstate : state = name "delivered"
    · obtain ⟨v, hv⟩ := Option.isSome_iff_exists.mp (hat hstate)
      have hread := (hdeliveredAt before
        (.arr (transitions ++ [AuditRow.transition state stamp]))).trans hv
      simp only [if_pos hstate, bind_eq_ok, item_eq_ok]
      -- The time is put in where there was none.
      cases v with
      | null => exact ⟨_, before, hbefore, _, hget, transitions, rfl, _, hread, rfl⟩
      | _ => exact ⟨_, before, hbefore, _, hget, transitions, rfl, _, hread, rfl⟩
    · simp only [if_neg hstate, pure, Except.pure, Except.ok.injEq]
      exact ⟨_, before, hbefore, _, hget, transitions, rfl, rfl⟩

/-- What an update makes of the row of its id. -/
theorem applyTransition_eq_ok {row : AuditRow F} {line : Line F}
    (h : applyTransition py u row = .ok line) :
    ∃ next lag, line = .target next lag ∧ row.recordTransition u.newState u.stamp = .ok next ∧
      ∀ x, lag = some (some x) → isSend row.decision = .ok true ∧
        u.newState = name "replied_explicit" ∧
        currentState py row.delivery ≠ .ok (.str (name "replied_explicit")) ∧
        replyLag py row.ts u.stamp = some x := by
  simp only [applyTransition, bind_eq_ok] at h
  obtain ⟨old, hold, next, hnext, send, hsend, h⟩ := h
  split_ifs at h with hedge
  · obtain rfl := Except.ok.inj h
    refine ⟨next, _, rfl, hnext, fun x hx => ⟨?_, hedge.2.1, ?_, Option.some.inj hx⟩⟩
    · rw [hsend, hedge.1]
    · rw [hold]
      exact fun heq => hedge.2.2 (isText_iff.mpr (Except.ok.inj heq))
  · obtain rfl := Except.ok.inj h
    exact ⟨next, none, rfl, hnext, nofun⟩

theorem exists_applyTransition (d : Fields F) :
    (∃ line, applyTransition py u (rowOf d) = .ok line) ↔ Takes u d := by
  have hrecord := exists_recordTransition (rowOf d) u.newState u.stamp
  constructor
  · rintro ⟨line, h⟩
    simp only [applyTransition, bind_eq_ok] at h
    obtain ⟨_, -, next, hnext, send, hsend, -⟩ := h
    refine ⟨?_, hrecord.mp ⟨next, hnext⟩⟩
    rw [isSend] at hsend
    split_ifs at hsend with hhash
    exact hhash
  · rintro ⟨hhash, hopen⟩
    obtain ⟨next, hnext⟩ := hrecord.mpr hopen
    have hold : ∃ old, currentState py (rowOf d).delivery = .ok old := by
      rcases hopen with hnull | ⟨fields, _, hobj, -⟩
      · exact ⟨.null, by rw [show (rowOf d).delivery = .null from hnull]; rfl⟩
      · exact ⟨_, by rw [show (rowOf d).delivery = .obj fields from hobj]; rfl⟩
    obtain ⟨old, hold⟩ := hold
    have hsend : isSend (rowOf d).decision =
        .ok (isText (rowOf d).decision "send_notify" || isText (rowOf d).decision "send_quiet") :=
      if_pos hhash
    simp only [applyTransition, hold, hnext, hsend, bind, Except.bind]
    split_ifs
    · exact ⟨_, rfl⟩
    · exact ⟨_, rfl⟩

theorem readLine_of_not_readable {d : Fields F} (h : ¬ Readable d) :
    readLine py u d = .ok .corrupt := by
  rw [readLine, fromDict_of_not_readable h]

theorem readLine_of_readable {d : Fields F} (h : Readable d) :
    readLine py u d =
      if isUnits u.auditId (getOrNone d "audit_id") then applyTransition py u (rowOf d)
      else .ok (.other (rowOf d)) := by
  rw [readLine, fromDict_eq_ok.mpr ⟨h, rfl⟩]
  rfl

theorem hasId_iff {d : Fields F} (h : Readable d) :
    HasId u d ↔ isUnits u.auditId (getOrNone d "audit_id") = true := by
  obtain ⟨v, hv⟩ := Option.isSome_iff_exists.mp (h "audit_id" (by simp [requiredKeys]))
  rw [HasId, isUnits_iff, getOrNone_of_get? hv, hv, Option.some.injEq]

/-- What an update makes of a record: its row, and that of another id with nothing changed. -/
theorem readLine_row {d : Fields F} {line : Line F} {row : AuditRow F}
    (h : readLine py u d = .ok line) (hrow : line.row? = some row) :
    Readable d ∧ SameButDelivery (rowOf d) row ∧
      (¬ HasId u d → row = rowOf d) ∧ (HasId u d ↔ line.isTarget = true) := by
  by_cases hread : Readable d
  · refine ⟨hread, ?_⟩
    rw [readLine_of_readable hread] at h
    rw [hasId_iff hread]
    split_ifs at h with hid
    · obtain ⟨next, lag, rfl, hnext, -⟩ := applyTransition_eq_ok h
      obtain ⟨-, -, after, -, -, rfl, -⟩ := recordTransition_eq_ok hnext
      obtain rfl := Option.some.inj hrow
      exact ⟨rfl, fun hne => absurd hid hne, iff_of_true hid rfl⟩
    · obtain rfl := Except.ok.inj h
      obtain rfl := Option.some.inj hrow
      exact ⟨rfl, fun _ => rfl, iff_of_false hid nofun⟩
  · rw [readLine_of_not_readable hread] at h
    obtain rfl := Except.ok.inj h
    cases hrow

/-- The records at which an update raises. -/
theorem exists_readLine (d : Fields F) :
    (∃ line, readLine py u d = .ok line) ↔ (Readable d → HasId u d → Takes u d) := by
  by_cases hread : Readable d
  · rw [readLine_of_readable hread, hasId_iff hread]
    split_ifs with hid
    · rw [exists_applyTransition]
      exact ⟨fun h _ _ => h, fun h => h hread hid⟩
    · exact iff_of_true ⟨_, rfl⟩ fun _ h => absurd h hid
  · exact iff_of_true ⟨_, readLine_of_not_readable hread⟩ fun h => absurd h hread

/-- A lag is of a record that the update moves into `replied_explicit`. -/
theorem folds_of_readLine {d : Fields F} {row : AuditRow F} {x : ℤ}
    (h : readLine py u d = .ok (.target row (some (some x)))) : Folds py u d := by
  have hline := readLine_row h rfl
  have hid := hline.2.2.2.mpr rfl
  rw [readLine_of_readable hline.1, if_pos ((hasId_iff hline.1).mp hid)] at h
  obtain ⟨next, lag, heq, -, hlag⟩ := applyTransition_eq_ok h
  obtain ⟨rfl, rfl⟩ := Line.target.inj heq
  obtain ⟨hsent, hreplied, hmoved, hx⟩ := hlag x rfl
  exact ⟨hid, hsent, hreplied, hmoved, Option.isSome_iff_exists.mpr ⟨x, hx⟩⟩

/-- After a transition with a lag the row has been in `replied_explicit`. -/
theorem replied_of_readLine {d : Fields F} {row : AuditRow F} {x : ℤ}
    (h : readLine py u d = .ok (.target row (some (some x)))) : Replied py row.ts row.delivery := by
  have hline := readLine_row h rfl
  have hfolds := folds_of_readLine h
  rw [readLine_of_readable hline.1, if_pos ((hasId_iff hline.1).mp hfolds.id)] at h
  obtain ⟨next, lag, heq, hnext, -⟩ := applyTransition_eq_ok h
  obtain ⟨rfl, rfl⟩ := Line.target.inj heq
  obtain ⟨before, transitions, after, -, -, rfl, hafter⟩ := recordTransition_eq_ok hnext
  refine ⟨after, _, [(name "to", .str u.newState), (name "at", .str u.stamp)], u.stamp, rfl, hafter,
    List.mem_append_right _ (List.mem_singleton_self _), ?_, ?_, hfolds.lag⟩
  · rw [hfolds.replied]
    simp
  · simp +decide

/-- A transition keeps the transitions before it. -/
theorem replied_of_repliedBefore {d : Fields F} {line : Line F} {row : AuditRow F}
    (h : readLine py u d = .ok line) (hrow : line.row? = some row) (hbefore : RepliedBefore py d) :
    Replied py row.ts row.delivery := by
  obtain ⟨hread, hsame, hother, htarget⟩ := readLine_row h hrow
  by_cases hid : HasId u d
  · rw [readLine_of_readable hread, if_pos ((hasId_iff hread).mp hid)] at h
    obtain ⟨next, lag, rfl, hnext, -⟩ := applyTransition_eq_ok h
    obtain rfl := Option.some.inj hrow
    obtain ⟨before, transitions, after, hblock, hget, rfl, hafter⟩ := recordTransition_eq_ok hnext
    obtain ⟨fields, transitions', t, stamp, hobj, hget', ht, hto, hat, hlag⟩ := hbefore
    have hdelivery : (rowOf d).delivery = .obj fields := hobj
    rw [AuditRow.block, hdelivery] at hblock
    obtain rfl := Except.ok.inj hblock
    obtain rfl : transitions' = transitions :=
      Value.arr.inj (Option.some.inj (hget'.symm.trans hget))
    exact ⟨after, _, t, stamp, rfl, hafter, List.mem_append_left _ ht, hto, hat, hlag⟩
  · rw [hother hid]
    exact hbefore

end Transitions

/-! ## The frame of an update -/

section Frame

variable {F : Type} {py : Python F ℤ} {floats : Floats F} {limits : Limits} {u : Update}

/-- What an update may change: the delivery block of a record that has its id. -/
def Touched (u : Update) (d : Fields F) (k : List CodeUnit) : Prop :=
  HasId u d ∧ k = name "delivery"

/-- Two records that are the same but for what the update may change. -/
def SameBut (u : Update) (d e : Fields F) : Prop :=
  ∀ k, ¬ Touched u d k → valueAt d k = valueAt e k

/-- The records of the log are all there, in their order, the same but for what the update may
change. -/
def Framed (u : Update) (before after : List (ℕ × Fields F)) : Prop :=
  List.Forall₂ (fun r r' => SameBut u r.2 r'.2) before after

/-- A record that is written as it is read: its keys are those that a row is written with, and no
float in it is infinite or not a number, but for what the update may change. -/
structure WrittenAsRead (floats : Floats F) (u : Update) (d : Fields F) : Prop where
  keys : ∀ k, ¬ Touched u d k → ((valueAt d k).isSome ↔ k ∈ (writtenKeys d).map name)
  finite : ∀ k v, ¬ Touched u d k → valueAt d k = some v → AllFinite floats v

/-- A log that an update does not rewrite: no record that can be read has the id, or one that has
does not take the transition. -/
def Unwritten (u : Update) (records : List (ℕ × Fields F)) : Prop :=
  (∀ r ∈ records, Readable r.2 → ¬ HasId u r.2) ∨
    ∃ r ∈ records, Readable r.2 ∧ HasId u r.2 ∧ ¬ Takes u r.2

/-- The record that an update writes for a record, none where it is dropped. -/
def emit (py : Python F ℤ) (floats : Floats F) (limits : Limits) (u : Update) (d : Fields F) :
    Option (Fields F) :=
  match readLine py u d with
  | .ok line => line.row?.bind fun row => encoded floats limits row.toDict
  | .error _ => none

theorem Framed.refl (u : Update) (records : List (ℕ × Fields F)) : Framed u records records :=
  List.forall₂_same.mpr fun _ _ _ _ => rfl

theorem WrittenAsRead.readable {d : Fields F} (h : WrittenAsRead floats u d) : Readable d := by
  intro key hkey
  have hne : ∀ key ∈ requiredKeys, name key ≠ name "delivery" := by decide
  rw [get?_eq_valueAt, h.keys _ fun ht => hne key hkey ht.2]
  exact List.mem_map_of_mem (List.mem_append_left _ hkey)

/-- A row is written with the fields of its record exactly where the record is written as it is
read. -/
theorem sameBut_iff {d e : Fields F} (h : emit py floats limits u d = some e) :
    SameBut u d e ↔ WrittenAsRead floats u d := by
  rw [emit] at h
  split at h
  case h_2 => cases h
  rename_i line hline
  obtain ⟨row, hrow, henc⟩ := Option.bind_eq_some_iff.mp h
  obtain ⟨-, hsame, hother, -⟩ := readLine_row hline hrow
  obtain ⟨depth, hcopy⟩ := exists_copy_of_encoded henc
  obtain ⟨fields', depth', hfields', hat⟩ := valueAt_copy hcopy
  obtain rfl := Value.obj.inj hfields'
  have hkeys : ∀ k, (valueAt e k).isSome ↔ k ∈ (writtenKeys d).map name := by
    intro k
    rw [(hat k).1, isSome_valueAt, keys_toDict hsame]
  -- What is written at a key that the update may not change is a copy of what is there.
  have hvalue : ∀ k v, ¬ Touched u d k → valueAt d k = some v → k ∈ (writtenKeys d).map name →
      ∃ w, valueAt e k = some w ∧ (w = v ↔ AllFinite floats v) := by
    intro k v hk hv hwritten
    obtain ⟨key, hkey, rfl⟩ := List.mem_map.mp hwritten
    have hdict : valueAt row.toDict (name key) = some v := by
      refine get?_toDict hsame hkey hv fun hdelivery => ?_
      rw [hother fun hid => hk ⟨hid, by rw [hdelivery]⟩]
    obtain ⟨w, hw, hnull⟩ := (hat (name key)).2 v hdict
    exact ⟨w, hw, nullNonfinite_eq_iff hnull⟩
  constructor
  · intro hsameBut
    have hk : ∀ k, ¬ Touched u d k → ((valueAt d k).isSome ↔ k ∈ (writtenKeys d).map name) := by
      intro k hk
      rw [hsameBut k hk, hkeys]
    refine ⟨hk, fun k v ht hv => ?_⟩
    obtain ⟨w, hw, hiff⟩ := hvalue k v ht hv ((hk k ht).mp (Option.isSome_iff_exists.mpr ⟨v, hv⟩))
    exact hiff.mp (Option.some.inj (hw.symm.trans ((hsameBut k ht).symm.trans hv)))
  · intro hwritten k ht
    have hk := hwritten.keys k ht
    cases hv : valueAt d k with
    | none =>
      rw [hv] at hk
      have hnot : ¬ (valueAt e k).isSome := fun hsome => nomatch hk.mpr ((hkeys k).mp hsome)
      rw [Option.not_isSome_iff_eq_none.mp hnot]
    | some v =>
      rw [hv] at hk
      obtain ⟨w, hw, hiff⟩ := hvalue k v ht hv (hk.mp rfl)
      rw [hw, hiff.mpr (hwritten.finite k v ht hv)]

/-! ## The rewrite -/

theorem mapM_eq_ok {α β : Type} {f : α → Except PyError β} {as : List α} {bs : List β} :
    as.mapM f = .ok bs ↔ List.Forall₂ (fun a b => f a = .ok b) as bs := by
  induction as generalizing bs with
  | nil => rw [List.mapM_nil, List.forall₂_nil_left_iff]; simp [pure, Except.pure, eq_comm]
  | cons a as ih =>
    rw [List.mapM_cons, bind_eq_ok, List.forall₂_cons_left_iff]
    constructor
    · rintro ⟨b, hb, hrest⟩
      obtain ⟨bs', hbs', hpure⟩ := bind_eq_ok.mp hrest
      exact ⟨b, bs', hb, ih.mp hbs', (Except.ok.inj hpure).symm⟩
    · rintro ⟨b, bs', hb, hbs', rfl⟩
      exact ⟨b, hb, bind_eq_ok.mpr ⟨bs', ih.mpr hbs', rfl⟩⟩

theorem exists_mapM {α β : Type} {f : α → Except PyError β} (as : List α) :
    (∃ bs, as.mapM f = .ok bs) ↔ ∀ a ∈ as, ∃ b, f a = .ok b := by
  induction as with
  | nil => exact iff_of_true ⟨[], rfl⟩ nofun
  | cons a as ih =>
    rw [List.forall_mem_cons, ← ih]
    constructor
    · rintro ⟨bs, h⟩
      obtain ⟨b, bs', hb, hbs', -⟩ := List.forall₂_cons_left_iff.mp (mapM_eq_ok.mp h)
      exact ⟨⟨b, hb⟩, bs', mapM_eq_ok.mpr hbs'⟩
    · rintro ⟨⟨b, hb⟩, bs, hbs⟩
      exact ⟨b :: bs, mapM_eq_ok.mpr (.cons hb (mapM_eq_ok.mp hbs))⟩

/-- A list is related to what is left of it exactly where all of it is left. -/
theorem forall₂_filterMap_iff {α β : Type} {R : α → β → Prop} {g : α → Option β} (as : List α) :
    List.Forall₂ R as (as.filterMap g) ↔ ∀ a ∈ as, ∃ b, g a = some b ∧ R a b := by
  induction as with
  | nil => simp
  | cons a as ih =>
    rw [List.forall_mem_cons]
    cases hg : g a with
    | some b =>
      rw [List.filterMap_cons_some hg, List.forall₂_cons, ih]
      simp
    | none =>
      rw [List.filterMap_cons_none hg]
      refine iff_of_false (fun h => ?_) fun h => nomatch h.1
      have hlen := h.length_eq
      have hle := List.length_filterMap_le g as
      rw [List.length_cons] at hlen
      omega

/-- The loop over the records, for a record with its number. -/
def numbered (py : Python F ℤ) (u : Update) (r : ℕ × Fields F) : Except PyError (ℕ × Line F) :=
  (readLine py u r.2).map fun line => (r.1, line)

theorem numbered_eq_ok {r : ℕ × Fields F} {line : ℕ × Line F} :
    numbered py u r = .ok line ↔ line.1 = r.1 ∧ readLine py u r.2 = .ok line.2 := by
  rw [numbered]
  cases readLine py u r.2 with
  | error e => simp [Except.map]
  | ok l => simp [Except.map, Prod.ext_iff, eq_comm]

/-- The rows that an update writes are those of the lines it has read. -/
theorem rewrite_eq_some {records : List (ℕ × Fields F)} {rows : List (ℕ × AuditRow F)}
    {lag : Option (ℕ × ℤ)} (h : rewrite py u records = .ok (some (rows, lag))) :
    ∃ lines, List.Forall₂ (fun r line => numbered py u r = .ok line) records lines ∧
      (lines.any fun line => line.2.isTarget) = true ∧
      rows = lines.filterMap (fun line => line.2.row?.map fun row => (line.1, row)) ∧
      lag = lagOf lines := by
  obtain ⟨lines, hlines, h⟩ := bind_eq_ok.mp h
  refine ⟨lines, mapM_eq_ok.mp hlines, ?_⟩
  split_ifs at h with hany
  · obtain ⟨hrows, hlag⟩ := Prod.mk.inj (Option.some.inj (Except.ok.inj h))
    exact ⟨hany, hrows.symm, hlag.symm⟩
  · cases h

/-- An update rewrites the log unless no row has its id or one that has does not take the
transition. -/
theorem exists_rewrite (records : List (ℕ × Fields F)) :
    (∃ rows lag, rewrite py u records = .ok (some (rows, lag))) ↔ ¬ Unwritten u records := by
  have hread : (∃ lines, records.mapM (numbered py u) = .ok lines) ↔
      ∀ r ∈ records, Readable r.2 → HasId u r.2 → Takes u r.2 := by
    rw [exists_mapM]
    refine forall₂_congr fun r _ => ?_
    rw [← @exists_readLine F py u r.2]
    exact ⟨fun ⟨line, h⟩ => ⟨line.2, (numbered_eq_ok.mp h).2⟩,
      fun ⟨line, h⟩ => ⟨(r.1, line), numbered_eq_ok.mpr ⟨rfl, h⟩⟩⟩
  have hany : ∀ lines, records.mapM (numbered py u) = .ok lines →
      ((lines.any fun line => line.2.isTarget) = true ↔
        ∃ r ∈ records, Readable r.2 ∧ HasId u r.2) := by
    intro lines hlines
    have hall := mapM_eq_ok.mp hlines
    clear hlines hread
    induction hall with
    | nil => simp
    | @cons r line records lines hr _ ih =>
      obtain ⟨-, hline⟩ := numbered_eq_ok.mp hr
      rw [List.any_cons, Bool.or_eq_true, List.exists_mem_cons_iff]
      refine or_congr ⟨fun htarget => ?_, fun ⟨hreadable, hid⟩ => ?_⟩ ih
      · cases hl : line.2 with
        | target row lag =>
          have hspec := readLine_row (hl ▸ hline) rfl
          exact ⟨hspec.1, hspec.2.2.2.mpr rfl⟩
        | _ => rw [hl] at htarget; cases htarget
      · rw [readLine_of_readable hreadable, if_pos ((hasId_iff hreadable).mp hid)] at hline
        obtain ⟨next, lag, heq, -⟩ := applyTransition_eq_ok hline
        rw [heq]
        rfl
  rw [Unwritten, not_or]
  constructor
  · rintro ⟨rows, lag, h⟩
    obtain ⟨lines, hlines, hsome, -⟩ := rewrite_eq_some h
    have hlines := mapM_eq_ok.mpr hlines
    refine ⟨fun hnone => ?_, ?_⟩
    · obtain ⟨r, hr, hreadable, hid⟩ := (hany lines hlines).mp hsome
      exact hnone r hr hreadable hid
    · rintro ⟨r, hr, hreadable, hid, hnot⟩
      exact hnot (hread.mp ⟨lines, hlines⟩ r hr hreadable hid)
  · rintro ⟨hsome, htakes⟩
    push Not at hsome htakes
    obtain ⟨lines, hlines⟩ := hread.mpr htakes
    have htarget := (hany lines hlines).mpr hsome
    exact ⟨_, _, bind_eq_ok.mpr ⟨lines, hlines, if_pos htarget⟩⟩

/-- What is written is what each record is written as. -/
theorem records_of_encodeRows {records : List (ℕ × Fields F)} {rows : List (ℕ × AuditRow F)}
    {lag : Option (ℕ × ℤ)} {written : List (ℕ × Fields F)}
    (h : rewrite py u records = .ok (some (rows, lag)))
    (hwritten : encodeRows floats limits rows = some written) :
    written = records.filterMap (fun r => (emit py floats limits u r.2).map fun e => (r.1, e)) ∧
      ∀ r ∈ records, Readable r.2 → (emit py floats limits u r.2).isSome := by
  obtain ⟨lines, hlines, -, rfl, -⟩ := rewrite_eq_some h
  clear h
  have hall := mapM_some hwritten
  clear hwritten
  induction hlines generalizing written with
  | nil =>
    cases hall
    exact ⟨rfl, nofun⟩
  | @cons r line records lines hr _ ih =>
    obtain ⟨hnumber, hline⟩ := numbered_eq_ok.mp hr
    have hemit : emit py floats limits u r.2 =
        line.2.row?.bind fun row => encoded floats limits row.toDict := by rw [emit, hline]
    rw [List.forall_mem_cons]
    cases hrow : line.2.row? with
    | none =>
      rw [List.filterMap_cons_none (by rw [hrow]; rfl)] at hall
      rw [hrow] at hemit
      obtain ⟨heq, hsome⟩ := ih hall
      refine ⟨?_, fun hreadable => ?_, hsome⟩
      · rw [List.filterMap_cons_none (by rw [hemit]; rfl), heq]
      · -- A row is made of a record that can be read.
        rw [readLine_of_readable hreadable] at hline
        split_ifs at hline
        · obtain ⟨next, lag, htarget, -⟩ := applyTransition_eq_ok hline
          rw [htarget] at hrow
          cases hrow
        · rw [← Except.ok.inj hline] at hrow
          cases hrow
    | some row =>
      rw [List.filterMap_cons_some (by rw [hrow]; rfl)] at hall
      obtain ⟨w, written', henc, hrest, rfl⟩ := List.forall₂_cons_right_iff.mp hall
      obtain ⟨e, he, rfl⟩ := Option.map_eq_some_iff.mp henc
      rw [hrow] at hemit
      have hemit' : emit py floats limits u r.2 = some e := hemit.trans he
      obtain ⟨heq, hsome⟩ := ih hrest
      refine ⟨?_, fun _ => by rw [hemit']; rfl, hsome⟩
      rw [List.filterMap_cons_some (by rw [hemit']; rfl), heq, hnumber]

/-- An update keeps the log but for what it may change exactly where its write fails, where it does
not rewrite the log, or where every record is one that is written as it is read. -/
theorem framed_iff {s s' : State F} {read : List (ℕ × Fields F)} {fails : Bool}
    (h : s.finish py floats limits u read fails = some s') (hread : read = s.records) :
    Framed u s.records s'.records ↔
      fails = true ∨ Unwritten u s.records ∨ ∀ r ∈ s.records, WrittenAsRead floats u r.2 := by
  subst hread
  by_cases hun : Unwritten u s.records
  · have hsame : s'.records = s.records := by
      rw [State.finish] at h
      split at h
      · rename_i rows lag hrewrite
        exact absurd hun ((exists_rewrite _).mp ⟨rows, lag, hrewrite⟩)
      all_goals obtain rfl := Option.some.inj h; rfl
    exact iff_of_true (hsame ▸ .refl u _) (.inr (.inl hun))
  · obtain ⟨rows, lag, hrewrite⟩ : ∃ rows lag, rewrite py u s.records = .ok (some (rows, lag)) :=
      (exists_rewrite _).mpr hun
    rw [State.finish, hrewrite] at h
    cases fails with
    | true =>
      obtain rfl := Option.some.inj h
      exact iff_of_true (.refl u _) (.inl rfl)
    | false =>
      obtain ⟨written, hwritten, rfl⟩ := Option.map_eq_some_iff.mp h
      obtain ⟨rfl, hsome⟩ := records_of_encodeRows hrewrite hwritten
      rw [Framed, forall₂_filterMap_iff]
      constructor
      · intro hframed
        refine .inr (.inr fun r hr => ?_)
        obtain ⟨w, hw, hsame⟩ := hframed r hr
        obtain ⟨e, he, rfl⟩ := Option.map_eq_some_iff.mp hw
        exact (sameBut_iff he).mp hsame
      · rintro (hfails | hun' | hwell) r hr
        · cases hfails
        · exact absurd hun' hun
        · obtain ⟨e, he⟩ := Option.isSome_iff_exists.mp (hsome r hr (hwell r hr).readable)
          exact ⟨(r.1, e), by rw [he]; rfl, (sameBut_iff he).mpr (hwell r hr)⟩

end Frame

/-! ## The folds -/

section Folds

variable {F : Type} {py : Python F ℤ} {floats : Floats F} {limits : Limits} {u : Update}

/-- The lag is of a line that has one. -/
theorem mem_of_lagOf {lines : List (ℕ × Line F)} {lag : ℕ × ℤ} (h : lagOf lines = some lag) :
    ∃ row, (lag.1, .target row (some (some lag.2))) ∈ lines := by
  have hfold : ∀ (lines : List (ℕ × Line F)) (acc : Option (ℕ × ℤ)),
      lines.foldl (fun lag line =>
        match line.2 with
        | .target _ (some lag) => lag.map fun lag => (line.1, lag)
        | _ => lag) acc = some lag →
      acc = some lag ∨ ∃ row, (lag.1, .target row (some (some lag.2))) ∈ lines := by
    intro lines
    induction lines with
    | nil => exact fun acc h => .inl h
    | cons line lines ih =>
      intro acc h
      rcases ih _ h with hacc | ⟨row, hrow⟩
      · -- The accumulator after the line is the line's own lag, or what it was before.
        dsimp only at hacc
        split at hacc
        · rename_i row lag' hline
          obtain ⟨x, rfl, rfl⟩ := Option.map_eq_some_iff.mp hacc
          refine .inr ⟨row, List.mem_cons.mpr (.inl ?_)⟩
          rw [← hline]
        · exact .inl hacc
      · exact .inr ⟨row, List.mem_cons_of_mem _ hrow⟩
  rcases hfold lines none h with hnone | hmem
  · cases hnone
  · exact hmem

/-- The line of a row holds the transitions that the row has. -/
theorem repliedBefore_of_encoded {row : AuditRow F} {e : Fields F}
    (h : encoded floats limits row.toDict = some e) (hreplied : Replied py row.ts row.delivery) :
    RepliedBefore py e := by
  obtain ⟨depth, hcopy⟩ := exists_copy_of_encoded h
  obtain ⟨fields', d₁, hfields', hat⟩ := valueAt_copy hcopy
  obtain rfl := Value.obj.inj hfields'
  obtain ⟨fields, transitions, t, stamp, hobj, hget, ht, hto, hstamp, hlag⟩ := hreplied
  have hts : ∃ sent, row.ts = .str sent := by
    cases hvalue : row.ts with
    | str sent => exact ⟨sent, rfl⟩
    | _ => rw [hvalue] at hlag; cases hlag
  obtain ⟨sent, hsent⟩ := hts
  have hsentAt : valueAt row.toDict (name "ts") = some (.str sent) := by
    rw [← hsent, ← get?_eq_valueAt]
    simp +decide [AuditRow.toDict]
  have hblockAt : valueAt row.toDict (name "delivery") = some (.obj fields) := by
    rw [← hobj, ← get?_eq_valueAt]
    simp +decide [AuditRow.toDict]
  -- The copies of the block, of its transitions and of the one of them, one inside the other.
  obtain ⟨ts', hts', hcopyTs⟩ := (hat (name "ts")).2 _ hsentAt
  obtain ⟨block', hblock', hcopyBlock⟩ := (hat (name "delivery")).2 _ hblockAt
  obtain ⟨fields', d₂, rfl, hat₂⟩ := valueAt_copy hcopyBlock
  obtain ⟨list', hlist', hcopyList⟩ := (hat₂ (name "state_transitions")).2 _ hget
  obtain ⟨transitions', d₃, rfl, hmem⟩ := mem_copy hcopyList
  obtain ⟨t', ht', hcopyT⟩ := hmem _ ht
  obtain ⟨t', d₄, rfl, hat₄⟩ := valueAt_copy hcopyT
  obtain ⟨to', hto', hcopyTo⟩ := (hat₄ (name "to")).2 _ hto
  obtain ⟨stamp', hstamp', hcopyStamp⟩ := (hat₄ (name "at")).2 _ hstamp
  rw [copy_str hcopyTo] at hto'
  rw [copy_str hcopyStamp] at hstamp'
  rw [copy_str hcopyTs] at hts'
  refine ⟨fields', transitions', t', stamp, getOrNone_of_get? hblock', hlist', ht', hto', hstamp',
    ?_⟩
  rw [getOrNone_of_get? hts', ← hsent]
  exact hlag

/-- The lags that were taken, whether they are folded yet or not. -/
def State.lags (s : State F) : List ℕ := (s.owed ++ s.folded).map Prod.fst

/-- No row that has been in `replied_explicit` with a lag is moved into it again with one. -/
def Afresh (py : Python F ℤ) (s : State F) : Act F → Prop
  | .finish _ => ∀ u read, s.running = some (u, read) →
      ∀ r ∈ read, Folds py u r.2 → ¬ RepliedBefore py r.2
  | _ => True

structure Inv (py : Python F ℤ) (s : State F) : Prop where
  read : ∀ u read, s.running = some (u, read) → read = s.records
  numbers : (s.records.map Prod.fst).Nodup
  arrived : ∀ i ∈ s.records.map Prod.fst, i < s.arrived
  lags : s.lags.Nodup
  taken : ∀ i ∈ s.lags, i < s.arrived
  replied : ∀ r ∈ s.records, r.1 ∈ s.lags → RepliedBefore py r.2

variable {s s' : State F}

theorem inv_start (h : s.Start) : Inv py s := by
  have hlags : s.lags = [] := by rw [State.lags, h.owed, h.folded]; rfl
  refine ⟨?_, ?_, ?_, ?_, ?_, ?_⟩
  · simp [h.running]
  · rw [h.numbers]
    exact List.nodup_range
  · rw [h.numbers]
    exact fun i => List.mem_range.mp
  · rw [hlags]
    exact List.nodup_nil
  all_goals simp [hlags]

/-- An update that writes keeps the numbers of the records that are left, and takes at most one
lag. -/
theorem Inv.written (h : Inv py s) {rows : List (ℕ × AuditRow F)} {lag : Option (ℕ × ℤ)}
    {written : List (ℕ × Fields F)} (hfresh : ∀ r ∈ s.records, Folds py u r.2 →
      ¬ RepliedBefore py r.2)
    (hrewrite : rewrite py u s.records = .ok (some (rows, lag)))
    (hwritten : encodeRows floats limits rows = some written) :
    Inv py { s with records := written, running := none, owed := s.owed ++ lag.toList } := by
  obtain ⟨rfl, -⟩ := records_of_encodeRows hrewrite hwritten
  obtain ⟨lines, hlines, -, -, rfl⟩ := rewrite_eq_some hrewrite
  -- The record that a lag is of.
  have hof : ∀ taken, lagOf lines = some taken → ∃ r ∈ s.records, r.1 = taken.1 ∧
      ∃ row, readLine py u r.2 = .ok (.target row (some (some taken.2))) := by
    intro taken htaken
    obtain ⟨row, hrow⟩ := mem_of_lagOf htaken
    obtain ⟨i, hi, heq⟩ := List.mem_iff_getElem.mp hrow
    have hi' : i < s.records.length := hlines.length_eq ▸ hi
    obtain ⟨hnumber, hline⟩ := numbered_eq_ok.mp (List.Forall₂.get hlines hi' hi)
    simp only [List.get_eq_getElem, heq] at hnumber hline
    exact ⟨s.records[i], List.getElem_mem _, hnumber.symm, row, hline⟩
  have hperm : ((s.owed ++ (lagOf lines).toList ++ s.folded).map Prod.fst).Perm
      ((lagOf lines).toList.map Prod.fst ++ s.lags) := by
    rw [State.lags, ← List.map_append, List.append_assoc]
    refine List.Perm.map _ ?_
    rw [← List.append_assoc, ← List.append_assoc]
    exact List.Perm.append_right _ List.perm_append_comm
  have hsub : (List.map Prod.fst (s.records.filterMap fun r =>
      (emit py floats limits u r.2).map fun e => (r.1, e))).Sublist (s.records.map Prod.fst) := by
    rw [List.map_filterMap]
    have hfst : ∀ r : ℕ × Fields F, ((emit py floats limits u r.2).map fun e => (r.1, e)).map
        Prod.fst = (emit py floats limits u r.2).map fun _ => r.1 := by
      intro r
      rw [Option.map_map]
      rfl
    simp only [hfst]
    induction s.records with
    | nil => exact .slnil
    | cons r records ih =>
      cases hr : emit py floats limits u r.2 with
      | none =>
        rw [List.filterMap_cons_none (by rw [hr]; rfl)]
        exact ih.cons _
      | some e =>
        rw [List.filterMap_cons_some (by rw [hr]; rfl)]
        exact ih.cons_cons _
  have hnew : ∀ i ∈ (lagOf lines).toList.map Prod.fst, i < s.arrived ∧ i ∉ s.lags := by
    intro i hi
    obtain ⟨taken, htaken, rfl⟩ := List.mem_map.mp hi
    obtain ⟨r, hr, hnumber, row, hline⟩ := hof taken (Option.mem_toList.mp htaken)
    refine ⟨h.arrived _ (hnumber ▸ List.mem_map_of_mem hr), fun hlags => ?_⟩
    exact hfresh r hr (folds_of_readLine hline) (h.replied r hr (hnumber ▸ hlags))
  refine ⟨nofun, h.numbers.sublist hsub, fun i hi => h.arrived i (hsub.subset hi), ?_,
    fun i hi => ?_, fun r' hr' hi => ?_⟩
  · refine hperm.nodup_iff.mpr (List.nodup_append'.mpr ⟨?_, h.lags, fun i hi => (hnew i hi).2⟩)
    cases lagOf lines <;> simp
  · rcases List.mem_append.mp (hperm.subset hi) with hi | hi
    · exact (hnew i hi).1
    · exact h.taken i hi
  · obtain ⟨r, hr, hemit⟩ := List.mem_filterMap.mp hr'
    obtain ⟨e, he, rfl⟩ := Option.map_eq_some_iff.mp hemit
    rw [emit] at he
    split at he
    case h_2 => cases he
    rename_i line hline
    obtain ⟨row, hrow, henc⟩ := Option.bind_eq_some_iff.mp he
    refine repliedBefore_of_encoded henc ?_
    rcases List.mem_append.mp (hperm.subset hi) with hi | hi
    · -- The row is the one whose lag is taken, as no other record has its number.
      obtain ⟨taken, htaken, hnumber⟩ := List.mem_map.mp hi
      obtain ⟨r₀, hr₀, hnumber₀, row₀, hline₀⟩ := hof taken (Option.mem_toList.mp htaken)
      obtain rfl : r₀ = r := List.inj_on_of_nodup_map h.numbers hr₀ hr (hnumber₀.trans hnumber)
      obtain rfl := Except.ok.inj (hline₀.symm.trans hline)
      obtain rfl := Option.some.inj hrow
      exact replied_of_readLine hline₀
    · exact replied_of_repliedBefore hline hrow (h.replied r hr hi)

theorem Inv.setLags (h : Inv py s) {owed folded : List (ℕ × ℤ)}
    (hnodup : ((owed ++ folded).map Prod.fst).Nodup)
    (hsub : ∀ i ∈ (owed ++ folded).map Prod.fst, i ∈ s.lags) : Inv py { s with owed, folded } :=
  ⟨h.read, h.numbers, h.arrived, hnodup, fun i hi => h.taken i (hsub i hi),
    fun r hr hi => h.replied r hr (hsub _ hi)⟩

theorem Inv.step (h : Inv py s) {a : Act F} (hfresh : Afresh py s a)
    (hs : s.step py floats limits a = some s') : Inv py s' := by
  cases a with
  | append record =>
    rw [State.step] at hs
    split_ifs at hs with hrunning
    obtain rfl := Option.some.inj hs
    have hnone : s.running = none := Option.not_isSome_iff_eq_none.mp hrunning
    refine ⟨?_, ?_, ?_, h.lags, fun i hi => (h.taken i hi).trans (Nat.lt_succ_self _), ?_⟩
    · simp [hnone]
    · rw [List.map_append, List.nodup_append']
      refine ⟨h.numbers, List.nodup_singleton _, fun i hi hi' => ?_⟩
      obtain rfl := List.mem_singleton.mp hi'
      exact lt_irrefl _ (h.arrived _ hi)
    · intro i hi
      rw [List.map_append] at hi
      rcases List.mem_append.mp hi with hi | hi
      · exact (h.arrived i hi).trans (Nat.lt_succ_self _)
      · obtain rfl := List.mem_singleton.mp hi
        exact Nat.lt_succ_self _
    · intro r hr hi
      rcases List.mem_append.mp hr with hr | hr
      · exact h.replied r hr hi
      · obtain rfl := List.mem_singleton.mp hr
        exact absurd (h.taken _ hi) (lt_irrefl _)
  | read u =>
    rw [State.step] at hs
    split_ifs at hs
    obtain rfl := Option.some.inj hs
    refine ⟨?_, h.numbers, h.arrived, h.lags, h.taken, h.replied⟩
    rintro u read ⟨⟩
    rfl
  | finish fails =>
    obtain ⟨⟨u, read⟩, hrunning, hfinish⟩ := Option.bind_eq_some_iff.mp hs
    obtain rfl := h.read u read hrunning
    have hkept : Inv py { s with running := none } :=
      ⟨nofun, h.numbers, h.arrived, h.lags, h.taken, h.replied⟩
    change s.finish py floats limits u s.records fails = some s' at hfinish
    rw [State.finish] at hfinish
    split at hfinish
    · rename_i rows lag hrewrite
      split_ifs at hfinish
      · exact Option.some.inj hfinish ▸ hkept
      · obtain ⟨written, hwritten, rfl⟩ := Option.map_eq_some_iff.mp hfinish
        exact h.written (hfresh u _ hrunning) hrewrite hwritten
    all_goals exact Option.some.inj hfinish ▸ hkept
  | fold lag fails =>
    rw [State.step] at hs
    -- A fold that succeeds moves the lag, and one that fails drops it.
    split_ifs at hs with howed hfails
    · obtain rfl := Option.some.inj hs
      have hsub : ((s.owed.erase lag ++ s.folded).map Prod.fst).Sublist s.lags :=
        (List.erase_sublist.append_right _).map _
      exact h.setLags (h.lags.sublist hsub) hsub.subset
    · obtain rfl := Option.some.inj hs
      have hperm : ((s.owed.erase lag ++ lag :: s.folded).map Prod.fst).Perm s.lags := by
        refine List.Perm.map _ ?_
        calc (s.owed.erase lag ++ lag :: s.folded).Perm (lag :: s.owed.erase lag ++ s.folded) :=
              List.perm_middle
          _ |>.Perm (s.owed ++ s.folded) := (List.perm_cons_erase howed).symm.append_right _
      exact h.setLags (hperm.nodup_iff.mpr h.lags) hperm.subset

end Folds

/-! ## Runs -/

section Runs

variable {F : Type} {py : Python F ℤ} {floats : Floats F} {limits : Limits}

theorem inv_of_reach {s : State F} (h : (machine py floats limits).Reach (Afresh py) s) :
    Inv py s :=
  h.invariant (fun _ => inv_start) fun _ _ _ hinv hfresh hs => hinv.step hfresh hs

/-- In every run in which no row is moved again into `replied_explicit` with a lag, no lag of a row
is folded twice; and an update keeps the log but for what it may change exactly where its write
fails, where it does not rewrite the log, or where every record is written as it is read. -/
theorem updates_kept {s : State F} (h : (machine py floats limits).Reach (Afresh py) s) :
    (s.folded.map Prod.fst).Nodup ∧ ∀ fails s', s.step py floats limits (.finish fails) = some s' →
      ∃ u, s.running = some (u, s.records) ∧ (Framed u s.records s'.records ↔
        fails = true ∨ Unwritten u s.records ∨ ∀ r ∈ s.records, WrittenAsRead floats u r.2) := by
  have hinv := inv_of_reach h
  constructor
  · have hsub : (s.folded.map Prod.fst).Sublist s.lags := (List.sublist_append_right _ _).map _
    exact hinv.lags.sublist hsub
  · intro fails s' hs
    obtain ⟨⟨u, read⟩, hrunning, hfinish⟩ := Option.bind_eq_some_iff.mp hs
    have hread := hinv.read u read hrunning
    exact ⟨u, hread ▸ hrunning, framed_iff hfinish hread⟩

/-- A language in which two times are read. -/
def samplePython : Python Unit ℤ where
  number := fun _ => .nan
  zero := ()
  ofInt := fun _ => ()
  parseFloat := fun _ => none
  parseTime := fun s =>
    if s = name "2026-05-01T10:00:00+00:00" then some 1777629600000000
    else if s = name "2026-05-01T11:00:00+00:00" then some 1777633200000000
    else none

def sampleLimits : Limits := ⟨900, 900, 900⟩

def sampleMachine : Machine (State Unit) (Act Unit) := machine samplePython noFloats sampleLimits

/-- A row that was sent. -/
def sampleRow (auditId : String) : Fields Unit :=
  [(name "audit_id", .str (name auditId)), (name "candidate_id", .str (name "ic_1")),
    (name "ts", .str (name "2026-05-01T10:00:00+00:00")), (name "kind", .str (name "message")),
    (name "subject", .str (name "a dream")), (name "tone_rendered", .str (name "I dreamt")),
    (name "decision", .str (name "send_notify")), (name "decision_reasoning", .str []),
    (name "gate_check", .obj []), (name "delivery", .null)]

def sampleStart : State Unit where
  records := [(0, sampleRow "ia_1"), (1, sampleRow "ia_2" ++ [(name "channel", .str (name "app"))])]
  arrived := 2
  running := none
  owed := []
  folded := []

def sampleUpdate (state : String) : Update where
  auditId := name "ia_1"
  newState := name state
  stamp := name "2026-05-01T11:00:00+00:00"

theorem start_sampleStart : sampleStart.Start := ⟨rfl, rfl, rfl, rfl⟩

/-- A step that updates no row that has a delivery block. -/
def Unsent (s : State Unit) (a : Act Unit) : Prop :=
  a matches .finish _ → (s.running.all fun (_, read) => read.all fun r =>
    getOrNone r.2 "delivery" matches .null) = true

instance : ∀ s a, Decidable (Unsent s a) := fun _ _ => inferInstanceAs (Decidable (_ → _))

theorem Unsent.afresh {s : State Unit} {a : Act Unit} (h : Unsent s a) :
    Afresh samplePython s a := by
  cases a with
  | finish fails =>
    intro u read hrunning r hr _ hbefore
    have hall := h rfl
    rw [hrunning, Option.all_some, List.all_eq_true] at hall
    obtain ⟨fields, _, _, _, hobj, -⟩ := hbefore
    have hnull := hall r hr
    rw [hobj] at hnull
    cases hnull
  | _ => trivial

theorem updates_kept_replied : ∃ s : State Unit, s.folded = [(0, 3600000000)] ∧ s.running.isSome ∧
    (s.folded.map Prod.fst).Nodup ∧
    ∀ fails s', s.step samplePython noFloats sampleLimits (.finish fails) = some s' →
      ∃ u, s.running = some (u, s.records) ∧ (Framed u s.records s'.records ↔
        fails = true ∨ Unwritten u s.records ∨
          ∀ r ∈ s.records, WrittenAsRead noFloats u r.2) := by
  obtain ⟨s, hs, hp⟩ := sampleMachine.exists_reach_of_runWithin (D := Unsent)
    (fun _ _ => Unsent.afresh) start_sampleStart
    [.read (sampleUpdate "replied_explicit"), .finish false, .fold (0, 3600000000) false,
      .read (sampleUpdate "dismissed")]
    (fun s => decide (s.folded = [(0, 3600000000)]) && s.running.isSome) (by decide +kernel)
  rw [Bool.and_eq_true] at hp
  exact ⟨s, of_decide_eq_true hp.1, hp.2, updates_kept hs⟩

/-- An update of a row drops a field of another row that the row class does not know. -/
theorem unknown_field_lost : ∃ (s : State Unit) (u : Update) (s' : State Unit),
    sampleMachine.Reachable s ∧ s.running = some (u, s.records) ∧
    s.step samplePython noFloats sampleLimits (.finish false) = some s' ∧
    ¬ Framed u s.records s'.records := by
  let s : State Unit :=
    { sampleStart with running := some (sampleUpdate "delivered", sampleStart.records) }
  have hreach : sampleMachine.Reachable s :=
    .step (.init start_sampleStart) trivial (a := .read (sampleUpdate "delivered")) rfl
  have hany : (s.step samplePython noFloats sampleLimits (.finish false)).any (fun s' =>
      s'.records.all fun r => (get? r.2 "channel").isNone) = true := by decide +kernel
  obtain ⟨s', hs', hnone⟩ := (Option.any_eq_true _ _).mp hany
  refine ⟨s, _, s', hreach, rfl, hs', fun hframed => ?_⟩
  obtain ⟨r, rest, -, hrest, hrecords⟩ := List.forall₂_cons_left_iff.mp hframed
  obtain ⟨r', rest', hsame, -, rfl⟩ := List.forall₂_cons_left_iff.mp hrest
  rw [hrecords, List.all_cons, List.all_cons, Bool.and_eq_true, Bool.and_eq_true] at hnone
  have hkey := hsame (name "channel") fun ht => absurd ht.2 (by decide)
  have hnot := hnone.2.1
  rw [get?_eq_valueAt, ← hkey] at hnot
  revert hnot
  decide +kernel

/-- The lag of a row is folded again when it comes back to `replied_explicit`. -/
theorem folds_again : ∃ s : State Unit,
    sampleMachine.Reachable s ∧ ¬ (s.folded.map Prod.fst).Nodup := by
  obtain ⟨s, hs, hp⟩ := sampleMachine.exists_reach_of_runWithin (C := fun _ _ => True)
    (D := fun _ _ => True) (fun _ _ _ => trivial) start_sampleStart
    [.read (sampleUpdate "replied_explicit"), .finish false, .fold (0, 3600000000) false,
      .read (sampleUpdate "dismissed"), .finish false,
      .read (sampleUpdate "replied_explicit"), .finish false, .fold (0, 3600000000) false]
    (fun s => decide ¬ (s.folded.map Prod.fst).Nodup) (by decide +kernel)
  exact ⟨s, hs, of_decide_eq_true hp⟩

end Runs

end Companion.Initiate.AuditRewrite

import Companion.Consolidation.Entries

/-!
# The rows of the audit log

`AuditRow` of `brain/initiate/schemas.py` over the records of `initiate_audit.jsonl`, which are any
JSON objects: the row that is made of a record, the transition that it takes, and the record that is
written of it by `write_jsonl` with `nonfinite="null"`.

No row is made of a record that lacks one of nine keys. What is written has the keys that a row
knows and no others (`keys_toDict`), and at each of them what the record has there (`get?_toDict`),
with null for a float that is infinite or not a number (`nullNonfinite_eq_iff`).
-/

namespace Companion.Initiate.AuditRewrite

open Companion.JsonText
open Companion.Initiate.Review (PyError name get? get?_cons item)
open Companion.Consolidation.Entries (Limits getOrNone setItem nullNonfinite AllFinite dumpsNull
  item_eq_ok bind_eq_error)

/-! ## Rows -/

/-- `AuditRow`, whose fields are any values. -/
structure AuditRow (F : Type) where
  auditId : Value F
  candidateId : Value F
  ts : Value F
  kind : Value F
  subject : Value F
  toneRendered : Value F
  decision : Value F
  decisionReasoning : Value F
  gateCheck : Value F
  delivery : Value F
  diff : Value F
  userModified : Value F

section Rows

variable {F : Type}

/-- `value == text` -/
def isUnits (s : List CodeUnit) : Value F → Bool
  | .str t => t = s
  | _ => false

namespace AuditRow

/-- `AuditRow.from_dict` -/
def fromDict (d : Fields F) : Except PyError (AuditRow F) := do
  let auditId ← item d "audit_id"
  let candidateId ← item d "candidate_id"
  let ts ← item d "ts"
  let kind ← item d "kind"
  let subject ← item d "subject"
  let toneRendered ← item d "tone_rendered"
  let decision ← item d "decision"
  let decisionReasoning ← item d "decision_reasoning"
  let gateCheck ← item d "gate_check"
  return {
    auditId, candidateId, ts, kind, subject, toneRendered, decision, decisionReasoning, gateCheck
    delivery := getOrNone d "delivery"
    diff := getOrNone d "diff"
    userModified := (get? d "user_modified").getD (.bool false) }

/-- The fields of a voice edit, which a row without a `diff` is written without. -/
def edit (row : AuditRow F) : Fields F :=
  match row.diff with
  | .null => []
  | diff => [(name "diff", diff), (name "user_modified", row.userModified)]

/-- `AuditRow.to_dict` -/
def toDict (row : AuditRow F) : Fields F :=
  [(name "audit_id", row.auditId), (name "candidate_id", row.candidateId), (name "ts", row.ts),
    (name "kind", row.kind), (name "subject", row.subject),
    (name "tone_rendered", row.toneRendered), (name "decision", row.decision),
    (name "decision_reasoning", row.decisionReasoning), (name "gate_check", row.gateCheck),
    (name "delivery", row.delivery)] ++ row.edit

/-- The delivery block as a transition finds it, made where there is none. -/
def block (row : AuditRow F) (state stamp : List CodeUnit) : Except PyError (Fields F) :=
  match row.delivery with
  | .null =>
    .ok [(name "delivered_at", if state = name "delivered" then .str stamp else .null),
      (name "state_transitions", .arr []), (name "current_state", .str state)]
  | .obj fields => .ok fields
  | _ => .error .typeError

/-- What has the `append` of a list. -/
def asList : Value F → Except PyError (List (Value F))
  | .arr items => .ok items
  | _ => .error .attributeError

/-- An entry of `state_transitions`. -/
def transition (state stamp : List CodeUnit) : Value F :=
  .obj [(name "to", .str state), (name "at", .str stamp)]

/-- `AuditRow.record_transition` -/
def recordTransition (row : AuditRow F) (state stamp : List CodeUnit) :
    Except PyError (AuditRow F) := do
  let delivery ← row.block state stamp
  let transitions ← asList (← item delivery "state_transitions")
  let transitions := transitions ++ [transition state stamp]
  let delivery := setItem delivery "state_transitions" (.arr transitions)
  let delivery := setItem delivery "current_state" (.str state)
  if state = name "delivered" then
    let deliveredAt ← item delivery "delivered_at"
    match deliveredAt with
    | .null => return { row with delivery := .obj (setItem delivery "delivered_at" (.str stamp)) }
    | _ => return { row with delivery := .obj delivery }
  else return { row with delivery := .obj delivery }

end AuditRow

end Rows

/-! ## What a record is written as -/

section Emission

variable {F : Type}

/-- `fields.get(k)`, none where the key is not there. -/
def valueAt (fields : Fields F) (k : List CodeUnit) : Option (Value F) :=
  (fields.find? fun f => f.1 = k).map Prod.snd

/-- The keys without which no row is made of a record. -/
def requiredKeys : List String :=
  ["audit_id", "candidate_id", "ts", "kind", "subject", "tone_rendered", "decision",
    "decision_reasoning", "gate_check"]

/-- The keys that the row of a record is written with. -/
def writtenKeys (fields : Fields F) : List String :=
  requiredKeys ++ "delivery" ::
    match getOrNone fields "diff" with
    | .null => []
    | _ => ["diff", "user_modified"]

/-- A record of which a row can be made. -/
def Readable (fields : Fields F) : Prop := ∀ key ∈ requiredKeys, (get? fields key).isSome

/-- The row that is made of a record. -/
def rowOf (fields : Fields F) : AuditRow F where
  auditId := getOrNone fields "audit_id"
  candidateId := getOrNone fields "candidate_id"
  ts := getOrNone fields "ts"
  kind := getOrNone fields "kind"
  subject := getOrNone fields "subject"
  toneRendered := getOrNone fields "tone_rendered"
  decision := getOrNone fields "decision"
  decisionReasoning := getOrNone fields "decision_reasoning"
  gateCheck := getOrNone fields "gate_check"
  delivery := getOrNone fields "delivery"
  diff := getOrNone fields "diff"
  userModified := (get? fields "user_modified").getD (.bool false)

theorem get?_eq_valueAt (fields : Fields F) (key : String) :
    get? fields key = valueAt fields (name key) := rfl

theorem valueAt_cons (f : List CodeUnit × Value F) (fields : Fields F) (k : List CodeUnit) :
    valueAt (f :: fields) k = if f.1 = k then some f.2 else valueAt fields k := by
  unfold valueAt
  by_cases h : f.1 = k <;> simp [h]

theorem valueAt_nil (k : List CodeUnit) : valueAt ([] : Fields F) k = none := rfl

theorem bind_eq_ok {α β : Type} {x : Except PyError α} {f : α → Except PyError β} {b : β} :
    (x >>= f) = .ok b ↔ ∃ a, x = .ok a ∧ f a = .ok b := by
  cases x with
  | error e => simp [bind, Except.bind]
  | ok a => simp [bind, Except.bind]

theorem item_eq_error {fields : Fields F} {key : String} {e : PyError} :
    item fields key = .error e ↔ e = .keyError ∧ get? fields key = none := by
  rw [item]
  cases get? fields key <;> simp [eq_comm]

theorem getOrNone_of_get? {fields : Fields F} {key : String} {v : Value F}
    (h : get? fields key = some v) : getOrNone fields key = v := by
  rw [getOrNone, h]
  rfl

/-- What `AuditRow.from_dict` makes of a record. -/
theorem fromDict_eq_ok {d : Fields F} {row : AuditRow F} :
    AuditRow.fromDict d = .ok row ↔ Readable d ∧ row = rowOf d := by
  simp only [AuditRow.fromDict, bind_eq_ok, item_eq_ok, pure, Except.pure, Except.ok.injEq]
  constructor
  · rintro ⟨v₁, h₁, v₂, h₂, v₃, h₃, v₄, h₄, v₅, h₅, v₆, h₆, v₇, h₇, v₈, h₈, v₉, h₉, rfl⟩
    refine ⟨?_, ?_⟩
    · simp [Readable, requiredKeys, h₁, h₂, h₃, h₄, h₅, h₆, h₇, h₈, h₉]
    · simp [rowOf, getOrNone, h₁, h₂, h₃, h₄, h₅, h₆, h₇, h₈, h₉]
  · rintro ⟨hread, rfl⟩
    have hget : ∀ key ∈ requiredKeys, get? d key = some (getOrNone d key) := by
      intro key hkey
      obtain ⟨v, hv⟩ := Option.isSome_iff_exists.mp (hread key hkey)
      rw [hv, getOrNone_of_get? hv]
    simp only [requiredKeys, List.forall_mem_cons] at hget
    obtain ⟨h₁, h₂, h₃, h₄, h₅, h₆, h₇, h₈, h₉, -⟩ := hget
    exact ⟨_, h₁, _, h₂, _, h₃, _, h₄, _, h₅, _, h₆, _, h₇, _, h₈, _, h₉, rfl⟩

/-- A record of which no row can be made lacks a key, and nothing else is raised. -/
theorem fromDict_of_not_readable {d : Fields F} (h : ¬ Readable d) :
    AuditRow.fromDict d = .error .keyError := by
  cases hrow : AuditRow.fromDict d with
  | ok row => exact absurd (fromDict_eq_ok.mp hrow).1 h
  | error e =>
    simp only [AuditRow.fromDict, bind_eq_error, item_eq_error, pure, Except.pure, reduceCtorEq,
      and_false, exists_false, or_false] at hrow
    have he : e = .keyError := by tauto
    rw [he]

theorem isSome_valueAt {fields : Fields F} {k : List CodeUnit} :
    (valueAt fields k).isSome ↔ k ∈ fields.map Prod.fst := by
  induction fields with
  | nil => simp [valueAt_nil]
  | cons f fields ih =>
    rw [valueAt_cons, List.map_cons, List.mem_cons, ← ih]
    split_ifs with h
    · simp [h]
    · simp [Ne.symm h]

/-- A row of the record's fields but for the delivery block. -/
def SameButDelivery (row row' : AuditRow F) : Prop := row' = { row with delivery := row'.delivery }

theorem keys_toDict {d : Fields F} {row : AuditRow F} (h : SameButDelivery (rowOf d) row) :
    row.toDict.map Prod.fst = (writtenKeys d).map name := by
  have hdiff : row.diff = getOrNone d "diff" := by rw [h]; rfl
  rw [AuditRow.toDict, AuditRow.edit, writtenKeys, hdiff]
  cases getOrNone d "diff" <;> rfl

/-- What is written at a key is what the record has there. -/
theorem get?_toDict {d : Fields F} {row : AuditRow F} (h : SameButDelivery (rowOf d) row)
    {key : String} (hkey : key ∈ writtenKeys d) {v : Value F} (hv : get? d key = some v)
    (hdelivery : key = "delivery" → row.delivery = (rowOf d).delivery) :
    get? row.toDict key = some v := by
  have hor := getOrNone_of_get? hv
  have hrow : row = { rowOf d with delivery := row.delivery } := h
  generalize hblock : row.delivery = block at hrow hdelivery
  subst hrow
  simp only [writtenKeys, requiredKeys, List.mem_append, List.mem_cons, List.not_mem_nil,
    or_false] at hkey
  rcases hkey with (rfl | rfl | rfl | rfl | rfl | rfl | rfl | rfl | rfl) | rfl | hedit
  case inr.inl =>
    simp +decide [AuditRow.toDict, hdelivery rfl, rowOf, hor]
  case inr.inr =>
    -- The keys of a voice edit are written where the record has a `diff`.
    cases hdiff : getOrNone d "diff" with
    | null =>
      rw [hdiff] at hedit
      cases hedit
    | _ =>
      simp only [hdiff, List.mem_cons, List.not_mem_nil, or_false] at hedit
      rcases hedit with rfl | rfl
      · simp +decide [AuditRow.toDict, AuditRow.edit, rowOf, hdiff, ← hor]
      · simp +decide [AuditRow.toDict, AuditRow.edit, rowOf, hdiff, hv]
  all_goals simp +decide [AuditRow.toDict, rowOf, hor]

end Emission

/-! ## What a line holds -/

section Encoding

variable {F : Type}

/-- What the line holds that `_dumps` with `nonfinite="null"` writes, none where it raises. -/
def encoded (floats : Floats F) (limits : Limits) (fields : Fields F) : Option (Fields F) :=
  if (dumps floats limits.dump (.obj fields)).isSome then some fields
  else
    match nullNonfinite floats limits.walk (.obj fields) with
    | some (.obj fields') =>
      if (dumps floats limits.dump (.obj fields')).isSome then some fields' else none
    | _ => none

variable {floats : Floats F} {limits : Limits}

open Companion.Consolidation.Entries (made_arr made_obj made_float)

/-- A copy is the value itself exactly where no float in it is infinite or not a number. -/
theorem nullNonfinite_eq_iff {d : ℕ} {v w : Value F} (h : nullNonfinite floats d v = some w) :
    w = v ↔ AllFinite floats v := by
  induction d generalizing v w with
  | zero => cases h
  | succ d ih =>
    cases v with
    | null => cases h; exact iff_of_true rfl .null
    | bool b => cases h; exact iff_of_true rfl (.bool b)
    | int n => cases h; exact iff_of_true rfl (.int trivial)
    | str s => cases h; exact iff_of_true rfl (.str s)
    | float x =>
      cases h
      rw [AllFinite, made_float]
      split_ifs with hx
      · exact iff_of_true rfl hx
      · exact iff_of_false (by rintro ⟨⟩) hx
    | arr items =>
      obtain ⟨ws, hws, rfl⟩ := Option.map_eq_some_iff.mp h
      rw [Value.arr.injEq, AllFinite, made_arr]
      have hall := mapM_some hws
      clear hws h
      induction hall with
      | nil => simp
      | cons hcopy _ ihs =>
        rw [List.cons.injEq, List.forall_mem_cons]
        exact and_congr (ih hcopy) ihs
    | obj fields =>
      obtain ⟨ws, hws, rfl⟩ := Option.map_eq_some_iff.mp h
      rw [Value.obj.injEq, AllFinite, made_obj]
      have hall := mapM_some hws
      clear hws h
      induction hall with
      | nil => simp
      | @cons g f _ _ hcopy _ ihs =>
        obtain ⟨w, hw, rfl⟩ := Option.map_eq_some_iff.mp hcopy
        have hf : (f.1, w) = f ↔ w = f.2 := by rw [Prod.ext_iff]; simp
        rw [List.cons.injEq, List.forall_mem_cons, hf]
        exact and_congr (ih hw) ihs

/-- A value that is written as it is has no float to copy. -/
theorem nullNonfinite_of_dumps {d : ℕ} {v : Value F} (h : (dumps floats d v).isSome) :
    nullNonfinite floats (d + 1) v = some v := by
  have hmap : ∀ {β : Type} {f : β → Option Text} {g : β → Option β} {bs : List β},
      (∀ b, (f b).isSome → g b = some b) → (bs.mapM f).isSome → bs.mapM g = some bs := by
    intro β f g bs hfg hbs
    induction bs with
    | nil => rfl
    | cons b bs ih =>
      rw [Companion.Consolidation.Entries.isSome_mapM, List.forall_mem_cons,
        ← Companion.Consolidation.Entries.isSome_mapM] at hbs
      rw [List.mapM_cons, hfg b hbs.1, ih hbs.2]
      rfl
  induction d generalizing v with
  | zero =>
    cases v with
    | arr items => cases h
    | obj fields => cases h
    | float x =>
      rw [dumps, Option.isSome_map] at h
      rw [nullNonfinite, if_pos h]
    | _ => rfl
  | succ d ih =>
    cases v with
    | arr items =>
      rw [dumps, Option.isSome_map] at h
      rw [nullNonfinite, hmap (fun v hv => ih hv) h]
      rfl
    | obj fields =>
      rw [dumps, Option.isSome_map] at h
      rw [nullNonfinite, hmap (fun f hf => ?_) h]
      · rfl
      · rw [Option.isSome_map] at hf
        rw [ih hf]
        rfl
    | float x =>
      rw [dumps, Option.isSome_map] at h
      rw [nullNonfinite, if_pos h]
    | _ => rfl

/-- What a line holds is a copy of what is written. -/
theorem exists_copy_of_encoded {fields fields' : Fields F}
    (h : encoded floats limits fields = some fields') :
    ∃ d, nullNonfinite floats d (.obj fields) = some (.obj fields') := by
  rw [encoded] at h
  split_ifs at h with hdumps
  · obtain rfl : fields = fields' := Option.some.inj h
    exact ⟨_, nullNonfinite_of_dumps hdumps⟩
  · cases hcopy : nullNonfinite floats limits.walk (.obj fields) with
    | none => rw [hcopy] at h; cases h
    | some w =>
      rw [hcopy] at h
      cases w with
      | obj fields'' =>
        simp only [Option.ite_none_right_eq_some, Option.some.injEq] at h
        exact ⟨_, h.2 ▸ hcopy⟩
      | _ => cases h

/-- The fields of a copy are copies. -/
theorem valueAt_copy {d : ℕ} {fields : Fields F} {w : Value F}
    (h : nullNonfinite floats d (.obj fields) = some w) :
    ∃ fields' e, w = .obj fields' ∧ ∀ k, (valueAt fields' k).isSome = (valueAt fields k).isSome ∧
      ∀ v, valueAt fields k = some v →
        ∃ v', valueAt fields' k = some v' ∧ nullNonfinite floats e v = some v' := by
  cases d with
  | zero => cases h
  | succ e =>
    obtain ⟨ws, hws, rfl⟩ := Option.map_eq_some_iff.mp h
    refine ⟨ws, e, rfl, fun k => ?_⟩
    have hall := mapM_some hws
    clear hws h
    induction hall with
    | nil => exact ⟨rfl, nofun⟩
    | @cons g f _ _ hcopy _ ih =>
      obtain ⟨w, hw, rfl⟩ := Option.map_eq_some_iff.mp hcopy
      rw [valueAt_cons, valueAt_cons]
      by_cases hf : f.1 = k
      · rw [if_pos hf, if_pos hf]
        refine ⟨rfl, ?_⟩
        rintro v ⟨⟩
        exact ⟨w, rfl, hw⟩
      · rw [if_neg hf, if_neg hf]
        exact ih

/-- The items of a copy are copies. -/
theorem mem_copy {d : ℕ} {items : List (Value F)} {w : Value F}
    (h : nullNonfinite floats d (.arr items) = some w) :
    ∃ items' e, w = .arr items' ∧
      ∀ v ∈ items, ∃ v' ∈ items', nullNonfinite floats e v = some v' := by
  cases d with
  | zero => cases h
  | succ e =>
    obtain ⟨ws, hws, rfl⟩ := Option.map_eq_some_iff.mp h
    refine ⟨ws, e, rfl, fun v hv => ?_⟩
    have hall := (mapM_some hws).flip
    obtain ⟨i, hi, rfl⟩ := List.mem_iff_getElem.mp hv
    have hlen := hall.length_eq
    exact ⟨ws[i], List.getElem_mem _, List.Forall₂.get hall hi (by omega)⟩

theorem copy_str {d : ℕ} {s : List CodeUnit} {w : Value F}
    (h : nullNonfinite floats d (.str s) = some w) : w = .str s := by
  cases d with
  | zero => cases h
  | succ d => exact (Option.some.inj h).symm

end Encoding

end Companion.Initiate.AuditRewrite

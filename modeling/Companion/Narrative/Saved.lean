import Companion.Initiate.Candidates
import Companion.JsonIndent
import Companion.Narrative.Arcs
import Mathlib

/-!
# The saved state of the arcs

`arcs_state.json`: what `save_state` of `brain/narrative_memory/state.py` writes of a state, and
what `load_or_recover` makes of it. What was saved is loaded as it was (`loadState_saveState`).

`_arc_from_dict` takes values of any type. Here a value that is not of its field's type is none, as
no file that was saved has one. The text of an instant is a parameter, and a float is a number that
has a text.
-/

namespace Companion.Narrative

open Companion.Initiate.Review (name get? get?_cons)
open Companion.JsonText (Value Fields CodeUnit Floats Distinct dumpsIndent loads loads_dumpsIndent)
open Companion.Memory (Text Instant)

/-- The text of an instant, which is read as the instant. -/
structure Stamps where
  /-- `isoformat` -/
  iso : Instant → Text
  read : Text → Option Instant
  read_iso : ∀ t, read (iso t) = some t

/-! ## Strings -/

/-- The code units of a string. -/
def codeUnits (t : Text) : List CodeUnit := (Utf16.encode t).map (Fin.ofNat _)

/-- The string of some code units. -/
def ofCodeUnits (us : List CodeUnit) : Text := Utf16.decode (us.map Fin.val)

theorem lt_of_mem_units {c : Char} {u : ℕ} (h : u ∈ Utf16.units c) : u < 0x10000 := by
  have hvalid := Utf16.toNat_valid c
  unfold Utf16.units at h
  split_ifs at h with hc
  · rw [List.mem_singleton.mp h]
    exact hc
  · simp only [List.mem_cons, List.not_mem_nil, or_false] at h
    omega

theorem ofCodeUnits_codeUnits (t : Text) : ofCodeUnits (codeUnits t) = t := by
  have hval : ((Utf16.encode t).map (Fin.ofNat 0x10000)).map Fin.val = Utf16.encode t := by
    rw [List.map_map]
    refine (List.map_congr_left fun u hu => ?_).trans (List.map_id _)
    obtain ⟨c, -, hc⟩ := List.mem_flatMap.mp hu
    exact Nat.mod_eq_of_lt (lt_of_mem_units hc)
  rw [ofCodeUnits, codeUnits, hval, Utf16.decode_encode]

theorem codeUnits_injective : Function.Injective codeUnits :=
  Function.LeftInverse.injective ofCodeUnits_codeUnits

/-! ## What is written -/

/-- A string as a value. -/
def ofText (t : Text) : Value ℚ := .str (codeUnits t)

/-- None is null. -/
def ofOption {α : Type} (f : α → Value ℚ) : Option α → Value ℚ
  | none => .null
  | some a => f a

def statusText : ArcStatus → Text
  | .opened => "open".toList
  | .closed => "closed".toList

section Written

variable (stamps : Stamps)

def ofInstant (t : Instant) : Value ℚ := ofText (stamps.iso t)

/-- A member in `_arc_to_dict`. -/
def memberToDict (k : ArcMember) : Value ℚ :=
  .obj [(name "memory_id", ofText k.memoryId), (name "joined_at_iso", ofInstant stamps k.joinedAt),
    (name "lived_age_at_join", .float k.livedAgeAtJoin),
    (name "salience_at_join", .float k.salienceAtJoin)]

/-- `_arc_to_dict` -/
def arcToDict (arc : Arc) : Fields ℚ :=
  [(name "id", ofText arc.id), (name "state", ofText (statusText arc.state)),
    (name "seed_anchor_type", ofText arc.seedAnchorType),
    (name "seed_anchor_ref", ofText arc.seedAnchorRef),
    (name "seed_memory_ids", .arr (arc.seedMemoryIds.map ofText)), (name "title", ofText arc.title),
    (name "opened_at_iso", ofInstant stamps arc.openedAt),
    (name "lived_age_at_open", .float arc.livedAgeAtOpen),
    (name "last_extended_at_iso", ofInstant stamps arc.lastExtendedAt),
    (name "closed_at_iso", ofOption (ofInstant stamps) arc.closedAt),
    (name "lived_age_at_close", ofOption .float arc.livedAgeAtClose),
    (name "members", .arr (arc.members.map (memberToDict stamps))),
    (name "max_member_emotion_normalised", .float arc.maxMemberEmotionNormalised),
    (name "dominant_non_grief_emotion", ofOption (fun dom => .arr [ofText dom.1, .float dom.2])
      arc.dominantNonGriefEmotion)]

/-- The payload of `save_state`. -/
def stateToDict (s : ArcsState) : Fields ℚ :=
  [(name "open",
      .obj (s.openArcs.entries.map fun e => (codeUnits e.1, .obj (arcToDict stamps e.2)))),
    (name "recently_closed", .arr (s.recentlyClosed.map fun arc => .obj (arcToDict stamps arc))),
    (name "last_pass_ts_iso", ofOption (ofInstant stamps) s.lastPassTs)]

/-- The file that `save_state` writes, none where `write_json` raises. -/
def saveState (floats : Floats ℚ) (depth : ℕ) (s : ArcsState) : Option Text :=
  (dumpsIndent floats depth 0 (.obj (stateToDict stamps s))).map (· ++ ['\n'])

end Written

/-! ## What is read -/

def asText : Value ℚ → Option Text
  | .str us => some (ofCodeUnits us)
  | _ => none

def asNumber : Value ℚ → Option ℚ
  | .float q => some q
  | _ => none

def asList : Value ℚ → Option (List (Value ℚ))
  | .arr items => some items
  | _ => none

/-- The items of a list, each read. -/
def asItems {α : Type} (f : Value ℚ → Option α) (v : Value ℚ) : Option (List α) :=
  (asList v).bind fun items => items.mapM f

def asDict : Value ℚ → Option (Fields ℚ)
  | .obj fields => some fields
  | _ => none

/-- What a value is read as, where it is not null. -/
def orNone {α : Type} (f : Value ℚ → Option α) : Value ℚ → Option (Option α)
  | .null => some none
  | v => (f v).map some

def asStatus (v : Value ℚ) : Option ArcStatus :=
  (asText v).bind fun t =>
    if t = statusText .opened then some .opened
    else if t = statusText .closed then some .closed
    else none

/-- `raw_dom` of `_arc_from_dict`: a list of two, or nothing. -/
def asDominant : Value ℚ → Option (Option (Text × ℚ))
  | .arr [emotion, strength] => do return some (← asText emotion, ← asNumber strength)
  | _ => some none

section Read

variable (stamps : Stamps)

def asInstant (v : Value ℚ) : Option Instant := (asText v).bind stamps.read

/-- A member in `_arc_from_dict`. -/
def memberFromDict (v : Value ℚ) : Option ArcMember := do
  let d ← asDict v
  return {
    memoryId := ← (get? d "memory_id").bind asText
    joinedAt := ← (get? d "joined_at_iso").bind (asInstant stamps)
    livedAgeAtJoin := ← (get? d "lived_age_at_join").bind asNumber
    salienceAtJoin := ← (get? d "salience_at_join").bind asNumber }

/-- `_arc_from_dict`. An emotion that is missing, null or 0 is 0. -/
def arcFromDict (v : Value ℚ) : Option Arc := do
  let d ← asDict v
  return {
    id := ← (get? d "id").bind asText
    state := ← (get? d "state").bind asStatus
    seedAnchorType := ← (get? d "seed_anchor_type").bind asText
    seedAnchorRef := ← (get? d "seed_anchor_ref").bind asText
    seedMemoryIds := ← (get? d "seed_memory_ids").bind (asItems asText)
    title := ← (get? d "title").bind asText
    openedAt := ← (get? d "opened_at_iso").bind (asInstant stamps)
    livedAgeAtOpen := ← (get? d "lived_age_at_open").bind asNumber
    lastExtendedAt := ← (get? d "last_extended_at_iso").bind (asInstant stamps)
    closedAt := ← orNone (asInstant stamps) ((get? d "closed_at_iso").getD .null)
    livedAgeAtClose := ← orNone asNumber ((get? d "lived_age_at_close").getD .null)
    members := ← asItems (memberFromDict stamps) ((get? d "members").getD (.arr []))
    maxMemberEmotionNormalised :=
      (← orNone asNumber ((get? d "max_member_emotion_normalised").getD .null)).getD 0
    dominantNonGriefEmotion := ← asDominant ((get? d "dominant_non_grief_emotion").getD .null) }

/-- The state that `load_or_recover` makes of an object. -/
def stateFromDict (d : Fields ℚ) : Option ArcsState := do
  let openArcs ← asDict ((get? d "open").getD (.obj []))
  let closed ← asItems (arcFromDict stamps) ((get? d "recently_closed").getD (.arr []))
  let entries ← openArcs.mapM fun e =>
    (arcFromDict stamps e.2).map fun arc => (ofCodeUnits e.1, arc)
  return {
    openArcs := Dict.ofList entries
    recentlyClosed := closed
    lastPassTs := ← orNone (asInstant stamps) ((get? d "last_pass_ts_iso").getD .null) }

/-- The state that a file holds, none where it is corrupt. -/
def loadState (floats : Floats ℚ) (depth : ℕ) (file : Text) : Option ArcsState :=
  match loads floats depth file with
  | .ok v => (asDict v).bind (stateFromDict stamps)
  | .error _ => none

end Read

/-! ## The round trip -/

section RoundTrip

variable {stamps : Stamps}

@[simp] theorem asText_ofText (t : Text) : asText (ofText t) = some t :=
  congrArg some (ofCodeUnits_codeUnits t)

@[simp] theorem asInstant_ofInstant (t : Instant) :
    asInstant stamps (ofInstant stamps t) = some t := by
  rw [asInstant, ofInstant, asText_ofText, Option.bind_some, stamps.read_iso]

@[simp] theorem asNumber_float (q : ℚ) : asNumber (.float q) = some q := rfl

@[simp] theorem asList_arr (items : List (Value ℚ)) : asList (.arr items) = some items := rfl

@[simp] theorem asDict_obj (fields : Fields ℚ) : asDict (.obj fields) = some fields := rfl

@[simp] theorem asStatus_statusText (s : ArcStatus) :
    asStatus (ofText (statusText s)) = some s := by
  rw [asStatus, asText_ofText]
  cases s <;> rfl

@[simp] theorem asDominant_ofOption (dom : Option (Text × ℚ)) :
    asDominant (ofOption (fun dom => .arr [ofText dom.1, .float dom.2]) dom) = some dom := by
  cases dom with
  | none => rfl
  | some dom => simp [ofOption, asDominant]

/-- What is not written as null is read where it is there. -/
theorem orNone_ofOption {α : Type} {f : α → Value ℚ} {g : Value ℚ → Option α}
    (hnull : ∀ a, f a ≠ .null) (hread : ∀ a, g (f a) = some a) (o : Option α) :
    orNone g (ofOption f o) = some o := by
  cases o with
  | none => rfl
  | some a =>
    have hvalue : orNone g (f a) = (g (f a)).map some := by
      cases hf : f a with
      | null => exact absurd hf (hnull a)
      | _ => rfl
    rw [ofOption, hvalue, hread]
    rfl

theorem mapM_map {α β γ : Type} {f : α → β} {g : β → Option γ} {h : α → γ}
    (hfg : ∀ a, g (f a) = some (h a)) (as : List α) : (as.map f).mapM g = some (as.map h) := by
  induction as with
  | nil => rfl
  | cons a as ih =>
    rw [List.map_cons, List.mapM_cons, hfg, ih]
    rfl

theorem asItems_map {α : Type} {f : α → Value ℚ} {g : Value ℚ → Option α}
    (hread : ∀ a, g (f a) = some a) (as : List α) : asItems g (.arr (as.map f)) = some as := by
  rw [asItems, asList_arr, Option.bind_some, mapM_map (h := id) hread, List.map_id]

theorem memberFromDict_memberToDict (k : ArcMember) :
    memberFromDict stamps (memberToDict stamps k) = some k := by
  simp +decide [memberFromDict, memberToDict]

/-- What is at a key that is there once. -/
theorem get?_of_getElem? {fields : Fields ℚ} (hnodup : (fields.map Prod.fst).Nodup) {i : ℕ}
    {key : String} {v : Value ℚ} (h : fields[i]? = some (name key, v)) :
    get? fields key = some v := by
  induction fields generalizing i with
  | nil => cases h
  | cons f fields ih =>
    obtain ⟨hnot, hnodup⟩ := List.nodup_cons.mp hnodup
    rw [get?_cons]
    cases i with
    | zero =>
      obtain rfl := Option.some.inj h
      exact if_pos rfl
    | succ i =>
      have hmem : (name key, v) ∈ fields := List.mem_of_getElem? h
      have hne : f.1 ≠ name key := fun heq => hnot (by rw [heq]; exact List.mem_map_of_mem hmem)
      rw [if_neg hne]
      exact ih hnodup h

theorem nodup_arcToDict (arc : Arc) : ((arcToDict stamps arc).map Prod.fst).Nodup := by
  simp +decide [arcToDict]

/-- An arc that is written is read as it was. -/
theorem arcFromDict_arcToDict (arc : Arc) :
    arcFromDict stamps (.obj (arcToDict stamps arc)) = some arc := by
  have hget : ∀ (i : ℕ) key v, (arcToDict stamps arc)[i]? = some (name key, v) →
      get? (arcToDict stamps arc) key = some v :=
    fun i key v h => get?_of_getElem? (nodup_arcToDict arc) h
  have htext : ∀ (i : ℕ) key t, (arcToDict stamps arc)[i]? = some (name key, ofText t) →
      (get? (arcToDict stamps arc) key).bind asText = some t := by
    intro i key t h
    rw [hget i key _ h, Option.bind_some, asText_ofText]
  have hinstant : ∀ (i : ℕ) key t,
      (arcToDict stamps arc)[i]? = some (name key, ofInstant stamps t) →
      (get? (arcToDict stamps arc) key).bind (asInstant stamps) = some t := by
    intro i key t h
    rw [hget i key _ h, Option.bind_some, asInstant_ofInstant]
  have hstate : (get? (arcToDict stamps arc) "state").bind asStatus = some arc.state := by
    rw [hget 1 "state" _ rfl, Option.bind_some, asStatus_statusText]
  have hseeds : (get? (arcToDict stamps arc) "seed_memory_ids").bind (asItems asText) =
      some arc.seedMemoryIds := by
    rw [hget 4 "seed_memory_ids" _ rfl, Option.bind_some, asItems_map asText_ofText]
  have hage : (get? (arcToDict stamps arc) "lived_age_at_open").bind asNumber =
      some arc.livedAgeAtOpen := by
    rw [hget 7 "lived_age_at_open" _ rfl]
    rfl
  -- The fields that `get` reads with a default are there as well.
  have hclosed : orNone (asInstant stamps)
      ((get? (arcToDict stamps arc) "closed_at_iso").getD .null) = some arc.closedAt := by
    rw [hget 9 "closed_at_iso" _ rfl, Option.getD_some,
      orNone_ofOption (f := ofInstant stamps) (fun _ => nofun) asInstant_ofInstant]
  have hageClosed : orNone asNumber ((get? (arcToDict stamps arc)
      "lived_age_at_close").getD .null) = some arc.livedAgeAtClose := by
    rw [hget 10 "lived_age_at_close" _ rfl, Option.getD_some,
      orNone_ofOption (f := Value.float) (fun _ => nofun) asNumber_float]
  have hmembers : asItems (memberFromDict stamps)
      ((get? (arcToDict stamps arc) "members").getD (.arr [])) = some arc.members := by
    rw [hget 11 "members" _ rfl, Option.getD_some, asItems_map memberFromDict_memberToDict]
  have hemotion : orNone asNumber ((get? (arcToDict stamps arc)
      "max_member_emotion_normalised").getD .null) =
      some (some arc.maxMemberEmotionNormalised) := by
    rw [hget 12 "max_member_emotion_normalised" _ rfl]
    rfl
  have hdominant : asDominant ((get? (arcToDict stamps arc)
      "dominant_non_grief_emotion").getD .null) = some arc.dominantNonGriefEmotion := by
    rw [hget 13 "dominant_non_grief_emotion" _ rfl, Option.getD_some, asDominant_ofOption]
  rw [arcFromDict, asDict_obj, Option.bind_eq_bind, Option.bind_some, htext 0 "id" _ rfl, hstate,
    htext 2 "seed_anchor_type" _ rfl, htext 3 "seed_anchor_ref" _ rfl, hseeds,
    htext 5 "title" _ rfl, hinstant 6 "opened_at_iso" _ rfl, hage,
    hinstant 8 "last_extended_at_iso" _ rfl, hclosed, hageClosed, hmembers, hemotion, hdominant]
  rfl

/-- A state that is written is read as it was, and is no replay. -/
theorem stateFromDict_stateToDict (s : ArcsState) :
    stateFromDict stamps (stateToDict stamps s) = some { s with replayed := false } := by
  have hclosed := asItems_map (@arcFromDict_arcToDict stamps) s.recentlyClosed
  have hlast := orNone_ofOption (f := ofInstant stamps) (fun _ => nofun) asInstant_ofInstant
    s.lastPassTs
  have hopen : (s.openArcs.entries.map fun e => (codeUnits e.1, .obj (arcToDict stamps e.2))).mapM
      (fun e => (arcFromDict stamps e.2).map fun arc => (ofCodeUnits e.1, arc)) =
      some s.openArcs.entries := by
    have hentry := mapM_map (h := id) 
      (f := fun e : Text × Arc => (codeUnits e.1, Value.obj (arcToDict stamps e.2)))
      (g := fun e => (arcFromDict stamps e.2).map fun arc => (ofCodeUnits e.1, arc))
      (fun e => by rw [arcFromDict_arcToDict, ofCodeUnits_codeUnits]; rfl) s.openArcs.entries
    rwa [List.map_id] at hentry
  simp +decide [stateFromDict, stateToDict, hopen, hclosed, hlast, Dict.ofList_entries]

/-! ### The file -/

theorem distinct_ofText (t : Text) : Distinct (ofText t) := .str _

theorem distinct_ofOption {α : Type} {f : α → Value ℚ} (h : ∀ a, Distinct (f a)) (o : Option α) :
    Distinct (ofOption f o) := by
  cases o with
  | none => exact .null
  | some a => exact h a

theorem distinct_map {α : Type} {f : α → Value ℚ} (h : ∀ a, Distinct (f a)) (as : List α) :
    Distinct (.arr (as.map f)) :=
  .arr (List.forall_mem_map.mpr fun a _ => h a)

theorem distinct_memberToDict (k : ArcMember) : Distinct (memberToDict stamps k) := by
  refine .obj (by simp +decide) ?_
  simp only [List.forall_mem_cons]
  exact ⟨.str _, .str _, .float _, .float _, nofun⟩

theorem distinct_arcToDict (arc : Arc) : Distinct (.obj (arcToDict stamps arc)) := by
  refine .obj (nodup_arcToDict arc) ?_
  simp only [arcToDict, List.forall_mem_cons]
  refine ⟨.str _, .str _, .str _, .str _, distinct_map distinct_ofText _, .str _, .str _, .float _,
    .str _, distinct_ofOption (fun _ => .str _) _, distinct_ofOption .float _,
    distinct_map distinct_memberToDict _, .float _, distinct_ofOption (fun dom => ?_) _, nofun⟩
  exact .arr (by simp [distinct_ofText, Distinct.float])

theorem distinct_stateToDict (s : ArcsState) : Distinct (.obj (stateToDict stamps s)) := by
  have hkeys : ((s.openArcs.entries.map fun e =>
      (codeUnits e.1, Value.obj (arcToDict stamps e.2))).map Prod.fst).Nodup := by
    rw [List.map_map]
    have hfst : (Prod.fst ∘ fun e : Text × Arc =>
        (codeUnits e.1, Value.obj (arcToDict stamps e.2))) =
        codeUnits ∘ Prod.fst := rfl
    rw [hfst, ← List.map_map]
    exact s.openArcs.nodup.map codeUnits_injective
  refine .obj (by simp +decide [stateToDict]) ?_
  simp only [stateToDict, List.forall_mem_cons]
  exact ⟨.obj hkeys (List.forall_mem_map.mpr fun e _ => distinct_arcToDict e.2),
    distinct_map distinct_arcToDict _, distinct_ofOption (fun _ => .str _) _, nofun⟩

/-- A state that is saved is loaded as it was. -/
theorem loadState_saveState {floats : Floats ℚ} {depth : ℕ} {s : ArcsState} {file : Text}
    (h : saveState stamps floats depth s = some file) (hs : s.replayed = false) :
    loadState stamps floats depth file = some s := by
  obtain ⟨t, ht, rfl⟩ := Option.map_eq_some_iff.mp h
  rw [loadState, loads_dumpsIndent (distinct_stateToDict s) ht]
  simp only [asDict_obj, Option.bind_some, stateFromDict_stateToDict]
  rw [← hs]

end RoundTrip

end Companion.Narrative

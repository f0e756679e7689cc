import Companion.JsonText

/-!
# Indented JSON

The text of `json.dumps` with an indent of two spaces, which has each item of an array or an object
on a line of its own, and what `json.loads` makes of it (`loads_dumpsIndent`).

After an item there may be a blank where the text without an indent has a comma or an end, so that
an item is read here before whatever is no part of a number (`ReadsBefore`).
-/

namespace Companion.JsonText

/-- The start of a line at a level. -/
def lineBreak (level : ℕ) : Text := '\n' :: .replicate (2 * level) ' '

/-- The items between brackets, each on a line of its own. -/
def bracketed (level : ℕ) (start close : Char) (ts : List Text) : Text :=
  if ts.isEmpty then [start, close]
  else start :: (lineBreak (level + 1) ++
    (spaced (lineBreak (level + 1)) ts ++ (lineBreak level ++ [close])))

/-- `json.dumps(value, indent=2, allow_nan=False)` at a level, with the depth that is left. -/
def dumpsIndent {F : Type} (floats : Floats F) : ℕ → ℕ → Value F → Option Text
  | d + 1, level, .arr items =>
    (items.mapM (dumpsIndent floats d (level + 1))).map (bracketed level '[' ']')
  | d + 1, level, .obj fields =>
    (fields.mapM fun f => (dumpsIndent floats d (level + 1) f.2).map (memberText f.1)).map
      (bracketed level '{' '}')
  | _, _, v => dumps floats 0 v

/-! ## Sequences -/

section Sequences

variable {α : Type} {item : Text → Result α} {close : Char} {gap gap' : Text}

/-- The text is read as the value, before whatever is no part of a number. -/
def ReadsBefore (item : Text → Result α) (t : Text) (v : α) : Prop :=
  ∀ rest, Stops Numeral.isPart rest → item (t ++ rest) = .ok (v, rest)

theorem stops_cons {p : Char → Bool} {c : Char} (h : p c = false) (rest : Text) :
    Stops p (c :: rest) := fun c' hc' => by rwa [← Option.some.inj hc']

theorem isBlank_lineBreak (level : ℕ) : ∀ c ∈ lineBreak level, isBlank c := by
  intro c hc
  rcases List.mem_cons.mp hc with rfl | hc
  · rfl
  · rw [List.eq_of_mem_replicate hc]
    rfl

theorem stops_lineBreak (level : ℕ) (rest : Text) : Stops Numeral.isPart (lineBreak level ++ rest) :=
  stops_cons (by decide) _

theorem skip_blank (hgap : ∀ c ∈ gap, isBlank c) (rest : Text) : skip (gap ++ rest) = skip rest := by
  rw [skip, skip, List.dropWhile_append_of_pos hgap]

/-- The items are read one by one: a comma and a gap are before the next one, and a gap is before
the end. -/
theorem sequence_lines (hgap : ∀ c ∈ gap, isBlank c) (hgap' : ∀ c ∈ gap', isBlank c)
    (hstops : ∀ rest, Stops Numeral.isPart (gap' ++ rest)) (hclose : close = ']' ∨ close = '}')
    {ts : List Text} {vs : List α} (h : List.Forall₂ (ReadsBefore item) ts vs)
    (hsolid : ∀ t ∈ ts, Solid t) (hne : ts ≠ []) {k : ℕ} (hk : ts.length ≤ k) (rest : Text) :
    sequence item close k (spaced gap ts ++ (gap' ++ close :: rest)) = .ok (vs, rest) := by
  have hblank : skip (gap' ++ close :: rest) = close :: rest := by
    rw [skip_blank hgap']
    refine skip_of_stops (stops_cons ?_ rest)
    rcases hclose with rfl | rfl <;> decide
  have hcomma : ',' ≠ close := by rcases hclose with rfl | rfl <;> decide
  induction h generalizing k with
  | nil => exact absurd rfl hne
  | @cons t v ts vs hread hrest ih =>
    obtain ⟨k, rfl⟩ : ∃ k', k = k' + 1 := Nat.exists_eq_succ_of_ne_zero (by
      rw [List.length_cons] at hk
      omega)
    cases hrest with
    | nil =>
      have hitem := hread (gap' ++ close :: rest) (hstops _)
      have hspaced : spaced gap [t] = t := List.append_nil t
      rw [hspaced, sequence, hitem]
      simp only [hblank, if_true]
    | @cons t' v' ts vs hread' hrest' =>
      have hnext := ih (fun t ht => hsolid t (List.mem_cons_of_mem _ ht)) (List.cons_ne_nil _ _)
        (Nat.le_of_succ_le_succ hk)
      have hsolid' : Solid t' := hsolid t' (List.mem_cons_of_mem _ List.mem_cons_self)
      have htail : skip (gap ++ (spaced gap (t' :: ts) ++ (gap' ++ close :: rest))) =
          spaced gap (t' :: ts) ++ (gap' ++ close :: rest) := by
        rw [spaced, List.append_assoc, hsolid'.skip_gap hgap]
      have hitem := hread (',' :: (gap ++ (spaced gap (t' :: ts) ++ (gap' ++ close :: rest))))
        (stops_cons (by decide) _)
      have hskip : skip (',' :: (gap ++ (spaced gap (t' :: ts) ++ (gap' ++ close :: rest)))) =
          ',' :: (gap ++ (spaced gap (t' :: ts) ++ (gap' ++ close :: rest))) := rfl
      rw [spaced_cons_cons, List.append_assoc, List.cons_append, List.append_assoc, sequence, hitem]
      simp only [hskip, if_neg hcomma, if_true, htail, hnext]
      rfl

theorem delimited_bracketed (hclose : close = ']' ∨ close = '}') {ts : List Text} {vs : List α}
    (h : List.Forall₂ (ReadsBefore item) ts vs) (hsolid : ∀ t ∈ ts, Solid t) (level : ℕ)
    (start : Char) (rest : Text) :
    ∃ body, bracketed level start close ts ++ rest = start :: body ∧
      delimited item close body = .ok (vs, rest) := by
  cases hts : ts with
  | nil =>
    subst hts
    obtain rfl := List.forall₂_nil_left_iff.mp h
    refine ⟨close :: rest, rfl, ?_⟩
    rcases hclose with rfl | rfl <;> rfl
  | cons t ts' =>
    rw [← hts]
    have hne : ts ≠ [] := by simp [hts]
    have ht : Solid t := hsolid t (by simp [hts])
    refine ⟨lineBreak (level + 1) ++ (spaced (lineBreak (level + 1)) ts ++
      (lineBreak level ++ close :: rest)), ?_, ?_⟩
    · rw [bracketed, if_neg (by simpa using hne)]
      simp only [List.cons_append, List.append_assoc, List.nil_append]
    · have hskip : skip (lineBreak (level + 1) ++ (spaced (lineBreak (level + 1)) ts ++
          (lineBreak level ++ close :: rest))) =
          spaced (lineBreak (level + 1)) ts ++ (lineBreak level ++ close :: rest) := by
        rw [hts, spaced, List.append_assoc, ht.skip_gap (isBlank_lineBreak _)]
      have hhead : (spaced (lineBreak (level + 1)) ts ++ (lineBreak level ++ close :: rest)).head? ≠
          some close := by
        obtain ⟨c, t, rfl, -, hbracket, hbrace⟩ := ht
        intro heq
        rw [hts] at heq
        have hc : c = close := Option.some.inj heq
        rcases hclose with rfl | rfl <;> contradiction
      have hlength : ts.length ≤ (spaced (lineBreak (level + 1)) ts).length :=
        length_le_length_spaced hsolid
      rw [delimited, hskip, if_neg hhead]
      refine sequence_lines (isBlank_lineBreak _) (isBlank_lineBreak _) (stops_lineBreak _) hclose h
        hsolid hne ?_ rest
      rw [List.length_append]
      omega

end Sequences

/-! ## Values -/

section Values

variable {F : Type} {floats : Floats F}

theorem readsBefore_text {object array : Text → Result (Value F)} {v : Value F} {n : Numeral}
    (h : IsNumber floats v n) : ReadsBefore (scanOnce floats object array) n.text v := by
  intro rest hstops
  obtain ⟨hvalid, -, hvalue⟩ := h
  obtain ⟨c, t, ht, hc, hminus⟩ := head_of_text hvalid
  have hscan : scanOnce floats object array (n.text ++ rest) =
      readNumber floats (n.text ++ rest) := by
    rw [ht]
    refine scanOnce_number (fun c' hc' => by rwa [← Option.some.inj hc']) fun u heq => ?_
    rw [List.cons_append] at heq
    obtain ⟨rfl, htail⟩ := List.cons.inj heq
    cases t with
    | nil =>
      -- A number is not a sign alone.
      obtain ⟨hwhole, hdigits⟩ := hvalid.whole.digits
      have hmem : ∀ d ∈ n.whole, d ∈ n.text := by
        intro d hd
        simp [Numeral.text, hd]
      rw [ht] at hmem
      obtain ⟨d, ds, hd⟩ := List.exists_cons_of_ne_nil hwhole
      have hminus := List.mem_singleton.mp (hmem d (hd ▸ List.mem_cons_self))
      have hdigit := hdigits d (hd ▸ List.mem_cons_self)
      rw [hminus] at hdigit
      revert hdigit
      decide
    | cons c' t => exact hminus t (by rw [(List.cons.inj htail).1])
  rw [hscan, readNumber, Numeral.read_text hvalid hstops]
  simp only [hvalue]
  rfl

theorem readsBefore_member {item : Text → Result (Value F)} {t : Text} {v : Value F}
    (h : ReadsBefore item t v) (hsolid : Solid t) (key : List CodeUnit) :
    ReadsBefore (member item) (memberText key t) (key, v) := by
  intro rest hrest
  have hskip : skip (':' :: ' ' :: (t ++ rest)) = ':' :: ' ' :: (t ++ rest) := rfl
  have hvalue : skip (' ' :: (t ++ rest)) = t ++ rest := hsolid.skip_gap
    (List.forall_mem_singleton.mpr rfl) rest
  rw [memberText, List.append_assoc, encodeBasestring_append, member, scanString_encode]
  simp only [List.cons_append, hskip]
  rw [hvalue, h rest hrest]
  rfl

/-- A value that has no items. -/
theorem readsBefore_leaf {object array : Text → Result (Value F)} {v : Value F} {t : Text}
    (h : dumps floats 0 v = some t) :
    Solid t ∧ ReadsBefore (scanOnce floats object array) t v := by
  cases v with
  | null =>
    obtain rfl := Option.some.inj h
    exact ⟨⟨'n', _, rfl, by decide⟩, fun rest _ => rfl⟩
  | bool b =>
    obtain rfl := Option.some.inj h
    cases b with
    | true => exact ⟨⟨'t', _, rfl, by decide⟩, fun rest _ => rfl⟩
    | false => exact ⟨⟨'f', _, rfl, by decide⟩, fun rest _ => rfl⟩
  | int n =>
    rw [dumps] at h
    split_ifs at h with hlength
    obtain rfl := Option.some.inj h
    have hnumber : IsNumber floats (.int n) (intNumeral n) :=
      ⟨valid_intNumeral n, hlength, ofNumeral_intNumeral hlength⟩
    have hwrites : Writes (scanOnce floats object array) _ _ := writes_number hnumber
    exact ⟨hwrites.1, readsBefore_text hnumber⟩
  | float x =>
    rw [dumps] at h
    obtain ⟨n, hn, rfl⟩ := Option.map_eq_some_iff.mp h
    have hnumber := isNumber_float hn
    have hwrites : Writes (scanOnce floats object array) _ _ := writes_number hnumber
    exact ⟨hwrites.1, readsBefore_text hnumber⟩
  | str s =>
    obtain rfl := Option.some.inj h
    have hwrites : Writes (scanOnce floats object array) _ _ := writes_str s
    refine ⟨hwrites.1, fun rest _ => ?_⟩
    rw [encodeBasestring_append, scanOnce, scanString_encode]
  | arr items => cases h
  | obj fields => cases h

theorem solid_bracketed (level : ℕ) {start : Char} (hstart : start = '[' ∨ start = '{')
    (close : Char) (ts : List Text) : Solid (bracketed level start close ts) := by
  have hsolid : isBlank start = false ∧ start ≠ ']' ∧ start ≠ '}' := by
    rcases hstart with rfl | rfl <;> decide
  rw [bracketed]
  split_ifs
  · exact ⟨start, _, rfl, hsolid⟩
  · exact ⟨start, _, rfl, hsolid⟩

theorem scan_leaf (d : ℕ) {v : Value F} {t : Text} (h : dumps floats 0 v = some t) :
    Solid t ∧ ReadsBefore (scan floats d) t v := by
  cases d with
  | zero => exact readsBefore_leaf h
  | succ d => exact readsBefore_leaf h

/-- What is written of a value is read as the value. -/
theorem scan_dumpsIndent {d level : ℕ} {v : Value F} {t : Text} (hv : Distinct v)
    (h : dumpsIndent floats d level v = some t) :
    Solid t ∧ ReadsBefore (scan floats d) t v := by
  induction hv generalizing d level t with
  | null => cases d <;> exact scan_leaf _ h
  | bool b => cases d <;> exact scan_leaf _ h
  | int n => cases d <;> exact scan_leaf _ h
  | float x => cases d <;> exact scan_leaf _ h
  | str s => cases d <;> exact scan_leaf _ h
  | @arr items _ ih =>
    cases d with
    | zero => exact scan_leaf _ h
    | succ d =>
      rw [dumpsIndent] at h
      obtain ⟨ts, hts, rfl⟩ := Option.map_eq_some_iff.mp h
      have hitems := forall₂_of_mem (mapM_some hts) fun t v hv htext => ih v hv htext
      refine ⟨solid_bracketed level (.inl rfl) _ ts, fun rest _ => ?_⟩
      obtain ⟨body, hbody, hread⟩ := delimited_bracketed (.inl rfl)
        (hitems.imp fun _ _ h => h.2) (forall_mem_of_forall₂ hitems fun _ _ _ h => h.1) level '[' rest
      rw [hbody, scan, scanOnce, parseArray, hread]
      rfl
  | @obj fields hkeys _ ih =>
    cases d with
    | zero => exact scan_leaf _ h
    | succ d =>
      rw [dumpsIndent] at h
      obtain ⟨ts, hts, rfl⟩ := Option.map_eq_some_iff.mp h
      have hfields : List.Forall₂ (fun t f => Solid t ∧ ReadsBefore (member (scan floats d)) t f) ts
          fields := by
        refine forall₂_of_mem (mapM_some hts) fun t f hf htext => ?_
        obtain ⟨u, hu, rfl⟩ := Option.map_eq_some_iff.mp htext
        obtain ⟨hsolid, hread⟩ := ih f hf hu
        exact ⟨solid_memberText f.1 u, readsBefore_member hread hsolid f.1⟩
      refine ⟨solid_bracketed level (.inr rfl) _ ts, fun rest _ => ?_⟩
      obtain ⟨body, hbody, hread⟩ := delimited_bracketed (.inr rfl)
        (hfields.imp fun _ _ h => h.2) (forall_mem_of_forall₂ hfields fun _ _ _ h => h.1) level '{'
        rest
      rw [hbody, scan, scanOnce, parseObject, hread]
      change Except.ok (Value.obj (dict fields), rest) = _
      rw [dict_eq_self hkeys]

/-- What a file holds of an object, with a line's end after it, is loaded as the object. -/
theorem loads_dumpsIndent {d : ℕ} {fields : Fields F} {t : Text} (hv : Distinct (.obj fields))
    (h : dumpsIndent floats d 0 (.obj fields) = some t) :
    loads floats d (t ++ ['\n']) = .ok (.obj fields) := by
  obtain ⟨hsolid, hread⟩ := scan_dumpsIndent hv h
  have hhead : (t ++ ['\n']).head? ≠ some '\uFEFF' := by
    cases d with
    | zero => cases h
    | succ d =>
      rw [dumpsIndent] at h
      obtain ⟨ts, -, rfl⟩ := Option.map_eq_some_iff.mp h
      rw [bracketed]
      split_ifs <;> exact fun heq => absurd (Option.some.inj heq) (by decide)
  rw [loads, if_neg hhead, hsolid.skip_append, hread ['\n'] (stops_cons (by decide) [])]
  rfl

end Values

end Companion.JsonText

import Mathlib

/-!
# UTF-16

The UTF-16 code units of a text, in which a character beyond U+FFFF is two surrogates, and the
order of texts by their units.

Units below the surrogates order as the characters do, and so do pairs of surrogates. The two
orders differ where a character from U+E000 to U+FFFF, which is one unit above the surrogates,
meets one beyond U+FFFF (`encode_le_iff`).
-/

namespace Companion.Utf16

/-- A leading surrogate. -/
abbrev IsLead (u : ℕ) : Prop := 0xD800 ≤ u ∧ u < 0xDC00

/-- A trailing surrogate. -/
abbrev IsTrail (u : ℕ) : Prop := 0xDC00 ≤ u ∧ u < 0xE000

/-- A surrogate, which stands for no character by itself. -/
abbrev IsSurrogate (u : ℕ) : Prop := 0xD800 ≤ u ∧ u < 0xE000

/-- The code units of a character. -/
def units (c : Char) : List ℕ :=
  if c.toNat < 0x10000 then [c.toNat]
  else [0xD800 + (c.toNat - 0x10000) / 0x400, 0xDC00 + (c.toNat - 0x10000) % 0x400]

/-- The code units of a text. -/
def encode (s : List Char) : List ℕ := s.flatMap units

/-- The character of a unit that is not part of a pair: the replacement character where it is a
surrogate. -/
def single (u : ℕ) : Char := if IsSurrogate u then '\uFFFD' else .ofNat u

/-- The text of some code units. -/
def decode : List ℕ → List Char
  | [] => []
  | [u] => [single u]
  | u :: l :: us =>
    if IsLead u ∧ IsTrail l then
      .ofNat (0x10000 + (u - 0xD800) * 0x400 + (l - 0xDC00)) :: decode us
    else single u :: decode (l :: us)

theorem toNat_valid (c : Char) : c.toNat < 0xD800 ∨ 0xDFFF < c.toNat ∧ c.toNat < 0x110000 :=
  c.valid

theorem lt_iff_toNat {c c' : Char} : c < c' ↔ c.toNat < c'.toNat := Iff.rfl

theorem units_bmp {c : Char} (h : c.toNat < 0x10000) : units c = [c.toNat] := if_pos h

theorem units_astral {c : Char} (h : ¬c.toNat < 0x10000) :
    units c = [0xD800 + (c.toNat - 0x10000) / 0x400, 0xDC00 + (c.toNat - 0x10000) % 0x400] :=
  if_neg h

theorem encode_nil : encode [] = [] := rfl

theorem encode_cons (c : Char) (s : List Char) : encode (c :: s) = units c ++ encode s := rfl

theorem encode_append (s t : List Char) : encode (s ++ t) = encode s ++ encode t :=
  List.flatMap_append

/-! ## Decoding -/

/-- A unit that is no surrogate is decoded by itself. -/
theorem decode_cons {u : ℕ} (us : List ℕ) (h : ¬IsSurrogate u) :
    decode (u :: us) = .ofNat u :: decode us := by
  have hsingle : single u = .ofNat u := if_neg h
  cases us with
  | nil => rw [decode, decode, hsingle]
  | cons l us =>
    have hlead : ¬(IsLead u ∧ IsTrail l) := by
      rintro ⟨⟨hlo, hhi⟩, -⟩
      exact h ⟨hlo, by omega⟩
    rw [decode, if_neg hlead, hsingle]

theorem decode_units_append (c : Char) (us : List ℕ) : decode (units c ++ us) = c :: decode us := by
  have hvalid := toNat_valid c
  by_cases hc : c.toNat < 0x10000
  · have hsurrogate : ¬IsSurrogate c.toNat := by
      rintro ⟨hlo, hhi⟩
      omega
    rw [units_bmp hc, List.singleton_append, decode_cons us hsurrogate, Char.ofNat_toNat]
  · have hpair : IsLead (0xD800 + (c.toNat - 0x10000) / 0x400) ∧
        IsTrail (0xDC00 + (c.toNat - 0x10000) % 0x400) := by
      unfold IsLead IsTrail
      omega
    have hcode : 0x10000 + (0xD800 + (c.toNat - 0x10000) / 0x400 - 0xD800) * 0x400 +
        (0xDC00 + (c.toNat - 0x10000) % 0x400 - 0xDC00) = c.toNat := by omega
    rw [units_astral hc, List.cons_append, List.singleton_append, decode, if_pos hpair, hcode,
      Char.ofNat_toNat]

/-- The units of a text decode to the text. -/
theorem decode_encode (s : List Char) : decode (encode s) = s := by
  induction s with
  | nil => rfl
  | cons c s ih => rw [encode_cons, decode_units_append, ih]

theorem encode_injective : Function.Injective encode :=
  Function.LeftInverse.injective decode_encode

/-! ## The order -/

/-- At the first place where the two texts differ, the first has a character from U+E000 to U+FFFF,
and the second one beyond. -/
def Clash (s t : List Char) : Prop :=
  ∃ p c c' r r', s = p ++ c :: r ∧ t = p ++ c' :: r' ∧
    0xE000 ≤ c.toNat ∧ c.toNat < 0x10000 ∧ 0x10000 ≤ c'.toNat

theorem Clash.cons {s t : List Char} (c : Char) (h : Clash s t) : Clash (c :: s) (c :: t) := by
  obtain ⟨p, a, a', r, r', rfl, rfl, h⟩ := h
  exact ⟨c :: p, a, a', r, r', rfl, rfl, h⟩

theorem append_lt_append_iff {α : Type*} [LinearOrder α] (p : List α) {s t : List α} :
    p ++ s < p ++ t ↔ s < t := by
  induction p with
  | nil => rfl
  | cons a p ih => simp [ih]

/-- Two different characters that do not clash order as their units. -/
theorem units_append_lt_iff {c c' : Char} (hne : c ≠ c') (us us' : List ℕ)
    (h : ¬(0xE000 ≤ c.toNat ∧ c.toNat < 0x10000 ∧ 0x10000 ≤ c'.toNat))
    (h' : ¬(0xE000 ≤ c'.toNat ∧ c'.toNat < 0x10000 ∧ 0x10000 ≤ c.toNat)) :
    units c ++ us < units c' ++ us' ↔ c < c' := by
  have hvalid := toNat_valid c
  have hvalid' := toNat_valid c'
  have hne' : c.toNat ≠ c'.toNat := fun heq => hne (Char.toNat_inj.mp heq)
  rw [lt_iff_toNat]
  by_cases hc : c.toNat < 0x10000
  · by_cases hc' : c'.toNat < 0x10000
    · rw [units_bmp hc, units_bmp hc']
      simp only [List.cons_append, List.nil_append, List.cons_lt_cons_iff]
      omega
    · rw [units_bmp hc, units_astral hc']
      simp only [List.cons_append, List.nil_append, List.cons_lt_cons_iff]
      omega
  · by_cases hc' : c'.toNat < 0x10000
    · rw [units_astral hc, units_bmp hc']
      simp only [List.cons_append, List.nil_append, List.cons_lt_cons_iff]
      omega
    · -- Both are pairs: the leading surrogates decide, and then the trailing ones.
      rw [units_astral hc, units_astral hc']
      simp only [List.cons_append, List.nil_append, List.cons_lt_cons_iff]
      omega

/-- Texts that do not clash order as their units. -/
theorem encode_lt_iff {s t : List Char} (h : ¬Clash s t) (h' : ¬Clash t s) :
    encode s < encode t ↔ s < t := by
  induction s generalizing t with
  | nil =>
    cases t with
    | nil => simp
    | cons c t =>
      have hunits : encode (c :: t) ≠ [] := fun heq => by
        simpa [decode_encode, decode] using congrArg decode heq
      obtain ⟨u, us, hcons⟩ := List.exists_cons_of_ne_nil hunits
      rw [hcons, encode_nil]
      simp
  | cons c s ih =>
    cases t with
    | nil => simp [encode_nil]
    | cons c' t =>
      rw [encode_cons, encode_cons]
      by_cases hcc : c = c'
      · subst hcc
        rw [append_lt_append_iff, ih (fun hc => h (hc.cons c)) (fun hc => h' (hc.cons c))]
        simp
      · rw [units_append_lt_iff hcc]
        · simp [List.cons_lt_cons_iff, hcc]
        · exact fun hc => h ⟨[], c, c', s, t, rfl, rfl, hc⟩
        · exact fun hc => h' ⟨[], c', c, t, s, rfl, rfl, hc⟩

/-- Texts that clash are ordered the other way by their units. -/
theorem Clash.lt {s t : List Char} (h : Clash s t) : s < t ∧ encode t < encode s := by
  obtain ⟨p, c, c', r, r', rfl, rfl, hlow, hc, hc'⟩ := h
  have hvalid' := toNat_valid c'
  constructor
  · rw [append_lt_append_iff, List.cons_lt_cons_iff]
    exact .inl (lt_iff_toNat.mpr (by omega))
  · rw [encode_append, encode_append, append_lt_append_iff, encode_cons, encode_cons, units_bmp hc,
      units_astral (by omega)]
    simp only [List.cons_append, List.nil_append, List.cons_lt_cons_iff]
    omega

/-- The units order two texts as the characters do just in case the texts do not clash. -/
theorem encode_le_iff {s t : List Char} :
    (encode s ≤ encode t ↔ s ≤ t) ↔ ¬Clash s t ∧ ¬Clash t s := by
  constructor
  · refine fun hiff => ⟨fun h => ?_, fun h => ?_⟩
    · obtain ⟨hlt, hunits⟩ := h.lt
      exact absurd (hiff.mpr hlt.le) (not_le.mpr hunits)
    · obtain ⟨hlt, hunits⟩ := h.lt
      exact absurd (hiff.mp hunits.le) (not_le.mpr hlt)
  · rintro ⟨h, h'⟩
    rw [← not_lt, ← not_lt, encode_lt_iff h' h]

end Companion.Utf16

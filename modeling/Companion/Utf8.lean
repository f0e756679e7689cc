import Mathlib.Data.List.Basic

/-!
# Decoding UTF-8

A list of bytes as text. A byte that is part of no character has none for its character, where
Python puts a lone surrogate (`errors="surrogateescape"`), so that a decoding fails nowhere.

A byte below 0x80 is a character wherever it stands, and the bytes before it and after it are
decoded apart (`decode_append`).
-/

namespace Companion.Utf8

abbrev Bytes := List UInt8

/-- A decoded text. -/
abbrev Decoded := List (Option Char)

/-- A continuation byte. -/
def isCont (b : UInt8) : Bool := 0x80 ≤ b && b < 0xC0

/-- The character of a lead byte and the continuation bytes that follow it. A shorter form of a
character is the only one. -/
def assemble (low lead : ℕ) (conts : Bytes) (count : ℕ) : Option Char :=
  let code := conts.foldl (fun v b => 64 * v + (b.toNat - 0x80)) lead
  if conts.length = count ∧ conts.all isCont ∧ low ≤ code ∧ code.isValidChar then
    some (.ofNat code)
  else none

/-- The character that starts with a byte, and how many of the bytes after it belong to it. -/
def charAt (b : UInt8) (bs : Bytes) : Option (Char × ℕ) :=
  if b < 0x80 then some (.ofNat b.toNat, 0)
  else if b < 0xC0 then none
  else if b < 0xE0 then (assemble 0x80 (b.toNat - 0xC0) (bs.take 1) 1).map (·, 1)
  else if b < 0xF0 then (assemble 0x800 (b.toNat - 0xE0) (bs.take 2) 2).map (·, 2)
  else (assemble 0x10000 (b.toNat - 0xF0) (bs.take 3) 3).map (·, 3)

/-- The text of the bytes after the first ones, which belong to a character before them. -/
def decodeFrom : ℕ → Bytes → Decoded
  | _, [] => []
  | k + 1, _ :: bs => decodeFrom k bs
  | 0, b :: bs =>
    match charAt b bs with
    | some (c, k) => some c :: decodeFrom k bs
    | none => none :: decodeFrom 0 bs

def decode (bs : Bytes) : Decoded := decodeFrom 0 bs

/-- A character of three bytes, one of which a part is missing, and a surrogate. -/
example : decode [0xE2, 0x82, 0xAC, 0xE2, 0x82, 0x41, 0xED, 0xA0, 0x80] =
    [some '€', none, none, some 'A', none, none, none] := by decide

theorem assemble_append (low lead : ℕ) (bs cs : Bytes) {a : UInt8} (ha : a < 0x80) (count : ℕ) :
    assemble low lead ((bs ++ a :: cs).take count) count = assemble low lead (bs.take count) count := by
  by_cases hcount : count ≤ bs.length
  · rw [List.take_append_of_le_length hcount]
  · -- The byte is not a continuation byte, and without it there are not enough.
    have hmem : a ∈ (bs ++ a :: cs).take count := by
      rw [List.take_append]
      refine List.mem_append_right _ ?_
      obtain ⟨k, hk⟩ := Nat.exists_eq_succ_of_ne_zero (Nat.sub_ne_zero_of_lt (Nat.lt_of_not_le hcount))
      rw [hk, List.take_succ_cons]
      exact List.mem_cons_self
    -- The byte itself continues no character.
    have hcont : ((bs ++ a :: cs).take count).all isCont = false := by
      rw [List.all_eq_false]
      refine ⟨a, hmem, ?_⟩
      simp [isCont, UInt8.not_le.mpr ha]
    have hshort : (bs.take count).length ≠ count := by
      rw [List.length_take]
      omega
    rw [assemble, assemble, if_neg (by simp [hcont]), if_neg fun h => hshort h.1]

theorem charAt_append (b : UInt8) (bs cs : Bytes) {a : UInt8} (ha : a < 0x80) :
    charAt b (bs ++ a :: cs) = charAt b bs := by
  simp only [charAt, assemble_append _ _ bs cs ha]

theorem length_of_assemble {low lead count : ℕ} {bs : Bytes} {c : Char}
    (h : assemble low lead (bs.take count) count = some c) : count ≤ bs.length ∧ low ≤ c.toNat := by
  rw [assemble] at h
  split_ifs at h with hcond
  obtain ⟨hlength, -, hlow, hvalid⟩ := hcond
  obtain rfl := Option.some.inj h
  rw [List.length_take] at hlength
  refine ⟨by omega, ?_⟩
  rwa [Char.ofNat, dif_pos hvalid]

/-- A character is its byte, or is one beyond the bytes of one character each and has all of its
bytes there. -/
theorem charAt_cases {b : UInt8} {bs : Bytes} {c : Char} {k : ℕ} (h : charAt b bs = some (c, k)) :
    (b < 0x80 ∧ c = .ofNat b.toNat ∧ k = 0) ∨ (k ≤ bs.length ∧ 0x80 ≤ c.toNat) := by
  unfold charAt at h
  split_ifs at h with h80 hC0 hE0 hF0
  · cases h
    exact .inl ⟨h80, rfl, rfl⟩
  all_goals
    obtain ⟨c', hc, heq⟩ := Option.map_eq_some_iff.mp h
    cases heq
    obtain ⟨hlength, hlow⟩ := length_of_assemble hc
    exact .inr ⟨hlength, by omega⟩

theorem decodeFrom_append {a : UInt8} (ha : a < 0x80) (cs bs : Bytes) :
    ∀ k ≤ bs.length, decodeFrom k (bs ++ a :: cs) =
      decodeFrom k bs ++ some (.ofNat a.toNat) :: decode cs := by
  induction bs with
  | nil =>
    intro k hk
    obtain rfl : k = 0 := Nat.le_zero.mp hk
    simp only [List.nil_append, decodeFrom, charAt, if_pos ha]
    rfl
  | cons b bs ih =>
    intro k hk
    cases k with
    | succ k => exact ih k (Nat.le_of_succ_le_succ hk)
    | zero =>
      -- A byte below 0x80 is no part of the character that starts here.
      rw [List.cons_append, decodeFrom, decodeFrom, charAt_append b bs cs ha]
      cases hc : charAt b bs with
      | none => exact congrArg (List.cons none) (ih 0 (Nat.zero_le _))
      | some found =>
        obtain ⟨c, k⟩ := found
        have hk : k ≤ bs.length := by
          rcases charAt_cases hc with ⟨-, -, rfl⟩ | ⟨hk, -⟩
          · exact Nat.zero_le _
          · exact hk
        exact congrArg (List.cons (some c)) (ih k hk)

/-- What is before a byte of one character and what is after it are decoded apart. -/
theorem decode_append {a : UInt8} (ha : a < 0x80) (bs cs : Bytes) :
    decode (bs ++ a :: cs) = decode bs ++ some (.ofNat a.toNat) :: decode cs :=
  decodeFrom_append ha cs bs 0 (Nat.zero_le _)

theorem decode_cons {a : UInt8} (ha : a < 0x80) (cs : Bytes) :
    decode (a :: cs) = some (.ofNat a.toNat) :: decode cs := decode_append ha [] cs

/-- A character of one byte comes from that byte. -/
theorem mem_of_mem_decodeFrom {c : Char} (hc : c.toNat < 0x80) {bs : Bytes} :
    ∀ k, some c ∈ decodeFrom k bs → ∃ b ∈ bs, c = .ofNat b.toNat := by
  induction bs with
  | nil => nofun
  | cons b bs ih =>
    intro k hmem
    have hlater : ∀ k, some c ∈ decodeFrom k bs → ∃ a ∈ b :: bs, c = .ofNat a.toNat := by
      intro k hk
      obtain ⟨b', hb', heq⟩ := ih k hk
      exact ⟨b', List.mem_cons_of_mem _ hb', heq⟩
    cases k with
    | succ k => exact hlater k hmem
    | zero =>
      rw [decodeFrom] at hmem
      cases hchar : charAt b bs with
      | none =>
        rw [hchar] at hmem
        rcases List.mem_cons.mp hmem with heq | hmem
        · cases heq
        · exact hlater 0 hmem
      | some found =>
        obtain ⟨c', k⟩ := found
        rw [hchar] at hmem
        rcases List.mem_cons.mp hmem with heq | hmem
        · obtain rfl := Option.some.inj heq
          -- A character of more bytes is not below 0x80.
          rcases charAt_cases hchar with ⟨-, rfl, -⟩ | ⟨-, hlow⟩
          · exact ⟨b, List.mem_cons_self, rfl⟩
          · omega
        · exact hlater k hmem

end Companion.Utf8

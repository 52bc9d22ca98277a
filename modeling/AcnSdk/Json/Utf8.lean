/-
UTF-8 texts and what `src/json/json.c` makes of them.

A text is the code of a list of characters. `utf8_validate_cz` reads the bytes of one character
without a table of them.

* `utf8ValidateCz_encode` — the code of a character is accepted, with its length.
* `encode_of_validateCz` — what is accepted begins with the code of a character.
* `utf8Validate_iff` — `utf8_validate` accepts the texts, and nothing else.
-/

import AcnSdk.Json.Lexical

namespace AcnSdk.Json

open AcnSdk.Lib Ascii

/-- The code of a list of characters. -/
def utf8Text (cs : List Char) : Bytes := cs.flatMap String.utf8EncodeChar

/-- A text in valid UTF-8. -/
def Utf8 (s : Bytes) : Prop := ∃ cs, s = utf8Text cs

theorem utf8Text_cons (c : Char) (cs : List Char) :
    utf8Text (c :: cs) = String.utf8EncodeChar c ++ utf8Text cs :=
  List.flatMap_cons

/-! ### Codes are accepted -/

section

variable {c c1 c2 c3 : Byte} (rest : Bytes)

theorem not_le_of_lead {low small : Byte} (lead : low ≤ c) (less : small < low) : ¬ c ≤ small :=
  UInt8.not_le.mpr (UInt8.lt_of_lt_of_le less lead)

theorem utf8ValidateCz_two (low : 0xC2 ≤ c) (high : c ≤ 0xDF) (cont : isContinuation c1 = true) :
    utf8ValidateCz (c :: c1 :: rest) = 2 := by
  have one : ¬ c ≤ 0x7F := not_le_of_lead low (by decide)
  have clipped : ¬ c ≤ 0xC1 := not_le_of_lead low (by decide)
  simp [utf8ValidateCz, one, clipped, high, cont]

theorem utf8ValidateCz_three (low : 0xE0 ≤ c) (high : c ≤ 0xEF) (overlong : c = 0xE0 → 0xA0 ≤ c1)
    (surrogate : c = 0xED → c1 ≤ 0x9F) (cont : isContinuation c1 = true)
    (cont' : isContinuation c2 = true) : utf8ValidateCz (c :: c1 :: c2 :: rest) = 3 := by
  have one : ¬ c ≤ 0x7F := not_le_of_lead low (by decide)
  have clipped : ¬ c ≤ 0xC1 := not_le_of_lead low (by decide)
  have two : ¬ c ≤ 0xDF := not_le_of_lead low (by decide)
  have first : ¬ (c = 0xE0 ∧ c1 < 0xA0) := fun both => UInt8.not_lt.mpr (overlong both.1) both.2
  have second : ¬ (c = 0xED ∧ 0x9F < c1) := fun both => UInt8.not_lt.mpr (surrogate both.1) both.2
  simp [utf8ValidateCz, one, clipped, two, high, cont, cont', first, second]

theorem utf8ValidateCz_four (low : 0xF0 ≤ c) (high : c ≤ 0xF4) (overlong : c = 0xF0 → 0x90 ≤ c1)
    (beyond : c = 0xF4 → c1 ≤ 0x8F) (cont : isContinuation c1 = true)
    (cont' : isContinuation c2 = true) (cont'' : isContinuation c3 = true) :
    utf8ValidateCz (c :: c1 :: c2 :: c3 :: rest) = 4 := by
  have one : ¬ c ≤ 0x7F := not_le_of_lead low (by decide)
  have clipped : ¬ c ≤ 0xC1 := not_le_of_lead low (by decide)
  have two : ¬ c ≤ 0xDF := not_le_of_lead low (by decide)
  have three : ¬ c ≤ 0xEF := not_le_of_lead low (by decide)
  have first : ¬ (c = 0xF0 ∧ c1 < 0x90) := fun both => UInt8.not_lt.mpr (overlong both.1) both.2
  have second : ¬ (c = 0xF4 ∧ 0x8F < c1) := fun both => UInt8.not_lt.mpr (beyond both.1) both.2
  simp [utf8ValidateCz, one, clipped, two, three, high, cont, cont', cont'', first, second]

end

theorem ofNat_le_iff {n : Nat} {b : Byte} (small : n < 256) : UInt8.ofNat n ≤ b ↔ n ≤ b.toNat := by
  rw [UInt8.le_iff_toNat_le, UInt8.toNat_ofNat', Nat.mod_eq_of_lt small]

theorem le_ofNat_iff {n : Nat} {b : Byte} (small : n < 256) : b ≤ UInt8.ofNat n ↔ b.toNat ≤ n := by
  rw [UInt8.le_iff_toNat_le, UInt8.toNat_ofNat', Nat.mod_eq_of_lt small]

theorem ofNat_eq_iff {n : Nat} {b : Byte} (small : n < 256) : UInt8.ofNat n = b ↔ n = b.toNat := by
  rw [← UInt8.toNat_inj, UInt8.toNat_ofNat', Nat.mod_eq_of_lt small]

theorem isContinuation_ofNat (n : Nat) : isContinuation (UInt8.ofNat (n % 0x40 + 0x80)) = true := by
  rw [isContinuation, Bool.and_eq_true, decide_eq_true_iff, decide_eq_true_iff,
    le_ofNat_iff (by omega), ofNat_le_iff (by omega)]
  constructor
  · exact Nat.le_add_left _ _
  · exact Nat.add_le_add_right (Nat.le_of_lt_succ (Nat.mod_lt n (by decide))) 0x80

theorem utf8ValidateCz_encode (c : Char) (rest : Bytes) :
    utf8ValidateCz (String.utf8EncodeChar c ++ rest) = (String.utf8EncodeChar c).length := by
  have valid : c.val.toNat < 0xD800 ∨ 0xDFFF < c.val.toNat ∧ c.val.toNat < 0x110000 := c.valid
  rw [String.utf8EncodeChar]
  generalize c.val.toNat = v at valid
  split_ifs with one two three
  · exact utf8ValidateCz_ascii rest ((ofNat_le_iff (by omega)).mpr one)
  · apply utf8ValidateCz_two rest _ _ (isContinuation_ofNat v)
    · apply (le_ofNat_iff (by omega)).mpr
      change 0xC2 ≤ v / 64 % 32 + 192
      omega
    · apply (ofNat_le_iff (by omega)).mpr
      change v / 64 % 32 + 192 ≤ 0xDF
      omega
  · apply utf8ValidateCz_three rest _ _ _ _ (isContinuation_ofNat _) (isContinuation_ofNat v)
    · apply (le_ofNat_iff (by omega)).mpr
      exact Nat.le_add_left 0xE0 _
    · apply (ofNat_le_iff (by omega)).mpr
      exact Nat.add_le_add_right (Nat.le_of_lt_succ (Nat.mod_lt _ (by decide))) 0xE0
    · intro lead
      have least : v / 4096 % 16 + 0xE0 = 0xE0 := (ofNat_eq_iff (by omega)).mp lead
      apply (le_ofNat_iff (by omega)).mpr
      change 0xA0 ≤ v / 64 % 64 + 128
      omega
    · intro lead
      have middle : v / 4096 % 16 + 0xE0 = 0xED := (ofNat_eq_iff (by omega)).mp lead
      apply (ofNat_le_iff (by omega)).mpr
      change v / 64 % 64 + 128 ≤ 0x9F
      omega
  · apply utf8ValidateCz_four rest _ _ _ _ (isContinuation_ofNat _) (isContinuation_ofNat _)
      (isContinuation_ofNat v)
    · apply (le_ofNat_iff (by omega)).mpr
      exact Nat.le_add_left 0xF0 _
    · apply (ofNat_le_iff (by omega)).mpr
      change v / 262144 % 8 + 240 ≤ 0xF4
      omega
    · intro lead
      have least : v / 262144 % 8 + 0xF0 = 0xF0 := (ofNat_eq_iff (by omega)).mp lead
      apply (le_ofNat_iff (by omega)).mpr
      change 0x90 ≤ v / 4096 % 64 + 128
      omega
    · intro lead
      have last : v / 262144 % 8 + 0xF0 = 0xF4 := (ofNat_eq_iff (by omega)).mp lead
      apply (ofNat_le_iff (by omega)).mpr
      change v / 4096 % 64 + 128 ≤ 0x8F
      omega

/-! ### What is accepted is a code -/

/-- The scalar value `v` as a character. -/
theorem exists_char {v : Nat} (valid : v < 0xD800 ∨ 0xDFFF < v ∧ v < 0x110000) :
    ∃ c : Char, c.val.toNat = v := by
  have small : v < 2 ^ 32 := by omega
  have bits : (UInt32.ofNat v).toNat = v := UInt32.toNat_ofNat_of_lt small
  refine ⟨⟨UInt32.ofNat v, ?_⟩, bits⟩
  rw [UInt32.isValidChar, bits]
  exact valid

theorem cons_of_continuation {s : Bytes} (cont : isContinuation (peek s) = true) :
    s = peek s :: s.tail := by
  cases s with
  | nil => exact absurd cont (by decide)
  | cons c s => rfl

theorem toNat_of_continuation {b : Byte} (cont : isContinuation b = true) :
    0x80 ≤ b.toNat ∧ b.toNat ≤ 0xBF := by
  rw [isContinuation, Bool.and_eq_true, decide_eq_true_iff, decide_eq_true_iff] at cont
  exact ⟨UInt8.le_iff_toNat_le.mp cont.1, UInt8.le_iff_toNat_le.mp cont.2⟩

theorem ofNat_of_eq {n : Nat} {b : Byte} (value : n = b.toNat) : UInt8.ofNat n = b := by
  rw [value, UInt8.ofNat_toNat]

section

variable {c c1 c2 c3 : Byte}

theorem encode_of_one (small : c.toNat ≤ 0x7F) : ∃ d, String.utf8EncodeChar d = [c] := by
  obtain ⟨d, value⟩ := exists_char (v := c.toNat) (by omega)
  exact ⟨d, by rw [String.utf8EncodeChar, value, if_pos small, UInt8.ofNat_toNat]⟩

theorem encode_of_two (low : 0xC2 ≤ c.toNat) (high : c.toNat ≤ 0xDF)
    (cont : isContinuation c1 = true) : ∃ d, String.utf8EncodeChar d = [c, c1] := by
  have first := toNat_of_continuation cont
  obtain ⟨v, split⟩ : ∃ v, v = (c.toNat - 0xC0) * 64 + (c1.toNat - 0x80) := ⟨_, rfl⟩
  obtain ⟨d, value⟩ := exists_char (v := v) (by omega)
  refine ⟨d, ?_⟩
  have lead : v / 64 % 32 + 0xC0 = c.toNat := by omega
  have last : v % 64 + 0x80 = c1.toNat := by omega
  rw [String.utf8EncodeChar, value, if_neg (by omega), if_pos (by omega), ofNat_of_eq lead,
    ofNat_of_eq last]

theorem encode_of_three (low : 0xE0 ≤ c.toNat) (high : c.toNat ≤ 0xEF)
    (overlong : c.toNat = 0xE0 → 0xA0 ≤ c1.toNat) (surrogate : c.toNat = 0xED → c1.toNat ≤ 0x9F)
    (cont : isContinuation c1 = true) (cont' : isContinuation c2 = true) :
    ∃ d, String.utf8EncodeChar d = [c, c1, c2] := by
  have first := toNat_of_continuation cont
  have second := toNat_of_continuation cont'
  obtain ⟨v, split⟩ : ∃ v, v = (c.toNat - 0xE0) * 4096 + (c1.toNat - 0x80) * 64 +
    (c2.toNat - 0x80) := ⟨_, rfl⟩
  obtain ⟨d, value⟩ := exists_char (v := v) (by omega)
  refine ⟨d, ?_⟩
  have lead : v / 4096 % 16 + 0xE0 = c.toNat := by omega
  have middle : v / 64 % 64 + 0x80 = c1.toNat := by omega
  have last : v % 64 + 0x80 = c2.toNat := by omega
  rw [String.utf8EncodeChar, value, if_neg (by omega), if_neg (by omega), if_pos (by omega),
    ofNat_of_eq lead, ofNat_of_eq middle, ofNat_of_eq last]

theorem encode_of_four (low : 0xF0 ≤ c.toNat) (high : c.toNat ≤ 0xF4)
    (overlong : c.toNat = 0xF0 → 0x90 ≤ c1.toNat) (beyond : c.toNat = 0xF4 → c1.toNat ≤ 0x8F)
    (cont : isContinuation c1 = true) (cont' : isContinuation c2 = true)
    (cont'' : isContinuation c3 = true) : ∃ d, String.utf8EncodeChar d = [c, c1, c2, c3] := by
  have first := toNat_of_continuation cont
  have second := toNat_of_continuation cont'
  have third := toNat_of_continuation cont''
  obtain ⟨v, split⟩ : ∃ v, v = (c.toNat - 0xF0) * 262144 + (c1.toNat - 0x80) * 4096 +
    (c2.toNat - 0x80) * 64 + (c3.toNat - 0x80) := ⟨_, rfl⟩
  obtain ⟨d, value⟩ := exists_char (v := v) (by omega)
  refine ⟨d, ?_⟩
  have lead : v / 262144 % 8 + 0xF0 = c.toNat := by omega
  have next : v / 4096 % 64 + 0x80 = c1.toNat := by omega
  have after : v / 64 % 64 + 0x80 = c2.toNat := by omega
  have last : v % 64 + 0x80 = c3.toNat := by omega
  rw [String.utf8EncodeChar, value, if_neg (by omega), if_neg (by omega), if_neg (by omega),
    ofNat_of_eq lead, ofNat_of_eq next, ofNat_of_eq after, ofNat_of_eq last]

end

theorem toNat_le_of_not_le {c small : Byte} (above : ¬ c ≤ small) : small.toNat + 1 ≤ c.toNat :=
  Nat.lt_of_not_le (mt UInt8.le_iff_toNat_le.mpr above)

/-- What follows a lead byte is rejected below a bound, or above one. -/
theorem le_of_lead {c c1 lead bound : Byte} (reject : ¬ (c = lead ∧ c1 < bound))
    (same : c.toNat = lead.toNat) : bound.toNat ≤ c1.toNat := by
  by_contra less
  exact reject ⟨UInt8.toNat_inj.mp same, UInt8.lt_iff_toNat_lt.mpr (Nat.not_le.mp less)⟩

theorem ge_of_lead {c c1 lead bound : Byte} (reject : ¬ (c = lead ∧ bound < c1))
    (same : c.toNat = lead.toNat) : c1.toNat ≤ bound.toNat := by
  by_contra more
  exact reject ⟨UInt8.toNat_inj.mp same, UInt8.lt_iff_toNat_lt.mpr (Nat.not_le.mp more)⟩

/-- What passes as one character is the code of one. -/
theorem encode_of_validateCz {s : Bytes} (valid : utf8ValidateCz s ≠ 0) (nonempty : s ≠ []) :
    ∃ (d : Char) (rest : Bytes), s = String.utf8EncodeChar d ++ rest := by
  obtain ⟨c, s, rfl⟩ := List.exists_cons_of_ne_nil nonempty
  by_cases one : c ≤ 0x7F
  · obtain ⟨d, code⟩ := encode_of_one (UInt8.le_iff_toNat_le.mp one)
    exact ⟨d, s, by rw [code]; rfl⟩
  rcases utf8ValidateCz_cases one valid with ⟨low, high, cont, -⟩ |
    ⟨low, high, overlong, surrogate, cont, cont', -⟩ |
    ⟨low, high, overlong, beyond, cont, cont', cont'', -⟩
  · obtain ⟨d, code⟩ := encode_of_two (toNat_le_of_not_le low) (UInt8.le_iff_toNat_le.mp high) cont
    refine ⟨d, s.tail, ?_⟩
    rw [code, cons_of_continuation cont]
    rfl
  · rw [List.drop_one] at cont'
    obtain ⟨d, code⟩ := encode_of_three (toNat_le_of_not_le low) (UInt8.le_iff_toNat_le.mp high)
      (le_of_lead overlong) (ge_of_lead surrogate) cont cont'
    refine ⟨d, s.tail.tail, ?_⟩
    rw [code]
    nth_rewrite 1 [cons_of_continuation cont, cons_of_continuation cont']
    rfl
  · have drop : s.drop 2 = s.tail.tail := by
      rw [← List.drop_one, ← List.drop_one, List.drop_drop]
    rw [List.drop_one] at cont'
    rw [drop] at cont''
    obtain ⟨d, code⟩ := encode_of_four (toNat_le_of_not_le low) (UInt8.le_iff_toNat_le.mp high)
      (le_of_lead overlong) (ge_of_lead beyond) cont cont' cont''
    refine ⟨d, s.tail.tail.tail, ?_⟩
    rw [code]
    nth_rewrite 1 [cons_of_continuation cont, cons_of_continuation cont',
      cons_of_continuation cont'']
    rfl

/-! ### Whole texts -/

theorem encode_ne_nil (c : Char) : String.utf8EncodeChar c ≠ [] := by
  rw [String.utf8EncodeChar]
  split_ifs <;> exact List.cons_ne_nil _ _

theorem peek_ne_zero {s : Bytes} (plain : 0 ∉ s) (nonempty : s ≠ []) : peek s ≠ 0 := by
  obtain ⟨c, s, rfl⟩ := List.exists_cons_of_ne_nil nonempty
  intro zero
  exact plain (zero ▸ List.mem_cons_self)

theorem utf8ValidateFrom_text {cs : List Char} (plain : 0 ∉ utf8Text cs) {fuel : Nat}
    (enough : (utf8Text cs).length < fuel) : utf8ValidateFrom fuel (utf8Text cs) = true := by
  induction cs generalizing fuel with
  | nil =>
      obtain ⟨fuel, rfl⟩ := Nat.exists_eq_add_one.mpr (Nat.zero_lt_of_lt enough)
      rfl
  | cons c cs ih =>
      obtain ⟨fuel, rfl⟩ := Nat.exists_eq_add_one.mpr (Nat.zero_lt_of_lt enough)
      rw [utf8Text_cons] at plain enough ⊢
      have front := List.length_pos_iff.mpr (encode_ne_nil c)
      rw [List.length_append] at enough
      have nonempty := List.append_ne_nil_of_left_ne_nil (encode_ne_nil c) (utf8Text cs)
      rw [utf8ValidateFrom, if_neg (peek_ne_zero plain nonempty),
        utf8ValidateCz_encode, if_neg (Nat.pos_iff_ne_zero.mp front), List.drop_left]
      exact ih (fun mem => plain (List.mem_append_right _ mem)) (by omega)

theorem utf8_of_validateFrom {s : Bytes} (plain : 0 ∉ s) {fuel : Nat}
    (valid : utf8ValidateFrom fuel s = true) : Utf8 s := by
  induction fuel generalizing s with
  | zero => cases valid
  | succ fuel ih =>
      by_cases nonempty : s = []
      · exact ⟨[], nonempty⟩
      rw [utf8ValidateFrom, if_neg (peek_ne_zero plain nonempty)] at valid
      by_cases invalid : utf8ValidateCz s = 0
      · rw [if_pos invalid] at valid
        cases valid
      obtain ⟨c, rest, rfl⟩ := encode_of_validateCz invalid nonempty
      rw [if_neg invalid, utf8ValidateCz_encode, List.drop_left] at valid
      obtain ⟨cs, rfl⟩ := ih (fun mem => plain (List.mem_append_right _ mem)) valid
      exact ⟨c :: cs, (utf8Text_cons c cs).symm⟩

/-- `utf8_validate` accepts the texts. -/
theorem utf8Validate_iff {s : Bytes} (plain : 0 ∉ s) : utf8Validate s = true ↔ Utf8 s := by
  constructor
  · exact utf8_of_validateFrom plain
  · rintro ⟨cs, rfl⟩
    exact utf8ValidateFrom_text plain (Nat.lt_succ_self _)

end AcnSdk.Json

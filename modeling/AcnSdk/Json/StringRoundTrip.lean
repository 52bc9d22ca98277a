/-
String literals out of `emit_string` and into `parse_string` of `src/json/json.c`.

Every character is written on its own: as a short escape, as `\u` and four digits, or as it is.
The parser reads them one by one. Its bound for control characters is not that of the emitter.

* `emitStringBody_text` — a literal is made of the texts of its characters.
* `parseChar_emitChar` — the parser takes each of them for its character, except U+001F.
* `parseString_emitString_iff` — which strings come back.
-/

import AcnSdk.Json.EncodeAgree
import AcnSdk.Json.Parse
import AcnSdk.Json.Utf8

namespace AcnSdk.Json

open AcnSdk.Lib Ascii

/-! ### Characters -/

/-- An ASCII character has one byte, and all bytes of another one are beyond ASCII. -/
theorem encode_cases (c : Char) :
    (∃ b, b ≤ 0x7F ∧ String.utf8EncodeChar c = [b]) ∨
      ∃ b mid, ¬ b ≤ 0x7F ∧ String.utf8EncodeChar c = b :: mid ∧
        ∀ x ∈ mid, isContinuation x = true := by
  have length := utf8ValidateCz_encode c []
  rw [List.append_nil] at length
  obtain ⟨b, more, code⟩ := List.exists_cons_of_ne_nil (encode_ne_nil c)
  rw [code] at length ⊢
  by_cases ascii : b ≤ 0x7F
  · rw [utf8ValidateCz_ascii more ascii, List.length_cons] at length
    obtain rfl := List.length_eq_zero_iff.mp (Nat.succ_injective length).symm
    exact .inl ⟨b, ascii, rfl⟩
  · have valid : utf8ValidateCz (b :: more) ≠ 0 := by
      rw [length, List.length_cons]
      exact Nat.succ_ne_zero _
    obtain ⟨mid, rest, rfl, front, all⟩ := utf8ValidateCz_multi ascii valid
    rw [length, List.length_cons, List.length_append] at front
    have none : rest.length = 0 := by omega
    obtain rfl := List.length_eq_zero_iff.mp none
    rw [List.append_nil]
    exact .inr ⟨b, mid, ascii, rfl, all⟩

/-- The text that `emit_string` writes for the bytes of one character. -/
def emitChar (front : Bytes) : Bytes :=
  match shortEscape (peek front) with
  | some e => [bslash, e]
  | none => if peek front < 0x1F then unicodeEscape (peek front).toNat else front

theorem not_control_of_lead {b : Byte} (lead : ¬ b ≤ 0x7F) : ¬ b < 0x1F := by
  intro control
  exact lead (UInt8.le_of_lt (UInt8.lt_trans control (by decide)))

theorem shortEscape_of_lead {b : Byte} (lead : ¬ b ≤ 0x7F) : shortEscape b = none := by
  cases escape : shortEscape b with
  | none => rfl
  | some e => exact absurd (shortEscape_some escape).1 lead

/-- One round of `emit_string`. -/
theorem emitStringBody_char {c : Char} (plain : 0 ∉ String.utf8EncodeChar c) (fuel : Nat)
    (t : Bytes) :
    emitStringBody (fuel + 1) (String.utf8EncodeChar c ++ t) =
      emitChar (String.utf8EncodeChar c) ++ emitStringBody fuel t := by
  have length := utf8ValidateCz_encode c t
  rcases encode_cases c with ⟨b, ascii, code⟩ | ⟨b, mid, lead, code, -⟩
  · rw [code] at plain ⊢
    have nonzero : b ≠ 0 := fun zero => plain (zero ▸ List.mem_cons_self)
    rw [List.singleton_append, emitStringBody, emitChar, peek_cons, peek_cons, if_neg nonzero]
    cases shortEscape b with
    | some e => rfl
    | none =>
        dsimp only
        rw [utf8ValidateCz_ascii t ascii, if_neg Nat.one_ne_zero, utf8ReadChar_ascii t ascii]
        by_cases control : b < 0x1F
        · rw [if_pos (.inl control), if_pos control]
          rfl
        · rw [if_neg (by simp [control, escapeUnicode]), if_neg control]
          rfl
  · rw [code] at plain length ⊢
    have nonzero : b ≠ 0 := fun zero => plain (zero ▸ List.mem_cons_self)
    have front : (b :: mid).length ≠ 0 := Nat.succ_ne_zero _
    have control := not_control_of_lead lead
    rw [List.cons_append] at length ⊢
    rw [emitStringBody, emitChar, peek_cons, peek_cons, if_neg nonzero, shortEscape_of_lead lead]
    dsimp only
    rw [length, if_neg front, if_neg (by simp [control, escapeUnicode]), if_neg control,
      ← List.cons_append, List.take_left, List.drop_left]

/-- A literal is made of the texts of its characters. -/
theorem emitStringBody_text {cs : List Char} (plain : 0 ∉ utf8Text cs) {fuel : Nat}
    (enough : (utf8Text cs).length < fuel) :
    emitStringBody fuel (utf8Text cs) =
      cs.flatMap fun c => emitChar (String.utf8EncodeChar c) := by
  induction cs generalizing fuel with
  | nil =>
      obtain ⟨fuel, rfl⟩ := Nat.exists_eq_add_one.mpr (Nat.zero_lt_of_lt enough)
      rfl
  | cons c cs ih =>
      obtain ⟨fuel, rfl⟩ := Nat.exists_eq_add_one.mpr (Nat.zero_lt_of_lt enough)
      have front := List.length_pos_iff.mpr (encode_ne_nil c)
      rw [utf8Text_cons] at plain enough ⊢
      rw [List.length_append] at enough
      rw [emitStringBody_char fun mem => plain (List.mem_append_left _ mem), List.flatMap_cons,
        ih (fun mem => plain (List.mem_append_right _ mem)) (by omega)]

/-! ### What the parser makes of them -/

theorem hexValue_hexChar : ∀ d < 16, hexValue (hexChar d) = some d := by decide

/-- Four digits that were written are read. -/
theorem parseHex16_writeHex16 {n : Nat} (small : n < 0x10000) (rest : Bytes) :
    parseHex16 (writeHex16 n ++ rest) = some (n, rest) := by
  have digit (k : Nat) : hexValue (hexChar (k % 0x10)) = some (k % 0x10) :=
    hexValue_hexChar _ (Nat.mod_lt k (by decide))
  simp only [parseHex16, writeHex16, parseHexDigits, List.cons_append, List.nil_append, peek_cons,
    List.tail_cons, digit, Option.some.injEq, Prod.mk.injEq, and_true]
  omega

theorem escapeValue_shortEscape {b e : Byte} (escape : shortEscape b = some e) :
    escapeValue e = some b := by
  revert escape
  unfold shortEscape
  split_ifs with h1 h2 h3 h4 h5 h6 h7 <;> intro escape
  all_goals first | (cases escape; subst b; decide) | cases escape

/-- A control character that was escaped. -/
theorem parseUnicode_control {b : Byte} (nonzero : b ≠ 0) (control : b < 0x1F) (rest : Bytes) :
    parseUnicode (writeHex16 b.toNat ++ rest) = some ([b], rest) := by
  have small : b.toNat < 0x1F := UInt8.lt_iff_toNat_lt.mp control
  have positive : b.toNat ≠ 0 := fun zero => nonzero (UInt8.toNat_inj.mp zero)
  rw [parseUnicode, parseHex16_writeHex16 (by omega)]
  dsimp only
  rw [if_neg (by omega), if_neg positive, utf8WriteChar, if_pos (by omega), UInt8.ofNat_toNat]

/-- The text of a character does not close the literal, and is read as that character. -/
theorem parseChar_emitChar {c : Char} (plain : 0 ∉ String.utf8EncodeChar c)
    (other : String.utf8EncodeChar c ≠ [0x1F]) (rest : Bytes) :
    peek (emitChar (String.utf8EncodeChar c) ++ rest) ≠ dquote ∧
      parseChar (emitChar (String.utf8EncodeChar c) ++ rest) =
        some (String.utf8EncodeChar c, rest) := by
  have length := utf8ValidateCz_encode c rest
  have escaped : bslash ≠ dquote := by decide
  rcases encode_cases c with ⟨b, ascii, code⟩ | ⟨b, mid, lead, code, -⟩
  · rw [code] at plain other ⊢
    have nonzero : b ≠ 0 := fun zero => plain (zero ▸ List.mem_cons_self)
    rw [emitChar, peek_cons]
    cases escape : shortEscape b with
    | some e =>
        refine ⟨escaped, ?_⟩
        dsimp only
        rw [List.cons_append, parseChar, peek_cons, if_pos rfl, List.tail_cons, parseEscape,
          List.singleton_append, peek_cons, escapeValue_shortEscape escape]
        rfl
    | none =>
        obtain ⟨not_quote, not_bslash⟩ := shortEscape_none escape
        dsimp only
        by_cases control : b < 0x1F
        · have small : b.toNat < 0x1F := UInt8.lt_iff_toNat_lt.mp control
          rw [if_pos control, unicodeEscape, if_pos (by omega)]
          exact ⟨escaped, parseUnicode_control nonzero control rest⟩
        · rw [if_neg control, List.singleton_append]
          refine ⟨not_quote, ?_⟩
          have above : ¬ b ≤ 0x1F := by
            intro le
            have equal : b = 0x1F := UInt8.le_antisymm le (UInt8.not_lt.mp control)
            exact other (by rw [equal])
          rw [parseChar, peek_cons, if_neg not_bslash, if_neg above,
            utf8ValidateCz_ascii rest ascii]
          rfl
  · rw [code] at length ⊢
    have escape := shortEscape_of_lead lead
    obtain ⟨not_quote, not_bslash⟩ := shortEscape_none escape
    have above : ¬ b ≤ 0x1F := fun le => lead (UInt8.le_trans le (by decide))
    have front : (b :: mid).length ≠ 0 := Nat.succ_ne_zero _
    rw [emitChar, peek_cons, escape]
    dsimp only
    rw [if_neg (not_control_of_lead lead), List.cons_append] at *
    refine ⟨not_quote, ?_⟩
    rw [parseChar, peek_cons, if_neg not_bslash, if_neg above, length, if_neg front,
      ← List.cons_append, List.take_left, List.drop_left]

/-- U+001F is written as it is, and is refused. -/
theorem parseChar_unitSeparator (rest : Bytes) :
    peek (emitChar [0x1F] ++ rest) ≠ dquote ∧ parseChar (emitChar [0x1F] ++ rest) = none := by
  constructor
  · intro quote
    cases quote
  · rfl

/-! ### Literals -/

/-- No character but the ASCII one has an ASCII byte. -/
theorem encode_eq_of_mem {c : Char} {b : Byte} (ascii : b ≤ 0x7F)
    (mem : b ∈ String.utf8EncodeChar c) : String.utf8EncodeChar c = [b] := by
  rcases encode_cases c with ⟨a, -, code⟩ | ⟨a, mid, lead, code, all⟩
  · rw [code] at mem ⊢
    rw [List.mem_singleton.mp mem]
  · rw [code] at mem
    rcases List.mem_cons.mp mem with rfl | mem
    · exact absurd ascii lead
    · have continuation : isContinuation b = true := all b mem
      rw [isContinuation, Bool.and_eq_true, decide_eq_true_iff, decide_eq_true_iff] at continuation
      exact absurd (UInt8.le_trans continuation.1 ascii) (by decide)

/-- Texts without U+001F are read back from their literals. -/
theorem chars_text {cs : List Char} (plain : 0 ∉ utf8Text cs) (free : 0x1F ∉ utf8Text cs)
    (rest : Bytes) :
    Chars ((cs.flatMap fun c => emitChar (String.utf8EncodeChar c)) ++ dquote :: rest)
      (utf8Text cs) rest := by
  induction cs with
  | nil => exact .close rest
  | cons c cs ih =>
      rw [utf8Text_cons] at plain free ⊢
      rw [List.flatMap_cons, List.append_assoc]
      obtain ⟨ne, one⟩ := parseChar_emitChar (fun mem => plain (List.mem_append_left _ mem))
        (fun code => free (List.mem_append_left _ (code ▸ List.mem_cons_self)))
        ((cs.flatMap fun c => emitChar (String.utf8EncodeChar c)) ++ dquote :: rest)
      exact .char ne one (ih (fun mem => plain (List.mem_append_right _ mem))
        fun mem => free (List.mem_append_right _ mem))

/-- A text with U+001F has no literal that is read. -/
theorem not_chars_text {cs : List Char} (plain : 0 ∉ utf8Text cs) (mem : 0x1F ∈ utf8Text cs)
    (rest out after : Bytes) :
    ¬ Chars ((cs.flatMap fun c => emitChar (String.utf8EncodeChar c)) ++ dquote :: rest)
      out after := by
  induction cs generalizing out with
  | nil => cases mem
  | cons c cs ih =>
      rw [utf8Text_cons] at plain mem
      rw [List.flatMap_cons, List.append_assoc]
      intro chars
      generalize text : emitChar (String.utf8EncodeChar c) ++ _ = s at chars
      by_cases here : String.utf8EncodeChar c = [0x1F]
      · rw [here] at text
        obtain ⟨ne, none⟩ := parseChar_unitSeparator
          ((cs.flatMap fun c => emitChar (String.utf8EncodeChar c)) ++ dquote :: rest)
        rw [text] at ne none
        cases chars with
        | close => exact ne rfl
        | char _ one _ =>
            rw [none] at one
            cases one
      · obtain ⟨ne, read⟩ := parseChar_emitChar (fun mem => plain (List.mem_append_left _ mem))
          here ((cs.flatMap fun c => emitChar (String.utf8EncodeChar c)) ++ dquote :: rest)
        rw [text] at ne read
        cases chars with
        | close => exact ne rfl
        | char _ one more =>
            rw [read] at one
            cases one
            have later : 0x1F ∈ utf8Text cs := (List.mem_append.mp mem).resolve_left fun mem =>
              here (encode_eq_of_mem (by decide) mem)
            exact ih (fun mem => plain (List.mem_append_right _ mem)) later _ more

theorem emitString_append {cs : List Char} (plain : 0 ∉ utf8Text cs) (rest : Bytes) :
    emitString (utf8Text cs) ++ rest =
      dquote :: ((cs.flatMap fun c => emitChar (String.utf8EncodeChar c)) ++ dquote :: rest) := by
  rw [emitString, emitStringBody_text plain (Nat.lt_succ_self _), List.append_assoc]
  rfl

/-- A string without U+001F comes back, and nothing behind its literal is read. -/
theorem parseString_emitString {s : Bytes} (text : Utf8 s) (plain : 0 ∉ s) (free : 0x1F ∉ s)
    (rest : Bytes) : parseString (emitString s ++ rest) = some (s, rest) := by
  obtain ⟨cs, rfl⟩ := text
  exact parseString_iff.mpr ⟨_, emitString_append plain rest, chars_text plain free rest⟩

/-- A string comes back, and nothing behind its literal is read, if and only if U+001F is not in
it. -/
theorem parseString_emitString_iff {s : Bytes} (text : Utf8 s) (plain : 0 ∉ s) (rest : Bytes) :
    parseString (emitString s ++ rest) = some (s, rest) ↔ 0x1F ∉ s := by
  constructor
  · obtain ⟨cs, rfl⟩ := text
    intro read mem
    obtain ⟨s₁, eq, chars⟩ := parseString_iff.mp read
    rw [emitString_append plain, List.cons_inj_right] at eq
    rw [← eq] at chars
    exact not_chars_text plain mem rest _ _ chars
  · exact fun free => parseString_emitString text plain free rest

/-- An accent, a line feed and a character beyond the basic plane. -/
theorem parseString_emitString_iff_planes :
    parseString (emitString (utf8Text ['é', '\n', '𝄞']) ++ [comma]) =
        some (utf8Text ['é', '\n', '𝄞'], [comma]) ↔
      0x1F ∉ utf8Text ['é', '\n', '𝄞'] :=
  parseString_emitString_iff ⟨_, rfl⟩ (by decide) [comma]

/-- The literal of U+001F is refused. -/
theorem parseString_unitSeparator : Utf8 [0x1F] ∧ (0 : Byte) ∉ [(0x1F : Byte)] ∧
    parseString (emitString [0x1F]) ≠ some ([0x1F], []) := by
  refine ⟨⟨['\x1F'], rfl⟩, by decide, by decide⟩

end AcnSdk.Json

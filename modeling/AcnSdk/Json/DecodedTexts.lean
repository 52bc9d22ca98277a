/-
The trees that `json_decode` of `src/json/json.c` returns.

What is written into a string is the code of a character each time: an escape stands for one,
two surrogates make one, and anything else has passed `utf8_validate_cz`. None of them is NUL.

* `parseString_isText` — a string that is read is a C string in valid UTF-8.
* `jsonDecode_decoded` — the texts of a decoded tree are such strings, and its members are what
  has keys.
-/

import AcnSdk.Json.Grammar
import AcnSdk.Json.StringRoundTrip

namespace AcnSdk.Json

open AcnSdk.Lib Ascii

/-! ### Characters -/

/-- The code of a character other than NUL. -/
def Code (c : Bytes) : Prop := 0 ∉ c ∧ ∃ d, c = String.utf8EncodeChar d

theorem code_of_ne {d : Char} (ne : String.utf8EncodeChar d ≠ [0]) :
    Code (String.utf8EncodeChar d) :=
  ⟨fun mem => ne (encode_eq_of_mem (by decide) mem), d, rfl⟩

/-- `utf8_write_char` writes the code of a character. -/
theorem utf8WriteChar_code {v : Nat} (nonzero : v ≠ 0)
    (valid : v < 0xD800 ∨ 0xDFFF < v ∧ v < 0x110000) : Code (utf8WriteChar v) := by
  obtain ⟨d, value⟩ := exists_char valid
  have same : utf8WriteChar v = String.utf8EncodeChar d := by
    rw [utf8WriteChar, String.utf8EncodeChar, value]
    split_ifs with one two three
    · rfl
    · have lead : v / 64 % 32 = v / 64 := Nat.mod_eq_of_lt (by omega)
      rw [lead, Nat.add_comm 0xC0, Nat.add_comm 0x80]
    · have lead : v / 4096 % 16 = v / 4096 := Nat.mod_eq_of_lt (by omega)
      rw [lead, Nat.add_comm 0xE0, Nat.add_comm 0x80, Nat.add_comm 0x80]
    · have lead : v / 262144 % 8 = v / 262144 := Nat.mod_eq_of_lt (by omega)
      rw [lead, Nat.add_comm 0xF0, Nat.add_comm 0x80, Nat.add_comm 0x80, Nat.add_comm 0x80]
  rw [same]
  refine code_of_ne fun zero => ?_
  rw [← same, utf8WriteChar] at zero
  split_ifs at zero with one two three
  · have small : UInt8.ofNat v = 0 := List.head_eq_of_cons_eq zero
    exact nonzero ((ofNat_eq_iff (by omega)).mp small)
  all_goals cases List.tail_eq_of_cons_eq zero

theorem escapeValue_code {c v : Byte} (escape : escapeValue c = some v) : Code [v] := by
  have ascii : v ≠ 0 ∧ v ≤ 0x7F := by
    rw [escapeValue] at escape
    split_ifs at escape with same <;> cases escape
    · rcases same with rfl | rfl | rfl <;> decide
    all_goals decide
  obtain ⟨d, code⟩ := encode_of_one (UInt8.le_iff_toNat_le.mp ascii.2)
  rw [← code]
  refine code_of_ne fun zero => ascii.1 ?_
  rw [code] at zero
  exact List.head_eq_of_cons_eq zero

theorem parseUnicode_code {s c rest : Bytes} (read : parseUnicode s = some (c, rest)) :
    Code c := by
  rw [parseUnicode] at read
  cases first : parseHex16 s with
  | none =>
      rw [first] at read
      cases read
  | some r =>
      obtain ⟨uc, s₁⟩ := r
      obtain ⟨bound, -⟩ := parseHexDigits_eq first
      rw [first] at read
      simp only at read
      split_ifs at read with surrogate low zero
      · cases second : parseHex16 (s₁.drop 2) with
        | none =>
            rw [second] at read
            cases read
        | some r =>
            obtain ⟨lc, s₂⟩ := r
            rw [second] at read
            obtain ⟨v, pair, eq⟩ := Option.map_eq_some_iff.mp read
            cases eq
            rw [fromSurrogatePair] at pair
            split_ifs at pair with fits
            cases pair
            exact utf8WriteChar_code (by omega) (by omega)
      · cases read
        exact utf8WriteChar_code zero (by omega)

/-- One character of a literal is one character of the string. -/
theorem parseChar_code {s c rest : Bytes} (read : parseChar s = some (c, rest)) : Code c := by
  rw [parseChar] at read
  split_ifs at read with escape control invalid
  · rw [parseEscape] at read
    cases value : escapeValue (peek s.tail) with
    | some v =>
        rw [value] at read
        cases read
        exact escapeValue_code value
    | none =>
        rw [value] at read
        simp only at read
        split_ifs at read
        exact parseUnicode_code read
  · cases read
    have nonempty : s ≠ [] := by
      rintro rfl
      exact control (by decide)
    obtain ⟨d, rest, rfl⟩ := encode_of_validateCz invalid nonempty
    rw [utf8ValidateCz_encode, List.take_left]
    refine code_of_ne fun zero => control ?_
    rw [zero]
    exact (by decide : (0 : Byte) ≤ 0x1F)

/-! ### Strings -/

theorem Chars.text {s out rest : Bytes} (chars : Chars s out rest) : 0 ∉ out ∧ Utf8 out := by
  induction chars with
  | close rest => exact ⟨List.not_mem_nil, [], rfl⟩
  | char _ one _ ih =>
      obtain ⟨plain, d, rfl⟩ := parseChar_code one
      obtain ⟨plain', ds, rfl⟩ := ih
      refine ⟨fun mem => ?_, d :: ds, (utf8Text_cons d ds).symm⟩
      exact (List.mem_append.mp mem).elim plain plain'

theorem isText_iff (s : Bytes) : isText s = true ↔ 0 ∉ s ∧ Utf8 s := by
  rw [isText, Bool.and_eq_true, Bool.not_eq_true', List.contains_eq_mem, decide_eq_false_iff_not,
    and_comm]
  exact and_congr_right fun plain => utf8Validate_iff plain

/-- A string that is read is a text. -/
theorem parseString_isText {s out rest : Bytes} (read : parseString s = some (out, rest)) :
    isText out = true := by
  obtain ⟨s₁, rfl, chars⟩ := parseString_iff.mp read
  exact (isText_iff out).mpr chars.text

/-! ### Trees -/

section

variable {ν : Type} {libc : Libc ν}

/-- The rules that decoded trees follow. -/
structure Decoded (node : JsonNode ν) : Prop where
  texts : node.all textual = true
  keyed : node.all JsonNode.childrenKeyed = true

theorem Decoded.scalar {s rest : Bytes} {value : Scalar ν}
    (read : parseScalar libc s = some (value, rest)) : Decoded (.scalar none value) := by
  refine ⟨?_, rfl⟩
  rw [JsonNode.all_scalar, textual, Bool.and_eq_true]
  refine ⟨?_, rfl⟩
  rcases parseScalar_cases read with ⟨-, rfl⟩ | ⟨b, -, rfl⟩ | ⟨out, literal, rfl⟩ | ⟨-, rfl⟩
  · rfl
  · rfl
  · exact parseString_isText literal
  · rfl

theorem Decoded.container {kind : Container} {cs : List (JsonNode ν)}
    (children : ∀ c ∈ cs, Decoded c)
    (keyed : JsonNode.childrenKeyed (.container none kind cs) = true) :
    Decoded (.container none kind cs) where
  texts := by
    rw [JsonNode.all_container, Bool.and_eq_true]
    exact ⟨rfl, List.all_eq_true.mpr fun c mem => (children c mem).texts⟩
  keyed := by
    rw [JsonNode.all_container, Bool.and_eq_true]
    exact ⟨keyed, List.all_eq_true.mpr fun c mem => (children c mem).keyed⟩

theorem Decoded.withKey {node : JsonNode ν} {key : Bytes} (decoded : Decoded node)
    (text : isText key = true) : Decoded (node.withKey (some key)) := by
  obtain ⟨texts, keyed⟩ := decoded
  cases node with
  | scalar key' value =>
      simp only [JsonNode.all_scalar, textual, Bool.and_eq_true] at texts
      refine ⟨?_, rfl⟩
      rw [JsonNode.withKey, JsonNode.all_scalar, textual, Bool.and_eq_true]
      exact ⟨by cases value <;> first | rfl | exact texts.1, text⟩
  | container key' kind children =>
      simp only [JsonNode.all_container, Bool.and_eq_true] at texts keyed
      refine ⟨?_, ?_⟩
      · rw [JsonNode.withKey, JsonNode.all_container, textual, Bool.and_eq_true, Bool.and_eq_true]
        exact ⟨⟨rfl, text⟩, texts.2⟩
      · rw [JsonNode.withKey, JsonNode.all_container, Bool.and_eq_true]
        refine ⟨?_, keyed.2⟩
        cases kind <;> exact keyed.1

theorem Decoded.child {key : Option Bytes} {kind : Container} {children : List (JsonNode ν)}
    (decoded : Decoded (.container key kind children)) {c : JsonNode ν} (mem : c ∈ children) :
    Decoded c :=
  ⟨JsonNode.all_child decoded.texts mem, JsonNode.all_child decoded.keyed mem⟩

theorem Decoded.key {node : JsonNode ν} (decoded : Decoded node) {s : Bytes}
    (named : node.key = some s) : isText s = true := by
  have root := JsonNode.all_root decoded.texts
  rw [textual, Bool.and_eq_true, JsonNode.keyHas, named] at root
  exact root.2

theorem Decoded.string {key : Option Bytes} {s : Bytes}
    (decoded : Decoded (.scalar key (.string s) : JsonNode ν)) : isText s = true := by
  have root := JsonNode.all_root decoded.texts
  rw [textual, Bool.and_eq_true] at root
  exact root.1

theorem childrenKeyed_append {kind : Container} {done : List (JsonNode ν)} {c : JsonNode ν}
    (before : JsonNode.childrenKeyed (.container none kind done) = true)
    (last : JsonNode.childrenKeyed (.container none kind [c]) = true) :
    JsonNode.childrenKeyed (.container none kind (done ++ [c])) = true := by
  cases kind <;>
  · rw [JsonNode.childrenKeyed] at before last ⊢
    rw [List.all_append, before, last]
    rfl

/-- The children that are there already follow the rules, and so does the container that they
become a part of. -/
theorem Derives.decoded {part : Part ν} {s rest : Bytes} {node : JsonNode ν}
    (derives : Derives (.json libc) part s node rest) :
    match part with
    | .value => node.key = none ∧ Decoded node
    | .child kind done | .after kind done => (∀ c ∈ done, Decoded c) →
        JsonNode.childrenKeyed (.container none kind done) = true →
          node.key = none ∧ Decoded node := by
  induction derives with
  | scalar reads => exact ⟨rfl, .scalar reads⟩
  | @empty kind s rest _ _ => exact ⟨rfl, .container nofun (by cases kind <;> rfl)⟩
  | @container kind s rest node _ ih => exact ih nofun (by cases kind <;> rfl)
  | @element done s s₁ rest c node _ _ value more =>
      intro before keyed
      refine more ?_ (childrenKeyed_append keyed ?_)
      · exact List.forall_mem_append.mpr ⟨before, List.forall_mem_singleton.mpr value.2⟩
      · rw [JsonNode.childrenKeyed, List.all_cons, value.1]
        rfl
  | @member done s s₁ s₂ s₃ rest key c node reads _ _ _ value more =>
      intro before keyed
      refine more ?_ (childrenKeyed_append keyed ?_)
      · refine List.forall_mem_append.mpr ⟨before, List.forall_mem_singleton.mpr ?_⟩
        exact value.2.withKey (parseString_isText reads)
      · cases c <;> rfl
  | close _ => exact fun before keyed => ⟨rfl, .container before keyed⟩
  | next _ _ ih => exact ih

/-- What `json_decode` returns follows the rules, and has no key of its own. -/
theorem jsonDecode_decoded {s : Bytes} {tree : JsonNode ν}
    (parsed : jsonDecode libc s = some tree) :
    tree.key = none ∧ Decoded tree := by
  obtain ⟨rest, derives, -⟩ := jsonDecode_derives parsed
  exact derives.decoded

end

end AcnSdk.Json

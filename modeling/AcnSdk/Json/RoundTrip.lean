/-
What the streaming encoder emits, the streaming decoder reads back.

The text of a tree is a document over the lexicon of the parse machines, with the
tree as its value, if keys and strings avoid what the machines read in another way
than the encoder writes it. `encodePart_decodeStream` puts the two machines together:
any schedule of the encoder, any split into parts for the decoder.
-/

import AcnSdk.Json.DecodeRun
import AcnSdk.Json.DecodeSync
import AcnSdk.Json.EncodeStream

namespace AcnSdk.Json

open AcnSdk.Lib Ascii Producer

variable {ν : Type}

/-! ### Keys, strings and numbers that are read back -/

/-- A key without terminator and double quote inside. -/
def plainKey (key : Bytes) : Bool := !key.isEmpty && !key.contains 0 && !key.contains dquote

/-- A string without terminator and backslash inside. -/
def plainString (s : Bytes) : Bool := !s.contains 0 && !s.contains bslash

/-- The C library prints integers below `2 ^ 31` as their decimal digits and reads
these back. -/
structure Integers (libc : Libc ν) (ofNat : Nat → ν) : Prop where
  emit : ∀ n < 2 ^ 31, emitNumber libc (ofNat n) = decimal n
  read : ∀ n < 2 ^ 31, libc.strtod (decimal n) = ofNat n

theorem Integers.nat : Integers Libc.nat id where
  emit n lt := by
    have buffer : numberBuffer Libc.nat n = decimal n := by
      simp only [numberBuffer, Libc.nat, Nat.mod_eq_of_lt lt]
      rfl
    rw [id, emitNumber, buffer, if_pos (numberIsValid_decimal n)]
  read n _ := by
    obtain ⟨digits, value, -⟩ := decimal_spec n
    simp only [Libc.nat, List.takeWhile_eq_self_iff.mpr digits, value, id]

/-- The literal of a string is read back. -/
theorem streamChars_escaped {s : Bytes} (plain : bslash ∉ s) (rest : Bytes) :
    StreamChars (escaped s ++ dquote :: rest) s rest := by
  induction s with
  | nil => exact .close rest
  | cons c s ih =>
      rw [List.mem_cons, not_or] at plain
      rw [escaped_cons]
      by_cases quote : isEscape c = true
      · have eq : c = dquote := by simpa [isEscape] using quote
        subst eq
        exact .escape (ih plain.2)
      · have ne : c ≠ dquote := by simpa [isEscape] using quote
        rw [if_neg quote]
        exact .echo ne (Ne.symm plain.1) (ih plain.2)

/-- A key without double quotes is written as it is. -/
theorem escaped_eq_self {s : Bytes} (plain : dquote ∉ s) : escaped s = s := by
  induction s with
  | nil => rfl
  | cons c s ih =>
      rw [List.mem_cons, not_or] at plain
      have : isEscape c = false := by simpa [isEscape] using Ne.symm plain.1
      rw [escaped_cons, ih plain.2, this]
      rfl

/-! ### The text of a tree -/

section Text

variable {libc : Libc ν} {ofNat : Nat → ν}

theorem skipSpace_eq_self {s : Bytes} (h : isSpace (peek s) = false) : skipSpace s = s := by
  cases s with
  | nil => rfl
  | cons c s => simp_all [skipSpace]

theorem openBracket_not_space (kind : Container) : isSpace (openBracket kind) = false := by
  cases kind <;> decide

/-- A closing bracket or a comma follows without spaces. -/
theorem skipSpace_close (kind : Container) (rest : Bytes) :
    skipSpace (closeBracket kind :: rest) = closeBracket kind :: rest :=
  skipSpace_eq_self (show isSpace (closeBracket kind) = false by cases kind <;> decide)

theorem skipSpace_comma (rest : Bytes) : skipSpace (comma :: rest) = comma :: rest :=
  skipSpace_eq_self (show isSpace comma = false by decide)

theorem skipSpace_colon (rest : Bytes) : skipSpace (colon :: rest) = colon :: rest :=
  skipSpace_eq_self (show isSpace colon = false by decide)

theorem StreamScalar.not_space {s rest : Bytes} {value : Scalar ν}
    (h : StreamScalar libc s value rest) : isSpace (peek s) = false := by
  cases h with
  | bool b rest => cases b <;> rfl
  | string _ => exact (by decide : isSpace dquote = false)
  | @number num some numeric rest =>
      obtain ⟨c, num, rfl⟩ := List.exists_cons_of_ne_nil some
      have first := numeric c List.mem_cons_self
      rw [List.cons_append, peek_cons, ← Bool.not_eq_true]
      intro space
      simp only [isSpace, Bool.or_eq_true, beq_iff_eq] at space
      rcases space with ((rfl | rfl) | rfl) | rfl <;> exact absurd first (by decide)

theorem Derives.not_space {s rest : Bytes} {node : JsonNode ν}
    (h : Derives (.stream libc) .value s node rest) : isSpace (peek s) = false := by
  cases h with
  | scalar reads => exact StreamScalar.not_space reads
  | empty allowed _ => exact absurd allowed id
  | container _ => exact openBracket_not_space _

theorem Derives.child_not_space {kind : Container} {done : List (JsonNode ν)} {s rest : Bytes}
    {node : JsonNode ν} (h : Derives (.stream libc) (.child kind done) s node rest) :
    isSpace (peek s) = false := by
  cases h with
  | element value _ => exact value.not_space
  | member reads _ _ _ =>
      cases reads
      exact (by decide : isSpace dquote = false)

/-- A node whose text is read back. -/
def readable (node : JsonNode ν) : Bool :=
  encodable node && node.keyHas plainKey && node.stringHas plainString && node.childrenKeyed

variable (integers : Integers libc ofNat)

include integers

/-- The text of a scalar is in the lexicon of the machines. -/
theorem scalarText_reads {key : Option Bytes} {value : Scalar ν}
    (ok : readable (.scalar key value) = true)
    (number : ∀ v, value = .number v → ∃ n < 2 ^ 31, v = ofNat n) (rest : Bytes) :
    StreamScalar libc (scalarText libc value ++ rest) value rest := by
  simp only [readable, encodable, Bool.and_eq_true] at ok
  cases value with
  | null => simp [JsonNode.notNull] at ok
  | bool b => exact .bool b rest
  | string s =>
      have plain : 0 ∉ s ∧ bslash ∉ s := by
        simpa [JsonNode.stringHas, plainString] using ok.1.2
      have chars := streamChars_escaped plain.2 rest
      have read : StreamScalar libc (dquote :: (escaped s ++ dquote :: rest))
          (.string (cstr s)) rest :=
        .string chars
      rw [cstr_eq_self plain.1] at read
      simpa [scalarText, quoted] using read
  | number v =>
      obtain ⟨n, lt, rfl⟩ := number v rfl
      obtain ⟨digits, -, -, some, -⟩ := decimal_spec n
      have read : StreamScalar libc (decimal n ++ rest)
          (.number (libc.strtod (cstr (decimal n)))) rest :=
        .number some (fun c mem => by simp [isNumeric, digits c mem]) rest
      rw [cstr_eq_self (decimal_plain n), integers.read n lt] at read
      rwa [scalarText, integers.emit n lt]

omit integers in
/-- The key of a member is read back. -/
theorem keyText_reads {key : Bytes} (plain : plainKey key = true) (rest : Bytes) :
    StreamKey (quoted key ++ rest) key rest := by
  have free : 0 ∉ key ∧ dquote ∉ key := by
    simp only [plainKey, Bool.and_eq_true, Bool.not_eq_true', List.contains_eq_mem,
      decide_eq_false_iff_not] at plain
    exact ⟨plain.1.2, plain.2⟩
  have read : StreamKey (dquote :: (key ++ dquote :: rest)) (cstr key) rest := .key free.2 rest
  rw [cstr_eq_self free.1] at read
  simpa [quoted, escaped_eq_self free.2] using read

omit integers in
/-- The children of a container are read one after the other. -/
theorem childrenText_derives {kind : Container} {cs : List (JsonNode ν)}
    (values : ∀ c ∈ cs, ∀ rest, Derives (.stream libc) .value (valueText libc c ++ rest)
      (c.withKey none) rest)
    (keys : ∀ c ∈ cs, c.keyHas plainKey = true)
    (keyed : (JsonNode.container none kind cs).childrenKeyed = true) (some : cs ≠ [])
    (done : List (JsonNode ν)) (rest : Bytes) :
    Derives (.stream libc) (.child kind done) (childrenText libc cs ++ closeBracket kind :: rest)
      (.container none kind (done ++ cs)) rest := by
  induction cs generalizing done with
  | nil => exact absurd rfl some
  | cons c cs ih =>
      -- what follows the first child: the end, or a comma and the other children
      have follow : ∀ done, Derives (.stream libc) (.after kind done)
          (followText libc cs ++ closeBracket kind :: rest)
          (.container none kind (done ++ cs)) rest := by
        intro done
        cases cs with
        | nil =>
            rw [List.append_nil]
            exact .close (by simp only [followText]; exact skipSpace_close kind rest)
        | cons c' cs =>
            have others := ih (fun d hd => values d (List.mem_cons_of_mem _ hd))
              (fun d hd => keys d (List.mem_cons_of_mem _ hd))
              (by cases kind <;> simp_all [JsonNode.childrenKeyed]) (by simp) done
            have text : followText libc (c' :: cs) = comma :: childrenText libc (c' :: cs) := by
              rw [followText_cons, childrenText_cons]
            rw [text, List.cons_append]
            refine .next (skipSpace_comma _) ?_
            rwa [skipSpace_eq_self others.child_not_space]
      have value := values c List.mem_cons_self (followText libc cs ++ closeBracket kind :: rest)
      have whole : done ++ c :: cs = done ++ [c] ++ cs := by simp
      rw [childrenText_cons, whole, List.append_assoc]
      cases kind with
      | array =>
          have bare : c.key = none := by simp_all [JsonNode.childrenKeyed]
          have self : c.withKey none = c := by
            cases c <;> simp_all [JsonNode.key, JsonNode.withKey]
          rw [self] at value
          simp only [nodeText, bare, keyText, List.nil_append]
          exact .element value (follow _)
      | object =>
          obtain ⟨key, named⟩ : ∃ key, c.key = Option.some key := by
            simp only [JsonNode.childrenKeyed, List.all_cons, Bool.and_eq_true] at keyed
            exact Option.isSome_iff_exists.mp keyed.1
          have self : (c.withKey none).withKey (Option.some key) = c := by
            cases c <;> simp_all [JsonNode.key, JsonNode.withKey]
          have plain : plainKey key = true := by
            simpa [JsonNode.keyHas, named] using keys c List.mem_cons_self
          have text : ∀ more, nodeText libc c ++ more =
              quoted key ++ colon :: (valueText libc c ++ more) := by
            simp [nodeText, named, keyText]
          rw [text]
          refine .member (keyText_reads plain _) (skipSpace_colon _)
            (by rwa [skipSpace_eq_self value.not_space]) ?_
          rw [self]
          exact follow _

/-- The text of a tree denotes the tree over the lexicon of the machines. -/
theorem valueText_derives (node : JsonNode ν) (ok : node.all readable = true)
    (number : ∀ v ∈ node.numbers, ∃ n < 2 ^ 31, v = ofNat n) (rest : Bytes) :
    Derives (.stream libc) .value (valueText libc node ++ rest) (node.withKey none) rest := by
  induction node using JsonNode.tree_induction generalizing rest with
  | scalar key value =>
      rw [valueText]
      refine .scalar (scalarText_reads integers (JsonNode.all_root ok) ?_ rest)
      rintro v rfl
      exact number v (by simp [JsonNode.numbers])
  | container key kind children ih =>
      have here := JsonNode.all_root ok
      simp only [readable, Bool.and_eq_true] at here
      have values : ∀ c ∈ children, ∀ rest, Derives (.stream libc) .value
          (valueText libc c ++ rest) (c.withKey none) rest := fun c hc =>
        ih c hc (JsonNode.all_child ok hc) fun v hv => number v (JsonNode.mem_numbers_child hc hv)
      have keys : ∀ c ∈ children, c.keyHas plainKey = true := by
        intro c hc
        have child := JsonNode.all_root (JsonNode.all_child ok hc)
        simp only [readable, Bool.and_eq_true] at child
        exact child.1.1.2
      have keyed : (JsonNode.container none kind children).childrenKeyed = true := by
        cases kind <;> exact here.2
      have derives := childrenText_derives values keys keyed (encodable_children here.1.1.1) [] rest
      rw [valueText, List.cons_append, List.cons_append, List.append_assoc, List.singleton_append]
      refine .container ?_
      rw [skipSpace_eq_self derives.child_not_space]
      exact derives

end Text

/-! ### Both machines -/

/-- Whatever the buffers of the encoder and whatever the parts that its bytes are
passed on in, the decoder accepts all of them and returns the tree. -/
theorem encodePart_decodeStream (libc : Libc ν) {ofNat : Nat → ν} (integers : Integers libc ofNat)
    (tree : JsonNode ν) (container : tree.isContainer = true) (keyed : tree.wellKeyed = true)
    (ok : tree.all encodable = true) (keys : tree.all (JsonNode.keyHas plainKey) = true)
    (strings : tree.all (JsonNode.stringHas plainString) = true)
    (numbers : ∀ v ∈ tree.numbers, ∃ n < 2 ^ 31, v = ofNat n)
    (lens : Nat → Nat) (positive : ∀ n, 0 < lens n)
    {sm : Addr} {h : Heap (Jpm ν)} {x : Jpm ν} (cell : h.cells sm = some x) (live : sm < h.brk) :
    ∃ doc, Streams (encodePart libc) (jsonEncodeInit tree) lens doc ∧
      ∀ parts : List Bytes, parts.flatten = doc →
        ∃ h', jsonDecodeStream libc sm parts h = .ok (some (some tree), h') := by
  refine ⟨nodeText libc tree, encodePart_streams ok positive, fun parts whole => ?_⟩
  simp only [JsonNode.wellKeyed, Bool.and_eq_true, Option.isNone_iff_eq_none] at keyed
  have each : tree.all readable = true :=
    JsonNode.all_and (JsonNode.all_and (JsonNode.all_and ok keys) strings) keyed.2
  cases tree with
  | scalar key value => cases container
  | container key kind children =>
      obtain rfl : key = none := keyed.1
      have derives := valueText_derives integers _ each numbers []
      have document : Document (.stream libc) (nodeText libc (.container none kind children))
          (.container none kind children) := by
        refine ⟨[], ?_, rfl⟩
        rw [nodeText, JsonNode.key, keyText, List.nil_append]
        rw [List.append_nil] at derives
        rwa [skipSpace_eq_self derives.not_space]
      obtain ⟨h', decoded⟩ := decodeStream_eq libc cell live parts
      rw [whole, document.run] at decoded
      exact ⟨h', decoded⟩

/-- `{"a":["\"",7]}` out in buffers of two bytes and in again in any parts. -/
theorem encodePart_decodeStream_pairs :
    ∃ doc, Streams (encodePart Libc.nat)
        (jsonEncodeInit (.container none .object [.container (some [0x61]) .array
          [.scalar none (.string [dquote]), .scalar none (.number 7)]])) (fun _ => 2) doc ∧
      ∀ parts : List Bytes, parts.flatten = doc →
        ∃ h', jsonDecodeStream Libc.nat 0 parts callerHeap =
          .ok (some (some (.container none .object [.container (some [0x61]) .array
            [.scalar none (.string [dquote]), .scalar none (.number 7)]])), h') :=
  encodePart_decodeStream Libc.nat Integers.nat _ rfl (by decide) (by decide) (by decide)
    (by decide)
      (fun v mem => ⟨7, by decide, by simpa [JsonNode.numbers, JsonNode.numbersList] using mem⟩)
    (fun _ => 2) (fun _ => Nat.two_pos) (x := jsonParseMachineInit) rfl (by decide)

end AcnSdk.Json

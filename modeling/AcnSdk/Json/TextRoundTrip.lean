/-
A tree out of `json_encode` or `json_stringify` and in again through `json_decode`.

The two emitters write the same text up to spaces, so there is one text with its spaces left
open. It is a document that denotes the tree.

* `emitValue_eq`, `emitValueIndented_eq` — both emitters write that text.
* `emitSpaced_derives` — it is derived over the lexicon of the parser.
* `jsonDecode_jsonStringify` — so the parser returns the tree.
-/

import AcnSdk.Json.DecodePlain
import AcnSdk.Json.RoundTrip
import AcnSdk.Json.StringRoundTrip

namespace AcnSdk.Json

open AcnSdk.Lib Ascii

variable {ν : Type}

/-! ### Strings and numbers that come back -/

/-- A string in valid UTF-8 without terminator and U+001F inside. -/
def returns (s : Bytes) : Bool := isText s && !s.contains 0x1F

theorem returns_iff (s : Bytes) : returns s = true ↔ Utf8 s ∧ 0 ∉ s ∧ 0x1F ∉ s := by
  simp only [returns, isText, Bool.and_eq_true, Bool.not_eq_true', List.contains_eq_mem,
    decide_eq_false_iff_not]
  constructor
  · rintro ⟨⟨valid, plain⟩, free⟩
    exact ⟨(utf8Validate_iff plain).mp valid, plain, free⟩
  · rintro ⟨text, plain, free⟩
    exact ⟨⟨(utf8Validate_iff plain).mpr text, plain⟩, free⟩

theorem parseString_returns {s : Bytes} (ok : returns s = true) (rest : Bytes) :
    parseString (emitString s ++ rest) = some (s, rest) := by
  obtain ⟨text, plain, free⟩ := (returns_iff s).mp ok
  exact parseString_emitString text plain free rest

/-- The text of an integer: `%d`. -/
def signed (i : Int) : Bytes := if i < 0 then minus :: decimal i.natAbs else decimal i.natAbs

/-- What `int` holds. -/
def FitsInt (i : Int) : Prop := -2 ^ 31 ≤ i ∧ i < 2 ^ 31

/-- The C library finds no fraction in an integer that `int` holds, prints it in decimal, and
reads that text as the same number. -/
structure IntegerLibc (libc : Libc ν) (ofInt : Int → ν) : Prop where
  whole : ∀ i, FitsInt i → libc.hasFraction (ofInt i) = false
  print : ∀ i, FitsInt i → libc.printInt (ofInt i) = signed i
  read : ∀ i, FitsInt i → libc.strtod (signed i) = ofInt i

theorem parseNumber_signed (i : Int) : parseNumber (signed i) = some [] := by
  rw [signed]
  split
  · exact parseNumber_minus _
  · exact parseNumber_decimal _

theorem numberIsValid_signed (i : Int) : numberIsValid (signed i) = true := by
  rw [numberIsValid, parseNumber_signed]
  rfl

theorem IntegerLibc.emit {libc : Libc ν} {ofInt : Int → ν} (integers : IntegerLibc libc ofInt)
    {i : Int} (fits : FitsInt i) : emitNumber libc (ofInt i) = signed i := by
  have buffer : numberBuffer libc (ofInt i) = signed i := by
    rw [numberBuffer, integers.whole i fits, if_neg Bool.false_ne_true, integers.print i fits]
  rw [emitNumber, buffer, if_pos (numberIsValid_signed i)]

/-! ### Texts with spaces -/

/-- The spaces of a text: where lines end, in front of a line, and after a colon. -/
structure Spacing where
  line : Bytes
  indent : Nat → Bytes
  pair : Bytes
  line_white : ∀ b ∈ line, isSpace b = true
  indent_white : ∀ level, ∀ b ∈ indent level, isSpace b = true
  pair_white : ∀ b ∈ pair, isSpace b = true

/-- No spaces at all. -/
def Spacing.compact : Spacing :=
  ⟨[], fun _ => [], [],
    List.forall_mem_nil _, fun _ => List.forall_mem_nil _, List.forall_mem_nil _⟩

/-- Lines with `space` for each level. -/
def Spacing.indented (space : Bytes) (white : ∀ b ∈ space, isSpace b = true) : Spacing where
  line := [lf]
  indent := emitIndent space
  pair := [Ascii.space]
  line_white := List.forall_mem_singleton.mpr rfl
  indent_white level b mem := by
    obtain ⟨part, copy, mem⟩ := List.mem_flatten.mp mem
    rw [(List.mem_replicate.mp copy).2] at mem
    exact white b mem
  pair_white := List.forall_mem_singleton.mpr rfl

section

variable (libc : Libc ν) (sp : Spacing)

/-- The text of a value without children. -/
def emitScalar : Scalar ν → Bytes
  | .null => nullText
  | .bool b => boolText b
  | .string s => emitString s
  | .number n => emitNumber libc n

/-- What stands in front of the value of a child. -/
def emitKey (kind : Container) (child : JsonNode ν) : Bytes :=
  match kind with
  | .array => []
  | .object => emitString (keyValue child) ++ colon :: sp.pair

mutual

/-- The text of a tree. -/
def emitSpaced : Nat → JsonNode ν → Bytes
  | _, .scalar _ value => emitScalar libc value
  | _, .container _ kind [] => [openBracket kind, closeBracket kind]
  | level, .container _ kind (c :: cs) =>
      openBracket kind :: (sp.line ++ (emitChildren kind level (c :: cs) ++
        (sp.indent level ++ [closeBracket kind])))

/-- The text of children. -/
def emitChildren : Container → Nat → List (JsonNode ν) → Bytes
  | _, _, [] => []
  | kind, level, c :: cs =>
      sp.indent (level + 1) ++ (emitKey sp kind c ++ (emitSpaced (level + 1) c ++
        ((if cs.isEmpty then [] else [comma]) ++ (sp.line ++ emitChildren kind level cs))))

end

end

/-! ### The emitters write it -/

section

variable (libc : Libc ν)

theorem emitChildren_compact {cs : List (JsonNode ν)}
    (each : ∀ c ∈ cs, ∀ level, emitValue libc c = emitSpaced libc .compact level c) (level : Nat) :
    emitElements libc cs = emitChildren libc .compact .array level cs ∧
      emitMembers libc cs = emitChildren libc .compact .object level cs := by
  induction cs with
  | nil => simp only [emitElements, emitMembers, emitChildren, and_self]
  | cons c cs ih =>
      obtain ⟨first, later⟩ := List.forall_mem_cons.mp each
      obtain ⟨elements, members⟩ := ih later
      constructor
      · rw [emitElements, emitChildren, elements, first (level + 1), List.append_assoc]
        rfl
      · rw [emitMembers, emitChildren, members, first (level + 1)]
        simp only [emitKey, Spacing.compact, List.append_assoc, List.cons_append, List.nil_append]

/-- `emit_value` writes no spaces. -/
theorem emitValue_eq (node : JsonNode ν) (level : Nat) :
    emitValue libc node = emitSpaced libc .compact level node := by
  induction node using JsonNode.tree_induction generalizing level with
  | scalar key value =>
      rw [emitSpaced]
      cases value <;> rw [emitValue] <;> rfl
  | container key kind children ih =>
      obtain ⟨elements, members⟩ := emitChildren_compact libc ih level
      cases kind with
      | array =>
          rw [emitValue, elements]
          cases children with
          | nil => rw [emitSpaced, emitChildren]; rfl
          | cons c cs => rw [emitSpaced]; rfl
      | object =>
          rw [emitValue, members]
          cases children with
          | nil => rw [emitSpaced, emitChildren]; rfl
          | cons c cs => rw [emitSpaced]; rfl

variable {space : Bytes} (white : ∀ b ∈ space, isSpace b = true)

theorem emitChildren_indented {cs : List (JsonNode ν)}
    (each : ∀ c ∈ cs, ∀ level,
      emitValueIndented libc space level c = emitSpaced libc (.indented space white) level c)
    (level : Nat) :
    emitElementsIndented libc space level cs =
        emitChildren libc (.indented space white) .array level cs ∧
      emitMembersIndented libc space level cs =
        emitChildren libc (.indented space white) .object level cs := by
  induction cs with
  | nil => simp only [emitElementsIndented, emitMembersIndented, emitChildren, and_self]
  | cons c cs ih =>
      obtain ⟨first, later⟩ := List.forall_mem_cons.mp each
      obtain ⟨elements, members⟩ := ih later
      constructor
      · rw [emitElementsIndented, emitChildren, elements, first (level + 1)]
        cases cs with
        | nil => simp [emitKey, Spacing.indented]
        | cons c' cs => simp [emitKey, Spacing.indented]
      · rw [emitMembersIndented, emitChildren, members, first (level + 1)]
        cases cs with
        | nil => simp [emitKey, Spacing.indented]
        | cons c' cs => simp [emitKey, Spacing.indented]

/-- `emit_value_indented` writes lines. -/
theorem emitValueIndented_eq (node : JsonNode ν) (level : Nat) :
    emitValueIndented libc space level node =
      emitSpaced libc (.indented space white) level node := by
  induction node using JsonNode.tree_induction generalizing level with
  | scalar key value =>
      rw [emitSpaced]
      cases value <;> rw [emitValueIndented] <;> rfl
  | container key kind children ih =>
      obtain ⟨elements, members⟩ := emitChildren_indented libc white ih level
      cases children with
      | nil => cases kind <;> rw [emitSpaced, emitValueIndented] <;> rfl
      | cons c cs =>
          cases kind with
          | array =>
              rw [emitSpaced, emitValueIndented, elements]
              · simp [Spacing.indented, openBracket, closeBracket]
              · exact List.cons_ne_nil c cs
          | object =>
              rw [emitSpaced, emitValueIndented, members]
              · simp [Spacing.indented, openBracket, closeBracket]
              · exact List.cons_ne_nil c cs

end

/-! ### The parser reads it -/

theorem skipSpace_append {white : Bytes} (all : ∀ b ∈ white, isSpace b = true) (s : Bytes) :
    skipSpace (white ++ s) = skipSpace s :=
  List.dropWhile_append_of_pos all

/-- A scalar does not start with a space. -/
theorem parseScalar_space {libc : Libc ν} {s : Bytes} (space : isSpace (peek s) = true) :
    parseScalar libc s = none := by
  have starts : ∀ b : Byte, isSpace b = true →
      b ≠ 0x6E ∧ b ≠ 0x66 ∧ b ≠ 0x74 ∧ b ≠ dquote ∧ b ≠ minus ∧ b ≠ zero ∧ isDigit b = false := by
    intro b white
    simp only [isSpace, Bool.or_eq_true, beq_iff_eq] at white
    rcases white with ((rfl | rfl) | rfl) | rfl <;> decide
  obtain ⟨n, f, t, q, m, z, d⟩ := starts _ space
  simp [parseScalar, n, f, t, q, parseNumber, parseMinus, m, parseIntegral, z, parseDigits, d]

theorem Derives.value_not_space {libc : Libc ν} {s rest : Bytes} {node : JsonNode ν}
    (h : Derives (.json libc) .value s node rest) : isSpace (peek s) = false := by
  cases h with
  | @scalar _ _ value reads =>
      by_contra space
      have none : parseScalar libc s = none := parseScalar_space (Bool.not_eq_false _ ▸ space)
      have read : parseScalar libc s = some (value, rest) := reads
      rw [none] at read
      cases read
  | empty _ _ => exact openBracket_not_space _
  | container _ => exact openBracket_not_space _

theorem expectLiteral_append (str rest : Bytes) : expectLiteral str (str ++ rest) = some rest := by
  rw [expectLiteral, if_pos (List.isPrefixOf_iff_prefix.mpr (List.prefix_append str rest)),
    List.drop_left]

/-- A byte at which a value can end. -/
def Ends (rest : Bytes) : Prop := peek rest = 0 ∨ Delimited rest

theorem Ends.stops {rest : Bytes} (ends : Ends rest) : Stops rest := by
  rcases ends with zero | delimited
  · rw [Stops, zero]
    decide
  · exact Delimited.stops delimited

section

variable {libc : Libc ν} {ofInt : Int → ν} (integers : IntegerLibc libc ofInt)

/-- A first byte that only numbers have. -/
theorem parseScalar_number {s rest : Bytes} (lead : isDigit (peek s) = true ∨ peek s = minus)
    (number : parseNumber s = some rest) :
    parseScalar libc s = some (.number (libc.strtod s), rest) := by
  have starts : ∀ b : Byte, isDigit b = true ∨ b = minus →
      b ≠ 0x6E ∧ b ≠ 0x66 ∧ b ≠ 0x74 ∧ b ≠ dquote := by
    rintro b lead
    refine ⟨?_, ?_, ?_, ?_⟩ <;>
    · rintro rfl
      exact absurd lead (by decide)
  obtain ⟨n, f, t, q⟩ := starts _ lead
  rw [parseScalar, if_neg n, if_neg f, if_neg t, if_neg q, number]
  rfl

theorem signed_lead (i : Int) (rest : Bytes) :
    isDigit (peek (signed i ++ rest)) = true ∨ peek (signed i ++ rest) = minus := by
  rw [signed]
  split
  · exact .inr rfl
  · obtain ⟨digits, -, -, nonempty, -⟩ := decimal_spec i.natAbs
    obtain ⟨d, ds, eq⟩ := List.exists_cons_of_ne_nil nonempty
    rw [eq]
    exact .inl (digits d (eq ▸ List.mem_cons_self))

include integers

/-- The text of a scalar is read back. -/
theorem emitScalar_parse {value : Scalar ν} (strings : ∀ s, value = .string s → returns s = true)
    (numbers : ∀ v, value = .number v → ∃ i, FitsInt i ∧ v = ofInt i) {rest : Bytes}
    (ends : Ends rest) : parseScalar libc (emitScalar libc value ++ rest) = some (value, rest) := by
  cases value with
  | null =>
      have lead : peek (nullText ++ rest) = 0x6E := rfl
      rw [emitScalar, parseScalar, lead, if_pos rfl, expectLiteral_append]
      rfl
  | bool b =>
      cases b with
      | false =>
          have lead : peek (boolText false ++ rest) = 0x66 := rfl
          rw [emitScalar, parseScalar, lead, if_neg (by decide), if_pos rfl, expectLiteral_append]
          rfl
      | true =>
          have lead : peek (boolText true ++ rest) = 0x74 := rfl
          rw [emitScalar, parseScalar, lead, if_neg (by decide), if_neg (by decide), if_pos rfl,
            expectLiteral_append]
          rfl
  | string s =>
      have read := parseString_returns (strings s rfl) rest
      have quote : peek (emitString s ++ rest) = dquote := rfl
      rw [emitScalar, parseScalar, quote, read]
      rfl
  | number v =>
      obtain ⟨i, fits, rfl⟩ := numbers v rfl
      have number : parseNumber (signed i ++ rest) = some rest := by
        rw [parseNumber_append ends.stops, parseNumber_signed]
        rfl
      have value : libc.strtod (signed i ++ rest) = ofInt i := by
        rw [libc.strtod_delimited _ _ (numberIsValid_signed i) ends, integers.read i fits]
      rw [emitScalar, integers.emit fits, parseScalar_number (signed_lead i rest) number, value]

omit integers in
/-- A closing bracket or a comma behind spaces. -/
theorem skipSpace_close_white {white : Bytes} (all : ∀ b ∈ white, isSpace b = true)
    (kind : Container) (rest : Bytes) :
    skipSpace (white ++ closeBracket kind :: rest) = closeBracket kind :: rest :=
  (skipSpace_append all _).trans (skipSpace_close kind rest)

/-- A node whose text is read back. -/
def comesBack (node : JsonNode ν) : Bool :=
  node.keyHas returns && node.stringHas returns && node.childrenKeyed

omit integers in
/-- A child that stands in an array has no key in front of it. -/
theorem element_derives (sp : Spacing) {c : JsonNode ν} (bare : c.key = none)
    {done : List (JsonNode ν)} {text next rest : Bytes} {node : JsonNode ν}
    (value : Derives (.json libc) .value text (c.withKey none) next)
    (follow : Derives (.json libc) (.after .array (done ++ [c])) next node rest) :
    Derives (.json libc) (.child .array done) (skipSpace (emitKey sp .array c ++ text)) node
      rest := by
  have self : c.withKey none = c := by
    cases c <;> simp_all [JsonNode.key, JsonNode.withKey]
  rw [self] at value
  rw [emitKey, List.nil_append, skipSpace_eq_self value.value_not_space]
  exact .element value follow

omit integers in
/-- One in an object has its key there, a colon and spaces. -/
theorem member_derives (sp : Spacing) {c : JsonNode ν} {key : Bytes} (named : c.key = some key)
    (has : c.keyHas returns = true) {done : List (JsonNode ν)} {text next rest : Bytes}
    {node : JsonNode ν} (value : Derives (.json libc) .value text (c.withKey none) next)
    (follow : Derives (.json libc) (.after .object (done ++ [c])) next node rest) :
    Derives (.json libc) (.child .object done) (skipSpace (emitKey sp .object c ++ text)) node
      rest := by
  have self : (c.withKey none).withKey (some key) = c := by
    cases c <;> simp_all [JsonNode.key, JsonNode.withKey]
  have ok : returns key = true := by simpa [JsonNode.keyHas, named] using has
  have shown : keyValue c = key := by
    rw [keyValue, named]
    rfl
  have quote (more : Bytes) : skipSpace (emitString key ++ more) = emitString key ++ more :=
    skipSpace_eq_self rfl
  have behind : skipSpace (sp.pair ++ text) = text := by
    rw [skipSpace_append sp.pair_white, skipSpace_eq_self value.value_not_space]
  rw [emitKey, shown, List.append_assoc, List.cons_append, quote]
  rw [← behind] at value
  refine .member (parseString_returns ok _) (skipSpace_colon (sp.pair ++ text)) value ?_
  rw [self]
  exact follow

omit integers in
/-- The children of a container are read one after the other. -/
theorem emitChildren_derives (sp : Spacing) {kind : Container} {level : Nat}
    {cs : List (JsonNode ν)}
    (values : ∀ c ∈ cs, ∀ rest, Ends rest →
      Derives (.json libc) .value (emitSpaced libc sp (level + 1) c ++ rest) (c.withKey none) rest)
    (keys : ∀ c ∈ cs, c.keyHas returns = true)
    (keyed : (JsonNode.container none kind cs).childrenKeyed = true) (some : cs ≠ [])
    (done : List (JsonNode ν)) (rest : Bytes) :
    Derives (.json libc) (.child kind done)
      (skipSpace
        (emitChildren libc sp kind level cs ++ (sp.indent level ++ closeBracket kind :: rest)))
      (.container none kind (done ++ cs)) rest := by
  induction cs generalizing done with
  | nil => exact absurd rfl some
  | cons c cs ih =>
      -- what follows the first child: the end, or a comma and the other children
      have follow (done : List (JsonNode ν)) : Derives (.json libc) (.after kind done)
          ((if cs.isEmpty then [] else [comma]) ++ (sp.line ++
            (emitChildren libc sp kind level cs ++
              (sp.indent level ++ closeBracket kind :: rest))))
          (.container none kind (done ++ cs)) rest := by
        cases cs with
        | nil =>
            rw [List.append_nil, emitChildren]
            apply Derives.close
            rw [List.isEmpty_nil, if_pos rfl, List.nil_append, List.nil_append,
              skipSpace_append sp.line_white, skipSpace_close_white (sp.indent_white level)]
        | cons c' cs =>
            have others := ih (fun d mem => values d (List.mem_cons_of_mem _ mem))
              (fun d mem => keys d (List.mem_cons_of_mem _ mem))
              (by cases kind <;> simp_all [JsonNode.childrenKeyed]) (List.cons_ne_nil _ _) done
            refine .next (skipSpace_comma (sp.line ++ _)) ?_
            rw [skipSpace_append sp.line_white]
            exact others
      have ends (done : List (JsonNode ν)) := Derives.delimited (follow done)
      have value := values c List.mem_cons_self _ (.inr (ends done))
      have whole : done ++ c :: cs = done ++ [c] ++ cs := by
        rw [List.append_assoc, List.singleton_append]
      rw [emitChildren, List.append_assoc, skipSpace_append (sp.indent_white _)]
      simp only [List.append_assoc]
      rw [whole]
      have has := keys c List.mem_cons_self
      cases kind with
      | array =>
          have bare : c.key = none := by simp_all [JsonNode.childrenKeyed]
          exact element_derives sp bare value (follow _)
      | object =>
          simp only [JsonNode.childrenKeyed, List.all_cons, Bool.and_eq_true] at keyed
          obtain ⟨key, named⟩ := Option.isSome_iff_exists.mp keyed.1
          exact member_derives sp named has value (follow _)

/-- The text of a tree denotes the tree. -/
theorem emitSpaced_derives (sp : Spacing) (node : JsonNode ν) (ok : node.all comesBack = true)
    (numbers : ∀ v ∈ node.numbers, ∃ i, FitsInt i ∧ v = ofInt i) (level : Nat) {rest : Bytes}
    (ends : Ends rest) :
    Derives (.json libc) .value (emitSpaced libc sp level node ++ rest) (node.withKey none)
      rest := by
  induction node using JsonNode.tree_induction generalizing level rest with
  | scalar key value =>
      have here := JsonNode.all_root ok
      simp only [comesBack, Bool.and_eq_true] at here
      rw [emitSpaced]
      refine .scalar (emitScalar_parse integers ?_ ?_ ends)
      · rintro s rfl
        exact here.1.2
      · rintro v rfl
        exact numbers v (by rw [JsonNode.numbers]; exact List.mem_cons_self)
  | container key kind children ih =>
      have here := JsonNode.all_root ok
      simp only [comesBack, Bool.and_eq_true] at here
      have keyed : (JsonNode.container none kind children).childrenKeyed = true := by
        cases kind <;> exact here.2
      have values (c : JsonNode ν) (mem : c ∈ children) (rest : Bytes) (ends : Ends rest) :=
        ih c mem (JsonNode.all_child ok mem)
          (fun v within => numbers v (JsonNode.mem_numbers_child mem within)) (level + 1) ends
      have keys (c : JsonNode ν) (mem : c ∈ children) : c.keyHas returns = true := by
        have child := JsonNode.all_root (JsonNode.all_child ok mem)
        simp only [comesBack, Bool.and_eq_true] at child
        exact child.1.1
      cases children with
      | nil =>
          rw [emitSpaced]
          exact .empty trivial (skipSpace_close kind rest)
      | cons c cs =>
          have child := emitChildren_derives sp values keys keyed (List.cons_ne_nil c cs) [] rest
          rw [emitSpaced, List.cons_append]
          refine .container ?_
          rw [List.append_assoc, skipSpace_append sp.line_white]
          simp only [List.append_assoc, List.singleton_append]
          exact child

/-- The text of a tree is a document. -/
theorem emitSpaced_jsonDecode (sp : Spacing) (tree : JsonNode ν) (keyed : tree.wellKeyed = true)
    (keys : tree.all (JsonNode.keyHas returns) = true)
    (strings : tree.all (JsonNode.stringHas returns) = true)
    (numbers : ∀ v ∈ tree.numbers, ∃ i, FitsInt i ∧ v = ofInt i) :
    jsonDecode libc (emitSpaced libc sp 0 tree) = some tree := by
  simp only [JsonNode.wellKeyed, Bool.and_eq_true, Option.isNone_iff_eq_none] at keyed
  have each : tree.all comesBack = true := JsonNode.all_and (JsonNode.all_and keys strings) keyed.2
  have ends : Ends [] := .inl rfl
  have derives := emitSpaced_derives integers sp tree each numbers 0 ends
  have self : tree.withKey none = tree := by
    cases tree <;> simp_all [JsonNode.key, JsonNode.withKey]
  rw [List.append_nil, self] at derives
  apply Document.jsonDecode
  refine ⟨[], ?_, rfl⟩
  rw [skipSpace_eq_self derives.value_not_space]
  exact derives

/-- A tree comes back from its text, whether in one line or in lines with any spaces. -/
theorem jsonDecode_jsonStringify (tree : JsonNode ν) (keyed : tree.wellKeyed = true)
    (keys : tree.all (JsonNode.keyHas returns) = true)
    (strings : tree.all (JsonNode.stringHas returns) = true)
    (numbers : ∀ v ∈ tree.numbers, ∃ i, FitsInt i ∧ v = ofInt i) :
    jsonDecode libc (jsonEncode libc tree) = some tree ∧
      ∀ space, (∀ b ∈ space, isSpace b = true) →
        jsonDecode libc (jsonStringify libc tree (some space)) = some tree := by
  constructor
  · rw [jsonEncode, emitValue_eq libc tree 0]
    exact emitSpaced_jsonDecode integers .compact tree keyed keys strings numbers
  · intro space white
    rw [jsonStringify, emitValueIndented_eq libc white tree 0]
    exact emitSpaced_jsonDecode integers (.indented space white) tree keyed keys strings numbers

end

/-! ### A C library of integers -/

/-- The integer that `int` keeps of a number. -/
def wrapInt (i : Int) : Int := (i + 2 ^ 31) % 2 ^ 32 - 2 ^ 31

theorem wrapInt_eq {i : Int} (fits : FitsInt i) : wrapInt i = i := by
  obtain ⟨low, high⟩ := fits
  rw [wrapInt]
  omega

/-- The text of an `int` is short. -/
theorem signed_wrapInt_fits (i : Int) : (signed (wrapInt i)).length < 64 := by
  have bound : (wrapInt i).natAbs < 10 ^ 10 := by
    rw [wrapInt]
    omega
  have length := (decimal_spec (wrapInt i).natAbs).2.2.1 10 bound (by omega)
  rw [signed]
  split
  · rw [List.length_cons]
    omega
  · omega

/-- `strtod` for a numeral without fraction and exponent. -/
def strtodInt (s : Bytes) : Int :=
  if peek s = minus then -(decimalValue (s.tail.takeWhile isDigit) : Int)
  else decimalValue (s.takeWhile isDigit)

theorem strtodInt_signed (i : Int) : strtodInt (signed i) = i := by
  obtain ⟨digits, value, -⟩ := decimal_spec i.natAbs
  obtain ⟨sign, -⟩ := parseIntegral_decimal i.natAbs
  have front := List.takeWhile_eq_self_iff.mpr digits
  by_cases negative : i < 0
  · rw [signed, if_pos negative, strtodInt, peek_cons, if_pos rfl, List.tail_cons, front, value]
    omega
  · rw [signed, if_neg negative, strtodInt, if_neg sign, front, value]
    omega

theorem strtodInt_append {num rest : Bytes} (nonempty : num ≠ [])
    (stops : isDigit (peek rest) = false) :
    strtodInt (num ++ rest) = strtodInt num := by
  obtain ⟨c, num, rfl⟩ := List.exists_cons_of_ne_nil nonempty
  rw [strtodInt, strtodInt, List.cons_append, peek_cons, peek_cons, List.tail_cons, List.tail_cons,
    takeWhile_isDigit_append stops, ← List.cons_append, takeWhile_isDigit_append stops]

/-- A C library whose numbers are the integers: `%d` prints what `int` keeps of them. -/
def Libc.int : Libc Int where
  hasFraction _ := false
  printGeneral num := signed (wrapInt num)
  printFixed num := signed (wrapInt num)
  printInt num := signed (wrapInt num)
  strtod := strtodInt
  printGeneral_fits := signed_wrapInt_fits
  printFixed_fits := signed_wrapInt_fits
  printInt_fits := signed_wrapInt_fits
  strtod_delimited num rest valid delimited := by
    have nonempty : num ≠ [] := by
      rintro rfl
      exact absurd valid (by decide)
    have ends : Ends rest := delimited
    exact strtodInt_append nonempty ends.stops.1

theorem IntegerLibc.int : IntegerLibc Libc.int id where
  whole _ _ := rfl
  print _ fits := congrArg signed (wrapInt_eq fits)
  read i _ := strtodInt_signed i

/-- `{"a":[-7,null],"a":{}}` -/
def sameKeys : JsonNode Int := .container none .object
  [.container (some [0x61]) .array [.scalar none (.number (-7)), .scalar none .null],
    .container (some [0x61]) .object []]

/-- Two members with one key come back. -/
theorem jsonDecode_jsonStringify_sameKeys :
    jsonDecode Libc.int (jsonEncode Libc.int sameKeys) = some sameKeys ∧
      ∀ space, (∀ b ∈ space, isSpace b = true) →
        jsonDecode Libc.int (jsonStringify Libc.int sameKeys (some space)) = some sameKeys := by
  apply jsonDecode_jsonStringify IntegerLibc.int sameKeys rfl (by decide) (by decide)
  intro v mem
  obtain rfl : v = -7 := List.mem_singleton.mp mem
  exact ⟨-7, ⟨by decide, by decide⟩, rfl⟩

end AcnSdk.Json

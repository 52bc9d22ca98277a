/-
JSON texts and the trees they denote.

A `Lexicon` says how scalars and keys are written; `Derives` builds values over any
lexicon, as a relation between the text before a value and the text after it, so
that no text is split by hand. A list of children is derived together with the
container that it completes, which is the order in which the parser, and the parse
machines too, come to know it.

* `Lexicon.json` — the lexicon of the recursive parser.
* `jsonDecode_iff` — the recursive parser accepts exactly the documents over that
  lexicon, and returns the tree they denote.
-/

import AcnSdk.Json.Parse

namespace AcnSdk.Json

open AcnSdk.Lib Ascii

variable {ν : Type}

/-! ### Texts over a lexicon -/

/-- How the parts of a text without structure are written: the text from the part on,
its value and the text after it. -/
structure Lexicon (ν : Type) where
  scalar : Bytes → Scalar ν → Bytes → Prop
  key : Bytes → Bytes → Bytes → Prop
  /-- Whether a container may have no children. -/
  empty : Prop

/-- What a derivation is about: a value, or the rest of a container from a child on or
from the end of a child on, with the children before it. -/
inductive Part (ν : Type) where
  | value
  | child (kind : Container) (done : List (JsonNode ν))
  | after (kind : Container) (done : List (JsonNode ν))

inductive Derives (lex : Lexicon ν) : Part ν → Bytes → JsonNode ν → Bytes → Prop where
  | scalar {s rest : Bytes} {value : Scalar ν} (reads : lex.scalar s value rest) :
      Derives lex .value s (.scalar none value) rest
  | empty {kind : Container} {s rest : Bytes} (allowed : lex.empty)
      (close : skipSpace s = closeBracket kind :: rest) :
      Derives lex .value (openBracket kind :: s) (.container none kind []) rest
  | container {kind : Container} {s rest : Bytes} {node : JsonNode ν}
      (child : Derives lex (.child kind []) (skipSpace s) node rest) :
      Derives lex .value (openBracket kind :: s) node rest
  | element {done : List (JsonNode ν)} {s s₁ rest : Bytes} {c node : JsonNode ν}
      (value : Derives lex .value s c s₁)
      (more : Derives lex (.after .array (done ++ [c])) s₁ node rest) :
      Derives lex (.child .array done) s node rest
  | member {done : List (JsonNode ν)} {s s₁ s₂ s₃ rest key : Bytes} {c node : JsonNode ν}
      (reads : lex.key s key s₁) (sep : skipSpace s₁ = colon :: s₂)
      (value : Derives lex .value (skipSpace s₂) c s₃)
      (more : Derives lex (.after .object (done ++ [c.withKey (some key)])) s₃ node rest) :
      Derives lex (.child .object done) s node rest
  | close {kind : Container} {done : List (JsonNode ν)} {s rest : Bytes}
      (close : skipSpace s = closeBracket kind :: rest) :
      Derives lex (.after kind done) s (.container none kind done) rest
  | next {kind : Container} {done : List (JsonNode ν)} {s s₁ rest : Bytes} {node : JsonNode ν}
      (sep : skipSpace s = comma :: s₁)
      (more : Derives lex (.child kind done) (skipSpace s₁) node rest) :
      Derives lex (.after kind done) s node rest

/-- A whole text that denotes a tree, with spaces around it. -/
def Document (lex : Lexicon ν) (s : Bytes) (node : JsonNode ν) : Prop :=
  ∃ rest, Derives lex .value (skipSpace s) node rest ∧ skipSpace rest = []

/-- A wider lexicon derives more. -/
theorem Derives.mono {lex lex' : Lexicon ν}
    (scalar : ∀ s v rest, lex.scalar s v rest → lex'.scalar s v rest)
    (key : ∀ s k rest, lex.key s k rest → lex'.key s k rest) (empty : lex.empty → lex'.empty)
    {part : Part ν} {s rest : Bytes} {node : JsonNode ν} (h : Derives lex part s node rest) :
    Derives lex' part s node rest := by
  induction h with
  | scalar reads => exact .scalar (scalar _ _ _ reads)
  | empty allowed close => exact .empty (empty allowed) close
  | container _ ih => exact .container ih
  | element _ _ value more => exact .element value more
  | member reads sep _ _ value more => exact .member (key _ _ _ reads) sep value more
  | close close => exact .close close
  | next sep _ ih => exact .next sep ih

/-- A byte that can stand after a value inside a container. -/
def Delimited (s : Bytes) : Prop :=
  isSpace (peek s) = true ∨ peek s = comma ∨ peek s = rbrack ∨ peek s = rbrace

/-- A space, or what comes after the spaces. -/
theorem space_or_peek_skipSpace (s : Bytes) :
    isSpace (peek s) = true ∨ peek (skipSpace s) = peek s := by
  cases s with
  | nil => exact .inr rfl
  | cons c s =>
      by_cases space : isSpace c = true
      · exact .inl space
      · exact .inr (by simp [skipSpace, space])

/-- What follows a child starts with a delimiter. -/
theorem Derives.delimited {lex : Lexicon ν} {kind : Container} {done : List (JsonNode ν)}
    {s rest : Bytes}
    {node : JsonNode ν} (h : Derives lex (.after kind done) s node rest) : Delimited s := by
  rcases space_or_peek_skipSpace s with space | same
  · exact .inl space
  refine .inr ?_
  rw [← same]
  cases h with
  | close close =>
      rw [close]
      cases kind with
      | array => exact .inr (.inl rfl)
      | object => exact .inr (.inr rfl)
  | next sep _ =>
      rw [sep]
      exact .inl rfl

/-- The children of a container go on from the ones before. -/
theorem Derives.children {lex : Lexicon ν} {part : Part ν} {s rest : Bytes} {node : JsonNode ν}
    (h : Derives lex part s node rest) :
    match part with
    | .value => True
    | .child kind done => ∃ c more, node = .container none kind (done ++ c :: more)
    | .after kind done => ∃ more, node = .container none kind (done ++ more) := by
  induction h with
  | scalar _ => trivial
  | empty _ _ => trivial
  | container _ _ => trivial
  | @element done s s₁ rest c node _ _ _ ih =>
      obtain ⟨more, eq⟩ := ih
      exact ⟨c, more, by rw [eq, List.append_assoc]; rfl⟩
  | @member done s s₁ s₂ s₃ rest key c node _ _ _ _ _ ih =>
      obtain ⟨more, eq⟩ := ih
      exact ⟨_, more, by rw [eq, List.append_assoc]; rfl⟩
  | close _ => exact ⟨[], by rw [List.append_nil]⟩
  | next _ _ ih =>
      obtain ⟨c, more, eq⟩ := ih
      exact ⟨c :: more, eq⟩

/-- A container that is derived has no key of its own. -/
theorem Derives.container_eq {lex : Lexicon ν} {s rest : Bytes} {node : JsonNode ν}
    (h : Derives lex .value s node rest) (container : node.isContainer = true) :
    ∃ kind cs, node = .container none kind cs := by
  cases h with
  | scalar _ => cases container
  | @empty kind _ _ _ _ => exact ⟨kind, [], rfl⟩
  | @container kind _ _ _ child =>
      obtain ⟨c, more, rfl⟩ := child.children
      exact ⟨kind, _, rfl⟩

/-! ### The recursive parser -/

section Parser

variable (libc : Libc ν)

/-- The lexicon of `json.c`. -/
def Lexicon.json : Lexicon ν where
  scalar s value rest := parseScalar libc s = some (value, rest)
  key s key rest := parseString s = some (key, rest)
  empty := True

variable {libc}

theorem expectLiteral_eq {str s rest : Bytes} (h : expectLiteral str s = some rest) :
    s = str ++ rest := by
  unfold expectLiteral at h
  split_ifs at h with starts
  cases h
  obtain ⟨rest, rfl⟩ := List.isPrefixOf_iff_prefix.mp starts
  rw [List.drop_left]

theorem parseString_shorter {s out rest : Bytes} (h : parseString s = some (out, rest)) :
    Shorter rest s := by
  obtain ⟨s₁, rfl, chars⟩ := parseString_iff.mp h
  exact chars.shorter.tail

/-- What `parse_value` reads as a scalar, one case for each kind. -/
theorem parseScalar_cases {s rest : Bytes} {value : Scalar ν}
    (h : parseScalar libc s = some (value, rest)) :
    (s = nullText ++ rest ∧ value = .null) ∨ (∃ b, s = boolText b ++ rest ∧ value = .bool b) ∨
      (∃ out, parseString s = some (out, rest) ∧ value = .string out) ∨
      (parseNumber s = some rest ∧ value = .number (libc.strtod s)) := by
  unfold parseScalar at h
  split_ifs at h with n f t q
  · obtain ⟨_, literal, ⟨⟩⟩ := Option.map_eq_some_iff.mp h
    exact .inl ⟨expectLiteral_eq literal, rfl⟩
  · obtain ⟨_, literal, ⟨⟩⟩ := Option.map_eq_some_iff.mp h
    exact .inr (.inl ⟨false, expectLiteral_eq literal, rfl⟩)
  · obtain ⟨_, literal, ⟨⟩⟩ := Option.map_eq_some_iff.mp h
    exact .inr (.inl ⟨true, expectLiteral_eq literal, rfl⟩)
  · obtain ⟨⟨out, _⟩, literal, ⟨⟩⟩ := Option.map_eq_some_iff.mp h
    exact .inr (.inr (.inl ⟨out, literal, rfl⟩))
  · obtain ⟨_, number, ⟨⟩⟩ := Option.map_eq_some_iff.mp h
    exact .inr (.inr (.inr ⟨number, rfl⟩))

theorem parseScalar_shorter {s rest : Bytes} {value : Scalar ν}
    (h : parseScalar libc s = some (value, rest)) : Shorter rest s := by
  rcases parseScalar_cases h with ⟨rfl, -⟩ | ⟨b, rfl, -⟩ | ⟨out, literal, -⟩ | ⟨number, -⟩
  · exact ⟨0x6E, [0x75, 0x6C, 0x6C], rfl⟩
  · cases b with
    | true => exact ⟨0x74, [0x72, 0x75, 0x65], rfl⟩
    | false => exact ⟨0x66, [0x61, 0x6C, 0x73, 0x65], rfl⟩
  · exact parseString_shorter literal
  · exact parseNumber_shorter number

/-- A bracket does not start a scalar. -/
theorem parseScalar_bracket {s : Bytes} (h : peek s = lbrack ∨ peek s = lbrace ∨ peek s = rbrack) :
    parseScalar libc s = none := by
  have starts : ∀ b : Byte, b = lbrack ∨ b = lbrace ∨ b = rbrack →
      b ≠ 0x6E ∧ b ≠ 0x66 ∧ b ≠ 0x74 ∧ b ≠ dquote ∧ b ≠ minus ∧ b ≠ zero ∧ isDigit b = false := by
    rintro b (rfl | rfl | rfl) <;> decide
  obtain ⟨n, f, t, q, m, z, d⟩ := starts _ h
  simp [parseScalar, n, f, t, q, parseNumber, parseMinus, m, parseIntegral, z, parseDigits, d]

theorem Derives.shorter {part : Part ν} {s rest : Bytes} {node : JsonNode ν}
    (h : Derives (.json libc) part s node rest) : Shorter rest s := by
  induction h with
  | scalar reads => exact parseScalar_shorter reads
  | @empty kind s rest _ close =>
      have : Shorter rest (skipSpace s) := ⟨_, [], close⟩
      exact this.of_skipSpace.tail
  | container _ ih => exact ih.of_skipSpace.tail
  | element _ _ value more => exact more.trans value
  | @member done s s₁ s₂ s₃ rest key c node reads sep _ _ value more =>
      have after_sep : Shorter s₂ (skipSpace s₁) := ⟨_, [], sep⟩
      exact more.trans (value.of_skipSpace.trans
        (after_sep.of_skipSpace.trans (parseString_shorter reads)))
  | @close kind done s rest close =>
      have : Shorter rest (skipSpace s) := ⟨_, [], close⟩
      exact this.of_skipSpace
  | @next kind done s s₁ rest node sep _ ih =>
      have after_sep : Shorter s₁ (skipSpace s) := ⟨_, [], sep⟩
      exact ih.of_skipSpace.trans after_sep.of_skipSpace

theorem openBracket_ne_closeBracket (kind kind' : Container) :
    openBracket kind ≠ closeBracket kind' := by
  cases kind <;> cases kind' <;> decide

/-- A child does not start with the closing bracket of its container. -/
theorem Derives.not_closed {kind : Container} {done : List (JsonNode ν)} {s rest : Bytes}
    {node : JsonNode ν} (h : Derives (.json libc) (.child kind done) s node rest) :
    peek s ≠ closeBracket kind := by
  cases h with
  | element value _ =>
      intro closed
      cases value with
      | scalar reads =>
          have scalar : parseScalar libc s = some _ := reads
          rw [parseScalar_bracket (.inr (.inr closed))] at scalar
          cases scalar
      | empty _ _ => exact openBracket_ne_closeBracket _ _ closed
      | container _ => exact openBracket_ne_closeBracket _ _ closed
  | member reads _ _ _ =>
      obtain ⟨s₁, rfl, -⟩ := parseString_iff.mp reads
      exact show dquote ≠ rbrace by decide

/-- What the parser accepts is derivable. -/
theorem parse_sound (fuel : Nat) :
    (∀ s (node : JsonNode ν) rest, parseValue libc fuel s = some (node, rest) →
      Derives (.json libc) .value s node rest) ∧
    (∀ s (node : JsonNode ν) rest, parseArray libc fuel s = some (node, rest) →
      Derives (.json libc) .value s node rest) ∧
    (∀ done s (node : JsonNode ν) rest, parseElements libc fuel done s = some (node, rest) →
      Derives (.json libc) (.child .array done) s node rest) ∧
    (∀ s (node : JsonNode ν) rest, parseObject libc fuel s = some (node, rest) →
      Derives (.json libc) .value s node rest) ∧
    ∀ done s (node : JsonNode ν) rest, parseMembers libc fuel done s = some (node, rest) →
      Derives (.json libc) (.child .object done) s node rest := by
  induction fuel with
  | zero =>
      refine ⟨?_, ?_, ?_, ?_, ?_⟩ <;> intros <;> simp_all [parseValue, parseArray, parseElements,
        parseObject, parseMembers]
  | succ fuel ih =>
      obtain ⟨value, array, elements, object, members⟩ := ih
      refine ⟨?_, ?_, ?_, ?_, ?_⟩
      · intro s node rest h
        rw [parseValue] at h
        split_ifs at h
        · exact array s node rest h
        · exact object s node rest h
        · obtain ⟨⟨v, _⟩, reads, ⟨⟩⟩ := Option.map_eq_some_iff.mp h
          exact .scalar reads
      · intro s node rest h
        rw [parseArray] at h
        split_ifs at h with bracket
        rw [eq_cons_of_peek bracket (by decide)]
        simp only at h
        change Derives _ _ (openBracket .array :: s.tail) _ _
        split_ifs at h with closed
        · cases h
          exact .empty trivial (eq_cons_of_peek closed (by decide))
        · exact .container (elements _ _ _ _ h)
      · intro done s node rest h
        rw [parseElements] at h
        cases child : parseValue libc fuel s with
        | none => simp [child] at h
        | some r =>
            obtain ⟨c, s₁⟩ := r
            simp only [child] at h
            refine .element (value _ _ _ child) ?_
            split_ifs at h with closed sep
            · cases h
              exact .close (eq_cons_of_peek closed (by decide))
            · exact .next (eq_cons_of_peek sep (by decide)) (elements _ _ _ _ h)
      · intro s node rest h
        rw [parseObject] at h
        split_ifs at h with bracket
        rw [eq_cons_of_peek bracket (by decide)]
        simp only at h
        change Derives _ _ (openBracket .object :: s.tail) _ _
        split_ifs at h with closed
        · cases h
          exact .empty trivial (eq_cons_of_peek closed (by decide))
        · exact .container (members _ _ _ _ h)
      · intro done s node rest h
        rw [parseMembers] at h
        cases literal : parseString s with
        | none => simp [literal] at h
        | some r =>
            obtain ⟨key, s₁⟩ := r
            simp only [literal] at h
            split_ifs at h with pair
            cases child : parseValue libc fuel (skipSpace (skipSpace s₁).tail) with
            | none => simp [child] at h
            | some r =>
                obtain ⟨c, s₂⟩ := r
                simp only [child] at h
                refine .member literal (eq_cons_of_peek pair (by decide)) (value _ _ _ child) ?_
                split_ifs at h with closed sep
                · cases h
                  exact .close (eq_cons_of_peek closed (by decide))
                · exact .next (eq_cons_of_peek sep (by decide)) (members _ _ _ _ h)

/-- What is derivable the parser accepts, with three rounds of fuel a byte. -/
theorem Derives.parse {part : Part ν} {s rest : Bytes} {node : JsonNode ν}
    (h : Derives (.json libc) part s node rest) :
    match part with
    | .value => ∀ fuel, 3 * s.length + 1 ≤ fuel → parseValue libc fuel s = some (node, rest)
    | .child .array done =>
        ∀ fuel, 3 * s.length + 2 ≤ fuel → parseElements libc fuel done s = some (node, rest)
    | .child .object done =>
        ∀ fuel, 3 * s.length + 2 ≤ fuel → parseMembers libc fuel done s = some (node, rest)
    | .after .array done => ∀ fuel, 3 * s.length ≤ fuel →
        (if peek (skipSpace s) = rbrack then
          some (.container none .array done, (skipSpace s).tail)
        else if peek (skipSpace s) = comma then
          parseElements libc fuel done (skipSpace (skipSpace s).tail)
        else none) = some (node, rest)
    | .after .object done => ∀ fuel, 3 * s.length ≤ fuel →
        (if peek (skipSpace s) = rbrace then
          some (.container none .object done, (skipSpace s).tail)
        else if peek (skipSpace s) = comma then
          parseMembers libc fuel done (skipSpace (skipSpace s).tail)
        else none) = some (node, rest) := by
  induction h with
  | @scalar s rest value reads =>
      intro fuel enough
      obtain ⟨fuel, rfl⟩ : ∃ k, fuel = k + 1 := ⟨fuel - 1, by omega⟩
      have scalar : parseScalar libc s = some (value, rest) := reads
      have array : peek s ≠ lbrack := fun e => by
        rw [parseScalar_bracket (.inl e)] at scalar
        cases scalar
      have object : peek s ≠ lbrace := fun e => by
        rw [parseScalar_bracket (.inr (.inl e))] at scalar
        cases scalar
      rw [parseValue, if_neg array, if_neg object, scalar]
      rfl
  | @empty kind s rest _ close =>
      intro fuel enough
      obtain ⟨fuel, rfl⟩ : ∃ k, fuel = k + 2 :=
        ⟨fuel - 2, by rw [List.length_cons] at enough; omega⟩
      cases kind with
      | array => simp [parseValue, parseArray, openBracket, close, closeBracket]
      | object =>
          simp [parseValue, parseObject, openBracket, close, closeBracket]
  | @container kind s rest node child ih =>
      intro fuel enough
      have shorter : (skipSpace s).length ≤ s.length := (List.dropWhile_suffix _).length_le
      rw [List.length_cons] at enough
      obtain ⟨fuel, rfl⟩ : ∃ k, fuel = k + 2 := ⟨fuel - 2, by omega⟩
      have closed := child.not_closed
      cases kind with
      | array =>
          simp only [closeBracket] at closed
          simp only [parseValue, parseArray, openBracket, peek_cons, if_true, List.tail_cons]
          exact (if_neg closed).trans (ih fuel (by omega))
      | object =>
          simp only [closeBracket] at closed
          simp only [parseValue, parseObject, openBracket, peek_cons, if_true, List.tail_cons,
            show lbrace ≠ lbrack by decide, if_false]
          exact (if_neg closed).trans (ih fuel (by omega))
  | @element done s s₁ rest c node value _ ih ih' =>
      intro fuel enough
      obtain ⟨fuel, rfl⟩ : ∃ k, fuel = k + 1 := ⟨fuel - 1, by omega⟩
      have := value.shorter.length_lt
      rw [parseElements, ih fuel (by omega)]
      exact ih' fuel (by omega)
  | @member done s s₁ s₂ s₃ rest key c node reads sep value _ ih ih' =>
      intro fuel enough
      obtain ⟨fuel, rfl⟩ : ∃ k, fuel = k + 1 := ⟨fuel - 1, by omega⟩
      have key_lt := (parseString_shorter reads).length_lt
      have sep_lt : s₂.length < s₁.length := (Shorter.of_skipSpace ⟨_, [], sep⟩).length_lt
      have value_lt := value.shorter.of_skipSpace.length_lt
      have skipped : (skipSpace s₂).length ≤ s₂.length := (List.dropWhile_suffix _).length_le
      rw [parseMembers, show parseString s = _ from reads]
      simp only [sep, peek_cons, if_true, List.tail_cons]
      rw [ih fuel (by omega)]
      exact ih' fuel (by omega)
  | @close kind done s rest close =>
      cases kind with
      | array => simp [close, closeBracket]
      | object => simp [close, closeBracket]
  | @next kind done s s₁ rest node sep _ ih =>
      have shorter : s₁.length < s.length := (Shorter.of_skipSpace ⟨_, [], sep⟩).length_lt
      have skipped : (skipSpace s₁).length ≤ s₁.length := (List.dropWhile_suffix _).length_le
      cases kind with
      | array =>
          intro fuel enough
          simp only [sep, peek_cons, List.tail_cons, show comma ≠ rbrack by decide, if_true,
            if_false]
          exact ih fuel (by omega)
      | object =>
          intro fuel enough
          simp only [sep, peek_cons, List.tail_cons, show comma ≠ rbrace by decide, if_true,
            if_false]
          exact ih fuel (by omega)

/-- What `json_decode` accepts is a derivable value with only spaces between it and the
terminator. -/
theorem jsonDecode_derives {s : Bytes} {node : JsonNode ν} (h : jsonDecode libc s = some node) :
    ∃ rest, Derives (.json libc) .value (skipSpace s) node rest ∧ peek (skipSpace rest) = 0 := by
  unfold jsonDecode at h
  cases parsed : parseValue libc (3 * s.length + 1) (skipSpace s) with
  | none => simp [parsed] at h
  | some r =>
      obtain ⟨ret, rest⟩ := r
      simp only [parsed] at h
      split_ifs at h with ended
      cases h
      exact ⟨rest, (parse_sound _).1 _ _ _ parsed, ended⟩

theorem Document.jsonDecode {s : Bytes} {node : JsonNode ν} (h : Document (.json libc) s node) :
    jsonDecode libc s = some node := by
  obtain ⟨rest, derives, ended⟩ := h
  have skipped : (skipSpace s).length ≤ s.length := (List.dropWhile_suffix _).length_le
  rw [Json.jsonDecode, derives.parse _ (by omega)]
  simp [ended]

/-- `json_decode` accepts exactly the JSON documents and returns their tree. -/
theorem jsonDecode_iff {s : Bytes} {node : JsonNode ν} (text : 0 ∉ s) :
    jsonDecode libc s = some node ↔ Document (.json libc) s node := by
  refine ⟨fun h => ?_, Document.jsonDecode⟩
  obtain ⟨rest, derives, ended⟩ := jsonDecode_derives h
  refine ⟨rest, derives, ?_⟩
  have free : 0 ∉ rest := derives.shorter.of_skipSpace.not_mem text
  cases left : skipSpace rest with
  | nil => rfl
  | cons c more =>
      rw [left, peek_cons] at ended
      obtain ⟨front, eq, -⟩ := skipSpace_eq rest
      refine absurd ?_ free
      rw [eq, left, ended]
      simp

/-- A text denotes at most one tree. -/
theorem Document.unique {s : Bytes} {node node' : JsonNode ν} (text : 0 ∉ s)
    (h : Document (.json libc) s node) (h' : Document (.json libc) s node') : node = node' := by
  rw [← jsonDecode_iff text] at h h'
  rw [h] at h'
  cases h'
  rfl

end Parser

end AcnSdk.Json

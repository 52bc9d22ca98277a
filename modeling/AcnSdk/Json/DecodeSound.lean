/-
Soundness of the streaming decoder, against the recursive parser.

The parse machines accept more than JSON: any closing bracket closes any container, a
number is any sequence of digits and dots, a string may hold any byte, and nothing
tells `json_decode_finish` that the input has ended too early. `careful` says, of the
state before a byte, that none of this happens there.

* `completes_of_run` — from a state inside a document, input that is accepted and
  careful to its end completes a JSON text.
-/

import AcnSdk.Json.DecodeInvariant
import AcnSdk.Json.DecodePlain
import AcnSdk.Json.DecodeRun

namespace AcnSdk.Json

open AcnSdk.Lib Ascii Stack

variable {ν : Type} {libc : Libc ν}

/-! ### Careful input -/

/-- A closing bracket is that of the innermost container. -/
def closes (below : List (Open ν)) (byte : Byte) : Bool :=
  (byte != rbrace || inObject below) && (byte != rbrack || !inObject below)

/-- The innermost container is an array without elements. -/
def inEmptyArray : List (Open ν) → Bool
  | ⟨_, .array, []⟩ :: _ => true
  | _ => false

theorem inObject_of_inEmptyArray {below : List (Open ν)} (h : inEmptyArray below = true) :
    inObject below = false := by
  match below, h with
  | ⟨_, .array, []⟩ :: _, _ => rfl

/-- The next byte, with `rest` after it, keeps to JSON: a string is accepted by
`parse_string`, a key also ends at its first quote, a number that ends is all read by
`parse_number`, a value is missing only in an empty array, and brackets match. -/
def careful (st : Stack ν) (byte : Byte) (rest : Bytes) : Bool :=
  match st.mode with
  | .valueInit _ =>
      if byte = dquote then (parseString (byte :: rest)).isSome
      else if byte = rbrack then inEmptyArray st.below
      else byte != comma && byte != rbrace
  | .numberBody _ buffer =>
      isNumeric byte || (parseNumber buffer == some [] && closes st.below byte)
  | .valueEnd _ _ => closes st.below byte
  | .keyInit =>
      byte != dquote ||
        (parseString (byte :: rest)).map Prod.snd == some (rest.dropWhile (· != dquote)).tail
  | _ => true

/-- Every byte that is read passes the check, in the state before it. -/
def along (libc : Libc ν) (check : Stack ν → Byte → Bytes → Bool) : Stack ν → Bytes → Bool
  | _, [] => true
  | st, byte :: rest => check st byte rest &&
      match st.step libc byte with
      | some st => along libc check st rest
      | none => true

/-- Careful bytes, and an end outside all containers. -/
def carefully (libc : Libc ν) (st : Stack ν) (s : Bytes) : Bool :=
  along libc careful st s && (st.run libc s).all fun fin => fin.below.isEmpty

theorem along_append {check : Stack ν → Byte → Bytes → Bool} {st st' : Stack ν} {front rest : Bytes}
    (ran : st.run libc front = some st') (h : along libc check st (front ++ rest) = true) :
    along libc check st' rest = true := by
  induction front generalizing st with
  | nil =>
      cases ran
      exact h
  | cons byte front ih =>
      rw [run_cons] at ran
      obtain ⟨st₁, stepped, later⟩ := Option.bind_eq_some_iff.mp ran
      rw [List.cons_append, along, stepped, Bool.and_eq_true] at h
      exact ih later h.2

/-! ### Texts that complete a document -/

/-- What may follow a value inside the containers of these kinds, from the inside out:
their other children and their ends. -/
def Completes (libc : Libc ν) : List Container → Bytes → Prop
  | [], s => skipSpace s = []
  | kind :: kinds, s => ∀ done, ∃ node rest,
      Derives (.json libc) (.after kind done) s node rest ∧ Completes libc kinds rest

/-- A value and what may follow it. -/
def CompletesValue (libc : Libc ν) (kinds : List Container) (s : Bytes) : Prop :=
  ∃ node rest, Derives (.json libc) .value s node rest ∧ Completes libc kinds rest

/-- A child of a container of this kind and what may follow it. -/
def CompletesChild (libc : Libc ν) (kind : Container) (kinds : List Container) (s : Bytes) : Prop :=
  ∀ done, ∃ node rest, Derives (.json libc) (.child kind done) s node rest ∧
  Completes libc kinds rest

/-- The text from a state inside a literal on. -/
def Literal.text : Literal → Bytes
  | .falseA => [0x61, 0x6C, 0x73, 0x65]
  | .falseL => [0x6C, 0x73, 0x65]
  | .falseS => [0x73, 0x65]
  | .falseE => [0x65]
  | .trueR => [0x72, 0x75, 0x65]
  | .trueU => [0x75, 0x65]
  | .trueE => [0x65]

/-- The kinds of the open containers. -/
def kindsOf (below : List (Open ν)) : List Container := below.map Open.kind

/-- The text completes the document from a state on. Inside a string nothing is said:
the proof goes over a literal in one step. -/
def CompletesFrom (libc : Libc ν) (st : Stack ν) (s : Bytes) : Prop :=
  match st.mode with
  | .valueInit _ => CompletesValue libc (kindsOf st.below) (skipSpace s) ∨
      inEmptyArray st.below = true ∧ ∃ rest, skipSpace s = rbrack :: rest ∧
        Completes libc (kindsOf st.below).tail rest
  | .valueEnd _ _ => Completes libc (kindsOf st.below) s
  | .numberBody _ buffer => ∃ rest, parseNumber (buffer ++ s) = some rest ∧
      Completes libc (kindsOf st.below) rest
  | .literal _ state => ∃ rest, s = state.text ++ rest ∧ Completes libc (kindsOf st.below) rest
  | .keyInit => CompletesChild libc .object (kindsOf st.below).tail (skipSpace s)
  | .keyEnd _ => ∃ s₁, skipSpace s = colon :: s₁ ∧
      CompletesValue libc (kindsOf st.below) (skipSpace s₁)
  | .stringBody _ _ => True
  | .stringEscape _ _ => True
  | .keyBody _ => True

theorem skipSpace_space {c : Byte} (space : isSpace c = true) (s : Bytes) :
    skipSpace (c :: s) = skipSpace s := by
  simp [skipSpace, space]

theorem skipSpace_token {c : Byte} (token : isSpace c = false) (s : Bytes) :
    skipSpace (c :: s) = c :: s := by
  simp [skipSpace, token]

/-- The kinds of the open containers inside an object. -/
theorem kindsOf_inObject {below : List (Open ν)} (inside : inObject below = true) :
    kindsOf below = .object :: (kindsOf below).tail := by
  cases below with
  | nil => cases inside
  | cons o below =>
      have kind : o.kind = .object := by simpa [inObject] using inside
      simp [kindsOf, kind]

/-- Spaces before what follows a value. -/
theorem Completes.space {kinds : List Container} {c : Byte} {s : Bytes} (space : isSpace c = true)
    (h : Completes libc kinds s) : Completes libc kinds (c :: s) := by
  cases kinds with
  | nil =>
      rw [Completes, skipSpace_space space]
      exact h
  | cons kind kinds =>
      intro done
      obtain ⟨node, rest, derives, more⟩ := h done
      refine ⟨node, rest, ?_, more⟩
      cases derives with
      | close close => exact .close ((skipSpace_space space s).trans close)
      | next sep child => exact .next ((skipSpace_space space s).trans sep) child

/-- A value in an array and what follows it are the other elements. -/
theorem CompletesValue.elements {kinds : List Container} {s : Bytes}
    (h : CompletesValue libc (.array :: kinds) s) : CompletesChild libc .array kinds s := by
  intro done
  obtain ⟨c, s₁, value, more⟩ := h
  obtain ⟨node, rest, after, outer⟩ := more (done ++ [c])
  exact ⟨node, rest, .element value after, outer⟩

/-- A key, its value and what follows it are the other members. -/
theorem CompletesValue.members {kinds : List Container} {s s₁ s₂ key : Bytes}
    (literal : parseString s = some (key, s₁)) (sep : skipSpace s₁ = colon :: s₂)
    (h : CompletesValue libc (.object :: kinds) (skipSpace s₂)) :
    CompletesChild libc .object kinds s := by
  intro done
  obtain ⟨c, s₃, value, more⟩ := h
  obtain ⟨node, rest, after, outer⟩ := more (done ++ [c.withKey (some key)])
  exact ⟨node, rest, .member literal sep value after, outer⟩

theorem CompletesChild.container {kind : Container} {kinds : List Container} {s : Bytes}
    (h : CompletesChild libc kind kinds (skipSpace s)) :
    CompletesValue libc kinds (openBracket kind :: s) := by
  obtain ⟨node, rest, child, outer⟩ := h []
  exact ⟨node, rest, .container child, outer⟩

theorem CompletesChild.next {kind : Container} {kinds : List Container} {s : Bytes}
    (h : CompletesChild libc kind kinds (skipSpace s)) : Completes libc (kind :: kinds)
    (comma :: s) := by
  intro done
  obtain ⟨node, rest, child, outer⟩ := h done
  exact ⟨node, rest, .next (skipSpace_token (by decide) s) child, outer⟩

theorem Completes.close {kind : Container} {kinds : List Container} {s : Bytes}
    (h : Completes libc kinds s) : Completes libc (kind :: kinds) (closeBracket kind :: s) := by
  intro done
  refine ⟨_, s, .close (skipSpace_token ?_ s), h⟩
  cases kind <;> decide

/-! ### Bytes -/

/-- Input that is accepted to its end, with a result, and is careful. -/
structure Good (libc : Libc ν) (st : Stack ν) (s : Bytes) : Prop where
  keyed : st.keyed = true
  accepted : ∃ fin, st.run libc s = some fin ∧ fin.root.isSome = true ∧ fin.below = []
  careful : along libc careful st s = true

theorem Good.append {st st' : Stack ν} {front rest : Bytes} (h : Good libc st (front ++ rest))
    (ran : st.run libc front = some st') : Good libc st' rest := by
  refine ⟨run_keyed h.keyed ran, ?_, along_append ran h.careful⟩
  obtain ⟨fin, whole, root⟩ := h.accepted
  rw [run_append, ran, Option.bind_some] at whole
  exact ⟨fin, whole, root⟩

theorem Good.step {st : Stack ν} {byte : Byte} {s : Bytes} (h : Good libc st (byte :: s)) :
    Json.careful st byte s = true ∧ ∃ st', st.step libc byte = some st' ∧ Good libc st' s := by
  obtain ⟨fin, ran, -⟩ := h.accepted
  rw [run_cons] at ran
  obtain ⟨st', stepped, -⟩ := Option.bind_eq_some_iff.mp ran
  have first := h.careful
  rw [along, Bool.and_eq_true] at first
  have one : st.run libc [byte] = some st' := by
    rw [run_cons, stepped]
    rfl
  exact ⟨first.1, st', stepped, Good.append (show Good libc st ([byte] ++ s) from h) one⟩

/-- Good input does not end before a value does. -/
theorem Good.ended {st : Stack ν} (h : Good libc st []) :
    ∃ key node, st = ⟨.valueEnd key node, []⟩ := by
  obtain ⟨mode, below⟩ := st
  obtain ⟨fin, ran, root, outside⟩ := h.accepted
  cases ran
  obtain rfl : below = [] := outside
  cases mode with
  | valueEnd key node => exact ⟨key, node, rfl⟩
  | _ => cases root

/-- A byte after a value. -/
theorem stepValueEnd_completes {key : Option Bytes} {node : JsonNode ν} {below : List (Open ν)}
    {byte : Byte} {st' : Stack ν} {s : Bytes}
    (stepped : stepValueEnd key node below byte = some st') (closed : closes below byte = true)
    (more : CompletesFrom libc st' s) : Completes libc (kindsOf below) (byte :: s) := by
  rw [stepValueEnd.eq_def] at stepped
  split at stepped
  · next space =>
      cases stepped
      exact Completes.space space more
  cases below with
  | nil => cases stepped
  | cons o below =>
      simp only at stepped
      split at stepped
      · next close =>
          cases stepped
          have same : byte = closeBracket o.kind := by
            simp only [closes, inObject] at closed
            rcases close with rfl | rfl <;> cases kind : o.kind <;> simp_all [closeBracket]
          rw [same]
          exact Completes.close more
      split at stepped
      · next sep =>
          cases stepped
          subst sep
          change Completes libc (o.kind :: kindsOf below) (comma :: s)
          unfold Open.childMode at more
          cases kind : o.kind with
          | array =>
              rw [kind] at more
              have inner : kindsOf (o.attach key node :: below) = .array :: kindsOf below := by
                simp [kindsOf, Open.attach, kind]
              rcases more with value | ⟨empty, -⟩
              · rw [inner] at value
                exact value.elements.next
              · simp [Open.attach, inEmptyArray] at empty
          | object =>
              rw [kind] at more
              exact CompletesChild.next more
      · cases stepped

theorem delimited_of_stepValueEnd {key : Option Bytes} {node : JsonNode ν} {below : List (Open ν)}
    {byte : Byte} {st' : Stack ν} (stepped : stepValueEnd key node below byte = some st')
    (s : Bytes) :
    Delimited (byte :: s) := by
  rw [stepValueEnd.eq_def] at stepped
  split at stepped
  · next space => exact .inl space
  cases below with
  | nil => cases stepped
  | cons o below =>
      simp only at stepped
      split at stepped
      · next close => rcases close with rfl | rfl
                      · exact .inr (.inr (.inr rfl))
                      · exact .inr (.inr (.inl rfl))
      split at stepped
      · next sep => exact .inr (.inl sep)
      · cases stepped

/-- A byte in a number. -/
theorem stepNumberBody_completes {key : Option Bytes} {buffer : Bytes} {below : List (Open ν)}
    {byte : Byte} {st' : Stack ν} {s : Bytes}
    (stepped : stepNumberBody libc key buffer below byte = some st')
    (closed : isNumeric byte = true ∨ parseNumber buffer = some [] ∧ closes below byte = true)
    (more : CompletesFrom libc st' s) :
    ∃ rest, parseNumber (buffer ++ byte :: s) = some rest ∧
    Completes libc (kindsOf below) rest := by
  unfold stepNumberBody at stepped
  split at stepped
  · cases stepped
    obtain ⟨rest, number, outer⟩ := more
    rw [List.append_assoc] at number
    exact ⟨rest, number, outer⟩
  · next other =>
      rcases closed with numeric | ⟨valid, closed⟩
      · exact absurd numeric other
      · have stops := (delimited_of_stepValueEnd stepped s).stops
        refine ⟨byte :: s, ?_, stepValueEnd_completes stepped closed more⟩
        rw [parseNumber_append stops, valid]
        rfl

theorem literal_completes {key : Option Bytes} {below : List (Open ν)} {state : Literal}
    {byte : Byte}
    {st' : Stack ν} {s : Bytes} (stepped : step libc ⟨.literal key state, below⟩ byte = some st')
    (more : CompletesFrom libc st' s) :
    ∃ rest, byte :: s = state.text ++ rest ∧ Completes libc (kindsOf below) rest := by
  simp only [step] at stepped
  split at stepped
  · next sym =>
      subst sym
      cases state <;> cases stepped
      case falseE => exact ⟨s, rfl, more⟩
      case trueE => exact ⟨s, rfl, more⟩
      all_goals
        obtain ⟨rest, rfl, outer⟩ := more
        exact ⟨rest, rfl, outer⟩
  · cases stepped

/-- The text of a string literal that the machine reads. -/
theorem StreamChars.split {s out rest : Bytes} (h : StreamChars s out rest) :
    ∃ front, s = front ++ rest ∧ StreamChars front out [] := by
  induction h with
  | close rest => exact ⟨[dquote], rfl, .close []⟩
  | @echo c s out rest quote escape _ ih =>
      obtain ⟨front, rfl, chars⟩ := ih
      exact ⟨c :: front, rfl, .echo quote escape chars⟩
  | @escape c s out rest _ ih =>
      obtain ⟨front, rfl, chars⟩ := ih
      exact ⟨bslash :: c :: front, rfl, .escape chars⟩

/-- Good input goes on after a string. -/
theorem Good.string {key : Option Bytes} {below : List (Open ν)} {s out rest : Bytes}
    (h : Good libc ⟨.valueInit key, below⟩ (dquote :: s))
    (literal : parseString (dquote :: s) = some (out, rest)) :
    ∃ node, Good libc ⟨.valueEnd key node, below⟩ rest := by
  obtain ⟨s₁, eq, chars⟩ := parseString_iff.mp literal
  cases eq
  obtain ⟨read, stream, -⟩ := chars.stream
  obtain ⟨front, rfl, whole⟩ := stream.split
  have ran : run libc ⟨.valueInit key, below⟩ (dquote :: front) =
      some ⟨.valueEnd key (.scalar none (.string (cstr ([] ++ read)))), below⟩ := by
    rw [run_of_step step_string, whole.run]
    rfl
  exact ⟨_, Good.append (show Good libc _ ((dquote :: front) ++ rest) from h) ran⟩

/-- What is after the first quote. -/
theorem dropWhile_tail {k : Bytes} (quote : dquote ∉ k) (rest : Bytes) :
    ((k ++ dquote :: rest).dropWhile (· != dquote)).tail = rest := by
  have all : ∀ c ∈ k, (c != dquote) = true := fun c mem => by
    have : c ≠ dquote := fun e => quote (e ▸ mem)
    simpa using this
  rw [List.dropWhile_append_of_pos all]
  simp

/-- Good input goes on after a key. -/
theorem Good.key {below : List (Open ν)} {s : Bytes}
    (h : Good libc ⟨.keyInit, below⟩ (dquote :: s)) :
    ∃ key rest k, parseString (dquote :: s) = some (key, rest) ∧
    Good libc ⟨.keyEnd k, below⟩ rest := by
  have first := h.step.1
  simp only [Json.careful, bne_self_eq_false, Bool.false_or, beq_iff_eq, Option.map_eq_some_iff,
    Prod.exists] at first
  obtain ⟨key, rest, literal, ended⟩ := first
  obtain ⟨s₁, eq, chars⟩ := parseString_iff.mp literal
  cases eq
  obtain ⟨k, rest', rfl, quote, -⟩ := chars.streamKey
  obtain rfl : rest = rest' := ended.trans (dropWhile_tail quote rest')
  refine ⟨key, rest, cstr k, literal, Good.append
    (show Good libc ⟨.keyInit, below⟩ ((dquote :: (k ++ [dquote])) ++ rest) by simpa using h) ?_⟩
  rw [run_of_step step_key, run_keyBody quote]
  rfl

/-! ### Whole inputs -/

theorem parseScalar_numeric {c : Byte} {s rest : Bytes} (numeric : isNumeric c = true)
    (number : parseNumber (c :: s) = some rest) :
    parseScalar libc (c :: s) = some (.number (libc.strtod (c :: s)), rest) := by
  have token : ∀ b : Byte, isNumeric b = false → c ≠ b := by
    rintro b no rfl
    rw [numeric] at no
    cases no
  simp [parseScalar, token 0x6E (by decide), token 0x66 (by decide), token 0x74 (by decide),
    token dquote (by decide), number]

/-- A byte before a value, with what the state after it completes. -/
theorem valueInit_completes {key : Option Bytes} {below : List (Open ν)} {byte : Byte} {s : Bytes}
    (good : Good libc ⟨.valueInit key, below⟩ (byte :: s))
    (ih : ∀ st' s', s'.length ≤ s.length → Good libc st' s' → CompletesFrom libc st' s') :
    CompletesFrom libc ⟨.valueInit key, below⟩ (byte :: s) := by
  obtain ⟨first, st', stepped, good'⟩ := good.step
  have more := ih st' s le_rfl good'
  simp only [careful] at first
  simp only [step] at stepped
  unfold stepValueInit at stepped
  split at stepped
  · next space =>
      cases stepped
      simpa only [CompletesFrom, skipSpace_space space] using more
  next token =>
  rw [Bool.not_eq_true] at token
  simp only [CompletesFrom, skipSpace_token token]
  split at stepped
  · next brace =>
      cases stepped
      subst brace
      exact .inl (CompletesChild.container more : CompletesValue libc _ (openBracket .object :: s))
  split at stepped
  · next quote =>
      subst quote
      rw [if_pos rfl] at first
      obtain ⟨⟨out, rest⟩, literal⟩ := Option.isSome_iff_exists.mp first
      obtain ⟨node, later⟩ := good.string literal
      have shorter := (parseString_shorter literal).length_lt
      have outer := ih _ rest (by rw [List.length_cons] at shorter; omega) later
      have scalar : parseScalar libc (dquote :: s) = some (.string out, rest) := by
        simp only [parseScalar, peek_cons, if_true, literal]
        rfl
      exact .inl ⟨_, rest, .scalar scalar, outer⟩
  split at stepped
  · next f =>
      cases stepped
      subst f
      obtain ⟨rest, rfl, outer⟩ := more
      have scalar : parseScalar libc (boolText false ++ rest) = some (.bool false, rest) := rfl
      exact .inl ⟨_, rest, .scalar scalar, outer⟩
  split at stepped
  · next t =>
      cases stepped
      subst t
      obtain ⟨rest, rfl, outer⟩ := more
      have scalar : parseScalar libc (boolText true ++ rest) = some (.bool true, rest) := rfl
      exact .inl ⟨_, rest, .scalar scalar, outer⟩
  split at stepped
  · next bracket =>
      cases stepped
      subst bracket
      refine .inl ?_
      rcases more with value | ⟨-, rest, close, outer⟩
      · exact (value.elements.container : CompletesValue libc _ (openBracket .array :: s))
      · have empty : Derives (.json libc) .value (openBracket .array :: s)
            (.container none .array []) rest :=
          .empty trivial close
        exact ⟨_, rest, empty, outer⟩
  next quote _ _ _ =>
  by_cases numeric : isNumeric byte = true
  · obtain ⟨rest, number, outer⟩ := stepNumberBody_completes stepped (.inl numeric) more
    exact .inl ⟨_, rest, .scalar (parseScalar_numeric numeric number), outer⟩
  · -- a value is missing
    unfold stepNumberBody at stepped
    rw [if_neg (by simpa [isNumeric] using numeric)] at stepped
    rw [if_neg quote] at first
    split at first
    · next close =>
        subst close
        refine .inr ⟨first, s, rfl, ?_⟩
        cases below with
        | nil => cases first
        | cons o below =>
            change step libc ⟨.valueEnd key _, o :: below⟩ (closeBracket .array) = _ at stepped
            rw [step_close] at stepped
            cases stepped
            exact more
    · next bracket =>
        simp only [Bool.and_eq_true, bne_iff_ne] at first
        rcases delimited_of_stepValueEnd stepped s with space | sep | close | close
        · rw [peek_cons, token] at space
          cases space
        · exact absurd sep first.1
        · exact absurd close bracket
        · exact absurd close first.2

/-- From any state inside a document, good input completes a JSON text. -/
theorem completes_of_run (st : Stack ν) (s : Bytes) (good : Good libc st s) :
    CompletesFrom libc st s := by
  induction len : s.length using Nat.strong_induction_on generalizing st s with
  | _ n ih =>
  cases s with
  | nil =>
      obtain ⟨key, node, rfl⟩ := good.ended
      exact rfl
  | cons byte s =>
      rw [List.length_cons] at len
      have shorter : ∀ st' s', s'.length ≤ s.length → Good libc st' s' →
          CompletesFrom libc st' s' :=
        fun st' s' le good' => ih s'.length (by omega) st' s' good' rfl
      obtain ⟨first, st', stepped, good'⟩ := good.step
      have more := shorter st' s le_rfl good'
      obtain ⟨mode, below⟩ := st
      cases mode with
      | valueInit key => exact valueInit_completes good shorter
      | valueEnd key node => exact stepValueEnd_completes stepped first more
      | numberBody key buffer =>
          refine stepNumberBody_completes stepped ?_ more
          simpa [careful] using first
      | literal key state => exact literal_completes stepped more
      | stringBody key buffer => trivial
      | stringEscape key buffer => trivial
      | keyBody buffer => trivial
      | keyInit =>
          simp only [step] at stepped
          split at stepped
          · next space =>
              cases stepped
              simpa only [CompletesFrom, skipSpace_space space] using more
          split at stepped
          · next token quote =>
              subst quote
              obtain ⟨key, rest, k, literal, later⟩ := good.key
              have lt := (parseString_shorter literal).length_lt
              rw [List.length_cons] at lt
              obtain ⟨s₁, sep, value⟩ := shorter _ rest (by omega) later
              rw [kindsOf_inObject (((Stack.keyed_iff _).mp good.keyed).1 rfl)] at value
              simp only [CompletesFrom, skipSpace_token (show isSpace dquote = false by decide)]
              exact value.members literal sep
          · cases stepped
      | keyEnd key =>
          simp only [step] at stepped
          split at stepped
          · next space =>
              cases stepped
              simpa only [CompletesFrom, skipSpace_space space] using more
          split at stepped
          · next token sep =>
              cases stepped
              subst sep
              refine ⟨s, skipSpace_token (by decide) s, ?_⟩
              rcases more with value | ⟨empty, -⟩
              · exact value
              · -- a value with a key is not in an array
                have inside := ((Stack.keyed_iff _).mp good.keyed).1 rfl
                rw [inObject_of_inEmptyArray empty] at inside
                cases inside
          · cases stepped

end AcnSdk.Json

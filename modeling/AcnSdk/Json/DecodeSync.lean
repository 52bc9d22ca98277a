/-
The texts that the streaming decoder follows.

`Lexicon.stream` is how the parse machines read scalars and keys: no escape in a key
ends it or stands for another byte, and a backslash in a string takes the next byte
as it is, but for `\n` and `\t`. Over that lexicon the stack machine is in step with
the derivation of a text.

* `Derives.run` — the machine reads a derivable part as the tree it denotes.
* `Document.run` — a whole document.
-/

import AcnSdk.Json.DecodeStack
import AcnSdk.Json.Grammar

namespace AcnSdk.Json

open AcnSdk.Lib Ascii

variable {ν : Type}

/-! ### The lexicon of the machines -/

/-- The characters of a string after its opening quote. -/
inductive StreamChars : Bytes → Bytes → Bytes → Prop where
  | close (rest : Bytes) : StreamChars (dquote :: rest) [] rest
  | echo {c : Byte} {s out rest : Bytes} (quote : c ≠ dquote) (escape : c ≠ bslash)
      (more : StreamChars s out rest) : StreamChars (c :: s) (c :: out) rest
  | escape {c : Byte} {s out rest : Bytes} (more : StreamChars s out rest) :
      StreamChars (bslash :: c :: s) (escapeByte c :: out) rest

/-- A digit or a dot. -/
def isNumeric (c : Byte) : Bool := isDigit c || c == dot

inductive StreamScalar (libc : Libc ν) : Bytes → Scalar ν → Bytes → Prop where
  | bool (b : Bool) (rest : Bytes) : StreamScalar libc (boolText b ++ rest) (.bool b) rest
  | string {s out rest : Bytes} (chars : StreamChars s out rest) :
      StreamScalar libc (dquote :: s) (.string (cstr out)) rest
  | number {num : Bytes} (some : num ≠ []) (numeric : ∀ c ∈ num, isNumeric c = true)
      (rest : Bytes) :
      StreamScalar libc (num ++ rest) (.number (libc.strtod (cstr num))) rest

inductive StreamKey : Bytes → Bytes → Bytes → Prop where
  | key {k : Bytes} (plain : dquote ∉ k) (rest : Bytes) :
      StreamKey (dquote :: (k ++ dquote :: rest)) (cstr k) rest

/-- How the parse machines read scalars and keys. -/
def Lexicon.stream (libc : Libc ν) : Lexicon ν where
  scalar := StreamScalar libc
  key := StreamKey
  empty := False

namespace Stack

variable {libc : Libc ν}

/-! ### Steps of the machine -/

theorem run_of_step {st st' : Stack ν} {byte : Byte} (stepped : st.step libc byte = some st')
    (s : Bytes) : run libc st (byte :: s) = run libc st' s := by
  rw [run_cons, stepped, Option.bind_some]

/-- Spaces between the tokens change nothing. -/
theorem run_skipSpace {st : Stack ν}
    (skips : ∀ byte, isSpace byte = true → st.step libc byte = some st) (s : Bytes) :
    run libc st (skipSpace s) = run libc st s := by
  induction s with
  | nil => rfl
  | cons c s ih =>
      by_cases space : isSpace c = true
      · rw [run_of_step (skips c space), ← ih]
        simp [skipSpace, space]
      · simp [skipSpace, space]

variable {key : Option Bytes} {node : JsonNode ν} {below : List (Open ν)}

theorem valueInit_skips (byte : Byte) (space : isSpace byte = true) :
    step libc ⟨.valueInit key, below⟩ byte = some ⟨.valueInit key, below⟩ := by
  simp [step, stepValueInit, space]

theorem valueEnd_skips (byte : Byte) (space : isSpace byte = true) :
    step libc ⟨.valueEnd key node, below⟩ byte = some ⟨.valueEnd key node, below⟩ := by
  simp only [step]
  rw [stepValueEnd.eq_def, if_pos space]

theorem keyInit_skips (byte : Byte) (space : isSpace byte = true) :
    step libc ⟨.keyInit, below⟩ byte = some ⟨.keyInit, below⟩ := by
  simp [step, space]

theorem keyEnd_skips {k : Bytes} (byte : Byte) (space : isSpace byte = true) :
    step libc ⟨.keyEnd k, below⟩ byte = some ⟨.keyEnd k, below⟩ := by
  simp [step, space]

theorem childMode_skips (o : Open ν) (byte : Byte) (space : isSpace byte = true) :
    step libc ⟨o.childMode, below⟩ byte = some ⟨o.childMode, below⟩ := by
  unfold Open.childMode
  split
  · exact valueInit_skips byte space
  · exact keyInit_skips byte space

theorem step_open (kind : Container) :
    step libc ⟨.valueInit key, below⟩ (openBracket kind) =
      some ⟨(Open.mk key kind ([] : List (JsonNode ν))).childMode, ⟨key, kind, []⟩ :: below⟩ := by
  cases kind with
  | array =>
      simp [step, stepValueInit, openBracket, Open.childMode, show lbrack ≠ 0x66 by decide,
        show lbrack ≠ 0x74 by decide]
  | object =>
      simp [step, stepValueInit, openBracket, Open.childMode]

theorem step_close (kind : Container) (o : Open ν) :
    step libc ⟨.valueEnd key node, o :: below⟩ (closeBracket kind) =
      some ⟨.valueEnd o.key (o.attach key node).node, below⟩ := by
  cases kind with
  | array =>
      simp [step, stepValueEnd, closeBracket]
  | object =>
      simp [step, stepValueEnd, closeBracket]

theorem step_comma (o : Open ν) :
    step libc ⟨.valueEnd key node, o :: below⟩ comma =
      some ⟨o.childMode, o.attach key node :: below⟩ := by
  simp [step, stepValueEnd]

theorem step_colon {k : Bytes} :
    step libc ⟨.keyEnd k, below⟩ colon = some ⟨.valueInit (some k), below⟩ := by
  simp [step]

theorem step_string :
    step libc ⟨.valueInit key, below⟩ dquote = some ⟨.stringBody key [], below⟩ := by
  simp [step, stepValueInit]

theorem step_key : step libc ⟨.keyInit, below⟩ dquote = some ⟨.keyBody [], below⟩ := by
  simp [step]

theorem step_stringChar {buffer : Bytes} {c : Byte} (quote : c ≠ dquote) (escape : c ≠ bslash) :
    step libc ⟨.stringBody key buffer, below⟩ c =
      some ⟨.stringBody key (buffer ++ [c]), below⟩ := by
  simp [step, quote, escape]

theorem step_backslash {buffer : Bytes} :
    step libc ⟨.stringBody key buffer, below⟩ bslash = some ⟨.stringEscape key buffer, below⟩ := by
  simp [step]

theorem step_stringEscape {buffer : Bytes} (c : Byte) :
    step libc ⟨.stringEscape key buffer, below⟩ c =
      some ⟨.stringBody key (buffer ++ [escapeByte c]), below⟩ := by
  simp [step]

theorem step_keyChar {buffer : Bytes} {c : Byte} (quote : c ≠ dquote) :
    step libc ⟨.keyBody buffer, below⟩ c = some ⟨.keyBody (buffer ++ [c]), below⟩ := by
  simp [step, quote]

theorem step_numberChar {buffer : Bytes} {c : Byte} (numeric : isNumeric c = true) :
    step libc ⟨.numberBody key buffer, below⟩ c =
      some ⟨.numberBody key (buffer ++ [c]), below⟩ := by
  rw [isNumeric] at numeric
  simp [step, stepNumberBody, numeric]

end Stack

open Stack

section Run

variable {libc : Libc ν} {key : Option Bytes} {below : List (Open ν)}

/-! ### Tokens -/

theorem StreamChars.run {s out rest : Bytes} (h : StreamChars s out rest) (buffer : Bytes) :
    run libc ⟨.stringBody key buffer, below⟩ s =
      run libc ⟨.valueEnd key (.scalar none (.string (cstr (buffer ++ out)))), below⟩ rest := by
  induction h generalizing buffer with
  | close rest =>
      rw [List.append_nil]
      exact run_of_step (by simp [step]) rest
  | @echo c s out rest quote escape _ ih =>
      rw [run_of_step (step_stringChar quote escape), ih, List.append_assoc]
      rfl
  | @escape c s out rest _ ih =>
      rw [run_of_step step_backslash, run_of_step (step_stringEscape c), ih, List.append_assoc]
      rfl

theorem run_keyBody {k : Bytes} (plain : dquote ∉ k) (rest buffer : Bytes) :
    run libc ⟨.keyBody buffer, below⟩ (k ++ dquote :: rest) =
      run libc ⟨.keyEnd (cstr (buffer ++ k)), below⟩ rest := by
  induction k generalizing buffer with
  | nil =>
      rw [List.append_nil]
      exact run_of_step (by simp [step]) rest
  | cons c k ih =>
      rw [List.mem_cons, not_or] at plain
      rw [List.cons_append, run_of_step (step_keyChar (Ne.symm plain.1)), ih plain.2,
        List.append_assoc]
      rfl

theorem StreamKey.run {s k rest : Bytes} (h : StreamKey s k rest) :
    run libc ⟨.keyInit, below⟩ s = run libc ⟨.keyEnd k, below⟩ rest := by
  cases h with
  | key plain rest => rw [run_of_step step_key, run_keyBody plain, List.nil_append]

theorem run_numberBody {num : Bytes} (numeric : ∀ c ∈ num, isNumeric c = true)
    (rest buffer : Bytes) :
    run libc ⟨.numberBody key buffer, below⟩ (num ++ rest) =
      run libc ⟨.numberBody key (buffer ++ num), below⟩ rest := by
  induction num generalizing buffer with
  | nil => rw [List.append_nil, List.nil_append]
  | cons c num ih =>
      rw [List.forall_mem_cons] at numeric
      rw [List.cons_append, run_of_step (step_numberChar numeric.1), ih numeric.2,
        List.append_assoc]
      rfl

/-- A digit or a dot starts a number. -/
theorem step_numeric {c : Byte} (numeric : isNumeric c = true) :
    step libc ⟨.valueInit key, below⟩ c = some ⟨.numberBody key [c], below⟩ := by
  have token : ∀ b : Byte, isNumeric b = false → c ≠ b := by
    rintro b no rfl
    rw [numeric] at no
    cases no
  have space : isSpace c = false := by
    simp [isSpace, token tab (by decide), token lf (by decide), token cr (by decide),
      token Ascii.space (by decide)]
  rw [isNumeric] at numeric
  simp [step, stepValueInit, stepNumberBody, space, token lbrace (by decide),
    token dquote (by decide),
    token 0x66 (by decide), token 0x74 (by decide), token lbrack (by decide), numeric]

/-- A number ends with the byte after it. -/
theorem run_numberEnd {rest : Bytes} (delimited : Delimited rest) (buffer : Bytes) :
    run libc ⟨.numberBody key buffer, below⟩ rest =
      run libc
        ⟨.valueEnd key (.scalar none (.number (libc.strtod (cstr buffer)))), below⟩ rest := by
  cases rest with
  | nil => rcases delimited with h | h | h | h <;> exact absurd h (by decide)
  | cons c rest =>
      have other : (isDigit c || c == dot) = false := by
        simp only [Delimited, peek_cons, isSpace, Bool.or_eq_true, beq_iff_eq] at delimited
        rcases delimited with (((rfl | rfl) | rfl) | rfl) | rfl | rfl | rfl <;> decide
      rw [run_cons, run_cons]
      simp [step, stepNumberBody, other]

theorem run_literal (b : Bool) (rest : Bytes) :
    run libc ⟨.valueInit key, below⟩ (boolText b ++ rest) =
      run libc ⟨.valueEnd key (.scalar none (.bool b)), below⟩ rest := by
  cases b with
  | true => rfl
  | false => rfl

/-- A scalar is read as the machine's lexicon says. -/
theorem StreamScalar.run {s rest : Bytes} {value : Scalar ν} (h : StreamScalar libc s value rest)
    (delimited : Delimited rest) :
    run libc ⟨.valueInit key, below⟩ s =
      run libc ⟨.valueEnd key (.scalar none value), below⟩ rest := by
  cases h with
  | bool b rest => exact run_literal b rest
  | string chars => rw [run_of_step step_string, chars.run, List.nil_append]
  | @number num some numeric rest =>
      obtain ⟨c, num, rfl⟩ := List.exists_cons_of_ne_nil some
      rw [List.forall_mem_cons] at numeric
      rw [List.cons_append, run_of_step (step_numeric numeric.1), run_numberBody numeric.2,
        run_numberEnd delimited]
      rfl

/-! ### Texts -/

/-- The machine is in step with a derivation over its lexicon. -/
theorem Derives.run {part : Part ν} {s rest : Bytes} {node : JsonNode ν}
    (h : Derives (.stream libc) part s node rest) :
    match part with
    | .value => ∀ key below, (Delimited rest ∨ ∃ kind cs, node = .container none kind cs) →
        run libc ⟨.valueInit key, below⟩ s = run libc ⟨.valueEnd key node, below⟩ rest
    | .child kind done => ∀ key below,
        run libc ⟨(Open.mk key kind done).childMode, ⟨key, kind, done⟩ :: below⟩ s =
          run libc ⟨.valueEnd key node, below⟩ rest
    | .after kind done => ∀ (o : Open ν) key c below, o.attach key c = ⟨o.key, kind, done⟩ →
        run libc ⟨.valueEnd key c, o :: below⟩ s = run libc ⟨.valueEnd o.key node, below⟩ rest := by
  induction h with
  | scalar reads =>
      rintro key below (delimited | ⟨kind, cs, ⟨⟩⟩)
      exact StreamScalar.run reads delimited
  | empty allowed _ => exact absurd allowed id
  | container _ ih =>
      intro key below _
      rw [run_of_step (step_open _), ← run_skipSpace (childMode_skips _)]
      exact ih key below
  | element _ more ih ih' =>
      intro key below
      exact (ih none _ (.inl more.delimited)).trans (ih' _ none _ below rfl)
  | member reads sep _ more ih ih' =>
      intro key below
      refine (StreamKey.run reads).trans ?_
      rw [← run_skipSpace keyEnd_skips, sep, run_of_step step_colon,
        ← run_skipSpace valueInit_skips,
        ih _ _ (.inl more.delimited)]
      exact ih' _ _ _ below rfl
  | @close kind done s rest close =>
      intro o key c below attached
      rw [← run_skipSpace valueEnd_skips, close, run_of_step (step_close _ _), attached]
      rfl
  | @next kind done s s₁ rest node sep _ ih =>
      intro o key c below attached
      have mode : o.childMode = (Open.mk o.key kind done : Open ν).childMode := by
        rw [← attached]
        rfl
      rw [← run_skipSpace valueEnd_skips, sep, run_of_step (step_comma _), attached, mode,
        ← run_skipSpace (childMode_skips _)]
      exact ih o.key below

/-- The machine reads a whole document as the tree it denotes. -/
theorem Document.run {s : Bytes} {kind : Container} {cs : List (JsonNode ν)}
    (h : Document (.stream libc) s (.container none kind cs)) :
    Stack.init.run libc s = some ⟨.valueEnd none (.container none kind cs), []⟩ := by
  obtain ⟨rest, derives, ended⟩ := h
  rw [Stack.init, ← run_skipSpace valueInit_skips, derives.run none [] (.inr ⟨kind, cs, rfl⟩),
    ← run_skipSpace valueEnd_skips, ended]
  rfl

end Run

end AcnSdk.Json

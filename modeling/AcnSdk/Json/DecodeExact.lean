/-
How sound the streaming decoder is.

`completes_of_run` gives one direction: careful input is JSON. Here is the other one:
along a JSON text that the machines accept every byte is careful, as long as no key
has an escaped quote, where the machines take the key to end.

* `Derives.leads` — the machines go over a JSON text with careful steps.
* `decodeStream_sound_iff` — what the streaming decoder accepts is accepted by
  `json_decode` exactly if it is careful.
-/

import AcnSdk.Json.DecodeSound

namespace AcnSdk.Json

open AcnSdk.Lib Ascii Stack

variable {ν : Type} {libc : Libc ν}

/-! ### JSON texts are careful -/

/-- Accepted and careful steps from a state and a text to a state and the text left. -/
inductive Leads (libc : Libc ν) : Stack ν → Bytes → Stack ν → Bytes → Prop where
  | refl (st : Stack ν) (s : Bytes) : Leads libc st s st s
  | step {st st₁ st' : Stack ν} {byte : Byte} {s s' : Bytes} (first : careful st byte s = true)
      (stepped : st.step libc byte = some st₁) (more : Leads libc st₁ s st' s') :
      Leads libc st (byte :: s) st' s'

theorem Leads.trans {st st₁ st₂ : Stack ν} {s s₁ s₂ : Bytes} (h : Leads libc st s st₁ s₁)
    (h' : Leads libc st₁ s₁ st₂ s₂) : Leads libc st s st₂ s₂ := by
  induction h with
  | refl _ _ => exact h'
  | step first stepped _ ih => exact .step first stepped (ih h')

theorem Leads.run_eq {st st' : Stack ν} {s s' : Bytes} (h : Leads libc st s st' s') :
    st.run libc s = st'.run libc s' := by
  induction h with
  | refl _ _ => rfl
  | step _ stepped _ ih => rw [run_of_step stepped, ih]

theorem Leads.careful {st st' : Stack ν} {s s' : Bytes} (h : Leads libc st s st' s')
    (later : along libc Json.careful st' s' = true) : along libc Json.careful st s = true := by
  induction h with
  | refl _ _ => exact later
  | step first stepped _ ih =>
      rw [along, stepped, Bool.and_eq_true]
      exact ⟨first, ih later⟩

theorem Leads.along {check : Stack ν → Byte → Bytes → Bool} {st st' : Stack ν} {s s' : Bytes}
    (h : Leads libc st s st' s') (whole : along libc check st s = true) :
    along libc check st' s' = true := by
  induction h with
  | refl _ _ => exact whole
  | step _ stepped _ ih =>
      rw [Json.along, stepped, Bool.and_eq_true] at whole
      exact ih whole.2

/-- Spaces. -/
theorem leads_skipSpace {st : Stack ν}
    (skips : ∀ byte, isSpace byte = true → st.step libc byte = some st)
    (cautious : ∀ byte rest, isSpace byte = true → careful st byte rest = true) (s : Bytes) :
    Leads libc st s st (skipSpace s) := by
  induction s with
  | nil => exact .refl st []
  | cons c s ih =>
      by_cases space : isSpace c = true
      · rw [skipSpace_space space]
        exact .step (cautious c s space) (skips c space) ih
      · rw [skipSpace_token (by simpa using space)]
        exact .refl st _

theorem space_not_bracket {c : Byte} (space : isSpace c = true) :
    c ≠ dquote ∧ c ≠ rbrack ∧ c ≠ rbrace ∧ c ≠ comma ∧ isNumeric c = false := by
  simp only [isSpace, Bool.or_eq_true, beq_iff_eq] at space
  rcases space with ((rfl | rfl) | rfl) | rfl <;> decide

theorem valueInit_cautious {key : Option Bytes} {below : List (Open ν)} (c : Byte) (rest : Bytes)
    (space : isSpace c = true) : careful ⟨.valueInit key, below⟩ c rest = true := by
  obtain ⟨quote, bracket, brace, sep, -⟩ := space_not_bracket space
  simp [careful, quote, bracket, brace, sep]

theorem valueEnd_cautious {key : Option Bytes} {node : JsonNode ν} {below : List (Open ν)}
    (c : Byte)
    (rest : Bytes) (space : isSpace c = true) :
    careful ⟨.valueEnd key node, below⟩ c rest = true := by
  obtain ⟨-, bracket, brace, -, -⟩ := space_not_bracket space
  simp [careful, closes, bracket, brace]

theorem keyInit_cautious {below : List (Open ν)} (c : Byte) (rest : Bytes)
    (space : isSpace c = true) :
    careful ⟨.keyInit, below⟩ c rest = true := by
  obtain ⟨quote, -⟩ := space_not_bracket space
  simp [careful, quote]

theorem childMode_cautious (o : Open ν) {below : List (Open ν)} (c : Byte) (rest : Bytes)
    (space : isSpace c = true) : careful ⟨o.childMode, below⟩ c rest = true := by
  unfold Open.childMode
  split
  · exact valueInit_cautious c rest space
  · exact keyInit_cautious c rest space

/-! ### Tokens -/

section Tokens

variable {key : Option Bytes} {below : List (Open ν)}

theorem StreamChars.leads {s out rest : Bytes} (h : StreamChars s out rest) (buffer : Bytes) :
    Leads libc ⟨.stringBody key buffer, below⟩ s
      ⟨.valueEnd key (.scalar none (.string (cstr (buffer ++ out)))), below⟩ rest := by
  induction h generalizing buffer with
  | close rest =>
      rw [List.append_nil]
      exact .step rfl (by simp [step]) (.refl _ _)
  | @echo c s out rest quote escape _ ih =>
      have more := ih (buffer ++ [c])
      rw [List.append_assoc] at more
      exact .step rfl (step_stringChar quote escape) more
  | @escape c s out rest _ ih =>
      have more := ih (buffer ++ [escapeByte c])
      rw [List.append_assoc] at more
      exact .step rfl step_backslash (.step rfl (step_stringEscape c) more)

theorem leads_string {s out rest : Bytes} (literal : parseString s = some (out, rest)) :
    ∃ node, Leads libc ⟨.valueInit key, below⟩ s ⟨.valueEnd key node, below⟩ rest := by
  have accepted : (parseString s).isSome = true := by rw [literal]; rfl
  obtain ⟨s₁, rfl, chars⟩ := parseString_iff.mp literal
  obtain ⟨read, stream, -⟩ := chars.stream
  exact ⟨_, .step (by simpa [careful] using accepted) step_string (stream.leads [])⟩

theorem leads_keyBody {k : Bytes} (plain : dquote ∉ k) (rest buffer : Bytes) :
    Leads libc ⟨.keyBody buffer, below⟩ (k ++ dquote :: rest)
      ⟨.keyEnd (cstr (buffer ++ k)), below⟩ rest := by
  induction k generalizing buffer with
  | nil =>
      rw [List.append_nil]
      exact .step rfl (by simp [step]) (.refl _ _)
  | cons c k ih =>
      rw [List.mem_cons, not_or] at plain
      have more := ih plain.2 (buffer ++ [c])
      rw [List.append_assoc] at more
      exact .step rfl (step_keyChar (Ne.symm plain.1)) more

theorem leads_numberBody {num : Bytes} (numeric : ∀ c ∈ num, isNumeric c = true)
    (rest buffer : Bytes) :
    Leads libc ⟨.numberBody key buffer, below⟩ (num ++ rest)
      ⟨.numberBody key (buffer ++ num), below⟩ rest := by
  induction num generalizing buffer with
  | nil =>
      rw [List.append_nil]
      exact .refl _ _
  | cons c num ih =>
      rw [List.forall_mem_cons] at numeric
      have more := ih numeric.2 (buffer ++ [c])
      rw [List.append_assoc] at more
      exact .step (by simp [careful, numeric.1]) (step_numberChar numeric.1) more

theorem leads_literal (b : Bool) (rest : Bytes) :
    Leads libc ⟨.valueInit key, below⟩ (boolText b ++ rest)
      ⟨.valueEnd key (.scalar none (.bool b)), below⟩ rest := by
  cases b with
  | true =>
      exact .step rfl rfl (.step rfl rfl (.step rfl rfl (.step rfl rfl (.refl _ _))))
  | false =>
      exact .step rfl rfl
        (.step rfl rfl (.step rfl rfl (.step rfl rfl (.step rfl rfl (.refl _ _)))))

/-- The machine has a whole value: a number ends with the byte after it. -/
def Ended (libc : Libc ν) (mode : Mode ν) (key : Option Bytes) (node : JsonNode ν) : Prop :=
  mode = .valueEnd key node ∨ ∃ buffer, mode = .numberBody key buffer ∧
  parseNumber buffer = some [] ∧
    node = .scalar none (.number (libc.strtod (cstr buffer)))

/-- What is careful after a value is so after a number. -/
theorem Ended.leads {mode : Mode ν} {node : JsonNode ν} {st' : Stack ν} {s s' : Bytes}
    (ended : Ended libc mode key node) (stops : Stops s)
    (h : Leads libc ⟨.valueEnd key node, below⟩ s st' s') (shorter : s'.length < s.length) :
    Leads libc ⟨mode, below⟩ s st' s' := by
  rcases ended with rfl | ⟨buffer, rfl, whole, rfl⟩
  · exact h
  cases h with
  | refl _ _ => exact absurd shorter (lt_irrefl _)
  | @step _ st₁ _ byte s _ first stepped more =>
      have other : isNumeric byte = false := by
        simp only [Stops, peek_cons] at stops
        simp [isNumeric, stops.1, stops.2.1]
      refine .step ?_ ?_ more
      · simp only [careful] at first ⊢
        simp [whole, first]
      · rw [isNumeric] at other
        simpa [step, stepNumberBody, other] using stepped

theorem leads_number {s rest : Bytes} (number : parseNumber s = some rest) (stops : Stops rest)
    (accepts : Accepts libc ⟨.valueInit key, below⟩ s) :
    ∃ mode node, Ended libc mode key node ∧
    Leads libc ⟨.valueInit key, below⟩ s ⟨mode, below⟩ rest := by
  have decimal := number_plain number accepts
  obtain ⟨d, ds, rfl, digits⟩ := parseDecimal_digits decimal
  have numeric : ∀ c ∈ d :: ds, isNumeric c = true := fun c mem => by
    simpa [isNumeric] using digits c mem
  have whole : parseNumber (d :: ds) = some [] := by
    have append := parseNumber_append stops (d :: ds)
    rw [List.cons_append, number] at append
    obtain ⟨left, parsed, eq⟩ := Option.map_eq_some_iff.mp append.symm
    obtain rfl : left = [] := by simpa using eq
    exact parsed
  rw [List.forall_mem_cons] at numeric
  have token : ∀ b : Byte, isNumeric b = false → d ≠ b := by
    rintro b no rfl
    rw [numeric.1] at no
    cases no
  refine ⟨.numberBody key (d :: ds), _, .inr ⟨d :: ds, rfl, whole, rfl⟩,
    .step ?_ (step_numeric numeric.1)
    (leads_numberBody numeric.2 rest [d])⟩
  simp [careful, token dquote (by decide), token rbrack (by decide), token comma (by decide),
    token rbrace (by decide)]

end Tokens

/-! ### Texts -/

/-- A key that `parse_string` accepts ends at its first quote: it has no escaped one. -/
def keyEnds (st : Stack ν) (byte : Byte) (rest : Bytes) : Bool :=
  match st.mode with
  | .keyInit => byte != dquote || (parseString (byte :: rest)).all fun r =>
      r.2 == (rest.dropWhile (· != dquote)).tail
  | _ => true

/-- The machine can still read the text, and its keys have no escaped quote. -/
structure Readable (libc : Libc ν) (st : Stack ν) (s : Bytes) : Prop where
  accepts : Accepts libc st s
  keys : along libc keyEnds st s = true

theorem Leads.readable {st st' : Stack ν} {s s' : Bytes} (h : Leads libc st s st' s')
    (readable : Readable libc st s) : Readable libc st' s' :=
  ⟨readable.accepts.congr h.run_eq, h.along readable.keys⟩

theorem leads_key {below : List (Open ν)} {s key rest : Bytes}
    (literal : parseString s = some (key, rest)) (readable : Readable libc ⟨.keyInit, below⟩ s) :
    ∃ k, Leads libc ⟨.keyInit, below⟩ s ⟨.keyEnd k, below⟩ rest := by
  obtain ⟨s₁, rfl, chars⟩ := parseString_iff.mp literal
  have first : keyEnds (⟨.keyInit, below⟩ : Stack ν) dquote s₁ = true := by
    have keys := readable.keys
    rw [along, Bool.and_eq_true] at keys
    exact keys.1
  simp only [keyEnds, bne_self_eq_false, Bool.false_or, literal, Option.all_some,
    beq_iff_eq] at first
  have cautious : careful (⟨.keyInit, below⟩ : Stack ν) dquote s₁ = true := by
    simp [careful, literal, ← first]
  obtain ⟨k, rest', rfl, quote, -⟩ := chars.streamKey
  rw [dropWhile_tail quote] at first
  subst first
  exact ⟨_, .step cautious step_key (leads_keyBody quote rest [])⟩

/-- A value that has ended is read on as one. -/
theorem Ended.readable {mode : Mode ν} {key : Option Bytes} {node : JsonNode ν}
    {below : List (Open ν)}
    {s : Bytes} (ended : Ended libc mode key node) (delimited : Delimited s)
    (h : Readable libc ⟨mode, below⟩ s) : Readable libc ⟨.valueEnd key node, below⟩ s := by
  rcases ended with rfl | ⟨buffer, rfl, -, rfl⟩
  · exact h
  refine ⟨h.accepts.congr (run_numberEnd delimited buffer), ?_⟩
  have keys := h.keys
  have stops := delimited.stops
  cases s with
  | nil => rfl
  | cons c s =>
      have other : (isDigit c || c == dot) = false := by
        simp only [Stops, peek_cons] at stops
        simp [stops.1, stops.2.1]
      simpa [along, keyEnds, step, stepNumberBody, other] using keys

theorem leads_open (libc : Libc ν) (key : Option Bytes) (below : List (Open ν)) (kind : Container)
    (s : Bytes) :
    Leads libc ⟨.valueInit key, below⟩ (openBracket kind :: s)
      ⟨(Open.mk key kind ([] : List (JsonNode ν))).childMode, ⟨key, kind, []⟩ :: below⟩
        (skipSpace s) := by
  refine .step ?_ (step_open kind) (leads_skipSpace (childMode_skips _) (childMode_cautious _) s)
  cases kind <;> rfl

theorem leads_close {o : Open ν} {kind : Container} (same : o.kind = kind) (key : Option Bytes)
    (c : JsonNode ν) (below : List (Open ν)) {s rest : Bytes}
    (close : skipSpace s = closeBracket kind :: rest) :
    Leads libc ⟨.valueEnd key c, o :: below⟩ s
      ⟨.valueEnd o.key (o.attach key c).node, below⟩ rest := by
  have spaces : Leads libc ⟨.valueEnd key c, o :: below⟩ s ⟨.valueEnd key c, o :: below⟩
      (skipSpace s) :=
    leads_skipSpace valueEnd_skips valueEnd_cautious s
  rw [close] at spaces
  refine spaces.trans (.step ?_ (step_close kind o) (.refl _ _))
  cases kind <;>
    simp [careful, closes, inObject, same, closeBracket, show rbrack ≠ rbrace by decide,
    show rbrace ≠ rbrack by decide]

theorem leads_comma (libc : Libc ν) (o : Open ν) (key : Option Bytes) (c : JsonNode ν)
    (below : List (Open ν))
    {s s₁ : Bytes} (sep : skipSpace s = comma :: s₁) :
    Leads libc ⟨.valueEnd key c, o :: below⟩ s
      ⟨(o.attach key c).childMode, o.attach key c :: below⟩ (skipSpace s₁) := by
  have spaces : Leads libc ⟨.valueEnd key c, o :: below⟩ s ⟨.valueEnd key c, o :: below⟩
      (skipSpace s) :=
    leads_skipSpace valueEnd_skips valueEnd_cautious s
  rw [sep] at spaces
  refine spaces.trans
    (.step ?_ (step_comma o) (leads_skipSpace (childMode_skips _) (childMode_cautious _) s₁))
  simp [careful, closes]

theorem leads_colon {k : Bytes} {below : List (Open ν)} {s s₁ : Bytes}
    (sep : skipSpace s = colon :: s₁) :
    Leads libc ⟨.keyEnd k, below⟩ s ⟨.valueInit (some k), below⟩ (skipSpace s₁) := by
  have spaces : Leads libc ⟨.keyEnd k, below⟩ s ⟨.keyEnd k, below⟩ (skipSpace s) :=
    leads_skipSpace keyEnd_skips (fun _ _ _ => rfl) s
  rw [sep] at spaces
  exact spaces.trans (.step rfl step_colon (leads_skipSpace valueInit_skips valueInit_cautious s₁))

/-- Along a JSON text that the machine reads every byte is careful. -/
theorem Derives.leads {part : Part ν} {s rest : Bytes} {node : JsonNode ν}
    (h : Derives (.json libc) part s node rest) :
    match part with
    | .value => ∀ key below, Stops rest → Readable libc ⟨.valueInit key, below⟩ s →
        ∃ mode node', Ended libc mode key node' ∧
          Leads libc ⟨.valueInit key, below⟩ s ⟨mode, below⟩ rest
    | .child kind _ => ∀ (o : Open ν) below, o.kind = kind →
        Readable libc ⟨o.childMode, o :: below⟩ s →
        ∃ node', Leads libc ⟨o.childMode, o :: below⟩ s ⟨.valueEnd o.key node', below⟩ rest
    | .after kind _ => ∀ (o : Open ν) key c below, o.kind = kind →
        Readable libc ⟨.valueEnd key c, o :: below⟩ s →
        ∃ node', Leads libc ⟨.valueEnd key c, o :: below⟩ s
          ⟨.valueEnd o.key node', below⟩ rest := by
  induction h with
  | scalar reads =>
      intro key below stops readable
      rcases parseScalar_cases reads with ⟨rfl, -⟩ | ⟨b, rfl, -⟩ | ⟨out, literal, -⟩ | ⟨number, -⟩
      · exact absurd readable.accepts (not_accepts (step_valueInit_stuck (by decide)) _)
      · exact ⟨_, _, .inl rfl, leads_literal b _⟩
      · obtain ⟨node, leads⟩ := leads_string literal
        exact ⟨_, node, .inl rfl, leads⟩
      · exact leads_number number stops readable.accepts
  | @empty kind s rest _ close =>
      intro key below _ readable
      have opened := leads_open libc key below kind s
      rw [close] at opened
      cases kind with
      | array =>
          have closed : Leads libc ⟨.valueInit none, ⟨key, .array, []⟩ :: below⟩ (rbrack :: rest)
              ⟨.valueEnd key
                (.container none .array [.scalar none (.number (libc.strtod []))]), below⟩
              rest := .step rfl rfl (.refl _ _)
          exact ⟨_, _, .inl rfl, opened.trans closed⟩
      | object => exact absurd (opened.readable readable).accepts (not_accepts rfl _)
  | @container kind s rest node _ ih =>
      intro key below _ readable
      have opened := leads_open libc key below kind s
      obtain ⟨node', children⟩ := ih _ below rfl (opened.readable readable)
      exact ⟨_, node', .inl rfl, opened.trans children⟩
  | element value more ih ih' =>
      intro o below kind readable
      have mode : o.childMode = .valueInit none := by simp [Open.childMode, kind]
      rw [mode] at readable ⊢
      obtain ⟨m, c, ended, first⟩ := ih none (o :: below) more.delimited.stops readable
      have later := ended.readable more.delimited (first.readable readable)
      obtain ⟨node', others⟩ := ih' o none c below kind later
      exact ⟨node', first.trans (ended.leads more.delimited.stops others more.shorter.length_lt)⟩
  | member reads sep value more ih ih' =>
      intro o below kind readable
      have mode : o.childMode = .keyInit := by simp [Open.childMode, kind]
      rw [mode] at readable ⊢
      obtain ⟨k, named⟩ := leads_key reads readable
      have paired := named.trans (leads_colon sep)
      obtain ⟨m, c, ended, first⟩ :=
        ih (some k) (o :: below) more.delimited.stops (paired.readable readable)
      have later := ended.readable more.delimited ((paired.trans first).readable readable)
      obtain ⟨node', others⟩ := ih' o (some k) c below kind later
      exact ⟨node', (paired.trans first).trans
        (ended.leads more.delimited.stops others more.shorter.length_lt)⟩
  | close close =>
      intro o key c below same _
      exact ⟨_, leads_close same key c below close⟩
  | next sep _ ih =>
      intro o key c below same readable
      have next := leads_comma libc o key c below sep
      obtain ⟨node', others⟩ := ih (o.attach key c) below same (next.readable readable)
      exact ⟨node', next.trans others⟩

/-! ### Whole inputs -/

/-- Outside all containers only spaces are accepted. -/
theorem valueEnd_tail {key : Option Bytes} {node : JsonNode ν} {s : Bytes}
    (accepts : Accepts libc ⟨.valueEnd key node, []⟩ s) :
    carefully libc ⟨.valueEnd key node, []⟩ s = true := by
  induction s with
  | nil => rfl
  | cons c s ih =>
      by_cases space : isSpace c = true
      · have stepped : step libc ⟨.valueEnd key node, []⟩ c = some ⟨.valueEnd key node, []⟩ :=
          valueEnd_skips c space
        have later := ih (accepts.step stepped)
        rw [carefully, Bool.and_eq_true] at later ⊢
        rw [along, run_of_step stepped, stepped, Bool.and_eq_true]
        exact ⟨⟨valueEnd_cautious c s space, later.1⟩, later.2⟩
      · refine absurd accepts (not_accepts ?_ s)
        simp [step, stepValueEnd, space]

theorem Ended.tail {mode : Mode ν} {key : Option Bytes} {node : JsonNode ν} {s : Bytes}
    (ended : Ended libc mode key node) (stops : Stops s) (accepts : Accepts libc ⟨mode, []⟩ s) :
    carefully libc ⟨mode, []⟩ s = true := by
  rcases ended with rfl | ⟨buffer, rfl, whole, rfl⟩
  · exact valueEnd_tail accepts
  cases s with
  | nil => rfl
  | cons c s =>
      have other : (isDigit c || c == dot) = false := by
        simp only [Stops, peek_cons] at stops
        simp [stops.1, stops.2.1]
      have same : step libc ⟨.numberBody key buffer, []⟩ c =
          step libc ⟨.valueEnd key (.scalar none (.number (libc.strtod (cstr buffer)))), []⟩ c := by
        simp [step, stepNumberBody, other]
      have run_eq : run libc ⟨.numberBody key buffer, []⟩ (c :: s) =
          run libc ⟨.valueEnd key (.scalar none (.number (libc.strtod (cstr buffer)))), []⟩
            (c :: s) := by
        rw [run_cons, same, ← run_cons]
      have tail := valueEnd_tail (accepts.congr run_eq)
      rw [carefully, Bool.and_eq_true, along, Bool.and_eq_true] at tail ⊢
      rw [same, run_eq]
      refine ⟨⟨?_, tail.1.2⟩, tail.2⟩
      have closed := tail.1.1
      simp only [careful] at closed ⊢
      simp [whole, closed]

theorem Leads.carefully {st st' : Stack ν} {s s' : Bytes} (h : Leads libc st s st' s')
    (later : carefully libc st' s' = true) : carefully libc st s = true := by
  rw [Json.carefully, Bool.and_eq_true] at later ⊢
  rw [h.run_eq]
  exact ⟨h.careful later.1, later.2⟩

/-- Careful input that is accepted is JSON. -/
theorem jsonDecode_of_carefully {s : Bytes} {fin : Stack ν} (ran : Stack.init.run libc s = some fin)
    (root : fin.root.isSome = true) (h : carefully libc Stack.init s = true) :
    (jsonDecode libc s).isSome = true := by
  rw [carefully, Bool.and_eq_true, ran, Option.all_some, List.isEmpty_iff] at h
  have good : Good libc Stack.init s := ⟨rfl, ⟨fin, ran, root, h.2⟩, h.1⟩
  rcases completes_of_run _ s good with ⟨node, rest, derives, ended⟩ | ⟨empty, -⟩
  · have document : Document (.json libc) s node := ⟨rest, derives, ended⟩
    rw [document.jsonDecode]
    rfl
  · cases empty

/-- JSON that is accepted is careful. -/
theorem carefully_of_jsonDecode {s : Bytes} (readable : Readable libc Stack.init s)
    (h : (jsonDecode libc s).isSome = true) : carefully libc Stack.init s = true := by
  obtain ⟨tree, parsed⟩ := Option.isSome_iff_exists.mp h
  obtain ⟨rest, derives, ended⟩ := jsonDecode_derives parsed
  have spaces : Leads libc Stack.init s Stack.init (skipSpace s) :=
    leads_skipSpace valueInit_skips valueInit_cautious s
  have stops : Stops rest := by
    rcases space_or_peek_skipSpace rest with space | same
    · exact Delimited.stops (.inl space)
    · rw [ended] at same
      simp [Stops, ← same, show isDigit 0 = false by decide, show (0 : Byte) ≠ dot by decide,
        show (0 : Byte) ≠ minus by decide, show (0 : Byte) ≠ plus by decide]
  obtain ⟨mode, node, finished, value⟩ := derives.leads none [] stops (spaces.readable readable)
  have whole := spaces.trans value
  exact whole.carefully (finished.tail stops (whole.readable readable).accepts)

/-- Input in any parts that the streaming decoder accepts with a result, and in whose
keys no quote is escaped, is accepted by `json_decode` exactly if it is careful. -/
theorem decodeStream_sound_iff (libc : Libc ν) {sm : Addr} {h h' : Heap (Jpm ν)} {x : Jpm ν}
    (cell : h.cells sm = some x) (live : sm < h.brk) {parts : List Bytes} {tree : JsonNode ν}
    (accepted : jsonDecodeStream libc sm parts h = .ok (some (some tree), h'))
    (keys : along libc keyEnds Stack.init parts.flatten = true) :
    (jsonDecode libc parts.flatten).isSome = true ↔
      carefully libc Stack.init parts.flatten = true := by
  obtain ⟨h₁, result⟩ := decodeStream_eq libc cell live parts
  rw [accepted] at result
  have eq := congrArg Prod.fst (Except.ok.inj result)
  obtain ⟨fin, ran, root⟩ := Option.map_eq_some_iff.mp eq.symm
  constructor
  · exact carefully_of_jsonDecode ⟨⟨fin, ran⟩, keys⟩
  · exact jsonDecode_of_carefully ran (by rw [root]; rfl)

/-- `[12]` in two parts. -/
theorem decodeStream_sound_iff_array :
    ∃ h', jsonDecodeStream Libc.nat 0 [[0x5B, 0x31], [0x32, 0x5D]] callerHeap =
        .ok (some (some (.container none .array [.scalar none (.number 12)])), h') ∧
      ((jsonDecode Libc.nat [0x5B, 0x31, 0x32, 0x5D]).isSome = true ↔
        carefully Libc.nat Stack.init [0x5B, 0x31, 0x32, 0x5D] = true) := by
  have caller : (callerHeap : Heap (Jpm Nat)).cells 0 = some jsonParseMachineInit := rfl
  obtain ⟨h', decoded⟩ := decodeStream_eq Libc.nat caller (by decide) [[0x5B, 0x31], [0x32, 0x5D]]
  exact ⟨h', decoded, decodeStream_sound_iff Libc.nat caller (by decide) decoded (by decide)⟩

/-- `[1}` -/
def mismatched : Bytes := [0x5B, 0x31, 0x7D]

/-- The streaming decoder reads `[1}` as an array, `json_decode` rejects it. -/
theorem mismatched_accepted :
    (∃ h', jsonDecodeStream Libc.nat 0 [mismatched] callerHeap =
        .ok (some (some (.container none .array [.scalar none (.number 1)])), h')) ∧
      jsonDecode Libc.nat mismatched = none := by
  refine ⟨?_, rfl⟩
  have caller : (callerHeap : Heap (Jpm Nat)).cells 0 = some jsonParseMachineInit := rfl
  obtain ⟨h', decoded⟩ := decodeStream_eq Libc.nat caller (by decide) [mismatched]
  exact ⟨h', decoded⟩

-- `{"a\":1,":2}`: with an escaped quote in a key both decoders can accept different things
example : (Stack.init.run Libc.nat [0x7B, 0x22, 0x61, 0x5C, 0x22, 0x3A, 0x31, 0x2C, 0x22, 0x3A,
      0x32, 0x7D]).isSome = true ∧
    (jsonDecode Libc.nat [0x7B, 0x22, 0x61, 0x5C, 0x22, 0x3A, 0x31, 0x2C, 0x22, 0x3A,
      0x32, 0x7D]).isSome = true ∧
    along Libc.nat keyEnds Stack.init [0x7B, 0x22, 0x61, 0x5C, 0x22, 0x3A, 0x31, 0x2C, 0x22, 0x3A,
      0x32, 0x7D] = false := by decide

end AcnSdk.Json

/-
What the streaming encoder has to emit.

* `quoted` — a string literal with only the double quote escaped, and
  `jemEncodeString_eq`: resumed at any offset, `jem_encode_string` stores the
  next bytes of the literal.
* `valueText` — the text of a node as the machine walks it, key by key.
* `compact` — the reference serialisation, and `valueText_eq_compact`: for a
  tree whose keyed nodes are the members of its objects the two agree.
-/

import AcnSdk.Json.Encode

namespace AcnSdk.Json

open AcnSdk.Lib Ascii

/-! ### String literals -/

/-- The body of a literal: a backslash before each double quote. -/
def escaped (s : Bytes) : Bytes := s.flatMap fun c => if isEscape c then [bslash, c] else [c]

/-- A string literal. -/
def quoted (s : Bytes) : Bytes := dquote :: escaped s ++ [dquote]

@[simp] theorem escaped_nil : escaped [] = [] := rfl

theorem escaped_cons (c : Byte) (s : Bytes) :
    escaped (c :: s) = (if isEscape c then [bslash, c] else [c]) ++ escaped s := rfl

theorem encodedStrlen_eq (s : Bytes) : encodedStrlen s = (quoted s).length := by
  have loop : ∀ (s : Bytes) (total : Nat),
      s.foldl (fun total c => (if isEscape c then total + 1 else total) + 1) total =
        total + (escaped s).length := by
    intro s
    induction s with
    | nil => intro total; rfl
    | cons c s ih =>
        intro total
        rw [List.foldl_cons, ih, escaped_cons, List.length_append]
        split <;> simp <;> omega
  rw [encodedStrlen, loop]
  simp [quoted]
  omega

/-- Past the bytes to skip, the loop stores the rest of the body. -/
theorem jemStringLoop_emit {limit threash : Nat} (s : Bytes) : ∀ (skip : Nat) (buf : Bytes)
    (offset len : Nat), threash ≤ skip → offset + (escaped s).length = limit →
    jemStringLoop limit threash s skip buf offset len =
      (buf ++ (escaped s).take len, offset + min len (escaped s).length,
        len - (escaped s).length) := by
  induction s with
  | nil => intro skip buf offset len _ _; simp [jemStringLoop]
  | cons c s ih =>
      intro skip buf offset len hskip hlimit
      rw [escaped_cons] at hlimit ⊢
      rw [jemStringLoop]
      by_cases hlen : len = 0
      · simp [hlen]
      by_cases hc : isEscape c = true
      · simp only [hc, if_true, List.length_append, List.length_cons, List.length_nil] at hlimit ⊢
        rw [if_neg (by omega), if_neg (by omega)]
        by_cases hone : len - 1 = 0
        · have : len = 1 := by omega
          subst this
          simp
          omega
        · obtain ⟨len, rfl⟩ : ∃ k, len = k + 2 := ⟨len - 2, by omega⟩
          rw [if_neg hone, ih _ _ _ _ hskip (by omega)]
          simp
          omega
      · simp only [hc, Bool.false_eq_true, if_false, List.length_append, List.length_cons,
          List.length_nil] at hlimit ⊢
        obtain ⟨len, rfl⟩ : ∃ k, len = k + 1 := ⟨len - 1, by omega⟩
        rw [if_neg (by omega), if_neg (by omega), ih _ _ _ _ hskip (by omega)]
        simp
        omega

/-- The loop skips what earlier calls stored, also into an escape pair, and stores
the body from there on. -/
theorem jemStringLoop_skip {limit threash : Nat} (s : Bytes) : ∀ (skip : Nat) (buf : Bytes)
    (len : Nat), len ≠ 0 → skip ≤ threash → threash < skip + (escaped s).length →
    skip + (escaped s).length + 1 = limit →
    jemStringLoop limit threash s skip buf (threash + 1) len =
      (buf ++ ((escaped s).drop (threash - skip)).take len,
        threash + 1 + min len ((escaped s).length - (threash - skip)),
        len - ((escaped s).length - (threash - skip))) := by
  induction s with
  | nil => intro skip buf len _ hle hlt; simp at hlt; omega
  | cons c s ih =>
      intro skip buf len hlen hle hlt hlimit
      by_cases hskip : skip = threash
      · subst hskip
        rw [jemStringLoop_emit _ _ _ _ _ le_rfl (by omega)]
        simp
      rw [escaped_cons] at hlt hlimit ⊢
      rw [jemStringLoop, if_neg (by omega), if_pos (by omega)]
      by_cases hc : isEscape c = true
      · simp only [hc, if_true, List.length_append, List.length_cons, List.length_nil] at *
        by_cases hmid : skip + 1 = threash
        · -- resumed between the backslash and the quote
          subst hmid
          rw [if_pos rfl]
          have hdrop : skip + 1 - skip = 1 := by omega
          obtain ⟨len, rfl⟩ : ∃ k, len = k + 1 := ⟨len - 1, by omega⟩
          by_cases hone : len + 1 - 1 = 0
          · have : len = 0 := by omega
            subst this
            simp [hdrop]
          · rw [if_neg hone, jemStringLoop_emit _ _ _ _ _ (by omega) (by omega)]
            simp [hdrop]
            omega
        · rw [if_neg hmid, ih _ _ _ hlen (by omega) (by omega) (by omega)]
          have hdrop : threash - skip = threash - (skip + 2) + 2 := by omega
          rw [hdrop]
          simp
          omega
      · simp only [hc, Bool.false_eq_true, if_false, List.length_append, List.length_cons,
          List.length_nil] at *
        rw [ih _ _ _ hlen (by omega) (by omega) (by omega)]
        have hdrop : threash - skip = threash - (skip + 1) + 1 := by omega
        rw [hdrop]
        simp
        omega

/-- After the opening quote, `jem_encode_string` stores the next bytes of the body
and the closing quote. -/
theorem jemEncodeString_body (s buf : Bytes) (k len : Nat) (hk : k ≤ (escaped s).length) :
    (let body : Bytes × Nat × Nat :=
        if 1 ≤ k + 1 ∧ k + 1 < (escaped s).length + 1 ∧ len ≠ 0 then
          jemStringLoop ((escaped s).length + 1) k s 0 buf (k + 1) len
        else (buf, k + 1, len)
      if (escaped s).length + 1 ≤ body.2.1 ∧ body.2.2 ≠ 0 then body.1 ++ [dquote] else body.1) =
      buf ++ ((escaped s ++ [dquote]).drop k).take len := by
  rw [List.drop_append_of_le_length hk, List.take_append, List.length_drop]
  by_cases hlen : len = 0
  · simp [hlen]
  by_cases hend : k = (escaped s).length
  · obtain ⟨len, rfl⟩ : ∃ j, len = j + 1 := ⟨len - 1, by omega⟩
    simp [hend]
  · have inside : 1 ≤ k + 1 ∧ k + 1 < (escaped s).length + 1 ∧ len ≠ 0 := by omega
    simp only [if_pos inside]
    rw [jemStringLoop_skip s 0 buf len hlen (by omega) (by omega) (by omega)]
    simp only [Nat.sub_zero]
    by_cases hroom : (escaped s).length - k < len
    · rw [if_pos (by omega)]
      obtain ⟨j, hj⟩ : ∃ j, len - ((escaped s).length - k) = j + 1 :=
        ⟨len - ((escaped s).length - k) - 1, by omega⟩
      simp [hj]
    · rw [if_neg (by omega)]
      have : len - ((escaped s).length - k) = 0 := by omega
      simp [this]

/-- Resumed at any offset inside the literal, also between a backslash and its
quote, `jem_encode_string` stores the next bytes of the literal, as many as fit. -/
theorem jemEncodeString_eq {s : Bytes} {offset : Nat} (h : offset < (quoted s).length) (len : Nat) :
    jemEncodeString dquote dquote s offset len = ((quoted s).drop offset).take len := by
  have hlimit : encodedStrlen s - 1 = (escaped s).length + 1 := by
    rw [encodedStrlen_eq]
    simp [quoted]
  have hq : (quoted s).length = (escaped s).length + 2 := by simp [quoted]
  unfold jemEncodeString
  rw [hlimit]
  cases offset with
  | zero =>
      cases len with
      | zero => simp
      | succ len =>
          have body := jemEncodeString_body s [dquote] 0 len (by omega)
          simpa [quoted] using body
  | succ k =>
      have body := jemEncodeString_body s [] k len (by omega)
      simpa [quoted] using body

/-! ### The text of a node -/

section Text

variable {ν : Type} (libc : Libc ν)

/-- The text of a scalar. -/
def scalarText : Scalar ν → Bytes
  | .null => nullText
  | .bool b => boolText b
  | .string s => quoted s
  | .number n => emitNumber libc n

/-- The key of a node with its colon, if it has one. -/
def keyText : Option Bytes → Bytes
  | some key => quoted key ++ [colon]
  | none => []

mutual

/-- The text of a node after its key, as the machine walks it. -/
def valueText : JsonNode ν → Bytes
  | .scalar _ value => scalarText libc value
  | .container _ kind children =>
      openBracket kind :: childrenText children ++ [closeBracket kind]

/-- The text of a list of children from its first on. -/
def childrenText : List (JsonNode ν) → Bytes
  | [] => []
  | c :: cs => keyText c.key ++ valueText c ++ followText cs

/-- The text of the children that follow one already emitted. -/
def followText : List (JsonNode ν) → Bytes
  | [] => []
  | c :: cs => comma :: (keyText c.key ++ valueText c ++ followText cs)

end

/-- The text of a node with its key. -/
def nodeText (node : JsonNode ν) : Bytes := keyText node.key ++ valueText libc node

theorem childrenText_cons (c : JsonNode ν) (cs : List (JsonNode ν)) :
    childrenText libc (c :: cs) = nodeText libc c ++ followText libc cs := by
  simp only [childrenText, nodeText]

theorem followText_cons (c : JsonNode ν) (cs : List (JsonNode ν)) :
    followText libc (c :: cs) = comma :: (nodeText libc c ++ followText libc cs) := by
  simp only [followText, nodeText]

mutual

/-- The compact reference serialisation of a tree. -/
def compact : JsonNode ν → Bytes
  | .scalar _ value => scalarText libc value
  | .container _ .array children =>
      lbrack :: [comma].intercalate (elementTexts children) ++ [rbrack]
  | .container _ .object children =>
      lbrace :: [comma].intercalate (memberTexts children) ++ [rbrace]

/-- The serialised elements of an array. -/
def elementTexts : List (JsonNode ν) → List Bytes
  | [] => []
  | c :: cs => compact c :: elementTexts cs

/-- The serialised members of an object, `key:value` each. -/
def memberTexts : List (JsonNode ν) → List Bytes
  | [] => []
  | c :: cs => (quoted (c.key.getD []) ++ colon :: compact c) :: memberTexts cs

end

theorem elementTexts_eq (cs : List (JsonNode ν)) :
    elementTexts libc cs = cs.map (compact libc) := by
  induction cs with
  | nil => simp [elementTexts]
  | cons c cs ih => simp [elementTexts, ih]

theorem memberTexts_eq (cs : List (JsonNode ν)) : memberTexts libc cs =
    cs.map fun c => quoted (c.key.getD []) ++ colon :: compact libc c := by
  induction cs with
  | nil => simp [memberTexts]
  | cons c cs ih => simp [memberTexts, ih]

/-- Joining with commas is putting a comma before each text but the first. -/
theorem intercalate_comma (text : Bytes) (texts : List Bytes) :
    [comma].intercalate (text :: texts) = text ++ texts.flatMap fun t => comma :: t := by
  induction texts generalizing text with
  | nil => simp [List.intercalate]
  | cons t texts ih =>
      have := ih t
      simp only [List.intercalate, List.intersperse_cons_cons, List.flatten_cons,
        List.flatMap_cons] at *
      rw [this]
      simp

theorem followText_eq (cs : List (JsonNode ν)) :
    followText libc cs = cs.flatMap fun c => comma :: nodeText libc c := by
  induction cs with
  | nil => simp [followText]
  | cons c cs ih => rw [followText_cons, ih]; simp

/-- Children whose texts are `texts` are joined by commas. -/
theorem childrenText_eq_intercalate {cs : List (JsonNode ν)} {text : JsonNode ν → Bytes}
    (h : ∀ c ∈ cs, nodeText libc c = text c) :
    childrenText libc cs = [comma].intercalate (cs.map text) := by
  cases cs with
  | nil => simp [childrenText, List.intercalate]
  | cons c cs =>
      have tail : cs.flatMap (fun c => comma :: nodeText libc c) =
          cs.flatMap fun c => comma :: text c :=
        List.flatMap_congr fun c hc => by rw [h c (List.mem_cons_of_mem _ hc)]
      rw [List.map_cons, intercalate_comma, List.flatMap_map, childrenText_cons, followText_eq,
        h c List.mem_cons_self, tail]

/-- When the keyed nodes below are the members of objects, the machine walks the
reference serialisation. -/
theorem valueText_eq_compact (node : JsonNode ν)
    (keyed : node.all JsonNode.childrenKeyed = true) : valueText libc node = compact libc node := by
  induction node using JsonNode.tree_induction with
  | scalar key value => simp only [valueText, compact]
  | container key kind children ih =>
      have here := JsonNode.all_root keyed
      have below : ∀ c ∈ children, valueText libc c = compact libc c :=
        fun c hc => ih c hc (JsonNode.all_child keyed hc)
      cases kind with
      | array =>
          have texts : ∀ c ∈ children, nodeText libc c = compact libc c := by
            intro c hc
            have bare : c.key = none := by
              simpa using List.all_eq_true.mp here c hc
            simp [nodeText, keyText, bare, below c hc]
          rw [valueText, compact, elementTexts_eq, childrenText_eq_intercalate libc texts]
          rfl
      | object =>
          have texts : ∀ c ∈ children, nodeText libc c =
              quoted (c.key.getD []) ++ colon :: compact libc c := by
            intro c hc
            obtain ⟨k, hk⟩ := Option.isSome_iff_exists.mp (List.all_eq_true.mp here c hc)
            simp [nodeText, keyText, hk, below c hc]
          rw [valueText, compact, memberTexts_eq, childrenText_eq_intercalate libc texts]
          rfl

end Text

end AcnSdk.Json

/-
The two serialisers of the program.

`emit_string` escapes backslashes and control characters, `is_escape` of the
streaming encoder knows only the double quote. So the streaming encoder agrees
with `json_encode` exactly on the documents that have nothing else to escape
(`encodePart_eq_jsonEncode_iff`): a string with such a byte has a longer literal
in `emit_string`, and nothing in the rest of the text makes up for it.
-/

import AcnSdk.Json.Emit
import AcnSdk.Json.EncodeStream

namespace AcnSdk.Json

open AcnSdk.Lib Ascii Producer

variable {ν : Type} {libc : Libc ν}

/-! ### Bytes that need an escape -/

/-- A byte that `emit_string` does not escape, or escapes as the streaming encoder
does. The byte `0x1F` is not escaped by either. -/
def plainByte (c : Byte) : Bool := c != bslash && 0x1F ≤ c

/-- A C string in valid UTF-8. -/
def isText (s : Bytes) : Bool := utf8Validate s && !s.contains 0

/-- A short escape is one of an ASCII character; of these only the double quote
is escaped by the streaming encoder. -/
theorem shortEscape_some {c e : Byte} (h : shortEscape c = some e) :
    c ≤ 0x7F ∧ ((c = dquote ∧ e = dquote) ∨ (c ≠ dquote ∧ plainByte c = false)) := by
  revert h
  unfold shortEscape
  split_ifs with h1 h2 h3 h4 h5 h6 h7 <;> intro h
  all_goals first | (cases h; subst c; decide) | cases h

theorem shortEscape_none {c : Byte} (h : shortEscape c = none) : c ≠ dquote ∧ c ≠ bslash := by
  constructor <;> rintro rfl <;> exact absurd h (by decide)

theorem unicodeEscape_length {unicode : Nat} (h : unicode ≤ 0xFFFF) :
    (unicodeEscape unicode).length = 6 := by
  rw [unicodeEscape, if_pos h]
  rfl

/-- A continuation byte stands for itself in both literals. -/
theorem isContinuation_plain {b : Byte} (h : isContinuation b = true) :
    isEscape b = false ∧ plainByte b = true := by
  simp only [isContinuation, isEscape, plainByte, Bool.and_eq_true, decide_eq_true_eq,
    beq_eq_false_iff_ne, bne_iff_ne, UInt8.le_iff_toNat_le] at *
  refine ⟨?_, ?_, ?_⟩
  · rintro rfl; exact absurd h (by decide)
  · rintro rfl; exact absurd h (by decide)
  · have := h.1
    simp at this ⊢
    omega

theorem escaped_of_not_isEscape {s : Bytes} (h : ∀ b ∈ s, isEscape b = false) : escaped s = s := by
  induction s with
  | nil => rfl
  | cons c s ih =>
      rw [escaped_cons, h c List.mem_cons_self, ih fun b hb => h b (List.mem_cons_of_mem _ hb)]
      rfl

theorem escaped_append (s t : Bytes) : escaped (s ++ t) = escaped s ++ escaped t :=
  List.flatMap_append

/-! ### Texts that agree or are longer -/

/-- The second text is the first one, or it is longer, according to the check. -/
def Agrees (a b : Bytes) (plain : Bool) : Prop :=
  (plain = true ∧ b = a) ∨ (plain = false ∧ a.length < b.length)

namespace Agrees

theorem same (a : Bytes) : Agrees a a true := .inl ⟨rfl, rfl⟩

theorem longer {a b : Bytes} (h : a.length < b.length) : Agrees a b false := .inr ⟨rfl, h⟩

/-- Nothing that follows makes up for a longer text. -/
theorem append {a b a' b' : Bytes} {p p' : Bool} (h : Agrees a b p) (h' : Agrees a' b' p') :
    Agrees (a ++ a') (b ++ b') (p && p') := by
  rcases h with ⟨rfl, rfl⟩ | ⟨rfl, lt⟩ <;> rcases h' with ⟨rfl, rfl⟩ | ⟨rfl, lt'⟩
  · exact same _
  all_goals refine longer ?_; rw [List.length_append, List.length_append]; omega

theorem eq_iff {a b : Bytes} {p : Bool} (h : Agrees a b p) : a = b ↔ p = true := by
  rcases h with ⟨rfl, rfl⟩ | ⟨rfl, lt⟩
  · exact iff_of_true rfl rfl
  · refine iff_of_false ?_ (by simp)
    rintro rfl
    omega

/-- Texts joined by commas. -/
theorem intercalate {α : Type} {f g : α → Bytes} {p : α → Bool} {cs : List α}
    (h : ∀ c ∈ cs, Agrees (f c) (g c) (p c)) :
    Agrees ([comma].intercalate (cs.map f)) ([comma].intercalate (cs.map g)) (cs.all p) := by
  cases cs with
  | nil => exact same _
  | cons c cs =>
      have tail : Agrees ((cs.map f).flatMap fun t => comma :: t)
          ((cs.map g).flatMap fun t => comma :: t) (cs.all p) := by
        have h' := fun d hd => h d (List.mem_cons_of_mem c hd)
        clear h
        induction cs with
        | nil => exact same _
        | cons d cs ih =>
            have here := ((same [comma]).append (h' d List.mem_cons_self)).append
              (ih fun e he => h' e (List.mem_cons_of_mem _ he))
            simpa using here
      simp only [List.map_cons, intercalate_comma, List.all_cons]
      exact (h c List.mem_cons_self).append tail

end Agrees

/-! ### String literals -/

/-- The body of a literal in the two serialisers. -/
theorem emitStringBody_agrees (fuel : Nat) : ∀ s : Bytes, s.length < fuel → 0 ∉ s →
    utf8ValidateFrom fuel s = true →
      Agrees (escaped s) (emitStringBody fuel s) (s.all plainByte) := by
  induction fuel with
  | zero => intro s short; omega
  | succ fuel ih =>
      intro s short no_nul valid
      cases s with
      | nil => exact .same _
      | cons c s =>
          have c_ne : c ≠ 0 := fun e => no_nul (e ▸ List.mem_cons_self)
          have no_nul' : 0 ∉ s := fun h => no_nul (List.mem_cons_of_mem _ h)
          rw [List.length_cons] at short
          simp only [utf8ValidateFrom, peek_cons, c_ne, if_false] at valid
          split at valid
          · exact absurd valid (by simp)
          rename_i char_ok
          simp only [emitStringBody, peek_cons, c_ne, if_false]
          by_cases ascii : c ≤ 0x7F
          · rw [utf8ValidateCz_ascii s ascii, List.drop_one, List.tail_cons] at valid
            have tail := ih s (by omega) no_nul' valid
            have split : escaped (c :: s) = escaped [c] ++ escaped s := escaped_append [c] s
            rw [split, List.all_cons]
            cases esc : shortEscape c with
            | some e =>
                rcases (shortEscape_some esc).2 with ⟨rfl, rfl⟩ | ⟨not_quote, special⟩
                · exact (Agrees.same (escaped [dquote])).append tail
                · have text : Agrees (escaped [c]) [bslash, e] (plainByte c) := by
                    rw [special]
                    exact .longer (by simp [escaped, isEscape, not_quote])
                  exact text.append tail
            | none =>
                obtain ⟨not_quote, not_bslash⟩ := shortEscape_none esc
                have single : escaped [c] = [c] := by simp [escaped, isEscape, not_quote]
                simp only [Nat.one_ne_zero, if_false, utf8ReadChar_ascii s ascii,
                  utf8ValidateCz_ascii s ascii, List.drop_one, List.tail_cons]
                by_cases control : c < 0x1F
                · rw [if_pos (.inl control)]
                  have text : Agrees (escaped [c]) (unicodeEscape c.toNat) (plainByte c) := by
                    have special : plainByte c = false := by simp [plainByte, control]
                    have small := UInt8.toNat_lt c
                    rw [special, single]
                    exact .longer (by rw [unicodeEscape_length (by omega)]; simp)
                  exact text.append tail
                · rw [if_neg (by simp [control, escapeUnicode])]
                  have plain : plainByte c = true := by simpa [plainByte, not_bslash] using control
                  rw [single, plain]
                  exact (Agrees.same [c]).append tail
          · obtain ⟨mid, rest, rfl, len, cont⟩ := utf8ValidateCz_multi ascii char_ok
            have not_esc : shortEscape c = none := by
              cases esc : shortEscape c with
              | none => rfl
              | some e => exact absurd (shortEscape_some esc).1 ascii
            have not_control : ¬ c < 0x1F := by
              rw [UInt8.le_iff_toNat_le] at ascii
              rw [UInt8.lt_iff_toNat_lt]
              simp at ascii ⊢
              omega
            have drop : (c :: (mid ++ rest)).drop (mid.length + 1) = rest := by simp
            have take : (c :: (mid ++ rest)).take (mid.length + 1) = c :: mid := by simp
            have plain : (c :: mid).all plainByte = true := by
              rw [List.all_eq_true]
              intro b hb
              rcases List.mem_cons.mp hb with rfl | hb
              · have not_bslash := (shortEscape_none not_esc).2
                simpa [plainByte, not_bslash] using not_control
              · exact (isContinuation_plain (cont b hb)).2
            have front : escaped (c :: mid) = c :: mid := by
              refine escaped_of_not_isEscape fun b hb => ?_
              rcases List.mem_cons.mp hb with rfl | hb
              · simpa [isEscape] using (shortEscape_none not_esc).1
              · exact (isContinuation_plain (cont b hb)).1
            rw [len, drop] at valid
            have tail := ih rest (by rw [List.length_append] at short; omega)
              (fun h => no_nul' (List.mem_append_right _ h)) valid
            have split : escaped (c :: (mid ++ rest)) = c :: mid ++ escaped rest := by
              rw [← List.cons_append, escaped_append, front]
            have all : (c :: (mid ++ rest)).all plainByte = (true && rest.all plainByte) := by
              rw [← List.cons_append, List.all_append, plain]
            rw [split, all]
            simp only [not_esc, not_control, escapeUnicode, len, drop, take, Nat.succ_ne_zero]
            simpa using (Agrees.same (c :: mid)).append tail

/-- The literal of a text in the two serialisers. -/
theorem emitString_agrees {s : Bytes} (h : isText s = true) :
    Agrees (quoted s) (emitString s) (s.all plainByte) := by
  simp only [isText, Bool.and_eq_true, Bool.not_eq_true', List.contains_eq_mem,
    decide_eq_false_iff_not] at h
  have body := emitStringBody_agrees (s.length + 1) s (by omega) h.2 h.1
  simpa [emitString, quoted] using ((Agrees.same [dquote]).append body).append (.same [dquote])

/-! ### Trees -/

/-- The strings and keys of a node are C strings in valid UTF-8. -/
def textual (node : JsonNode ν) : Bool := node.stringHas isText && node.keyHas isText

/-- Nothing in the string and the key of a node has to be escaped but double
quotes. -/
def plain (node : JsonNode ν) : Bool :=
  node.stringHas (·.all plainByte) && node.keyHas (·.all plainByte)

theorem emitElements_eq (cs : List (JsonNode ν)) :
    emitElements libc cs = [comma].intercalate (cs.map (emitValue libc)) := by
  induction cs with
  | nil => simp [emitElements, List.intercalate]
  | cons c cs ih => cases cs <;> simp_all [emitElements, List.intercalate]

/-- What `emit_object` puts for one member. -/
def emitMember (libc : Libc ν) (member : JsonNode ν) : Bytes :=
  emitString (keyValue member) ++ colon :: emitValue libc member

theorem emitMembers_eq (cs : List (JsonNode ν)) :
    emitMembers libc cs = [comma].intercalate (cs.map (emitMember libc)) := by
  induction cs with
  | nil => simp [emitMembers, List.intercalate]
  | cons c cs ih => cases cs <;> simp_all [emitMembers, emitMember, List.intercalate]

/-- The check of a tree is that of its key and that of its value. -/
theorem all_plain_eq (tree : JsonNode ν) :
    tree.all plain = (tree.keyHas (·.all plainByte) && (tree.withKey none).all plain) := by
  cases tree with
  | scalar key value =>
      cases value <;>
        simp [plain, JsonNode.withKey, JsonNode.keyHas, JsonNode.key, JsonNode.stringHas,
          Bool.and_comm]
  | container key kind children =>
      simp [plain, JsonNode.withKey, JsonNode.keyHas, JsonNode.key, JsonNode.stringHas]

/-- The value of a node in the two serialisers. -/
theorem emitValue_agrees (tree : JsonNode ν) (ok : tree.all encodable = true)
    (keyed : tree.all JsonNode.childrenKeyed = true) (text : tree.all textual = true) :
    Agrees (valueText libc tree) (emitValue libc tree) ((tree.withKey none).all plain) := by
  induction tree using JsonNode.tree_induction with
  | scalar key value =>
      cases value with
      | null => exact absurd (JsonNode.all_root ok) (by simp [encodable, JsonNode.notNull])
      | bool b => exact .same _
      | number n => exact .same _
      | string s =>
          have s_text : isText s = true := by
            have := JsonNode.all_root text
            simp only [textual, Bool.and_eq_true, JsonNode.stringHas] at this
            exact this.1
          have eq : ((JsonNode.scalar key (.string s) : JsonNode ν).withKey none).all plain =
              s.all plainByte := by
            simp [JsonNode.withKey, plain, JsonNode.stringHas, JsonNode.keyHas, JsonNode.key]
          rw [eq]
          exact emitString_agrees s_text
  | container key kind children ih =>
      have here := JsonNode.all_root keyed
      have below : ∀ c ∈ children,
          Agrees (valueText libc c) (emitValue libc c) ((c.withKey none).all plain) := fun c hc =>
        ih c hc (JsonNode.all_child ok hc) (JsonNode.all_child keyed hc)
          (JsonNode.all_child text hc)
      have eq : ((JsonNode.container key kind children).withKey none).all plain =
          children.all (JsonNode.all plain) := by
        simp [JsonNode.withKey, plain, JsonNode.stringHas, JsonNode.keyHas, JsonNode.key]
      rw [eq]
      cases kind with
      | array =>
          have elements : ∀ c ∈ children,
              Agrees (nodeText libc c) (emitValue libc c) (c.all plain) := by
            intro c hc
            have bare : c.key = none := by simpa using List.all_eq_true.mp here c hc
            rw [all_plain_eq, nodeText, bare]
            simpa [JsonNode.keyHas, bare, keyText] using below c hc
          have joined := Agrees.intercalate elements
          rw [← childrenText_eq_intercalate libc fun c _ => rfl, ← emitElements_eq] at joined
          have whole := ((Agrees.same [lbrack]).append joined).append (.same [rbrack])
          simpa [valueText, emitValue, openBracket, closeBracket] using whole
      | object =>
          have members : ∀ c ∈ children,
              Agrees (nodeText libc c) (emitMember libc c) (c.all plain) := by
            intro c hc
            obtain ⟨k, hk⟩ := Option.isSome_iff_exists.mp (List.all_eq_true.mp here c hc)
            have k_text : isText k = true := by
              have := JsonNode.all_root (JsonNode.all_child text hc)
              simp only [textual, Bool.and_eq_true, JsonNode.keyHas, hk, Option.all_some] at this
              exact this.2
            rw [all_plain_eq, nodeText, hk]
            have member := ((emitString_agrees k_text).append (.same [colon])).append (below c hc)
            simpa [JsonNode.keyHas, hk, keyText, emitMember, keyValue] using member
          have joined := Agrees.intercalate members
          rw [← childrenText_eq_intercalate libc fun c _ => rfl, ← emitMembers_eq] at joined
          have whole := ((Agrees.same [lbrace]).append joined).append (.same [rbrace])
          simpa [valueText, emitValue, openBracket, closeBracket] using whole

/-! ### A root with a key -/

/-- Every double quote of a text has a backslash before it. -/
def QuotesEscaped (text : Bytes) : Prop :=
  ∀ front back, text = front ++ dquote :: back → ∃ init, front = init ++ [bslash]

namespace QuotesEscaped

theorem of_not_mem {text : Bytes} (h : dquote ∉ text) : QuotesEscaped text :=
  fun front back eq => absurd (by simp [eq]) h

theorem pair (e : Byte) : QuotesEscaped [bslash, e] := by
  intro front back eq
  match front with
  | [] => exact absurd (List.cons.inj eq).1 (by decide)
  | [b] => exact ⟨[], by simp at eq; rw [eq.1]; rfl⟩
  | _ :: _ :: front => simp at eq

theorem append {a b : Bytes} (ha : QuotesEscaped a) (hb : QuotesEscaped b) :
    QuotesEscaped (a ++ b) := by
  intro front back eq
  rcases List.append_eq_append_iff.mp eq with ⟨mid, rfl, inside⟩ | ⟨mid, rfl, inside⟩
  · obtain ⟨init, rfl⟩ := hb mid back inside
    exact ⟨a ++ init, by simp⟩
  · cases mid with
    | nil =>
        obtain ⟨init, bad⟩ := hb [] back (by simpa using inside.symm)
        exact absurd bad (by simp)
    | cons c mid =>
        obtain ⟨rfl, -⟩ : c = dquote ∧ _ := by simpa [eq_comm] using inside
        exact ha front mid rfl

end QuotesEscaped

theorem hexChar_ne_dquote : ∀ n < 16, hexChar n ≠ dquote := by decide

theorem writeHex16_no_quote (n : Nat) : dquote ∉ writeHex16 n := by
  simp only [writeHex16, List.mem_cons, List.not_mem_nil, or_false, not_or]
  refine ⟨?_, ?_, ?_, ?_⟩ <;> exact (hexChar_ne_dquote _ (Nat.mod_lt _ (by omega))).symm

theorem unicodeEscape_no_quote (n : Nat) : dquote ∉ unicodeEscape n := by
  have hex := writeHex16_no_quote
  unfold unicodeEscape
  split <;> simp [hex]

/-- `emit_string` escapes every double quote of the string. -/
theorem emitStringBody_quotesEscaped (fuel : Nat) : ∀ s, QuotesEscaped (emitStringBody fuel s) := by
  induction fuel with
  | zero => exact fun s => .of_not_mem (by simp [emitStringBody])
  | succ fuel ih =>
      intro s
      rw [emitStringBody]
      split
      · exact .of_not_mem (by simp)
      rename_i more
      split
      · exact (QuotesEscaped.pair _).append (ih _)
      rename_i no_escape
      split
      · exact (QuotesEscaped.of_not_mem (by decide)).append (ih _)
      split
      · exact (QuotesEscaped.of_not_mem (unicodeEscape_no_quote _)).append (ih _)
      rename_i char_ok _
      refine (QuotesEscaped.of_not_mem fun mem => ?_).append (ih _)
      cases s with
      | nil => exact more rfl
      | cons c s =>
          have c_ne : c ≠ dquote := (shortEscape_none no_escape).1
          by_cases ascii : c ≤ 0x7F
          · rw [utf8ValidateCz_ascii s ascii] at mem
            exact c_ne (by simpa [eq_comm] using mem)
          · obtain ⟨mid, rest, rfl, len, cont⟩ := utf8ValidateCz_multi ascii char_ok
            rw [len] at mem
            simp only [List.take_succ_cons, List.take_left, List.mem_cons] at mem
            rcases mem with eq | mem
            · exact c_ne eq.symm
            · exact absurd (cont _ mem) (by decide)

/-- A number text does not start with a double quote. -/
theorem peek_emitNumber (n : ν) : peek (emitNumber libc n) ≠ dquote := by
  unfold emitNumber
  split
  · rename_i valid
    intro quote
    rw [numberIsValid, parseNumber] at valid
    have none : parseIntegral (parseMinus (numberBuffer libc n)) = none := by
      simp [parseMinus, parseIntegral, parseDigits, quote, isDigit, dquote, minus, zero, nine]
    rw [none] at valid
    exact absurd valid (by simp)
  · decide

/-- The text of a node with a key is not one of `json_encode`. -/
theorem nodeText_keyed_ne {tree : JsonNode ν} {k : Bytes} (hk : tree.key = some k) :
    nodeText libc tree ≠ emitValue libc tree := by
  intro eq
  have first : peek (emitValue libc tree) = dquote := by
    rw [← eq, nodeText, hk]
    rfl
  cases tree with
  | container key kind children => cases kind <;> exact absurd first (by simp [emitValue])
  | scalar key value =>
      cases value with
      | null => exact absurd first (by simp [emitValue, nullText]; decide)
      | bool b => cases b <;> exact absurd first (by simp [emitValue, boolText]; decide)
      | number n => exact peek_emitNumber n (by simpa [emitValue] using first)
      | string s =>
          have body : emitStringBody (s.length + 1) s =
              (escaped k ++ [dquote, colon]) ++ dquote :: escaped s := by
            simp only [nodeText, hk, keyText, valueText, scalarText, emitValue, emitString,
              quoted] at eq
            refine List.append_cancel_right (?_ : _ ++ [dquote] = _ ++ [dquote])
            simpa using eq.symm
          obtain ⟨init, bad⟩ := emitStringBody_quotesEscaped _ _ _ _ body
          have last : some colon = some bslash := by simpa using congrArg List.getLast? bad
          exact absurd last (by decide)

/-! ### Agreement -/

/-- The streaming encoder emits what `json_encode` builds, under every schedule,
exactly when the root has no key and no string or key of the document contains a
backslash or a byte below `0x1F`. -/
theorem encodePart_eq_jsonEncode_iff (libc : Libc ν) (tree : JsonNode ν)
    (ok : tree.all encodable = true) (keyed : tree.all JsonNode.childrenKeyed = true)
    (text : tree.all textual = true) :
    (∀ lens : Nat → Nat, (∀ n, 0 < lens n) →
        Streams (encodePart libc) (jsonEncodeInit tree) lens (jsonEncode libc tree)) ↔
      tree.key = none ∧ tree.all plain = true := by
  have streamed : (∀ lens : Nat → Nat, (∀ n, 0 < lens n) →
      Streams (encodePart libc) (jsonEncodeInit tree) lens (jsonEncode libc tree)) ↔
      nodeText libc tree = emitValue libc tree := by
    constructor
    · intro streams
      exact (encodePart_streams ok fun _ => Nat.one_pos).unique (encodePart_deterministic libc)
        (streams (fun _ => 1) fun _ => Nat.one_pos)
    · intro eq lens positive
      rw [jsonEncode, ← eq]
      exact encodePart_streams ok positive
  rw [streamed]
  cases hk : tree.key with
  | some k => exact iff_of_false (nodeText_keyed_ne hk) (by simp)
  | none =>
      have key_plain : tree.keyHas (·.all plainByte) = true := by simp [JsonNode.keyHas, hk]
      rw [nodeText, hk, keyText, List.nil_append, (emitValue_agrees tree ok keyed text).eq_iff,
        all_plain_eq tree, key_plain, Bool.true_and]
      simp

/-- `["a\"b"]` is the same text in both serialisers, three bytes at a time. -/
theorem encodePart_eq_jsonEncode_iff_quote :
    Streams (encodePart Libc.nat)
      (jsonEncodeInit (.container none .array [.scalar none (.string [0x61, dquote, 0x62])]))
      (fun _ => 3) (jsonEncode Libc.nat
        (.container none .array [.scalar none (.string [0x61, dquote, 0x62])])) :=
  (encodePart_eq_jsonEncode_iff Libc.nat
    (.container none .array [.scalar none (.string [0x61, dquote, 0x62])])
    (by decide) (by decide) (by decide)).mpr (by decide) (fun _ => 3) fun _ => Nat.succ_pos 2

/-- The array whose one element is a backslash. -/
def backslashArray : JsonNode Nat := .container none .array [.scalar none (.string [bslash])]

/-- The streaming encoder puts `["\"]` where `json_encode` puts `["\\"]`. -/
theorem backslashArray_disagrees : backslashArray.all encodable = true ∧
    backslashArray.wellKeyed = true ∧ backslashArray.all textual = true ∧
    ¬ Streams (encodePart Libc.nat) (jsonEncodeInit backslashArray) (fun _ => 1)
      (jsonEncode Libc.nat backslashArray) := by
  have ok : backslashArray.all encodable = true := by decide
  refine ⟨ok, by decide, by decide, fun streams => ?_⟩
  have same := streams.unique (encodePart_deterministic Libc.nat)
    (encodePart_streams ok fun _ => Nat.one_pos)
  exact absurd same (by decide)

end AcnSdk.Json

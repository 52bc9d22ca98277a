/-
Whole runs of the streaming encoder.

* `encodePart_streams` — under every schedule of positive lengths the encoder
  emits the text of the tree and then nothing.
* `encodePart_streams_compact` — that text is the reference serialisation.
* `encodePart_size_iff` — it has the length that `json_size` declares exactly
  when no key needs an escape: `json_size` counts a key by `property_size`.
-/

import AcnSdk.Json.EncodeStep

namespace AcnSdk.Json

open AcnSdk.Lib Ascii Producer

variable {ν : Type} {libc : Libc ν}

/-! ### Runs -/

/-- What the machines of a document still have to emit. A machine in its last
state has nothing left. -/
def DocumentPending (libc : Libc ν) (tree : JsonNode ν) (jem : JemChain ν) (rest : Bytes) : Prop :=
  jem.1.ptr = [tree] ∧ (Pending libc jem.1 jem.2 rest ∨ (jem.1.state = .value ∧ rest = []))

/-- One call that ends in front of anything in its way: it returns the number of bytes
it stores, which are the front of what was left. -/
theorem encodePart_resumes {tree : JsonNode ν} {jem : JemChain ν} {rest : Bytes} {len : Nat}
    (room : 0 < len) (short : Short libc tree len rest.length)
    (pending : DocumentPending libc tree jem rest) :
    ∃ jem' rest', encodePart libc jem len ⟨jem', ((rest.take len).length : Nat), rest.take len⟩ ∧
      DocumentPending libc tree jem' rest' ∧
      Resumes (rewound libc tree) (rest.drop len) rest' := by
  obtain ⟨ptr, pending | ⟨state, rfl⟩⟩ := pending
  · obtain ⟨r, computes, advances⟩ := encodeValue_advances tree len room short ptr pending
    have out_eq : r.buf = rest.take len := advances.buf_eq
    have part : encodePart libc jem len ⟨(r.jem, r.chain), r.ret, r.buf.take r.ret.toNat⟩ :=
      computes.map (fun r : JemResult ν =>
        (⟨(r.jem, r.chain), r.ret, r.buf.take r.ret.toNat⟩ : Produced (JemChain ν) Byte))
    rw [advances.ret, Int.toNat_natCast, List.take_length, out_eq] at part
    rcases advances.next with ⟨-, state, all⟩ | ⟨-, -, rest', left, resumes⟩
    · refine ⟨_, [], part, ⟨advances.ptr_eq, .inr ⟨state, rfl⟩⟩, ?_⟩
      rw [List.drop_eq_nil_of_le all]
      exact .of_zero (rewound_zero tree)
    · exact ⟨_, rest', part, ⟨advances.ptr_eq, .inl left⟩, resumes⟩
  · refine ⟨jem, [], Computes.of_eq fun fuel => ?_, ⟨ptr, .inr ⟨state, rfl⟩⟩, ?_⟩
    · simp [jsonEncodePart, jemEncodeValue, ptr, state, jemReturn]
    · rw [List.drop_nil]
      exact .of_zero (rewound_zero tree)

/-- In a tree that can be encoded every call resumes where it leaves off. -/
theorem encodePart_advances {tree : JsonNode ν} (ok : tree.all encodable = true) (jem : JemChain ν)
    (rest : Bytes) (len : Nat) (room : 0 < len) (pending : DocumentPending libc tree jem rest) :
    ∃ jem', encodePart libc jem len ⟨jem', ((rest.take len).length : Nat), rest.take len⟩ ∧
      DocumentPending libc tree jem' (rest.drop len) := by
  obtain ⟨jem', rest', calls, pending', resumes⟩ :=
    encodePart_resumes room (.inl (reach_of_encodable ok)) pending
  have fit : tree.all (JsonNode.keyHas keyFits) = true := JsonNode.all_mono
    (fun node h => by simp only [encodable, Bool.and_eq_true] at h; exact h.2) ok
  rw [resumes.eq_of_zero (rewound_of_keyFits fit _)] at pending'
  exact ⟨jem', calls, pending'⟩

/-- Every schedule streams the text of the tree. -/
theorem encodePart_streams {tree : JsonNode ν} (ok : tree.all encodable = true) {lens : Nat → Nat}
    (positive : ∀ n, 0 < lens n) :
    Streams (encodePart libc) (jsonEncodeInit tree) lens (nodeText libc tree) :=
  streams_of_pending (encodePart_advances ok) positive ⟨rfl, .inl (Pending.fresh tree [])⟩

/-- The encoder does not depend on the schedule: for every tree it can encode
whose keyed nodes are the members of its objects, every schedule of positive
lengths streams the compact reference serialisation. -/
theorem encodePart_streams_compact (libc : Libc ν) (tree : JsonNode ν)
    (ok : tree.all encodable = true) (keyed : tree.wellKeyed = true) (lens : Nat → Nat)
    (positive : ∀ n, 0 < lens n) :
    Streams (encodePart libc) (jsonEncodeInit tree) lens (compact libc tree) := by
  simp only [JsonNode.wellKeyed, Bool.and_eq_true, Option.isNone_iff_eq_none] at keyed
  have text : nodeText libc tree = compact libc tree := by
    rw [nodeText, keyed.1, valueText_eq_compact libc tree keyed.2, keyText, List.nil_append]
  rw [← text]
  exact encodePart_streams ok positive

/-- `{"a":["\"",7]}` in buffers of one byte. -/
theorem encodePart_streams_compact_bytewise :
    Streams (encodePart Libc.nat)
      (jsonEncodeInit (.container none .object [.container (some [0x61]) .array
        [.scalar none (.string [dquote]), .scalar none (.number 7)]])) (fun _ => 1)
      [lbrace, dquote, 0x61, dquote, colon, lbrack, dquote, bslash, dquote, dquote, comma, 0x37,
        rbrack, rbrace] :=
  encodePart_streams_compact Libc.nat _ (by decide) (by decide) (fun _ => 1) (fun _ => Nat.one_pos)

/-! ### The declared length -/

/-- A literal is two bytes longer than its string, and one more for each quote. -/
theorem quoted_length (s : Bytes) : (quoted s).length = s.length + 2 + s.count dquote := by
  have body : (escaped s).length = s.length + s.count dquote := by
    induction s with
    | nil => rfl
    | cons c s ih =>
        rw [escaped_cons, List.length_append, ih, List.length_cons, List.count_cons]
        by_cases hc : c = dquote
        · simp [hc, isEscape]
          omega
        · simp [hc, isEscape]
          omega
  simp only [quoted, List.length_append, List.length_cons, List.length_nil, body]
  omega

/-- For a key that fits, `property_size` is its length. -/
theorem propertySize_eq {key : Bytes} (h : (quoted key).length ≤ 0x10000) :
    propertySize key = key.length := by
  have short : u16 key.length = key.length := by
    rw [quoted_length] at h
    exact Nat.mod_eq_of_lt (by omega)
  simp [propertySize, short]

mutual

/-- The double quotes in the keys of a tree. -/
def keyQuotes : JsonNode ν → Nat
  | .scalar key _ => (key.getD []).count dquote
  | .container key _ children => (key.getD []).count dquote + keyQuotesList children

def keyQuotesList : List (JsonNode ν) → Nat
  | [] => 0
  | c :: cs => keyQuotes c + keyQuotesList cs

end

/-- No double quote in a key. -/
def quoteFree (key : Bytes) : Bool := !key.contains dquote

theorem quoteFree_iff (key : Bytes) : quoteFree key = true ↔ key.count dquote = 0 := by
  simp [quoteFree, List.count_eq_zero]

theorem keyQuotesList_eq_zero {cs : List (JsonNode ν)} :
    keyQuotesList cs = 0 ↔ ∀ c ∈ cs, keyQuotes c = 0 := by
  induction cs with
  | nil => simp [keyQuotesList]
  | cons c cs ih => simp [keyQuotesList, ih]

theorem keyHas_quoteFree_iff (node : JsonNode ν) :
    node.keyHas quoteFree = true ↔ (node.key.getD []).count dquote = 0 := by
  unfold JsonNode.keyHas
  cases node.key with
  | none => simp
  | some k => simp [quoteFree_iff]

theorem keyQuotes_eq_zero (tree : JsonNode ν) :
    keyQuotes tree = 0 ↔ tree.all (JsonNode.keyHas quoteFree) = true := by
  induction tree using JsonNode.tree_induction with
  | scalar key value =>
      rw [JsonNode.all_scalar, keyHas_quoteFree_iff, keyQuotes]
      rfl
  | container key kind children ih =>
      rw [JsonNode.all_container, Bool.and_eq_true, keyHas_quoteFree_iff, keyQuotes,
        Nat.add_eq_zero_iff, keyQuotesList_eq_zero, List.all_eq_true]
      exact and_congr Iff.rfl (forall₂_congr ih)

theorem keyText_length {key : Option Bytes}
    (fits : ∀ k, key = some k → (quoted k).length ≤ 0x10000) :
    (keyText key).length = keySize key + (key.getD []).count dquote := by
  cases key with
  | none => rfl
  | some k =>
      simp only [keyText, keySize, List.length_append, quoted_length, propertySize_eq (fits k rfl),
        List.length_singleton, Option.getD_some]
      omega

/-- The children of a container, given the length of each: `json_size` counts a
comma after all but the last. -/
theorem childrenText_length {cs : List (JsonNode ν)}
    (h : ∀ c ∈ cs, (nodeText libc c).length = jsonSize libc c + keyQuotes c) :
    (childrenText libc cs).length = jsonSizeList libc cs + keyQuotesList cs := by
  cases cs with
  | nil => rfl
  | cons c cs =>
      have here := h c List.mem_cons_self
      have tail : ∀ d, d ∈ cs → (nodeText libc d).length = jsonSize libc d + keyQuotes d :=
        fun d hd => h d (List.mem_cons_of_mem _ hd)
      clear h
      induction cs generalizing c with
      | nil => simp [childrenText_cons, followText, jsonSizeList, keyQuotesList, here]
      | cons d cs ih =>
          have follow := ih d (tail d List.mem_cons_self)
            fun e he => tail e (List.mem_cons_of_mem _ he)
          simp only [childrenText_cons, followText_cons, jsonSizeList, keyQuotesList,
            List.length_append, List.length_cons, List.isEmpty_cons] at follow ⊢
          simp only [Bool.false_eq_true, if_false]
          omega

/-- The encoder emits one byte more than `json_size` counts for each double quote
in a key. -/
theorem nodeText_length (libc : Libc ν) (tree : JsonNode ν) (ok : tree.all encodable = true) :
    (nodeText libc tree).length = jsonSize libc tree + keyQuotes tree := by
  have key_len := keyText_length fun k hk => encodable_key (JsonNode.all_root ok) hk
  induction tree using JsonNode.tree_induction with
  | scalar key value =>
      simp only [nodeText, JsonNode.key, List.length_append, valueText, jsonSize, keyQuotes] at *
      rw [key_len]
      cases value with
      | null => exact absurd (JsonNode.all_root ok) (by simp [encodable, JsonNode.notNull])
      | bool b => cases b <;> simp [scalarText, boolText] <;> omega
      | string s => simp only [scalarText, encodedStrlen_eq]; omega
      | number n => simp only [scalarText]; omega
  | container key kind children ih =>
      have inner := childrenText_length fun c hc => ih c hc (JsonNode.all_child ok hc)
        (keyText_length fun k hk => encodable_key (JsonNode.all_root (JsonNode.all_child ok hc)) hk)
      simp only [nodeText, JsonNode.key, List.length_append, valueText, jsonSize, keyQuotes,
        List.length_cons, List.length_nil] at *
      omega

/-- `json_size` declares the number of bytes that the encoder emits, under every
schedule, exactly when no key contains a double quote. -/
theorem encodePart_size_iff (libc : Libc ν) (tree : JsonNode ν) (ok : tree.all encodable = true) :
    (∀ lens : Nat → Nat, (∀ n, 0 < lens n) → ∃ doc,
        Streams (encodePart libc) (jsonEncodeInit tree) lens doc ∧
          doc.length = jsonSize libc tree) ↔
      tree.all (JsonNode.keyHas quoteFree) = true := by
  rw [← keyQuotes_eq_zero]
  have length := nodeText_length libc tree ok
  constructor
  · intro declared
    obtain ⟨doc, streams, size⟩ := declared (fun _ => 1) fun _ => Nat.one_pos
    have same := streams.unique (encodePart_deterministic libc)
      (encodePart_streams ok fun _ => Nat.one_pos)
    rw [same] at size
    omega
  · intro none lens positive
    exact ⟨_, encodePart_streams ok positive, by omega⟩

/-- `{"a":true}` is declared and streamed with ten bytes, three at a time. -/
theorem encodePart_size_iff_plain_key : ∃ doc,
    Streams (encodePart Libc.nat)
        (jsonEncodeInit (.container none .object [.scalar (some [0x61]) (.bool true)]))
        (fun _ => 3) doc ∧
      doc.length = 10 :=
  (encodePart_size_iff Libc.nat (.container none .object [.scalar (some [0x61]) (.bool true)])
    (by decide)).mpr (by decide) (fun _ => 3) fun _ => Nat.succ_pos 2

/-- The object whose one key is a double quote. -/
def quoteKeyed : JsonNode Nat := .container none .object [.scalar (some [dquote]) (.bool true)]

/-- `{"\"":true}` is declared with ten bytes and streamed with eleven. -/
theorem quoteKeyed_size : quoteKeyed.all encodable = true ∧ jsonSize Libc.nat quoteKeyed = 10 ∧
    ¬ ∃ doc, Streams (encodePart Libc.nat) (jsonEncodeInit quoteKeyed) (fun _ => 1) doc ∧
      doc.length = jsonSize Libc.nat quoteKeyed := by
  have ok : quoteKeyed.all encodable = true := by decide
  refine ⟨ok, by decide, ?_⟩
  rintro ⟨doc, streams, size⟩
  have same := streams.unique (encodePart_deterministic Libc.nat)
    (encodePart_streams ok fun _ => Nat.one_pos)
  rw [same] at size
  exact absurd size (by decide)

end AcnSdk.Json

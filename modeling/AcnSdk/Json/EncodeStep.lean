/-
The invariant of the streaming encoder and what one call does to it.

`Pending jem chain rest` says that the machine `jem`, with the machines `chain`
below it, still has to emit `rest`: one constructor for each point at which a
call can stop. `encodeValue_advances` is the step: from such a point, a call
with room for `len` bytes stores the first `len` bytes of `rest` and stops at
another such point, or completes.

The proof goes by induction on the tree. A container hands its room to the
machine of its children (`objLoop_child`), which finishes the current child
and goes on with the next ones until the room is used up.
-/

import AcnSdk.Json.EncodeReach

namespace AcnSdk.Json

open AcnSdk.Lib Ascii

variable {ν : Type}

/-! ### The invariant -/

section Invariant

variable (libc : Libc ν)

/-- The points before the value of a node at which a call can stop, each with what
is still to be emitted of its key and colon. -/
inductive Front (node : JsonNode ν) (sibs : List (JsonNode ν)) : JsonEncodeMachine ν → Bytes → Prop
    where
  /-- Before or inside the key. -/
  | key {k : Bytes} {i : Nat} (hk : node.key = some k) (hi : i < (quoted k).length) :
      Front node sibs ⟨.init, i, false, none, node :: sibs⟩ ((quoted k).drop i ++ [colon])
  /-- Before a value without a key. -/
  | bare (hk : node.key = none) : Front node sibs ⟨.init, 0, false, none, node :: sibs⟩ []
  /-- Between the key and its colon. -/
  | colon {k : Bytes} (hk : node.key = some k) :
    Front node sibs ⟨.key, 0, false, none, node :: sibs⟩ [colon]

/-- The points at which a call can stop, each with what is still to be emitted. -/
inductive Pending : JsonEncodeMachine ν → List (JsonEncodeMachine ν) → Bytes → Prop where
  /-- Before the value. -/
  | front {node : JsonNode ν} {sibs : List (JsonNode ν)} {jem : JsonEncodeMachine ν} {rest : Bytes}
      (front : Front node sibs jem rest) : Pending jem [] (rest ++ valueText libc node)
  /-- Before or inside a string. -/
  | string {k : Option Bytes} {s : Bytes} {sibs : List (JsonNode ν)} {i : Nat}
      (hi : i < (quoted s).length) :
      Pending ⟨.delim, i, false, none, .scalar k (.string s) :: sibs⟩ [] ((quoted s).drop i)
  /-- Before, inside or at the end of `true` or `false`. -/
  | bool {k : Option Bytes} {b : Bool} {sibs : List (JsonNode ν)} {i : Nat}
      (hi : i ≤ (boolText b).length) :
      Pending ⟨.delim, i, false, none, .scalar k (.bool b) :: sibs⟩ [] ((boolText b).drop i)
  /-- Before, inside or at the end of a number, formatted or not. -/
  | number {k : Option Bytes} {n : ν} {sibs : List (JsonNode ν)} {i : Nat} {buffer : Option Bytes}
      (hi : i ≤ (emitNumber libc n).length)
      (hb : buffer.getD (emitNumber libc n) = emitNumber libc n) :
      Pending ⟨.delim, i, false, buffer, .scalar k (.number n) :: sibs⟩ []
        ((emitNumber libc n).drop i)
  /-- Before the opening bracket. -/
  | opening {k : Option Bytes} {kind : Container} {cs sibs : List (JsonNode ν)} :
      Pending ⟨.delim, 0, false, none, .container k kind cs :: sibs⟩ []
        (openBracket kind :: (childrenText libc cs ++ [closeBracket kind]))
  /-- After the opening bracket, before the machine of the children is made. -/
  | entered {k : Option Bytes} {kind : Container} {cs sibs : List (JsonNode ν)} :
      Pending ⟨.delim, 1, false, none, .container k kind cs :: sibs⟩ []
        (childrenText libc cs ++ [closeBracket kind])
  /-- Inside a child. -/
  | child {k : Option Bytes} {kind : Container} {cs sibs : List (JsonNode ν)}
      {next : JsonEncodeMachine ν} {below : List (JsonEncodeMachine ν)}
      {c : JsonNode ν} {follow : List (JsonNode ν)} {rest : Bytes}
      (suffix : c :: follow <:+ cs) (at_child : next.ptr = c :: follow)
      (pending : Pending next below rest) :
      Pending ⟨.delim, 1, false, none, .container k kind cs :: sibs⟩ (next :: below)
        (rest ++ followText libc follow ++ [closeBracket kind])
  /-- Between a child and the comma before the next one. -/
  | comma {k : Option Bytes} {kind : Container} {cs sibs : List (JsonNode ν)}
      {c : JsonNode ν} {follow : List (JsonNode ν)} (suffix : c :: follow <:+ cs) :
      Pending ⟨.delim, 1, false, none, .container k kind cs :: sibs⟩
        [{ jemAt (c :: follow) with complete := true }]
        (followText libc (c :: follow) ++ [closeBracket kind])
  /-- Before the closing bracket. -/
  | closing {k : Option Bytes} {kind : Container} {cs sibs : List (JsonNode ν)}
      (some_child : cs ≠ []) :
      Pending ⟨.delim, 2, false, none, .container k kind cs :: sibs⟩ [] [closeBracket kind]
  /-- After a closing bracket that filled the buffer. -/
  | closed {k : Option Bytes} {kind : Container} {cs sibs : List (JsonNode ν)} :
      Pending ⟨.delim, 3, false, none, .container k kind cs :: sibs⟩ [] []

variable {libc}

theorem Front.complete_eq {node : JsonNode ν} {sibs : List (JsonNode ν)}
    {jem : JsonEncodeMachine ν} {rest : Bytes} (h : Front node sibs jem rest) :
    jem.complete = false := by
  cases h <;> rfl

theorem Front.ptr_eq {node : JsonNode ν} {sibs : List (JsonNode ν)}
    {jem : JsonEncodeMachine ν} {rest : Bytes} (h : Front node sibs jem rest) :
    jem.ptr = node :: sibs := by
  cases h <;> rfl

theorem Front.state_ne {node : JsonNode ν} {sibs : List (JsonNode ν)}
    {jem : JsonEncodeMachine ν} {rest : Bytes} (h : Front node sibs jem rest) :
    jem.state ≠ .delim := by
  cases h <;> simp

/-- A fresh machine is before the key of its first node. -/
theorem Front.fresh (node : JsonNode ν) (sibs : List (JsonNode ν)) :
    Front node sibs (jemAt (node :: sibs)) (keyText node.key) := by
  cases hk : node.key with
  | none => exact .bare hk
  | some k => exact Front.key hk (show 0 < (quoted k).length by simp [quoted])

/-- A machine that has something to do is not complete. -/
theorem Pending.complete_eq {jem : JsonEncodeMachine ν} {chain : List (JsonEncodeMachine ν)}
    {rest : Bytes} (h : Pending libc jem chain rest) : jem.complete = false := by
  cases h with
  | front h => exact h.complete_eq
  | _ => rfl

/-- A fresh machine has its whole first node to emit. -/
theorem Pending.fresh (node : JsonNode ν) (sibs : List (JsonNode ν)) :
    Pending libc (jemAt (node :: sibs)) [] (nodeText libc node) :=
  .front (Front.fresh node sibs)

theorem Front.length_le {node : JsonNode ν} {sibs : List (JsonNode ν)}
    {jem : JsonEncodeMachine ν} {rest : Bytes} (h : Front node sibs jem rest) :
    rest.length ≤ (keyText node.key).length := by
  cases h with
  | key hk hi =>
      rw [hk, keyText, List.length_append, List.length_append, List.length_drop]
      omega
  | bare hk => exact Nat.zero_le _
  | colon hk => simp [hk, keyText]

/-- What is left of a node is no longer than its text, and behind the key no longer
than that of its value. -/
theorem Pending.length_le {jem : JsonEncodeMachine ν} {chain : List (JsonEncodeMachine ν)}
    {rest : Bytes} (h : Pending libc jem chain rest) : ∀ {node : JsonNode ν}
      {sibs : List (JsonNode ν)}, jem.ptr = node :: sibs →
      rest.length ≤ (nodeText libc node).length ∧
        (jem.state = .delim → rest.length ≤ (valueText libc node).length) := by
  have in_value : ∀ {jem : JsonEncodeMachine ν} {node : JsonNode ν} {rest : Bytes},
      rest.length ≤ (valueText libc node).length → rest.length ≤ (nodeText libc node).length ∧
        (jem.state = .delim → rest.length ≤ (valueText libc node).length) := by
    intro jem node rest le
    rw [nodeText, List.length_append]
    exact ⟨by omega, fun _ => le⟩
  induction h with
  | front front =>
      intro node sibs ptr
      obtain ⟨rfl, rfl⟩ := List.cons.inj (front.ptr_eq.symm.trans ptr)
      have := front.length_le
      rw [List.length_append, nodeText, List.length_append]
      exact ⟨by omega, fun state => absurd state front.state_ne⟩
  | string | bool | number =>
      rintro node sibs' ⟨⟩
      refine in_value ?_
      rw [valueText, scalarText, List.length_drop]
      exact Nat.sub_le _ _
  | opening | entered | closing | closed =>
      rintro node sibs' ⟨⟩
      refine in_value ?_
      rw [valueText]
      simp
  | child suffix at_child pending ih =>
      rintro node sibs' ⟨⟩
      refine in_value ?_
      have := (ih at_child).1
      have := child_length_le libc suffix
      simp only [valueText, List.length_append, List.length_cons, List.length_nil]
      omega
  | @comma k kind cs sibs c follow suffix =>
      rintro node sibs' ⟨⟩
      refine in_value ?_
      have := child_length_le libc suffix
      simp only [valueText, followText_cons, List.length_append, List.length_cons, List.length_nil]
      omega

/-- A call that leaves off at `left` resumes at `rest'`, which is `left` itself unless
`back` says that it is set back. -/
structure Resumes (back : Nat → Nat) (left rest' : Bytes) : Prop where
  length_eq : rest'.length = left.length + back left.length
  eq_of_zero : back left.length = 0 → rest' = left

theorem Resumes.of_zero {back : Nat → Nat} {left : Bytes} (here : back left.length = 0) :
    Resumes back left left :=
  ⟨by rw [here, Nat.add_zero], fun _ => rfl⟩

/-- The same place with `post` behind it. -/
theorem Resumes.append {back back' : Nat → Nat} {left rest' : Bytes} (h : Resumes back left rest')
    {post : Bytes} (same : back' (left.length + post.length) = back left.length) :
    Resumes back' (left ++ post) (rest' ++ post) := by
  constructor
  · rw [List.length_append, List.length_append, same, h.length_eq]
    omega
  · rw [List.length_append, same]
    intro zero
    rw [h.eq_of_zero zero]

/-- A call that had stored `buf` and had room for `len` more bytes of `rest`: it
stores as much as fits, and completes only if everything fitted. Otherwise it resumes
where it leaves off or where `back` sets it. -/
structure Advances (libc : Libc ν) (back : Nat → Nat) (ptr : List (JsonNode ν))
    (buf rest : Bytes) (len : Nat) (r : JemResult ν) : Prop where
  ret : r.ret = (r.buf.length : Nat)
  buf_eq : r.buf = buf ++ rest.take len
  ptr_eq : r.jem.ptr = ptr
  next : (r.jem.complete = true ∧ r.jem.state = .value ∧ rest.length ≤ len) ∨
    (r.jem.complete = false ∧ len ≤ rest.length ∧
      ∃ rest', Pending libc r.jem r.chain rest' ∧ Resumes back (rest.drop len) rest')

end Invariant

/-! ### Scalars -/

section Scalars

variable {libc : Libc ν}

/-- A literal text, resumed at `i`, of a node that is pending at every offset of
the text. -/
theorem encodeText_advances {text buf : Bytes} {buffer : Option Bytes} {ptr : List (JsonNode ν)}
    (pending : ∀ j ≤ text.length, Pending libc ⟨.delim, j, false, buffer, ptr⟩ [] (text.drop j))
    (short : text.length ≤ 0xFFFF) {i len : Nat} (hi : i ≤ text.length) :
    let r := jemEncodeText text (⟨.delim, i, false, buffer, ptr⟩ : JsonEncodeMachine ν) len
    Advances libc (fun _ => 0) ptr buf (text.drop i) len
      (jemScalarDone r.1 [] (buf ++ r.2)) := by
  intro r
  simp only [r, jemEncodeText, List.length_drop]
  by_cases hroom : text.length - i < len
  · rw [if_pos hroom]
    refine ⟨rfl, ?_, rfl, .inl ⟨rfl, rfl, by simp; omega⟩⟩
    simp only [jemScalarDone, jemReturn]
    rw [List.take_of_length_le (by simp; omega)]
  · rw [if_neg hroom]
    have start_eq : u16 (i + len) = i + len := Nat.mod_eq_of_lt (by omega)
    refine ⟨rfl, rfl, rfl, .inr ⟨rfl, by simp; omega, (text.drop i).drop len, ?_, .of_zero rfl⟩⟩
    simp only [jemScalarDone, jemReturn, start_eq, List.drop_drop]
    exact pending (i + len) (by omega)

/-- The value of a scalar node, from any point inside it. -/
theorem delim_scalar_advances {k : Option Bytes} {value : Scalar ν} {sibs : List (JsonNode ν)}
    {jem : JsonEncodeMachine ν} {chain : List (JsonEncodeMachine ν)} {rest buf : Bytes} {len : Nat}
    (passes : reach (.scalar k value : JsonNode ν) = .passes) (state : jem.state = .delim)
    (ptr : jem.ptr = .scalar k value :: sibs) (pending : Pending libc jem chain rest) :
    ∃ r, Computes (fun fuel => jemEncodeDelim libc fuel (.scalar k value) jem chain len buf) r ∧
      Advances libc (rewoundValue libc (.scalar k value)) (.scalar k value :: sibs) buf rest len
        r := by
  have back : rewoundValue libc (.scalar k value) = fun _ => 0 := funext fun left => by
    rw [rewoundValue]
  rw [back]
  clear back
  cases pending with
  | front h => exact absurd state h.state_ne
  | @string k s _ i hi =>
      obtain ⟨⟨rfl, rfl⟩, rfl⟩ : (_ ∧ _) ∧ _ := by simpa using ptr
      refine ⟨_, Computes.of_eq fun fuel => by rw [jemEncodeDelim], ?_⟩
      have out_eq := jemEncodeString_eq hi len
      have short := reach_string passes
      have start_eq : u16 (i + (((quoted s).drop i).take len).length) =
          i + (((quoted s).drop i).take len).length := by
        apply Nat.mod_eq_of_lt
        simp only [List.length_take, List.length_drop]
        omega
      simp only [jemEncodeValueString, out_eq, start_eq, Bool.false_or, encodedStrlen_eq]
      by_cases hroom : (quoted s).length - i ≤ len
      · have done : i + (((quoted s).drop i).take len).length = (quoted s).length := by
          simp only [List.length_take, List.length_drop]
          omega
        rw [done]
        exact ⟨rfl, rfl, by simp [jemScalarDone, jemReturn],
          .inl ⟨by simp [jemScalarDone, jemReturn], by simp [jemScalarDone, jemReturn],
            by simpa using hroom⟩⟩
      · have taken : (((quoted s).drop i).take len).length = len := by
          simp only [List.length_take, List.length_drop]
          omega
        have left : (i + len == (quoted s).length) = false := by
          simp only [beq_eq_false_iff_ne]
          omega
        rw [taken, left]
        refine ⟨rfl, rfl, rfl,
          .inr ⟨rfl, by simp; omega, ((quoted s).drop i).drop len, ?_, .of_zero rfl⟩⟩
        simp only [jemScalarDone, jemReturn, List.drop_drop]
        exact .string (by omega)
  | @bool k b _ i hi =>
      obtain ⟨⟨rfl, rfl⟩, rfl⟩ : (_ ∧ _) ∧ _ := by simpa using ptr
      refine ⟨_, Computes.of_eq fun fuel => by rw [jemEncodeDelim], ?_⟩
      exact encodeText_advances (fun j hj => .bool hj) (by cases b <;> simp [boolText]) hi
  | @number k n _ i buffer hi hb =>
      obtain ⟨⟨rfl, rfl⟩, rfl⟩ : (_ ∧ _) ∧ _ := by simpa using ptr
      refine ⟨_, Computes.of_eq fun fuel => by rw [jemEncodeDelim], ?_⟩
      simp only [jemEncodeNumber, hb]
      have short := emitNumber_length libc n
      exact encodeText_advances (fun j hj => .number hj rfl) (by omega) hi
  | opening => exact absurd ptr (by simp)
  | entered => exact absurd ptr (by simp)
  | child => exact absurd ptr (by simp)
  | comma => exact absurd ptr (by simp)
  | closing => exact absurd ptr (by simp)
  | closed => exact absurd ptr (by simp)

end Scalars

/-! ### From the value to the whole node -/

section Node

variable {libc : Libc ν}

/-- What `case jem_encode_state_delim` does for a node. -/
def DelimAdvances (libc : Libc ν) (node : JsonNode ν) : Prop :=
  ∀ ⦃jem : JsonEncodeMachine ν⦄ ⦃chain : List (JsonEncodeMachine ν)⦄ ⦃sibs : List (JsonNode ν)⦄
    ⦃rest : Bytes⦄ (buf : Bytes) (len : Nat), 0 < len → Short libc node len rest.length →
    jem.state = .delim → jem.ptr = node :: sibs → Pending libc jem chain rest →
    ∃ r, Computes (fun fuel => jemEncodeDelim libc fuel node jem chain len buf) r ∧
      Advances libc (rewoundValue libc node) (node :: sibs) buf rest len r

/-- What `jem_encode_value` does for a node. -/
def ValueAdvances (libc : Libc ν) (node : JsonNode ν) : Prop :=
  ∀ ⦃jem : JsonEncodeMachine ν⦄ ⦃chain : List (JsonEncodeMachine ν)⦄ ⦃sibs : List (JsonNode ν)⦄
    ⦃rest : Bytes⦄ (len : Nat), 0 < len → Short libc node len rest.length →
    jem.ptr = node :: sibs → Pending libc jem chain rest →
    ∃ r, Computes (fun fuel => jemEncodeValue libc fuel jem chain len) r ∧
      Advances libc (rewound libc node) (node :: sibs) [] rest len r

/-- Bytes stored earlier in the call count as emitted. -/
theorem Advances.of_append {back : Nat → Nat} {ptr : List (JsonNode ν)} {buf rest : Bytes}
    (pre : Bytes) {len : Nat} {r : JemResult ν}
    (h : Advances libc back ptr (buf ++ pre) rest (len - pre.length) r)
    (fit : pre.length ≤ len) : Advances libc back ptr buf (pre ++ rest) len r := by
  refine ⟨h.ret, ?_, h.ptr_eq, ?_⟩
  · rw [h.buf_eq, List.take_append, List.take_of_length_le fit, List.append_assoc]
  · rcases h.next with ⟨complete, state, all⟩ | ⟨more, full, rest', pending, resumes⟩
    · exact .inl ⟨complete, state, by rw [List.length_append]; omega⟩
    · refine .inr ⟨more, by rw [List.length_append]; omega, rest', pending, ?_⟩
      rwa [List.drop_append, List.drop_eq_nil_of_le fit, List.nil_append]

/-- The same call, where two ways to count how far it is set back agree. -/
theorem Advances.congr {back back' : Nat → Nat} {ptr : List (JsonNode ν)} {buf rest : Bytes}
    {len : Nat} {r : JemResult ν} (h : Advances libc back ptr buf rest len r)
    (same : back' (rest.length - len) = back (rest.length - len)) :
    Advances libc back' ptr buf rest len r := by
  refine ⟨h.ret, h.buf_eq, h.ptr_eq, h.next.imp_right ?_⟩
  rintro ⟨more, full, rest', pending, resumes⟩
  rw [← List.length_drop] at same
  refine ⟨more, full, rest', pending, ?_, ?_⟩
  · rw [same]
    exact resumes.length_eq
  · rw [same]
    exact resumes.eq_of_zero

/-- A call that stops right after storing `pre`, with its room used up. -/
theorem Advances.stop {back : Nat → Nat} {jem : JsonEncodeMachine ν}
    {chain : List (JsonEncodeMachine ν)} {ptr : List (JsonNode ν)} {buf rest rest' : Bytes}
    (pre : Bytes) {len : Nat} (ptr_eq : jem.ptr = ptr) (full : pre.length = len)
    (pending : Pending libc jem chain rest') (resumes : Resumes back rest rest') :
    Advances libc back ptr buf (pre ++ rest) len (jemReturn jem chain (buf ++ pre)) := by
  refine ⟨rfl, ?_, ptr_eq,
    .inr ⟨pending.complete_eq, by rw [List.length_append]; omega, rest', pending, ?_⟩⟩
  · rw [List.take_append, ← full, List.take_length, Nat.sub_self, List.take_zero, List.append_nil]
    rfl
  · rwa [List.drop_append, ← full, List.drop_length, Nat.sub_self, List.drop_zero, List.nil_append]

/-- The point right before the value of a node. -/
theorem Pending.value {node : JsonNode ν} (some_value : reach node ≠ .stops)
    (sibs : List (JsonNode ν)) :
    Pending libc ⟨.delim, 0, false, none, node :: sibs⟩ [] (valueText libc node) := by
  cases node with
  | scalar k value =>
      rw [valueText]
      cases value with
      | null => simp [reach] at some_value
      | bool b => exact Pending.bool (Nat.zero_le _)
      | string s => exact Pending.string (by simp [quoted])
      | number n => exact Pending.number (Nat.zero_le _) rfl
  | container k kind cs =>
      rw [valueText, List.cons_append]
      exact .opening

/-- Inside a key a call resumes where the 16 bits of its offset point. -/
theorem resumes_key {node : JsonNode ν} {k : Bytes} (hk : node.key = some k) {offset : Nat}
    (inside : offset < (quoted k).length) :
    Resumes (rewound libc node)
      ((quoted k).drop offset ++ [colon] ++ valueText libc node)
      ((quoted k).drop (u16 offset) ++ [colon] ++ valueText libc node) := by
  have wrapped : u16 offset ≤ offset := Nat.mod_le _ _
  have left : ((quoted k).drop offset ++ [colon] ++ valueText libc node).length =
      (quoted k).length - offset + 1 + (valueText libc node).length := by
    rw [List.length_append, List.length_append, List.length_drop, List.length_singleton]
  have at_offset : (quoted k).length + 1 + (valueText libc node).length -
      ((quoted k).length - offset + 1 + (valueText libc node).length) = offset := by omega
  have back : rewound libc node ((quoted k).drop offset ++ [colon] ++ valueText libc node).length =
      offset - u16 offset := by
    rw [rewound, rewoundValue_front (by rw [left]; omega), left, hk]
    simp only [rewoundKey, at_offset]
    rw [if_pos (by omega), Nat.add_zero]
  constructor
  · rw [back, left, List.length_append, List.length_append, List.length_drop,
      List.length_singleton]
    omega
  · rw [back]
    intro zero
    rw [show u16 offset = offset by omega]

/-- What `jem_encode_value` does before the value: it stops in front of it, or at
it, or goes on with it. Where it stops inside the key `start` may wrap. -/
theorem front_step (libc : Libc ν) {node : JsonNode ν} {sibs : List (JsonNode ν)}
    {jem : JsonEncodeMachine ν} {rest : Bytes} (front : Front node sibs jem rest)
    (chain : List (JsonEncodeMachine ν)) {len : Nat} (room : 0 < len) :
    (len < rest.length ∧ ∃ jem' rest', Front node sibs jem' rest' ∧
        Resumes (rewound libc node) (rest.drop len ++ valueText libc node)
          (rest' ++ valueText libc node) ∧
        ∀ fuel, jemEncodeValue libc (fuel + 1) jem chain len =
          some (jemReturn jem' chain (rest.take len))) ∨
      (len = rest.length ∧ ∀ fuel, jemEncodeValue libc (fuel + 1) jem chain len =
        some (jemReturn ⟨.delim, 0, false, none, node :: sibs⟩ chain rest)) ∨
      (rest.length < len ∧ ∀ fuel, jemEncodeValue libc (fuel + 1) jem chain len =
        jemEncodeDelim libc fuel node ⟨.delim, 0, false, none, node :: sibs⟩ chain
          (len - rest.length) rest) := by
  cases front with
  | @key k i hk hi =>
      have out_eq := jemEncodeString_eq hi len
      have text_len : ((quoted k).drop i ++ [colon]).length = (quoted k).length - i + 1 := by simp
      rw [text_len]
      by_cases whole : (quoted k).length - i ≤ len
      · have taken : ((quoted k).drop i).take len = (quoted k).drop i :=
          List.take_of_length_le (by simpa using whole)
        have out_len : ((quoted k).drop i).length = (quoted k).length - i := List.length_drop
        have done : (i + ((quoted k).length - i) == (quoted k).length) = true := by
          rw [beq_iff_eq]
          omega
        have step : ∀ fuel, jemEncodeValue libc (fuel + 1)
            (⟨.init, i, false, none, node :: sibs⟩ : JsonEncodeMachine ν) chain len =
            if len - ((quoted k).length - i) = 0 then
              some (jemReturn ⟨.key, 0, false, none, node :: sibs⟩ chain ((quoted k).drop i))
            else if len - ((quoted k).length - i) - 1 = 0 then
              some (jemReturn ⟨.delim, 0, false, none, node :: sibs⟩ chain
                ((quoted k).drop i ++ [colon]))
            else
              jemEncodeDelim libc fuel node ⟨.delim, 0, false, none, node :: sibs⟩ chain
                (len - ((quoted k).length - i) - 1) ((quoted k).drop i ++ [colon]) := by
          intro fuel
          simp only [jemEncodeValue, hk, jemEncodeKey, out_eq, taken, encodedStrlen_eq, out_len,
            done, Bool.or_true, if_true, jemChangeState]
        rcases Nat.lt_trichotomy len ((quoted k).length - i + 1) with lt | eq | gt
        · have exact_len : len = ((quoted k).drop i).length := by omega
          refine .inl ⟨lt, ⟨.key, 0, false, none, node :: sibs⟩, [colon], .colon hk, ?_,
            fun fuel => ?_⟩
          · rw [exact_len, List.drop_left]
            refine .of_zero ?_
            rw [rewound, rewoundValue_front (by simp), rewoundKey_of_le (by simp)]
          · rw [step, if_pos (by omega), exact_len, List.take_left]
        · exact .inr (.inl ⟨eq, fun fuel => by rw [step, if_neg (by omega), if_pos (by omega)]⟩)
        · refine .inr (.inr ⟨gt, fun fuel => ?_⟩)
          rw [step, if_neg (by omega), if_neg (by omega), Nat.sub_sub]
      · have taken : (((quoted k).drop i).take len).length = len := by
          rw [List.length_take, List.length_drop]
          omega
        have left : (i + len == (quoted k).length) = false := by
          rw [beq_eq_false_iff_ne]
          omega
        have wrapped : u16 (i + len) ≤ i + len := Nat.mod_le _ _
        refine .inl ⟨by omega, ⟨.init, u16 (i + len), false, none, node :: sibs⟩, _,
          .key hk (by omega), ?_, fun fuel => ?_⟩
        · rw [List.drop_append_of_le_length (by rw [List.length_drop]; omega), List.drop_drop]
          exact resumes_key hk (by omega)
        · simp only [jemEncodeValue, hk, jemEncodeKey, out_eq, taken, encodedStrlen_eq, left,
            Bool.or_false, Bool.false_eq_true, if_false]
          rw [List.take_append_of_le_length (by rw [List.length_drop]; omega)]
  | bare hk =>
      exact .inr (.inr ⟨room, fun fuel => by simp only [jemEncodeValue, hk, jemChangeState]; rfl⟩)
  | colon =>
      by_cases one : len - 1 = 0
      · refine .inr (.inl ⟨by simp; omega, fun fuel => ?_⟩)
        simp only [jemEncodeValue, one, if_true, jemChangeState]
      · refine .inr (.inr ⟨by simp; omega, fun fuel => ?_⟩)
        simp only [jemEncodeValue, one, if_false, jemChangeState]
        rfl

/-- The key, the colon and then the value. -/
theorem value_of_delim {node : JsonNode ν} (delim : DelimAdvances libc node) :
    ValueAdvances libc node := by
  intro jem chain sibs rest len room short ptr pending
  have some_value : reach node ≠ .stops := by
    rcases short with passes | ⟨blocked, -⟩
    · simp [passes]
    · simp [blocked]
  by_cases at_value : jem.state = .delim
  · obtain ⟨r, computes, advances⟩ := delim [] len room short at_value ptr pending
    refine ⟨r, computes.step fun fuel => by rw [jemEncodeValue, ptr, at_value], ?_⟩
    have le := (pending.length_le ptr).2 at_value
    exact advances.congr (rewound_value (by omega))
  cases pending with
  | @front node' sibs' _ rest front =>
      obtain ⟨rfl, rfl⟩ : node = node' ∧ sibs = sibs' := by
        simpa using ptr.symm.trans front.ptr_eq
      rcases front_step libc front [] room with
        ⟨inside, jem', rest', front', resumes, step⟩ | ⟨full, step⟩ | ⟨past, step⟩
      · refine ⟨_, Computes.of_eq step, ?_⟩
        have split : rest ++ valueText libc node =
            rest.take len ++ (rest.drop len ++ valueText libc node) := by
          rw [← List.append_assoc, List.take_append_drop]
        rw [split]
        exact Advances.stop _ front'.ptr_eq (by rw [List.length_take]; omega) (.front front')
          resumes
      · refine ⟨_, Computes.of_eq step, Advances.stop _ rfl full.symm (Pending.value some_value _)
          (.of_zero ?_)⟩
        rw [rewound_value le_rfl, rewoundValue_front le_rfl]
      · have short' := short.sub past.le
        rw [List.length_append, Nat.add_sub_cancel_left] at short'
        obtain ⟨r, computes, advances⟩ := delim rest (len - rest.length) (by omega) short' rfl rfl
          (Pending.value some_value sibs)
        refine ⟨r, computes.step step, (Advances.of_append _ advances past.le).congr ?_⟩
        rw [List.length_append]
        exact rewound_value (by omega)
  | _ => exact absurd rfl at_value

end Node

/-! ### Containers -/

section Containers

variable {libc : Libc ν}

/-- The machines below a container whose children are `cs` still have to emit
`rest` before the closing bracket. -/
inductive ChildPending (libc : Libc ν) (cs : List (JsonNode ν)) :
    List (JsonEncodeMachine ν) → Bytes → Prop where
  | child {next : JsonEncodeMachine ν} {below : List (JsonEncodeMachine ν)} {c : JsonNode ν}
      {follow : List (JsonNode ν)} {rest : Bytes} (suffix : c :: follow <:+ cs)
      (at_child : next.ptr = c :: follow) (pending : Pending libc next below rest) :
      ChildPending libc cs (next :: below) (rest ++ followText libc follow)
  | comma {c : JsonNode ν} {follow : List (JsonNode ν)} (suffix : c :: follow <:+ cs) :
      ChildPending libc cs [{ jemAt (c :: follow) with complete := true }]
        (followText libc (c :: follow))

/-- A round of `jem_encode_obj` that had stored `buf` and had room for `len` bytes
of `rest`: it stores as much as fits and completes the container only if
everything fitted. Otherwise it resumes as `Advances` says. -/
structure LoopAdvances (libc : Libc ν) (cs : List (JsonNode ν)) (jem : JsonEncodeMachine ν)
    (buf rest : Bytes) (len : Nat) (r : JemResult ν) : Prop where
  ret : r.ret = (r.buf.length : Nat)
  buf_eq : r.buf = buf ++ rest.take len
  next : (r.jem = { jem with complete := true } ∧ r.chain = [] ∧ rest.length ≤ len) ∨
    (r.jem = jem ∧ len ≤ rest.length ∧ ∃ rest', ChildPending libc cs r.chain rest' ∧
      Resumes (rewoundChildren libc cs) (rest.drop len) rest')

/-- With no room left the loop returns where it stands. -/
theorem objLoop_full (libc : Libc ν) (jem : JsonEncodeMachine ν) {next : JsonEncodeMachine ν}
    {below : List (JsonEncodeMachine ν)}
    {c : JsonNode ν} {follow : List (JsonNode ν)} (ptr : next.ptr = c :: follow)
    (busy : next.complete = false) (ret : Int) (buf : Bytes) :
    Computes (fun fuel => jemObjLoop libc fuel jem next below 0 ret buf)
      ⟨jem, next :: below, ret, buf⟩ := by
  refine Computes.of_eq fun fuel => ?_
  obtain ⟨state, start, complete, buffer, p⟩ := next
  subst ptr; subst busy
  simp [jemObjLoop]

/-- The comma before the next child is stored if there is room for it. -/
theorem objLoop_comma (jem : JsonEncodeMachine ν) (c : JsonNode ν) (follow : List (JsonNode ν))
    {len : Nat} (room : len ≠ 0) (buf : Bytes) (fuel : Nat) :
    jemObjLoop libc fuel jem { jemAt (c :: follow) with complete := true } [] len
        (buf.length : Nat) buf =
      jemObjLoop libc fuel jem (jemAt (c :: follow)) [] (len - 1)
        ((buf ++ [comma]).length : Nat) (buf ++ [comma]) := by
  cases fuel with
  | zero => simp [jemObjLoop]
  | succ fuel => simp [jemObjLoop, jemAt, jsonEncodeMachineInit, room]

/-- The loop resumed inside a child: the room is used up there, or the loop goes on
after the child with what is left of it. -/
theorem objLoop_child_cases (jem : JsonEncodeMachine ν) {next : JsonEncodeMachine ν}
    {below : List (JsonEncodeMachine ν)} {c : JsonNode ν} {follow : List (JsonNode ν)}
    (value : ValueAdvances libc c) {rest : Bytes} {len : Nat} (short : Short libc c len rest.length)
    (here : len = 0 → rewound libc c rest.length = 0) (ptr : next.ptr = c :: follow)
    (pending : Pending libc next below rest) (buf : Bytes) :
    (len ≤ rest.length ∧ ∃ next' below' rest', next'.ptr = c :: follow ∧
        Pending libc next' below' rest' ∧ Resumes (rewound libc c) (rest.drop len) rest' ∧
        Computes (fun fuel => jemObjLoop libc fuel jem next below len (buf.length : Nat) buf)
          ⟨jem, next' :: below', ((buf ++ rest.take len).length : Nat), buf ++ rest.take len⟩) ∨
      (rest.length ≤ len ∧
        let now := fun fuel => jemObjLoop libc fuel jem next below len (buf.length : Nat) buf
        let after := fun fuel => jemObjLoop libc fuel jem { jemAt follow with complete := true } []
          (len - rest.length) ((buf ++ rest).length : Nat) (buf ++ rest)
        (∀ r, Computes after r → Computes now r) ∧ (Diverges after → Diverges now)) := by
  have busy := pending.complete_eq
  rcases Nat.eq_zero_or_pos len with rfl | room
  · exact .inl ⟨Nat.zero_le _, next, below, rest, ptr, pending, .of_zero (here rfl), by
      simpa using objLoop_full libc jem ptr busy (buf.length : Nat) buf⟩
  obtain ⟨r, computes, advances⟩ := value len room short ptr pending
  have out_eq : r.buf = rest.take len := advances.buf_eq
  have ret_eq : r.ret = (min len rest.length : Nat) := by
    rw [advances.ret, out_eq, List.length_take]
  have total : ((buf.length : Nat) : Int) + r.ret = ((buf ++ r.buf).length : Nat) := by
    rw [advances.ret, List.length_append]
    omega
  -- one round of the loop up to the result of the child
  have round : ∀ fuel, jemEncodeValue libc fuel next below len = some r →
      jemObjLoop libc (fuel + 1) jem next below len (buf.length : Nat) buf =
        if r.jem.complete then
          jemObjLoop libc fuel jem { jemAt follow with complete := true } []
            (len - rest.length) ((buf ++ r.buf).length : Nat) (buf ++ r.buf)
        else
          jemObjLoop libc fuel jem r.jem r.chain (len - rest.length)
            ((buf ++ r.buf).length : Nat) (buf ++ r.buf) := by
    intro fuel result
    have not_neg : ¬ ((buf.length : Nat) : Int) < 0 := by omega
    have left : ((len : Int) - r.ret).toNat = len - rest.length := by
      rw [ret_eq]
      omega
    obtain ⟨state, start, complete, buffer, p⟩ := next
    obtain rfl : p = c :: follow := ptr
    obtain rfl : complete = false := busy
    simp only [jemObjLoop, Bool.false_eq_true, false_and, if_false, List.length_nil,
      Nat.sub_zero, List.append_nil, Nat.cast_zero, add_zero, room.ne', result, not_neg,
      left, total, Int.toNat_natCast, List.take_length]
  rcases advances.next with ⟨complete, -, all⟩ | ⟨more, full, rest', left, resumes⟩
  · have goes_on : ∀ fuel, jemEncodeValue libc fuel next below len = some r →
        jemObjLoop libc (fuel + 1) jem next below len (buf.length : Nat) buf =
          jemObjLoop libc fuel jem { jemAt follow with complete := true } [] (len - rest.length)
            ((buf ++ rest).length : Nat) (buf ++ rest) := by
      intro fuel result
      rw [round fuel result, complete, if_pos rfl, out_eq, List.take_of_length_le all]
    exact .inr ⟨all, fun r' after => computes.step_bind goes_on after,
      Diverges.step_bind goes_on computes⟩
  · have no_room : len - rest.length = 0 := by omega
    refine .inl ⟨full, r.jem, r.chain, rest', advances.ptr_eq, left, resumes, ?_⟩
    rw [← out_eq]
    refine computes.step_bind (fun fuel result => ?_)
      (objLoop_full libc jem advances.ptr_eq more _ _)
    rw [round fuel result, more, if_neg (by simp), no_room]

/-- The loop resumed inside a child, given what it does after the child. -/
theorem objLoop_child {cs : List (JsonNode ν)} {jem next : JsonEncodeMachine ν}
    {below : List (JsonEncodeMachine ν)} {c : JsonNode ν} {follow : List (JsonNode ν)}
    (value : ValueAdvances libc c) (suffix : c :: follow <:+ cs)
    (after : ∀ (len : Nat) (buf : Bytes),
      ShortChildren libc follow len (followText libc follow).length → ∃ r,
      Computes (fun fuel => jemObjLoop libc fuel jem { jemAt follow with complete := true } [] len
        (buf.length : Nat) buf) r ∧ LoopAdvances libc cs jem buf (followText libc follow) len r)
    {rest : Bytes} {len : Nat}
    (short : ShortChildren libc (c :: follow) len (rest.length + (followText libc follow).length))
    (here : len = 0 → rewound libc c rest.length = 0) (ptr : next.ptr = c :: follow)
    (pending : Pending libc next below rest) (buf : Bytes) :
    ∃ r, Computes (fun fuel => jemObjLoop libc fuel jem next below len (buf.length : Nat) buf) r ∧
      LoopAdvances libc cs jem buf (rest ++ followText libc follow) len r := by
  rcases objLoop_child_cases jem value short.child here ptr pending buf with
    ⟨full, next', below', rest', ptr', pending', resumes, computes⟩ | ⟨all, goes_on, -⟩
  · refine ⟨_, computes, rfl, ?_, .inr ⟨rfl, by rw [List.length_append]; omega, _,
      .child suffix ptr' pending', ?_⟩⟩
    · rw [List.take_append_of_le_length full]
    · rw [List.drop_append_of_le_length full]
      have le := (pending.length_le ptr).1
      exact resumes.append (rewoundChildren_child suffix (by rw [List.length_drop]; omega))
  · obtain ⟨r, computes, advances⟩ := after (len - rest.length) (buf ++ rest) (short.follow all).2
    refine ⟨r, goes_on r computes, advances.ret, ?_, ?_⟩
    · rw [advances.buf_eq, List.take_append, List.take_of_length_le all, List.append_assoc]
    · rcases advances.next with ⟨done, chain, all'⟩ | ⟨same, full, rest', pending', resumes⟩
      · exact .inl ⟨done, chain, by rw [List.length_append]; omega⟩
      · refine .inr ⟨same, by rw [List.length_append]; omega, rest', pending', ?_⟩
        rwa [List.drop_append, List.drop_eq_nil_of_le all, List.nil_append]

/-- The loop after a completed child: the comma and the next child, if there is one,
and the end of the container otherwise. -/
theorem objLoop_follow {cs : List (JsonNode ν)} {jem : JsonEncodeMachine ν}
    (values : ∀ c ∈ cs, ValueAdvances libc c) (follow : List (JsonNode ν))
    (suffix : follow <:+ cs) :
    ∀ (len : Nat) (buf : Bytes),
      ShortChildren libc follow len (followText libc follow).length → ∃ r,
      Computes (fun fuel => jemObjLoop libc fuel jem { jemAt follow with complete := true } [] len
        (buf.length : Nat) buf) r ∧
          LoopAdvances libc cs jem buf (followText libc follow) len r := by
  induction follow with
  | nil =>
      intro len buf _
      refine ⟨⟨{ jem with complete := true }, [], (buf.length : Nat), buf⟩,
        Computes.of_eq fun fuel => by simp [jemObjLoop, jemAt], rfl, by simp [followText],
        .inl ⟨rfl, rfl, by simp [followText]⟩⟩
  | cons c follow ih =>
      intro len buf short
      have value := values c (suffix.subset List.mem_cons_self)
      have after := ih ((List.suffix_cons c follow).trans suffix)
      rcases Nat.eq_zero_or_pos len with rfl | room
      · exact ⟨⟨jem, [{ jemAt (c :: follow) with complete := true }], (buf.length : Nat), buf⟩,
          Computes.of_eq fun fuel => by simp [jemObjLoop, jemAt], rfl, by simp,
          .inr ⟨rfl, Nat.zero_le _, _, .comma suffix, .of_zero (rewoundChildren_comma suffix)⟩⟩
      · have short' := short.sub (show 1 ≤ len from room)
        rw [followText_cons, List.length_cons, List.length_append, Nat.add_sub_cancel] at short'
        obtain ⟨r, computes, advances⟩ := objLoop_child value suffix after short'
          (fun _ => rewound_front le_rfl) rfl (Pending.fresh c follow) (buf ++ [comma])
        obtain ⟨len, rfl⟩ : ∃ k, len = k + 1 := ⟨len - 1, by omega⟩
        rw [followText_cons]
        refine ⟨r, ?_, advances.ret, ?_, ?_⟩
        · simpa only [objLoop_comma jem c follow room.ne' buf] using computes
        · rw [advances.buf_eq]
          simp
        · rcases advances.next with ⟨done, chain, all⟩ | ⟨same, full, rest', pending, resumes⟩
          · exact .inl ⟨done, chain, by simp at all ⊢; omega⟩
          · exact .inr ⟨same, by simp at full ⊢; omega, rest', pending, by simpa using resumes⟩

/-- The points of a container at which its children are being emitted. -/
theorem ChildPending.pending {cs : List (JsonNode ν)} {chain : List (JsonEncodeMachine ν)}
    {rest : Bytes} (h : ChildPending libc cs chain rest) (k : Option Bytes) (kind : Container)
    (sibs : List (JsonNode ν)) :
    Pending libc ⟨.delim, 1, false, none, .container k kind cs :: sibs⟩ chain
      (rest ++ [closeBracket kind]) := by
  cases h with
  | child suffix at_child pending => exact .child suffix at_child pending
  | comma suffix => exact .comma suffix

/-- `jem_encode_obj` on a container whose children are `cs`, none of which or some
of which are emitted. -/
theorem encodeObj_advances {cs : List (JsonNode ν)} (jem : JsonEncodeMachine ν)
    (some_child : cs ≠ []) (values : ∀ c ∈ cs, ValueAdvances libc c)
    (children : (jem.ptr.head?.map JsonNode.jsonFirstChild).getD [] = cs)
    {chain : List (JsonEncodeMachine ν)} {rest : Bytes}
    (pending : (chain = [] ∧ rest = childrenText libc cs) ∨ ChildPending libc cs chain rest)
    {len : Nat} (room : 0 < len) (short : ShortChildren libc cs len rest.length) :
    ∃ r, Computes (fun fuel => jemEncodeObj libc fuel jem chain len) r ∧
      LoopAdvances libc cs jem [] rest len r := by
  have inside : ∀ {next : JsonEncodeMachine ν} {below : List (JsonEncodeMachine ν)}
      {c : JsonNode ν} {follow : List (JsonNode ν)} {rest : Bytes}, c :: follow <:+ cs →
      next.ptr = c :: follow → Pending libc next below rest →
      ShortChildren libc cs len (rest ++ followText libc follow).length →
      ∃ r, Computes (fun fuel => jemObjLoop libc fuel jem next below len 0 []) r ∧
        LoopAdvances libc cs jem [] (rest ++ followText libc follow) len r := by
    intro next below c follow rest suffix ptr pending short
    have le := (pending.length_le ptr).1
    rw [List.length_append] at short
    have short' := short.suffix suffix (by
      rw [followText_cons, List.length_cons, List.length_append]
      omega)
    exact objLoop_child (values _ (suffix.subset List.mem_cons_self)) suffix
      (objLoop_follow values _ ((List.suffix_cons _ _).trans suffix)) short'
      (fun none => absurd none room.ne') ptr pending []
  rcases pending with ⟨rfl, rfl⟩ | pending
  · obtain ⟨c, follow, rfl⟩ : ∃ c follow, cs = c :: follow := List.exists_cons_of_ne_nil some_child
    rw [childrenText_cons] at short
    obtain ⟨r, computes, advances⟩ := inside List.suffix_rfl rfl (Pending.fresh c follow) short
    refine ⟨r, computes.step fun fuel => ?_, by rwa [childrenText_cons]⟩
    simp [jemEncodeObj, room.ne', children, jsonEncodeMachineInit]
  · cases pending with
    | child suffix ptr pending =>
        obtain ⟨r, computes, advances⟩ := inside suffix ptr pending short
        exact ⟨r, computes.step fun fuel => by simp [jemEncodeObj, room.ne', ptr], advances⟩
    | @comma c follow suffix =>
        obtain ⟨r, computes, advances⟩ := objLoop_follow values (c :: follow) suffix len []
          (short.suffix suffix le_rfl)
        exact ⟨r, computes.step fun fuel => by simp [jemEncodeObj, room.ne', jemAt], advances⟩

/-- `case 2` of a container. -/
theorem close_advances {k : Option Bytes} {kind : Container} {cs sibs : List (JsonNode ν)}
    (buf : Bytes) {len : Nat} (room : 0 < len) :
    Advances libc (rewoundValue libc (.container k kind cs)) (.container k kind cs :: sibs) buf
      [closeBracket kind] len
        (jemClose kind ⟨.delim, 2, false, none, .container k kind cs :: sibs⟩ [] len buf) := by
  unfold jemClose
  by_cases one : len - 1 = 0
  · rw [if_pos one]
    exact Advances.stop [closeBracket kind] rfl (by simp; omega) .closed
      (.of_zero (rewoundValue_zero _))
  · rw [if_neg one]
    have taken : [closeBracket kind].take len = [closeBracket kind] :=
      List.take_of_length_le room
    exact ⟨rfl, by rw [taken]; rfl, rfl, .inl ⟨rfl, rfl, room⟩⟩

/-- `case 1` of a container: what is left of the children, then the closing bracket
if there is room for it. -/
theorem children_advances (k : Option Bytes) (kind : Container) {cs : List (JsonNode ν)}
    (sibs : List (JsonNode ν)) (some_child : cs ≠ []) (values : ∀ c ∈ cs, ValueAdvances libc c)
    {chain : List (JsonEncodeMachine ν)} {rest : Bytes}
    (pending : (chain = [] ∧ rest = childrenText libc cs) ∨ ChildPending libc cs chain rest)
    (buf : Bytes) {len : Nat} (room : 0 < len) (short : ShortChildren libc cs len rest.length) :
    ∃ r, Computes (fun fuel => jemChildren libc fuel kind
        ⟨.delim, 1, false, none, .container k kind cs :: sibs⟩ chain len buf) r ∧
      Advances libc (rewoundValue libc (.container k kind cs)) (.container k kind cs :: sibs) buf
        (rest ++ [closeBracket kind]) len r := by
  obtain ⟨r, computes, advances⟩ := encodeObj_advances
    ⟨.delim, 1, false, none, .container k kind cs :: sibs⟩ some_child values rfl pending room short
  have out_eq : r.buf = rest.take len := advances.buf_eq
  have not_neg : ¬ r.ret < 0 := by rw [advances.ret]; omega
  have count : r.ret.toNat = min len rest.length := by
    rw [advances.ret, out_eq, List.length_take, Int.toNat_natCast]
  rcases advances.next with ⟨jem_eq, chain_eq, all⟩ | ⟨jem_eq, full, rest', left, resumes⟩
  · have out_all : r.buf = rest := by rw [out_eq, List.take_of_length_le all]
    have left : len - r.ret.toNat = len - rest.length := by omega
    by_cases no_room : len - rest.length = 0
    · refine ⟨jemReturn ⟨.delim, 2, false, none, .container k kind cs :: sibs⟩ [] (buf ++ rest),
        computes.step_bind (k := fun _ => some _) (fun fuel result => ?_)
        (Computes.of_eq fun _ => rfl), Advances.stop _ rfl (by omega) (.closing some_child)
        (.of_zero ?_)⟩
      · simp [jemChildren, result, not_neg, jem_eq, chain_eq, out_all, left, no_room, u16]
      · rw [rewoundValue, List.length_singleton, rewoundChildren_zero]
    · refine ⟨jemClose kind ⟨.delim, 2, false, none, .container k kind cs :: sibs⟩ []
        (len - rest.length) (buf ++ rest),
        computes.step_bind (k := fun _ => some _) (fun fuel result => ?_)
        (Computes.of_eq fun _ => rfl), Advances.of_append _ (close_advances _ (by omega)) all⟩
      simp [jemChildren, result, not_neg, jem_eq, chain_eq, out_all, left, no_room, u16]
  · refine ⟨jemReturn ⟨.delim, 1, false, none, .container k kind cs :: sibs⟩ r.chain (buf ++ r.buf),
      computes.step_bind (k := fun _ => some _) (fun fuel result => ?_)
      (Computes.of_eq fun _ => rfl), ?_⟩
    · simp [jemChildren, result, not_neg, jem_eq]
    · have split : rest ++ [closeBracket kind] =
          rest.take len ++ (rest.drop len ++ [closeBracket kind]) := by
        rw [← List.append_assoc, List.take_append_drop]
      rw [split, out_eq]
      refine Advances.stop _ rfl (by rw [List.length_take]; omega) (left.pending k kind sibs)
        (resumes.append ?_)
      rw [rewoundValue, List.length_singleton, Nat.add_sub_cancel]

/-- The value of a container with children, from any point inside it. -/
theorem delim_container_advances {k : Option Bytes} {kind : Container} {cs : List (JsonNode ν)}
    (some_child : cs ≠ []) (values : ∀ c ∈ cs, ValueAdvances libc c) :
    DelimAdvances libc (.container k kind cs) := by
  intro jem chain sibs rest buf len room short state ptr pending
  have in_children : ∀ {left : Nat}, Short libc (.container k kind cs) len (left + 1) →
      ShortChildren libc cs len left := fun short => short.children some_child
  cases pending with
  | front h => exact absurd state h.state_ne
  | string hi => exact absurd ptr (by simp)
  | bool hi => exact absurd ptr (by simp)
  | number hi hb => exact absurd ptr (by simp)
  | @opening k kind cs sibs =>
      obtain ⟨⟨rfl, rfl, rfl⟩, rfl⟩ : (_ ∧ _ ∧ _) ∧ _ := by simpa using ptr
      have split : openBracket kind :: (childrenText libc cs ++ [closeBracket kind]) =
          [openBracket kind] ++ (childrenText libc cs ++ [closeBracket kind]) := rfl
      rw [split] at short ⊢
      by_cases one : len - 1 = 0
      · refine ⟨_, Computes.of_eq fun fuel => by
          rw [jemEncodeDelim]; simp only [one, if_true]; rfl, ?_⟩
        refine Advances.stop _ rfl (by simp; omega) .entered (.of_zero ?_)
        rw [rewoundValue, List.length_append, List.length_singleton, Nat.add_sub_cancel,
          rewoundChildren_front le_rfl]
      · have short' : ShortChildren libc cs (len - 1) (childrenText libc cs).length := by
          have := (short.children some_child).sub (show 1 ≤ len from room)
          simpa [Nat.add_comm 1] using this
        obtain ⟨r, computes, advances⟩ := children_advances k kind sibs some_child values
          (.inl ⟨rfl, rfl⟩) (buf ++ [openBracket kind]) (show 0 < len - 1 by omega) short'
        refine ⟨r, computes.step fun fuel => by simp only [jemEncodeDelim, one, if_false], ?_⟩
        exact Advances.of_append _ advances room
  | @entered k kind cs sibs =>
      obtain ⟨⟨rfl, rfl, rfl⟩, rfl⟩ : (_ ∧ _ ∧ _) ∧ _ := by simpa using ptr
      rw [List.length_append] at short
      obtain ⟨r, computes, advances⟩ := children_advances k kind sibs some_child values
        (.inl ⟨rfl, rfl⟩) buf room (in_children short)
      exact ⟨r, computes.step fun fuel => by simp only [jemEncodeDelim], advances⟩
  | @child k kind cs sibs _ _ _ _ _ suffix at_child inner =>
      obtain ⟨⟨rfl, rfl, rfl⟩, rfl⟩ : (_ ∧ _ ∧ _) ∧ _ := by simpa using ptr
      rw [List.length_append] at short
      obtain ⟨r, computes, advances⟩ := children_advances k kind sibs some_child values
        (.inr (.child suffix at_child inner)) buf room (in_children short)
      exact ⟨r, computes.step fun fuel => by simp only [jemEncodeDelim], advances⟩
  | @comma k kind cs sibs _ _ suffix =>
      obtain ⟨⟨rfl, rfl, rfl⟩, rfl⟩ : (_ ∧ _ ∧ _) ∧ _ := by simpa using ptr
      rw [List.length_append] at short
      obtain ⟨r, computes, advances⟩ := children_advances k kind sibs some_child values
        (.inr (.comma suffix)) buf room (in_children short)
      exact ⟨r, computes.step fun fuel => by simp only [jemEncodeDelim], advances⟩
  | closing =>
      obtain ⟨⟨rfl, rfl, rfl⟩, rfl⟩ : (_ ∧ _ ∧ _) ∧ _ := by simpa using ptr
      exact ⟨_, Computes.of_eq fun fuel => by simp only [jemEncodeDelim], close_advances buf room⟩
  | closed =>
      obtain ⟨⟨rfl, rfl, rfl⟩, rfl⟩ : (_ ∧ _ ∧ _) ∧ _ := by simpa using ptr
      refine ⟨_, Computes.of_eq fun fuel => by simp only [jemEncodeDelim]; rfl, ?_⟩
      exact ⟨rfl, by simp [jemReturn], rfl, .inl ⟨rfl, rfl, by simp⟩⟩

/-- An empty container, up to its opening bracket. -/
theorem delim_empty_advances (k : Option Bytes) (kind : Container) :
    DelimAdvances libc (.container k kind [] : JsonNode ν) := by
  intro jem chain sibs rest buf len room short state ptr pending
  obtain ⟨-, place⟩ : reach (.container k kind [] : JsonNode ν) = .blocked ∧
      len + beyond libc (.container k kind [] : JsonNode ν) ≤ rest.length :=
    short.resolve_left (by simp [reach_empty])
  rw [beyond, beyondChildren] at place
  cases pending with
  | front h => exact absurd state h.state_ne
  | string hi => exact absurd ptr (by simp)
  | bool hi => exact absurd ptr (by simp)
  | number hi hb => exact absurd ptr (by simp)
  | @opening k kind cs sibs =>
      obtain ⟨⟨rfl, rfl, rfl⟩, rfl⟩ : (_ ∧ _ ∧ _) ∧ _ := by simpa using ptr
      obtain rfl : len = 1 := by
        simp only [childrenText, List.nil_append, List.length_cons, List.length_nil] at place
        omega
      refine ⟨_, Computes.of_eq fun fuel => by
        rw [jemEncodeDelim]; simp only [Nat.sub_self, if_true]; rfl, ?_⟩
      refine Advances.stop [openBracket kind] rfl rfl .entered (.of_zero ?_)
      rw [rewoundValue, rewoundChildren]
  | entered =>
      obtain ⟨⟨rfl, rfl, rfl⟩, rfl⟩ : (_ ∧ _ ∧ _) ∧ _ := by simpa using ptr
      simp only [childrenText, List.nil_append, List.length_singleton] at place
      omega
  | child suffix =>
      obtain ⟨⟨rfl, rfl, rfl⟩, rfl⟩ : (_ ∧ _ ∧ _) ∧ _ := by simpa using ptr
      simp at suffix
  | comma suffix =>
      obtain ⟨⟨rfl, rfl, rfl⟩, rfl⟩ : (_ ∧ _ ∧ _) ∧ _ := by simpa using ptr
      simp at suffix
  | closing =>
      rw [List.length_singleton] at place
      omega
  | closed =>
      rw [List.length_nil] at place
      omega

end Containers

/-! ### Every node -/

/-- A call of `jem_encode_value` on a machine that still has `rest` to emit, which ends
in front of anything in its way, comes back, stores as much of `rest` as fits and
leaves a machine that has what is left of it to emit, from where it resumes. -/
theorem encodeValue_advances {libc : Libc ν} (node : JsonNode ν) : ValueAdvances libc node := by
  induction node using JsonNode.tree_induction with
  | scalar k value =>
      refine value_of_delim ?_
      intro jem chain sibs rest buf len _ short state ptr pending
      exact delim_scalar_advances short.scalar state ptr pending
  | container k kind cs ih =>
      refine value_of_delim ?_
      cases cs with
      | nil => exact delim_empty_advances k kind
      | cons c cs => exact delim_container_advances (by simp) ih

end AcnSdk.Json

/-
`json_encode_property` of `src/json/json.c` on the nodes in memory.

The emitters follow the lists of children. What they put into the string builder is their text, as
for the trees. `emit_string` asserts that its text is in valid UTF-8, which `json.h` asks of every
string and key; the assertions are those of the standard build, where `__USE_STD__` is defined and
`NDEBUG` is not.

* `emitValueAt_eq` — the text of a node is the one of the tree that it holds, if all of its texts
  are valid; else an assertion fails.
* `jsonEncodeProperty_eq` — the property has this text in a block of its own.
-/

import AcnSdk.Json.Emit
import AcnSdk.Json.PointerDecode

namespace AcnSdk.Json

variable {ν : Type}

mutual

/-- The rounds of the recursion over a tree. -/
def JsonNode.rounds : JsonNode ν → Nat
  | .scalar _ _ => 1
  | .container _ _ children => roundsList children + 1

def JsonNode.roundsList : List (JsonNode ν) → Nat
  | [] => 1
  | c :: cs => c.rounds + roundsList cs

end

theorem JsonNode.rounds_pos (tree : JsonNode ν) : 0 < tree.rounds := by
  cases tree with
  | scalar key value => exact Nat.one_pos
  | container key kind children => exact Nat.succ_pos _

theorem JsonNode.rounds_le {c : JsonNode ν} {cs : List (JsonNode ν)} (mem : c ∈ cs) :
    c.rounds ≤ roundsList cs := by
  induction mem with
  | head cs => exact Nat.le_add_right _ _
  | tail d _ ih => exact Nat.le_trans ih (Nat.le_add_left _ _)

theorem JsonNode.length_lt_rounds (cs : List (JsonNode ν)) : cs.length < roundsList cs := by
  induction cs with
  | nil => exact Nat.one_pos
  | cons c cs ih =>
      have pos := c.rounds_pos
      rw [List.length_cons, roundsList]
      omega

namespace Pointers

open AcnSdk.Lib Ascii Prog Heap Data

/-! ### The emitters -/

/-- `emit_string` of what a pointer points to, with its assertion. -/
def emitText (p : Option Addr) : JsonM ν Bytes := do
  let str ← onTexts (do stringAt (← deref p))
  if utf8Validate str then return emitString str else throw .assertion

/-- What `emit_object` puts for a member. -/
def emitMemberAt (emit : Addr → JsonM ν Bytes) (member : Addr) : JsonM ν Bytes := do
  let key ← emitText (← onNodes (read member)).key.value
  let value ← emit member
  return key ++ colon :: value

/-- The loop of `emit_array` and `emit_object`, with what is put for a child. -/
def emitChildrenAt (emit : Addr → JsonM ν Bytes) : Nat → Option Addr → JsonM ν Bytes
  | 0, _ => throw .endless
  | _ + 1, none => return []
  | fuel + 1, some child => do
      let text ← emit child
      let next := (← onNodes (read child)).next
      let rest ← emitChildrenAt emit fuel next
      return text ++ (if next = none then [] else [comma]) ++ rest

variable (libc : Libc ν)

/-- `emit_value`. -/
def emitValueAt : Nat → Addr → JsonM ν Bytes
  | 0, _ => throw .endless
  | fuel + 1, node => do
      let x ← onNodes (read node)
      if x.tag = code .null then return nullText
      else if x.tag = code .bool then return boolText x.bool_
      else if x.tag = code .string then emitText x.string_
      else if x.tag = code .number then return emitNumber libc x.number_
      else if x.tag = code .array then
        let elements ← emitChildrenAt (emitValueAt fuel) (fuel + 1) (← jsonFirstChild (some node))
        return lbrack :: elements ++ [rbrack]
      else if x.tag = code .object then
        let members ←
          emitChildrenAt (emitMemberAt (emitValueAt fuel)) (fuel + 1) (← jsonFirstChild (some node))
        return lbrace :: members ++ [rbrace]
      else throw .assertion

/-- `json_encode_property`. -/
def jsonEncodeProperty (fuel : Nat) (node : Addr) : JsonM ν Property := do
  let text ← emitValueAt libc fuel node
  let allocString ← onTexts (alloc (text ++ [0]))
  return pJson allocString (← onTexts (strlen allocString))

/-! ### What they emit -/

/-- A text is emitted if what it is made of is valid. -/
def emitted (valid : Bool) (text : Bytes) (m : Memory ν) : Except Fault (Bytes × Memory ν) :=
  if valid then .ok (text, m) else .error .assertion

/-- Texts with commas between them. -/
def separated (text : JsonNode ν → Bytes) : List (JsonNode ν) → Bytes
  | [] => []
  | c :: cs => text c ++ (if cs.isEmpty then [] else [comma]) ++ separated text cs

theorem emitElements_eq (cs : List (JsonNode ν)) :
    emitElements libc cs = separated (emitValue libc) cs := by
  induction cs with
  | nil => rw [emitElements, separated]
  | cons c cs ih => rw [emitElements, separated, ih]

/-- The text of a member. -/
def memberText (member : JsonNode ν) : Bytes :=
  emitString (keyValue member) ++ colon :: emitValue libc member

theorem emitMembers_eq (cs : List (JsonNode ν)) :
    emitMembers libc cs = separated (memberText libc) cs := by
  induction cs with
  | nil => rw [emitMembers, separated]
  | cons c cs ih => rw [emitMembers, separated, ih, memberText]

variable {libc} {m : Memory ν} {region : Addr → Prop} {a : Addr} {tree : JsonNode ν}

theorem emitText_eq {s : Bytes} (text : Text m.texts a s) :
    emitText (some a) m = emitted (utf8Validate s) (emitString s) m := by
  obtain ⟨plain, rest, cell⟩ := text
  have read_s : (do stringAt (← deref (some a)) : HeapM Bytes Bytes) m.texts =
      .ok (s, m.texts) := by
    rw [bind_of_ok (deref_some a m.texts), stringAt_eq cell plain]
  rw [emitText, bind_of_ok (onTexts_ok read_s), emitted]
  split <;> rfl

/-- A list of children is gone through from its first one on, as long as they are valid. -/
theorem emitChildrenAt_eq {emit : Addr → JsonM ν Bytes} {text : JsonNode ν → Bytes}
    {p : Option Addr} {cs : List Addr} {children : List (JsonNode ν)} (valid : JsonNode ν → Bool)
    (fuel : Nat) (walk : Walk (links m.nodes).next p cs) (length : cs.length = children.length)
    (live : ∀ c ∈ cs, ∃ y, m.nodes.cells c = some y)
    (each : ∀ q ∈ cs.zip children, emit q.1 m = emitted (valid q.2) (text q.2) m)
    (enough : cs.length < fuel) :
    emitChildrenAt emit fuel p m = emitted (children.all valid) (separated text children) m := by
  obtain ⟨fuel, rfl⟩ := Nat.exists_eq_succ_of_ne_zero (Nat.ne_zero_of_lt enough)
  induction cs generalizing p children fuel with
  | nil =>
      rw [List.eq_nil_of_length_eq_zero length.symm, show p = none from walk]
      rfl
  | cons c cs ih =>
      obtain ⟨t, children, rfl⟩ : ∃ t ts, children = t :: ts :=
        List.exists_cons_of_length_eq_add_one length.symm
      obtain ⟨rfl, rest⟩ := walk
      obtain ⟨y, cell⟩ := live c List.mem_cons_self
      have at_c : (links m.nodes).next c = y.next := pointer_eq cell Node.next
      rw [at_c] at rest
      obtain ⟨fuel, rfl⟩ : ∃ n, fuel = n + 1 :=
        Nat.exists_eq_succ_of_ne_zero (Nat.ne_zero_of_lt (Nat.lt_of_succ_lt_succ enough))
      have last_iff : y.next = none ↔ children.isEmpty = true := by
        rw [rest.start_eq, List.head?_eq_none_iff, List.isEmpty_iff, ← List.length_eq_zero_iff,
          ← List.length_eq_zero_iff, Nat.succ.inj length]
      have first := each (c, t) List.mem_cons_self
      have others := ih rest (Nat.succ.inj length)
        (fun d mem => live d (List.mem_cons_of_mem c mem))
        (fun q mem => each q (List.mem_cons_of_mem (c, t) mem)) fuel
        (Nat.lt_of_succ_lt_succ enough)
      rw [List.all_cons, separated]
      cases valid_t : valid t with
      | false =>
          rw [valid_t] at first
          rw [emitChildrenAt, bind_apply, first]
          rfl
      | true =>
          have first : emit c m = .ok (text t, m) := by
            rw [first, valid_t]
            rfl
          rw [emitChildrenAt, bind_of_ok first, bind_of_ok (onNodes_ok (read_eq cell)),
            bind_apply, others, Bool.true_and]
          cases children.all valid with
          | false => rfl
          | true =>
              simp only [emitted, if_true, ok_bind, pure_apply, last_iff]

theorem jsonFirstChild_eq {x : Node ν} (cell : m.nodes.cells a = some x) (kind : IsContainer x) :
    jsonFirstChild (some a) m = .ok (x.head, m) := by
  have list : (if x.tag = code .array ∨ x.tag = code .object then x.head else none) = x.head :=
    if_pos kind
  rw [jsonFirstChild, bind_of_ok (onNodes_ok (read_eq cell)), list]
  rfl

/-- The text of a member with a key. -/
theorem emitMemberAt_eq {emit : Addr → JsonM ν Bytes} (holds : Holds m region a tree)
    (keyed : tree.key.isSome = true) {valid : Bool}
    (value : emit a m = emitted valid (emitValue libc tree) m) :
    emitMemberAt emit a m =
      emitted (tree.keyHas utf8Validate && valid) (memberText libc tree) m := by
  obtain ⟨y, cell, named⟩ := holds.cell
  obtain ⟨k, key_eq⟩ := Option.isSome_iff_exists.mp keyed
  rw [key_eq] at named
  obtain ⟨-, b, points, text⟩ := named
  rw [emitMemberAt, bind_of_ok (onNodes_ok (read_eq cell)), points, bind_apply, emitText_eq text,
    memberText, keyValue, JsonNode.keyHas, key_eq, Option.all_some]
  cases utf8Validate k with
  | false => rfl
  | true =>
      rw [emitted, if_pos rfl, ok_bind, bind_apply, value]
      cases valid <;> rfl

/-- The text of a node that has no children. -/
theorem emitValueAt_scalar {x : Node ν} {value : Scalar ν} (cell : m.nodes.cells a = some x)
    (holds : HoldsValue m.texts x value) (key : Option Bytes) (fuel : Nat) :
    emitValueAt libc (fuel + 1) a m =
      emitted (JsonNode.utf8Texts (.scalar key value)) (emitValue libc (.scalar key value)) m := by
  rw [emitValueAt, bind_of_ok (onNodes_ok (read_eq cell))]
  cases value with
  | null =>
      have tag : x.tag = code .null := holds
      rw [if_pos tag, emitValue]
      rfl
  | bool b =>
      obtain ⟨tag, eq⟩ := holds
      rw [if_neg (by rw [tag]; decide), if_pos tag, eq, emitValue]
      rfl
  | string s =>
      obtain ⟨tag, b, eq, text⟩ := holds
      rw [if_neg (by rw [tag]; decide), if_neg (by rw [tag]; decide), if_pos tag, eq, emitValue]
      exact emitText_eq text
  | number n =>
      obtain ⟨tag, eq⟩ := holds
      rw [if_neg (by rw [tag]; decide), if_neg (by rw [tag]; decide),
        if_neg (by rw [tag]; decide), if_pos tag, eq, emitValue]
      rfl

theorem all_and_all {β : Type} (p q : β → Bool) (l : List β) :
    (l.all fun x => p x && q x) = (l.all p && l.all q) := by
  induction l with
  | nil => rfl
  | cons x l ih =>
      rw [List.all_cons, List.all_cons, List.all_cons, ih]
      cases p x <;> cases q x <;> simp

/-- The text of a node is the one of the tree that it holds, if all of its texts are valid. -/
theorem emitValueAt_eq (holds : Holds m region a tree)
    (keyed : tree.all JsonNode.childrenKeyed = true) (fuel : Nat) (enough : tree.rounds ≤ fuel) :
    emitValueAt libc fuel a m =
      emitted (tree.all JsonNode.utf8Texts) (emitValue libc tree) m := by
  obtain ⟨fuel, rfl⟩ :=
    Nat.exists_eq_succ_of_ne_zero (Nat.ne_zero_of_lt (Nat.lt_of_lt_of_le tree.rounds_pos enough))
  induction tree using JsonNode.tree_induction generalizing a fuel with
  | scalar key value =>
      cases holds with
      | scalar cell _ value_is => exact emitValueAt_scalar cell value_is key fuel
  | container key kind children ih =>
      rw [JsonNode.all_container, Bool.and_eq_true, List.all_eq_true] at keyed
      obtain ⟨root_keyed, children_keyed⟩ := keyed
      cases holds with
      | @container _ x _ _ cs _ cell _ tag list parent _ length below =>
          have live : ∀ c ∈ cs, ∃ y, m.nodes.cells c = some y := fun c mem =>
            (Option.bind_eq_some_iff.mp (parent c mem)).imp fun _ both => both.1
          have fuel_enough : JsonNode.roundsList children ≤ fuel := Nat.le_of_succ_le_succ enough
          have values : ∀ q ∈ cs.zip children,
              emitValueAt libc fuel q.1 m =
                emitted (q.2.all JsonNode.utf8Texts) (emitValue libc q.2) m := by
            intro q mem
            obtain ⟨-, mem_t⟩ := List.of_mem_zip mem
            have rounds := Nat.le_trans (JsonNode.rounds_le mem_t) fuel_enough
            obtain ⟨fuel, rfl⟩ := Nat.exists_eq_succ_of_ne_zero
              (Nat.ne_zero_of_lt (Nat.lt_of_lt_of_le q.2.rounds_pos rounds))
            exact ih q.2 mem_t (below q mem) (children_keyed q.2 mem_t) fuel rounds
          have loop_enough : cs.length < fuel + 1 := by
            rw [length]
            exact Nat.lt_succ_of_le
              (Nat.le_of_lt (Nat.lt_of_lt_of_le (JsonNode.length_lt_rounds children) fuel_enough))
          rw [emitValueAt, bind_of_ok (onNodes_ok (read_eq cell))]
          cases kind with
          | array =>
              have tag : x.tag = code .array := tag
              have unnamed : children.all (JsonNode.keyHas utf8Validate) = true := by
                refine List.all_eq_true.mpr fun c mem => ?_
                have none_key := Option.isNone_iff_eq_none.mp (List.all_eq_true.mp root_keyed c mem)
                rw [JsonNode.keyHas, none_key, Option.all_none]
              rw [if_neg (by rw [tag]; decide), if_neg (by rw [tag]; decide),
                if_neg (by rw [tag]; decide), if_neg (by rw [tag]; decide), if_pos tag,
                bind_of_ok (jsonFirstChild_eq cell (.inl tag)), bind_apply,
                emitChildrenAt_eq (JsonNode.all JsonNode.utf8Texts) (fuel + 1) list.forth
                  length live
                  values loop_enough,
                emitValue, emitElements_eq, JsonNode.all_container, JsonNode.utf8Texts, unnamed,
                Bool.true_and]
              cases children.all (JsonNode.all JsonNode.utf8Texts) <;> rfl
          | object =>
              have tag : x.tag = code .object := tag
              have members : ∀ q ∈ cs.zip children,
                  emitMemberAt (emitValueAt libc fuel) q.1 m =
                    emitted (q.2.keyHas utf8Validate && q.2.all JsonNode.utf8Texts)
                      (memberText libc q.2) m := by
                intro q mem
                have some_key := List.all_eq_true.mp root_keyed q.2 (List.of_mem_zip mem).2
                exact emitMemberAt_eq (below q mem) some_key (values q mem)
              have loop := emitChildrenAt_eq
                (fun c => c.keyHas utf8Validate && c.all JsonNode.utf8Texts) (fuel + 1) list.forth
                length live members loop_enough
              rw [if_neg (by rw [tag]; decide), if_neg (by rw [tag]; decide),
                if_neg (by rw [tag]; decide), if_neg (by rw [tag]; decide),
                if_neg (by rw [tag]; decide), if_pos tag,
                bind_of_ok (jsonFirstChild_eq cell (.inr tag)), bind_apply,
                loop, all_and_all, emitValue, emitMembers_eq, JsonNode.all_container,
                JsonNode.utf8Texts]
              cases children.all (JsonNode.keyHas utf8Validate) &&
                children.all (JsonNode.all JsonNode.utf8Texts) <;> rfl

theorem strlen_terminated {h : Heap Bytes} {block : Bytes} (cell : h.cells a = some block)
    (ends : 0 ∈ block) : ∃ n, strlen a h = .ok (n, h) := by
  obtain ⟨s, rest, rfl, plain⟩ := List.eq_append_cons_of_mem ends
  exact ⟨s.length, strlen_eq cell plain⟩

variable (libc) in
/-- `json_encode_property` makes a text, and changes nothing else. -/
theorem jsonEncodeProperty_eq (holds : Holds m region a tree)
    (keyed : tree.all JsonNode.childrenKeyed = true)
    (valid : tree.all JsonNode.utf8Texts = true) (fuel : Nat) (enough : tree.rounds ≤ fuel) :
    ∃ n, jsonEncodeProperty libc fuel a m = .ok (pJson m.texts.brk n,
      { m with texts := m.texts.push (jsonEncode libc tree ++ [0]) }) := by
  obtain ⟨n, length⟩ := strlen_terminated (h := m.texts.push (jsonEncode libc tree ++ [0]))
    (if_pos rfl) (List.mem_append_right _ List.mem_cons_self)
  have text : emitValueAt libc fuel a m = .ok (emitValue libc tree, m) := by
    rw [emitValueAt_eq holds keyed fuel enough, valid]
    rfl
  refine ⟨n, ?_⟩
  rw [jsonEncodeProperty, bind_of_ok text,
    bind_of_ok (onTexts_ok (alloc_eq m.texts _)), bind_of_ok (onTexts_ok length)]
  rfl

/-- It does not return if a text is not valid. -/
theorem jsonEncodeProperty_invalid (holds : Holds m region a tree)
    (keyed : tree.all JsonNode.childrenKeyed = true)
    (invalid : tree.all JsonNode.utf8Texts = false) (fuel : Nat) (enough : tree.rounds ≤ fuel) :
    jsonEncodeProperty libc fuel a m = .error .assertion := by
  rw [jsonEncodeProperty, bind_apply, emitValueAt_eq holds keyed fuel enough, invalid]
  rfl

end Pointers

end AcnSdk.Json

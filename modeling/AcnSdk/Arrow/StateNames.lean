/-
The names of device states while the states are posted, `src/arrow/state.c`.

The list of states keeps a copy of every name it is given. `_state_post_init` hands that name by
value to `json_append_member`, which moves it into a node. That the source is no owner any more
is then noted in the argument only, and `json_delete` releases what the state still points to.

A state may hold another member of its union than its tag names. The post reads the member of the
tag all the same; what is there then depends on the layout of the union, which is a parameter.

* `jsonDelete_eq` — which buffers are released with a tree.
* `statePostInit_eq` — a post of states whose names are there.
* `namesKept_iff` — for which states every post leaves the names as they are.

The address of the request and what is done with its text are left out.
-/

import AcnSdk.Arrow.StateTags
import AcnSdk.Data.Property
import AcnSdk.Json.Emit
import Mathlib.Data.List.Forall2
import Mathlib.Data.List.Nodup

namespace AcnSdk.Arrow.StateNames

open AcnSdk.Lib AcnSdk.Json AcnSdk.Data Prog Heap
open StateTags (Tag Kind handleOf)

variable {ν : Type}

/-! ### States and nodes -/

/-- How the name of a state is given. -/
inductive NameKind where
  | const | heap | stack
deriving DecidableEq, Repr

/-- `p_const`, `p_heap` or `p_stack`. -/
def NameKind.property (value : Addr) (len : Nat) : NameKind → Property
  | .const => .const value len
  | .heap => .heap value len
  | .stack => .stack value len

/-- A state as it is declared, with its value at the time of the posts. -/
structure Given (ν : Type) where
  kind : NameKind
  address : Addr
  bytes : Bytes
  tag : Tag
  value : StateValue ν

def Given.property (g : Given ν) : Property := g.kind.property g.address g.bytes.length

/-- `arrow_state_list_t`, with a name that is a property. -/
structure StateRecord (ν : Type) where
  name : Property
  tag : Tag
  value : StateValue ν

/-- A `JsonNode` with a key that is a property. -/
inductive KeyedNode (ν : Type) where
  | leaf (key : Property) (value : JsonNode ν)
  | object (key : Property) (children : List (KeyedNode ν))

namespace KeyedNode

def key : KeyedNode ν → Property
  | leaf key _ | object key _ => key

def withKey (key : Property) : KeyedNode ν → KeyedNode ν
  | leaf _ value => leaf key value
  | object _ children => object key children

mutual

/-- The keys of a node and below. -/
def keys : KeyedNode ν → List Property
  | leaf key _ => [key]
  | object key children => key :: keysList children

def keysList : List (KeyedNode ν) → List Property
  | [] => []
  | child :: rest => keys child ++ keysList rest

end

end KeyedNode

/-! ### The functions -/

/-- `arrow_device_state_init`. The values are those that the states have later. -/
def arrowDeviceStateInit : List (Given ν) → HeapM Bytes (List (StateRecord ν))
  | [] => return []
  | g :: rest => do
      let name ← propertyCopy g.property
      let states ← arrowDeviceStateInit rest
      return ⟨name, g.tag, g.value⟩ :: states

/-- What a member of the union `value` is where another one was written last. A property has then
a pointer to a string, or one that must not be followed. -/
structure UnionLayout (ν : Type) where
  asBool : StateValue ν → Bool
  asNumber : StateValue ν → ν
  asString : StateValue ν → Option Bytes

/-- `json_mkstring`, of a string or of what is none. -/
def mkstringOf : Option Bytes → Except Fault (JsonNode ν)
  | some s => .ok (.scalar none (.string s))
  | none => .error .nullPointer

section

variable (u : UnionLayout ν)

/-- The `json` of `state_adder`: it reads the member of its kind, whatever was written last. -/
def kindJson : Kind → StateValue ν → Except Fault (JsonNode ν)
  | .bool, .bool b => .ok (.scalar none (.bool b))
  | .bool, other => .ok (.scalar none (.bool (u.asBool other)))
  | .number, .number n => .ok (.scalar none (.number n))
  | .number, other => .ok (.scalar none (.number (u.asNumber other)))
  | .string, .string s => mkstringOf s
  | .string, other => mkstringOf (u.asString other)

/-- Of the member that was written last, it makes what is made where all states hold the member of
their tag. -/
theorem kindJson_eq {kind : Kind} {value : StateValue ν} (same : StateTags.kindOf value = kind) :
    kindJson u kind value = kind.json value := by
  subst same
  cases value with
  | bool b => rfl
  | number n => rfl
  | string s => cases s <;> rfl

/-- The `json` of `state_adder`, if there is one for the tag. -/
def stateJson (tag : Tag) (value : StateValue ν) : Except Fault (Option (JsonNode ν)) := do
  match ← handleOf tag with
  | none => return none
  | some kind => do
      let node ← kindJson u kind value
      return some node

end

variable {u : UnionLayout ν}

/-- `json_append_member`, with the children of the object. Its key is a copy of that of the
caller. -/
def jsonAppendMember (children : List (KeyedNode ν)) (key : Property) (value : KeyedNode ν) :
    HeapM Bytes (List (KeyedNode ν)) := do
  let moved ← propertyMove value.key key
  return children ++ [value.withKey moved.1]

/-- The loop of `_state_post_init`, with the children of `_states`. -/
def appendStates (u : UnionLayout ν) :
    List (StateRecord ν) → List (KeyedNode ν) → HeapM Bytes (List (KeyedNode ν))
  | [], children => return children
  | tmp :: rest, children => do
      match ← lift (stateJson u tmp.tag tmp.value) with
      | none => appendStates u rest children
      | some value => do
          let children ← jsonAppendMember children tmp.name (.leaf .init value)
          appendStates u rest children

/-- `P_VALUE` of a key, where it is read as a string. -/
def keyString (key : Property) : HeapM Bytes (Option Bytes) :=
  match key.value with
  | none => return none
  | some value => do
      let s ← stringAt value
      return some s

mutual

/-- The node that the emitter reads. -/
def readNode : KeyedNode ν → HeapM Bytes (JsonNode ν)
  | .leaf key value => do
      let key ← keyString key
      return value.withKey key
  | .object key children => do
      let key ← keyString key
      let children ← readChildren children
      return .container key .object children

def readChildren : List (KeyedNode ν) → HeapM Bytes (List (JsonNode ν))
  | [] => return []
  | child :: rest => do
      let node ← readNode child
      let nodes ← readChildren rest
      return node :: nodes

end

mutual

/-- `json_delete` for a node that has a parent: `json_remove_from_parent` frees its key. -/
def jsonDelete : KeyedNode ν → HeapM Bytes Unit
  | .leaf key _ => do
      let _ ← propertyFree key
  | .object key children => do
      let _ ← propertyFree key
      deleteChildren children

/-- The loop of `json_delete`. -/
def deleteChildren : List (KeyedNode ν) → HeapM Bytes Unit
  | [] => return ()
  | child :: rest => do
      jsonDelete child
      deleteChildren rest

end

/-- `"states"` -/
abbrev statesText : Bytes := [0x73, 0x74, 0x61, 0x74, 0x65, 0x73]

/-- Where the literal `"states"` lies. -/
def statesLiteral : Addr := 0

/-- Where the literal `"timestamp"` lies. -/
def timestampLiteral : Addr := 1

section

variable (u : UnionLayout ν) (libc : Libc ν) (lastModify : Option Bytes)

/-- The member `"timestamp"` of the request. -/
def appendTimestamp (main : List (KeyedNode ν)) : HeapM Bytes (List (KeyedNode ν)) :=
  match lastModify with
  | none => return main
  | some ts =>
      jsonAppendMember main (.const timestampLiteral timestampText.length)
        (.leaf .init (.scalar none (.string ts)))

/-- `json_encode_property`, with the assertion of `emit_string`. -/
def jsonEncodeProperty (tree : JsonNode ν) : Except Fault Bytes :=
  if tree.all JsonNode.utf8Texts then .ok (jsonEncode libc tree) else .error .assertion

/-- The part of `_state_post_init` that makes the text of the request. `lastModify` is
`timestamp_string` of `_last_modify`, if that is not empty. -/
def statePostInit (states : List (StateRecord ν)) : HeapM Bytes Bytes := do
  let children ← appendStates u states []
  let main ← jsonAppendMember [] (.const statesLiteral statesText.length) (.object .init children)
  let main ← appendTimestamp lastModify main
  let tree ← readNode (.object .init main)
  let payload ← lift (jsonEncodeProperty libc tree)
  -- `_main` has no parent
  deleteChildren main
  return payload

/-- Posts of the states, one after the other. -/
def posts (states : List (StateRecord ν)) : Nat → HeapM Bytes Unit
  | 0 => return ()
  | n + 1 => do
      let _ ← statePostInit u libc lastModify states
      posts states n

end

/-! ### Names and their owners -/

/-- Declared states, with the memory that their names and the literals lie in. -/
structure Declared (ν : Type) where
  heap : Heap Bytes
  given : List (Given ν)
  fresh : heap.Fresh
  statesCell : heap.cells statesLiteral = some (statesText ++ [0])
  timestampCell : heap.cells timestampLiteral = some (timestampText ++ [0])
  strings : ∀ g ∈ given, (∃ rest, heap.cells g.address = some (g.bytes ++ 0 :: rest)) ∧ 0 ∉ g.bytes

/-- The buffers that are owned by property records. -/
def buffers (records : List Property) : List Addr := records.filterMap Property.owned

def names (states : List (StateRecord ν)) : List Property := states.map StateRecord.name

/-- The names of the states are as they were given, and every buffer of theirs is there and has
one owner. -/
structure Kept (given : List (Given ν)) (states : List (StateRecord ν)) (h : Heap Bytes) :
    Prop where
  bytes : List.Forall₂ (fun g state => keyString state.name h = .ok (some g.bytes, h)) given states
  live : ∀ a ∈ buffers (names states), ∃ block, h.cells a = some block
  single : ∀ a ∈ buffers (names states),
    (buffers (given.map Given.property ++ names states)).count a = 1

/-- After each of `n` posts the names are kept, and none of them touches memory that was
released. -/
def NamesKept (u : UnionLayout ν) (libc : Libc ν) (lastModify : Option Bytes) (d : Declared ν)
    (n : Nat) : Prop :=
  ∃ states h, arrowDeviceStateInit d.given d.heap = .ok (states, h) ∧
    ∀ k ≤ n, Avoids .released (posts u libc lastModify states k h) ∧
      ∀ h', posts u libc lastModify states k h = .ok ((), h') → Kept d.given states h'

/-! ### Moving, reading and deleting -/

/-- A name as the list of states has it: a constant, or a string with a buffer of its own. -/
def IsName (a : Addr) (p : Property) : Prop := ∃ n, p = .const a n ∨ p = .heap a n

/-- A name whose string is there. -/
def HasString (h : Heap Bytes) (p : Property) : Prop :=
  ∃ a s rest, IsName a p ∧ h.cells a = some (s ++ 0 :: rest) ∧ 0 ∉ s

section

variable {h : Heap Bytes} {a : Addr} {p : Property}

theorem IsName.value (name : IsName a p) : p.value = some a := by
  obtain ⟨n, rfl | rfl⟩ := name
  · rfl
  · rfl

/-- What is appended has the name itself for a key, flag and all. -/
theorem jsonAppendMember_eq (name : IsName a p) (children : List (KeyedNode ν))
    (value : KeyedNode ν) :
    jsonAppendMember children p value h = .ok (children ++ [value.withKey p], h) := by
  obtain ⟨n, rfl | rfl⟩ := name
  · rfl
  · rfl

theorem keyString_eq {s rest : Bytes} (name : IsName a p)
    (cell : h.cells a = some (s ++ 0 :: rest)) (plain : 0 ∉ s) :
    keyString p h = .ok (some s, h) := by
  simp only [keyString, name.value, bind_apply, stringAt_eq cell plain, ok_bind, pure_apply]

end

theorem buffers_cons (p : Property) (ps : List Property) :
    buffers (p :: ps) = p.owned.toList ++ buffers ps := by
  rw [buffers, buffers, List.filterMap_cons]
  cases p.owned with
  | none => rfl
  | some a => rfl

theorem buffers_append (ps qs : List Property) : buffers (ps ++ qs) = buffers ps ++ buffers qs :=
  List.filterMap_append

/-- A key of the tree: none, or a name. -/
def IsKey (p : Property) : Prop := p = .init ∨ ∃ a, IsName a p

/-- There are blocks at all these addresses. -/
def AllLive (h : Heap Bytes) (as : List Addr) : Prop := ∀ a ∈ as, ∃ block, h.cells a = some block

theorem HasString.isKey {h : Heap Bytes} {p : Property} (string : HasString h p) : IsKey p := by
  obtain ⟨a, s, rest, name, -⟩ := string
  exact .inr ⟨a, name⟩

theorem propertyFree_eq {h : Heap Bytes} {p : Property} (key : IsKey p)
    (live : AllLive h p.owned.toList) :
    propertyFree p h = .ok (.init, h.eraseAll p.owned.toList) := by
  rcases key with rfl | ⟨a, n, rfl | rfl⟩
  · rfl
  · rfl
  · obtain ⟨block, cell⟩ := live a List.mem_cons_self
    exact propertyFree_heap n cell

/-- Releasing some buffers leaves those that are not among them. -/
theorem AllLive.eraseAll {h : Heap Bytes} {as bs : List Addr} (live : AllLive h (as ++ bs))
    (nodup : (as ++ bs).Nodup) : AllLive (h.eraseAll as) bs := by
  intro b mem
  obtain ⟨block, cell⟩ := live b (List.mem_append_right as mem)
  have apart : b ∉ as := fun mem' => (List.nodup_append.mp nodup).2.2 b mem' b mem rfl
  exact ⟨block, (eraseAll_cells apart).trans cell⟩

mutual

/-- What is released with a tree. -/
theorem jsonDelete_eq : ∀ (node : KeyedNode ν) {h : Heap Bytes}, (∀ p ∈ node.keys, IsKey p) →
    AllLive h (buffers node.keys) → (buffers node.keys).Nodup →
    jsonDelete node h = .ok ((), h.eraseAll (buffers node.keys))
  | .leaf key value, h, isKey, live, nodup => by
      have first := isKey key List.mem_cons_self
      rw [KeyedNode.keys, buffers_cons] at live ⊢
      rw [buffers, List.filterMap_nil, List.append_nil] at live ⊢
      simp only [jsonDelete, bind_apply, propertyFree_eq first live, ok_bind, pure_apply]
  | .object key children, h, isKey, live, nodup => by
      obtain ⟨first, later⟩ := List.forall_mem_cons.mp isKey
      rw [KeyedNode.keys, buffers_cons] at live nodup ⊢
      have free := propertyFree_eq first fun a mem => live a (List.mem_append_left _ mem)
      have below := deleteChildren_eq children later (live.eraseAll nodup)
        (List.nodup_append.mp nodup).2.1
      simp only [jsonDelete, bind_apply, free, ok_bind, below, eraseAll_append]

theorem deleteChildren_eq : ∀ (children : List (KeyedNode ν)) {h : Heap Bytes},
    (∀ p ∈ KeyedNode.keysList children, IsKey p) →
    AllLive h (buffers (KeyedNode.keysList children)) →
    (buffers (KeyedNode.keysList children)).Nodup →
    deleteChildren children h = .ok ((), h.eraseAll (buffers (KeyedNode.keysList children)))
  | [], h, _, _, _ => by
      rw [KeyedNode.keysList, buffers, List.filterMap_nil, eraseAll_nil]
      rfl
  | child :: rest, h, isKey, live, nodup => by
      obtain ⟨first, later⟩ := List.forall_mem_append.mp isKey
      rw [KeyedNode.keysList, buffers_append] at live nodup ⊢
      have free := jsonDelete_eq child first (fun a mem => live a (List.mem_append_left _ mem))
        (List.nodup_append.mp nodup).1
      have below := deleteChildren_eq rest later (live.eraseAll nodup)
        (List.nodup_append.mp nodup).2.1
      simp only [deleteChildren, bind_apply, free, ok_bind, below, eraseAll_append]

end

/-! ### The list of states -/

/-- A state with the name that it was given, which has a buffer behind `base` unless it is a
constant. -/
structure Named (base : Addr) (h : Heap Bytes) (g : Given ν) (state : StateRecord ν) : Prop where
  tag : state.tag = g.tag
  value : state.value = g.value
  plain : 0 ∉ g.bytes
  name : ∃ a n rest, h.cells a = some (g.bytes ++ 0 :: rest) ∧
    (g.kind = .const ∧ state.name = .const a n ∨
      g.kind ≠ .const ∧ state.name = .heap a n ∧ base ≤ a)

/-- Every cell is still there. -/
structure Extends (h h' : Heap Bytes) : Prop where
  cells : ∀ {a block}, h.cells a = some block → h'.cells a = some block
  brk : h.brk ≤ h'.brk

namespace Named

variable {base : Addr} {h h' : Heap Bytes} {g : Given ν} {state : StateRecord ν}

theorem mono (named : Named base h g state) (more : Extends h h') : Named base h' g state := by
  obtain ⟨a, n, rest, cell, kinds⟩ := named.name
  exact ⟨named.tag, named.value, named.plain, a, n, rest, more.cells cell, kinds⟩

theorem weaken {base' : Addr} (named : Named base h g state) (le : base' ≤ base) :
    Named base' h g state := by
  obtain ⟨a, n, rest, cell, kinds⟩ := named.name
  refine ⟨named.tag, named.value, named.plain, a, n, rest, cell, ?_⟩
  rcases kinds with kind | ⟨kind, name, behind⟩
  · exact .inl kind
  · exact .inr ⟨kind, name, le.trans behind⟩

theorem isName (named : Named base h g state) :
    ∃ a rest, IsName a state.name ∧ h.cells a = some (g.bytes ++ 0 :: rest) := by
  obtain ⟨a, n, rest, cell, kinds⟩ := named.name
  refine ⟨a, rest, ⟨n, ?_⟩, cell⟩
  rcases kinds with ⟨-, name⟩ | ⟨-, name, -⟩
  · exact .inl name
  · exact .inr name

theorem hasString (named : Named base h g state) : HasString h state.name := by
  obtain ⟨a, rest, name, cell⟩ := named.isName
  exact ⟨a, g.bytes, rest, name, cell, named.plain⟩

theorem keyString_eq (named : Named base h g state) :
    keyString state.name h = .ok (some g.bytes, h) := by
  obtain ⟨a, rest, name, cell⟩ := named.isName
  exact StateNames.keyString_eq name cell named.plain

/-- The buffer of a name is there, and was made for it. -/
theorem owned (named : Named base h g state) {b : Addr} (owns : state.name.owned = some b) :
    base ≤ b ∧ ∃ block, h.cells b = some block := by
  obtain ⟨a, n, rest, cell, ⟨-, name⟩ | ⟨-, name, behind⟩⟩ := named.name
  · rw [name] at owns
    cases owns
  · rw [name] at owns
    cases owns
    exact ⟨behind, _, cell⟩

/-- Names that are no constants have buffers. -/
theorem owned_of_ne (named : Named base h g state) (kind : g.kind ≠ .const) :
    ∃ b, state.name.owned = some b := by
  obtain ⟨a, n, rest, cell, ⟨const, -⟩ | ⟨-, name, -⟩⟩ := named.name
  · exact absurd const kind
  · exact ⟨a, by rw [name]; rfl⟩

theorem owned_of_const (named : Named base h g state) (kind : g.kind = .const) :
    state.name.owned = none := by
  obtain ⟨a, n, rest, cell, ⟨-, name⟩ | ⟨other, -⟩⟩ := named.name
  · rw [name]
    rfl
  · exact absurd kind other

end Named

/-- A name that is no constant is copied to a buffer of its own. -/
theorem copied_named {h : Heap Bytes} (fresh : h.Fresh) (g : Given ν) (plain : 0 ∉ g.bytes)
    (kind : g.kind ≠ .const)
    (copied : propertyCopy g.property h =
      .ok (.heap h.brk g.bytes.length, h.push (g.bytes ++ [0]))) :
    ∃ name h', propertyCopy g.property h = .ok (name, h') ∧ h'.Fresh ∧ Extends h h' ∧
      Named h.brk h' g ⟨name, g.tag, g.value⟩ ∧ ∀ b, name.owned = some b → b < h'.brk := by
  have pushed : Extends h (h.push (g.bytes ++ [0])) :=
    ⟨fun cell => fresh.push_cells cell _, Nat.le_succ _⟩
  have made : (h.push (g.bytes ++ [0])).cells h.brk = some (g.bytes ++ 0 :: []) := if_pos rfl
  refine ⟨_, _, copied, fresh.push _, pushed, ⟨rfl, rfl, plain, ?_⟩, ?_⟩
  · exact ⟨h.brk, _, [], made, .inr ⟨kind, rfl, le_rfl⟩⟩
  · intro b owns
    cases owns
    exact Nat.lt_succ_self _

/-- One name is copied. -/
theorem copy_named {h : Heap Bytes} (fresh : h.Fresh) (g : Given ν) {rest : Bytes}
    (cell : h.cells g.address = some (g.bytes ++ 0 :: rest)) (plain : 0 ∉ g.bytes) :
    ∃ name h', propertyCopy g.property h = .ok (name, h') ∧ h'.Fresh ∧ Extends h h' ∧
      Named h.brk h' g ⟨name, g.tag, g.value⟩ ∧ ∀ b, name.owned = some b → b < h'.brk := by
  cases kind : g.kind with
  | const =>
      rw [Given.property, kind]
      refine ⟨_, h, propertyCopy_const _, fresh, ⟨id, le_rfl⟩, ⟨rfl, rfl, plain, ?_⟩, ?_⟩
      · exact ⟨g.address, _, rest, cell, .inl ⟨kind, rfl⟩⟩
      · intro b owns
        cases owns
  | heap =>
      refine copied_named fresh g plain (kind ▸ NameKind.noConfusion) ?_
      rw [Given.property, kind]
      exact propertyCopy_heap cell plain _
  | stack =>
      refine copied_named fresh g plain (kind ▸ NameKind.noConfusion) ?_
      rw [Given.property, kind]
      exact propertyCopy_stack cell plain _

/-- Every member of the second list is related to one of the first. -/
theorem exists_related {α β : Type} {R : α → β → Prop} {as : List α} {bs : List β}
    (all : List.Forall₂ R as bs) {b : β} (mem : b ∈ bs) : ∃ a ∈ as, R a b := by
  obtain ⟨i, bound, rfl⟩ := List.getElem_of_mem mem
  have bound' : i < as.length := all.length_eq ▸ bound
  exact ⟨_, List.getElem_mem bound', all.get bound' bound⟩

theorem mem_buffers {ps : List Property} {b : Addr} :
    b ∈ buffers ps ↔ ∃ p ∈ ps, p.owned = some b :=
  List.mem_filterMap

theorem mem_buffers_names {base : Addr} {h : Heap Bytes} {given : List (Given ν)}
    {states : List (StateRecord ν)} (all : List.Forall₂ (Named base h) given states) {b : Addr}
    (mem : b ∈ buffers (names states)) : base ≤ b ∧ ∃ block, h.cells b = some block := by
  obtain ⟨p, mem, owns⟩ := mem_buffers.mp mem
  obtain ⟨state, listed, rfl⟩ := List.mem_map.mp mem
  obtain ⟨g, -, named⟩ := exists_related all listed
  exact named.owned owns

/-- The list of states has all names, in different buffers. -/
theorem init_named {given : List (Given ν)} {h : Heap Bytes} (fresh : h.Fresh)
    (strings : ∀ g ∈ given,
      (∃ rest, h.cells g.address = some (g.bytes ++ 0 :: rest)) ∧ 0 ∉ g.bytes) :
    ∃ states h', arrowDeviceStateInit given h = .ok (states, h') ∧ Extends h h' ∧
      List.Forall₂ (Named h.brk h') given states ∧ (buffers (names states)).Nodup := by
  induction given generalizing h with
  | nil => exact ⟨[], h, rfl, ⟨id, le_rfl⟩, .nil, List.nodup_nil⟩
  | cons g given ih =>
      obtain ⟨⟨⟨rest, cell⟩, plain⟩, later⟩ := List.forall_mem_cons.mp strings
      obtain ⟨name, h₁, copied, fresh₁, more₁, named, below⟩ := copy_named fresh g cell plain
      obtain ⟨states, h', init, more, all, nodup⟩ := ih fresh₁ fun g mem => by
        obtain ⟨⟨rest, cell⟩, plain⟩ := later g mem
        exact ⟨⟨rest, more₁.cells cell⟩, plain⟩
      refine ⟨⟨name, g.tag, g.value⟩ :: states, h', ?_, ?_, ?_, ?_⟩
      · simp only [arrowDeviceStateInit, bind_apply, copied, init, ok_bind, pure_apply]
      · exact ⟨fun cell => more.cells (more₁.cells cell), more₁.brk.trans more.brk⟩
      · exact .cons (named.mono more) (all.imp fun g state named => named.weaken more₁.brk)
      · rw [names, List.map_cons, buffers_cons, List.nodup_append]
        refine ⟨?_, nodup, ?_⟩
        · cases name.owned with
          | none => exact List.nodup_nil
          | some b => exact List.nodup_singleton b
        · intro b mem c mem' same
          have front := below b (Option.mem_toList.mp mem)
          have behind := (mem_buffers_names all mem').1
          exact absurd same (Nat.ne_of_lt (front.trans_le behind))

/-- What is declared is kept as long as the heap is that of the start. -/
theorem kept_init {d : Declared ν} {states : List (StateRecord ν)} {h : Heap Bytes}
    (all : List.Forall₂ (Named d.heap.brk h) d.given states)
    (nodup : (buffers (names states)).Nodup) :
    Kept d.given states h where
  bytes := all.imp fun g state named => named.keyString_eq
  live b mem := (mem_buffers_names all mem).2
  single b mem := by
    have behind := (mem_buffers_names all mem).1
    have apart : b ∉ buffers (d.given.map Given.property) := by
      intro mem'
      obtain ⟨p, mem', owns⟩ := mem_buffers.mp mem'
      obtain ⟨g, given, rfl⟩ := List.mem_map.mp mem'
      obtain ⟨⟨rest, cell⟩, -⟩ := d.strings g given
      have front := d.fresh.lt cell
      rw [Given.property] at owns
      cases kind : g.kind with
      | heap =>
          rw [kind] at owns
          cases owns
          exact Nat.lt_irrefl _ (front.trans_le behind)
      | const | stack =>
          rw [kind] at owns
          cases owns
    rw [buffers_append, List.count_append, List.count_eq_zero_of_not_mem apart, Nat.zero_add,
      List.count_eq_one_of_mem nodup mem]

/-! ### One post -/

/-- The nodes of the states that have one. -/
def members (u : UnionLayout ν) : List (StateRecord ν) → Except Fault (List (KeyedNode ν))
  | [] => return []
  | tmp :: rest => do
      match ← stateJson u tmp.tag tmp.value with
      | none => members u rest
      | some value => do
          let nodes ← members u rest
          return .leaf tmp.name value :: nodes

theorem appendStates_eq {states : List (StateRecord ν)} {h : Heap Bytes}
    (isName : ∀ p ∈ names states, ∃ a, IsName a p) (children : List (KeyedNode ν)) :
    appendStates u states children h =
      (members u states).bind fun nodes => .ok (children ++ nodes, h) := by
  induction states generalizing children with
  | nil =>
      rw [appendStates, members, pure_apply]
      exact congrArg (fun nodes => Except.ok (nodes, h)) (List.append_nil children).symm
  | cons tmp rest ih =>
      obtain ⟨⟨a, name⟩, later⟩ := List.forall_mem_cons.mp isName
      rw [appendStates, members, bind_apply]
      cases stateJson u tmp.tag tmp.value with
      | error e => rfl
      | ok node =>
          rw [lift_ok, ok_bind, then_of_ok rfl]
          cases node with
          | none => exact ih later children
          | some value =>
              dsimp only
              rw [bind_apply, jsonAppendMember_eq name, ok_bind, ih later]
              cases members u rest with
              | error e => rfl
              | ok nodes =>
                  rw [ok_bind, List.append_assoc]
                  rfl

/-- A node is made for the state. -/
def StateRecord.Posted (u : UnionLayout ν) (state : StateRecord ν) : Prop :=
  ∃ node, stateJson u state.tag state.value = .ok (some node)

theorem mem_keys_members {states : List (StateRecord ν)} {nodes : List (KeyedNode ν)}
    (made : members u states = .ok nodes) :
    (KeyedNode.keysList nodes).Sublist (names states) ∧
      ∀ state ∈ states, state.Posted u → state.name ∈ KeyedNode.keysList nodes := by
  induction states generalizing nodes with
  | nil =>
      cases made
      exact ⟨.slnil, List.forall_mem_nil _⟩
  | cons tmp rest ih =>
      rw [members] at made
      obtain ⟨node, json, made⟩ := ok_of_bind made
      cases node with
      | none =>
          obtain ⟨front, posted⟩ := ih made
          refine ⟨front.cons _, List.forall_mem_cons.mpr ⟨?_, posted⟩⟩
          rintro ⟨node, json'⟩
          rw [json] at json'
          cases json'
      | some value =>
          obtain ⟨nodes', later, made⟩ := ok_of_bind made
          cases made
          obtain ⟨front, posted⟩ := ih later
          refine ⟨front.cons_cons _, List.forall_mem_cons.mpr ⟨fun _ => List.mem_cons_self, ?_⟩⟩
          intro state mem is
          exact List.mem_cons_of_mem _ (posted state mem is)

/-- Only states that are posted give their names. -/
theorem posted_of_mem_keys {states : List (StateRecord ν)} {nodes : List (KeyedNode ν)}
    (made : members u states = .ok nodes) {p : Property} (mem : p ∈ KeyedNode.keysList nodes) :
    ∃ state ∈ states, state.Posted u ∧ state.name = p := by
  induction states generalizing nodes with
  | nil =>
      cases made
      cases mem
  | cons tmp rest ih =>
      rw [members] at made
      obtain ⟨node, json, made⟩ := ok_of_bind made
      cases node with
      | none =>
          obtain ⟨state, listed, posted⟩ := ih made mem
          exact ⟨state, List.mem_cons_of_mem _ listed, posted⟩
      | some value =>
          obtain ⟨nodes', later, made⟩ := ok_of_bind made
          cases made
          rcases List.mem_cons.mp mem with rfl | mem
          · exact ⟨tmp, List.mem_cons_self, ⟨value, json⟩, rfl⟩
          · obtain ⟨state, listed, posted⟩ := ih later mem
            exact ⟨state, List.mem_cons_of_mem _ listed, posted⟩

theorem stateJson_avoids (tag : Tag) (value : StateValue ν) :
    Avoids .released (stateJson u tag value) := by
  have handle : Avoids .released (handleOf tag) := by
    rw [handleOf]
    split
    · split
      · exact fun same => Fault.noConfusion (Except.error.inj same)
      · exact avoids_ok _ _
    · exact avoids_ok _ _
  have made (s : Option Bytes) : Avoids .released (mkstringOf (ν := ν) s) := by
    cases s with
    | none => exact fun same => Fault.noConfusion (Except.error.inj same)
    | some s => exact avoids_ok _ _
  have json (kind : Kind) : Avoids .released (kindJson u kind value) := by
    unfold kindJson
    split
    · exact avoids_ok _ _
    · exact avoids_ok _ _
    · exact avoids_ok _ _
    · exact avoids_ok _ _
    · exact made _
    · exact made _
  rw [stateJson, avoids_then]
  refine ⟨handle, fun kind _ => ?_⟩
  cases kind with
  | none => exact avoids_ok _ _
  | some kind =>
      refine (avoids_then _ _ _).mpr ⟨json kind, fun node _ => avoids_ok _ _⟩

theorem members_avoids (states : List (StateRecord ν)) : Avoids .released (members u states) := by
  induction states with
  | nil => exact avoids_ok _ _
  | cons tmp rest ih =>
      rw [members, avoids_then]
      refine ⟨stateJson_avoids _ _, fun node _ => ?_⟩
      cases node with
      | none => exact ih
      | some value => exact (avoids_then _ _ _).mpr ⟨ih, fun nodes _ => avoids_ok _ _⟩

/-- There are nodes if no state fails to give one. -/
theorem members_ok_iff (states : List (StateRecord ν)) :
    (∃ nodes, members u states = .ok nodes) ↔
      ∀ state ∈ states, ∃ node, stateJson u state.tag state.value = .ok node := by
  induction states with
  | nil => exact iff_of_true ⟨[], rfl⟩ (List.forall_mem_nil _)
  | cons tmp rest ih =>
      rw [List.forall_mem_cons, ← ih]
      constructor
      · rintro ⟨nodes, made⟩
        rw [members] at made
        obtain ⟨node, json, made⟩ := ok_of_bind made
        refine ⟨⟨node, json⟩, ?_⟩
        cases node with
        | none => exact ⟨nodes, made⟩
        | some value =>
            obtain ⟨nodes', later, -⟩ := ok_of_bind made
            exact ⟨nodes', later⟩
      · rintro ⟨⟨node, json⟩, nodes, later⟩
        rw [members, then_of_ok json]
        cases node with
        | none => exact ⟨nodes, later⟩
        | some value => exact ⟨_, then_of_ok later⟩

/-- The list of states between two posts: all names can be read, and have buffers of their own. -/
structure Intact (states : List (StateRecord ν)) (h : Heap Bytes) : Prop where
  statesCell : h.cells statesLiteral = some (statesText ++ [0])
  timestampCell : h.cells timestampLiteral = some (timestampText ++ [0])
  strings : ∀ p ∈ names states, HasString h p
  live : AllLive h (buffers (names states))
  nodup : (buffers (names states)).Nodup

theorem Intact.isName {states : List (StateRecord ν)} {h : Heap Bytes} (intact : Intact states h)
    (p : Property) (mem : p ∈ names states) : ∃ a, IsName a p := by
  obtain ⟨a, s, rest, name, -⟩ := intact.strings p mem
  exact ⟨a, name⟩

section

variable (libc : Libc ν) (lastModify : Option Bytes) {states : List (StateRecord ν)}
  {h : Heap Bytes}

/-- The children of `_main`. -/
def mainChildren (nodes : List (KeyedNode ν)) : List (KeyedNode ν) :=
  .object (.const statesLiteral statesText.length) nodes ::
    (lastModify.toList.map fun ts =>
      .leaf (.const timestampLiteral timestampText.length) (.scalar none (.string ts)))

theorem appendTimestamp_eq (nodes : List (KeyedNode ν)) :
    appendTimestamp lastModify [.object (.const statesLiteral statesText.length) nodes] h =
      .ok (mainChildren lastModify nodes, h) := by
  cases lastModify with
  | none => rfl
  | some ts => exact jsonAppendMember_eq ⟨_, .inl rfl⟩ _ _

theorem mem_keys_main {nodes : List (KeyedNode ν)} {p : Property}
    (mem : p ∈ KeyedNode.keysList (mainChildren lastModify nodes)) :
    p = .const statesLiteral statesText.length ∨ p ∈ KeyedNode.keysList nodes ∨
      p = .const timestampLiteral timestampText.length := by
  rcases List.mem_cons.mp mem with rfl | mem
  · exact .inl rfl
  · rcases List.mem_append.mp mem with mem | mem
    · exact .inr (.inl mem)
    · cases lastModify with
      | none => cases mem
      | some ts => exact .inr (.inr (List.mem_singleton.mp mem))

/-- `_main` owns the buffers of the names, and no other ones. -/
theorem buffers_main (nodes : List (KeyedNode ν)) :
    buffers (KeyedNode.keysList (mainChildren lastModify nodes)) =
      buffers (KeyedNode.keysList nodes) := by
  have keys : KeyedNode.keysList (mainChildren lastModify nodes) =
      .const statesLiteral statesText.length :: (KeyedNode.keysList nodes ++
        lastModify.toList.map fun _ => .const timestampLiteral timestampText.length) := by
    cases lastModify with
    | none => rfl
    | some ts => rfl
  rw [keys, buffers_cons, buffers_append]
  have last : buffers (lastModify.toList.map fun _ =>
      .const timestampLiteral timestampText.length) = [] := by
    cases lastModify with
    | none => rfl
    | some ts => rfl
  rw [last, List.append_nil]
  rfl

/-- The request as it is meant. -/
def requestTree (states : List (JsonNode ν)) : JsonNode ν :=
  .container none .object (.container (some statesText) .object states ::
    (lastModify.toList.map fun ts => .scalar (some timestampText) (.string ts)))

theorem readNode_main (intact : Intact states h) {nodes : List (KeyedNode ν)}
    {trees : List (JsonNode ν)} (below : readChildren nodes h = .ok (trees, h)) :
    readNode (.object .init (mainChildren lastModify nodes)) h =
      .ok (requestTree lastModify trees, h) := by
  have states_key : keyString (.const statesLiteral statesText.length) h =
      .ok (some statesText, h) := keyString_eq ⟨_, .inl rfl⟩ intact.statesCell (by decide)
  have timestamp_key : keyString (.const timestampLiteral timestampText.length) h =
      .ok (some timestampText, h) := keyString_eq ⟨_, .inl rfl⟩ intact.timestampCell (by decide)
  have main_key : keyString .init h = .ok (none, h) := rfl
  cases lastModify with
  | none =>
      simp only [readNode, mainChildren, Option.toList_none, List.map_nil, readChildren, bind_apply,
        main_key, states_key, below, ok_bind, pure_apply, requestTree]
  | some ts =>
      simp only [readNode, mainChildren, Option.toList_some, List.map_cons, List.map_nil,
        readChildren, bind_apply, main_key, states_key, timestamp_key, below, ok_bind, pure_apply,
        requestTree, JsonNode.withKey]

/-- A post releases the buffers of the names that have become keys, if it comes to its end. -/
theorem statePostInit_eq (intact : Intact states h) {nodes : List (KeyedNode ν)}
    (made : members u states = .ok nodes) {trees : List (JsonNode ν)}
    (below : readChildren nodes h = .ok (trees, h)) :
    statePostInit u libc lastModify states h =
      (jsonEncodeProperty libc (requestTree lastModify trees)).bind fun payload =>
        .ok (payload, h.eraseAll (buffers (KeyedNode.keysList nodes))) := by
  have appended : appendStates u states [] h = .ok (nodes, h) := by
    rw [appendStates_eq intact.isName, made]
    rfl
  have front := (mem_keys_members made).1
  have owned : (buffers (KeyedNode.keysList nodes)).Sublist (buffers (names states)) :=
    front.filterMap _
  have strings (p : Property) (mem : p ∈ KeyedNode.keysList (mainChildren lastModify nodes)) :
      HasString h p := by
    rcases mem_keys_main lastModify mem with rfl | mem | rfl
    · exact ⟨_, statesText, [], ⟨_, .inl rfl⟩, intact.statesCell, by decide⟩
    · exact intact.strings p (front.subset mem)
    · exact ⟨_, timestampText, [], ⟨_, .inl rfl⟩, intact.timestampCell, by decide⟩
  have deleted : deleteChildren (mainChildren lastModify nodes) h =
      .ok ((), h.eraseAll (buffers (KeyedNode.keysList nodes))) := by
    rw [← buffers_main lastModify]
    apply deleteChildren_eq _ fun p mem => (strings p mem).isKey
    · rw [buffers_main]
      exact fun a mem => intact.live a (owned.subset mem)
    · rw [buffers_main]
      exact intact.nodup.sublist owned
  rw [statePostInit, bind_of_ok appended, bind_of_ok (jsonAppendMember_eq ⟨_, .inl rfl⟩ _ _)]
  rw [KeyedNode.withKey, List.nil_append, bind_of_ok (appendTimestamp_eq lastModify nodes),
    bind_of_ok (readNode_main lastModify intact below), bind_apply]
  cases jsonEncodeProperty libc (requestTree lastModify trees) with
  | error e => rfl
  | ok payload =>
      rw [lift_ok, ok_bind, bind_of_ok deleted]
      rfl

/-- A post of states that have no nodes comes to no end. -/
theorem statePostInit_error (intact : Intact states h) {e : Fault}
    (fails : members u states = .error e) :
    statePostInit u libc lastModify states h = .error e := by
  rw [statePostInit, bind_apply, appendStates_eq intact.isName, fails]
  rfl

end

/-! ### Runs of posts -/

/-- The `json` of the state fails: there is none for its tag, or what it reads for a string has no
string. -/
def Given.Fails (u : UnionLayout ν) (g : Given ν) : Prop :=
  ∀ node, stateJson u g.tag g.value ≠ .ok node

/-- A node is made for the state. -/
def Given.Posted (u : UnionLayout ν) (g : Given ν) : Prop :=
  ∃ node, stateJson u g.tag g.value = .ok (some node)

section

variable (libc : Libc ν) (lastModify : Option Bytes) {states : List (StateRecord ν)}
  {h : Heap Bytes}

theorem posts_succ (n : Nat) {payload : Bytes} {h' : Heap Bytes}
    (post : statePostInit u libc lastModify states h = .ok (payload, h')) :
    posts u libc lastModify states (n + 1) h = posts u libc lastModify states n h' := by
  rw [posts, bind_of_ok post]

/-- If a post leaves the memory as it is, so do any number of posts. -/
theorem posts_constant {payload : Bytes}
    (post : statePostInit u libc lastModify states h = .ok (payload, h)) (n : Nat) :
    posts u libc lastModify states n h = .ok ((), h) := by
  induction n with
  | zero => rfl
  | succ n ih => rw [posts_succ libc lastModify n post, ih]

/-- Without a post the names are kept. -/
theorem kept_zero {given : List (Given ν)} (kept : Kept given states h) :
    Avoids .released (posts u libc lastModify states 0 h) ∧
      ∀ h', posts u libc lastModify states 0 h = .ok ((), h') → Kept given states h' := by
  refine ⟨avoids_ok _ _, fun h' same => ?_⟩
  cases same
  exact kept

end

section

variable (libc : Libc ν) (lastModify : Option Bytes) {given : List (Given ν)}
  {states : List (StateRecord ν)} {base : Addr} {h : Heap Bytes}

/-- What is made for the states, under their names. -/
def memberTrees (u : UnionLayout ν) : List (Given ν) → List (JsonNode ν)
  | [] => []
  | g :: rest =>
      match stateJson u g.tag g.value with
      | .ok (some node) => node.withKey (some g.bytes) :: memberTrees u rest
      | .ok none | .error _ => memberTrees u rest

theorem readChildren_members (all : List.Forall₂ (Named base h) given states)
    {nodes : List (KeyedNode ν)} (made : members u states = .ok nodes) :
    readChildren nodes h = .ok (memberTrees u given, h) := by
  induction all generalizing nodes with
  | nil =>
      cases made
      rfl
  | @cons g state given states named _ ih =>
      rw [members] at made
      obtain ⟨node, json, made⟩ := ok_of_bind made
      rw [named.tag, named.value] at json
      rw [memberTrees, json]
      cases node with
      | none => exact ih made
      | some value =>
          obtain ⟨nodes', later, made⟩ := ok_of_bind made
          cases made
          simp only [readChildren, readNode, bind_apply, named.keyString_eq, ih later, ok_bind,
            pure_apply]

/-- The first post does not come to its end: a state has no node, or a text of the request is not in
valid UTF-8. -/
def Stops (u : UnionLayout ν) (lastModify : Option Bytes) (given : List (Given ν)) : Prop :=
  (∃ g ∈ given, g.Fails u) ∨
    (requestTree lastModify (memberTrees u given)).all JsonNode.utf8Texts = false

theorem fails_iff (all : List.Forall₂ (Named base h) given states) :
    (∃ g ∈ given, g.Fails u) ↔ ∀ nodes, members u states ≠ .ok nodes := by
  rw [← not_iff_not]
  push Not
  refine Iff.trans ?_ (members_ok_iff states).symm
  constructor
  · intro json state listed
    obtain ⟨g, mem, named⟩ := exists_related all listed
    have gives := json g mem
    rw [Given.Fails] at gives
    push Not at gives
    rw [named.tag, named.value]
    exact gives
  · intro json g mem fails
    obtain ⟨state, listed, named⟩ := exists_related (List.Forall₂.flip all) mem
    obtain ⟨node, gives⟩ := json state listed
    rw [named.tag, named.value] at gives
    exact fails node gives

/-- Nothing is owned by the keys if and only if all names that are posted are constants. -/
theorem buffers_keys_iff (all : List.Forall₂ (Named base h) given states)
    {nodes : List (KeyedNode ν)} (made : members u states = .ok nodes) :
    buffers (KeyedNode.keysList nodes) = [] ↔ ∀ g ∈ given, g.Posted u → g.kind = .const := by
  constructor
  · intro none g mem posted
    obtain ⟨state, listed, named⟩ := exists_related (List.Forall₂.flip all) mem
    by_contra other
    obtain ⟨b, owns⟩ := named.owned_of_ne other
    rw [Given.Posted, ← named.tag, ← named.value] at posted
    have key := (mem_keys_members made).2 state listed posted
    have owned := mem_buffers.mpr ⟨_, key, owns⟩
    rw [none] at owned
    cases owned
  · intro constant
    apply List.eq_nil_iff_forall_not_mem.mpr
    intro b mem
    obtain ⟨p, key, owns⟩ := mem_buffers.mp mem
    obtain ⟨state, listed, posted, rfl⟩ := posted_of_mem_keys made key
    obtain ⟨g, mem, named⟩ := exists_related all listed
    rw [StateRecord.Posted, named.tag, named.value] at posted
    rw [named.owned_of_const (constant g mem posted)] at owns
    cases owns

/-- After one post there are no blocks at the buffers of the keys. -/
theorem not_kept_of_owned {nodes : List (KeyedNode ν)} (made : members u states = .ok nodes)
    (owned : buffers (KeyedNode.keysList nodes) ≠ []) :
    ¬ Kept given states (h.eraseAll (buffers (KeyedNode.keysList nodes))) := by
  intro kept
  obtain ⟨b, mem⟩ := List.exists_mem_of_ne_nil _ owned
  have front : (buffers (KeyedNode.keysList nodes)).Sublist (buffers (names states)) :=
    (mem_keys_members made).1.filterMap _
  obtain ⟨block, cell⟩ := kept.live b (front.subset mem)
  rw [eraseAll_mem mem] at cell
  cases cell

theorem keepsNames_iff (d : Declared ν) (n : Nat) :
    NamesKept u libc lastModify d n ↔
      n = 0 ∨ Stops u lastModify d.given ∨ ∀ g ∈ d.given, g.Posted u → g.kind = .const := by
  obtain ⟨states, h, init, more, all, nodup⟩ := init_named d.fresh d.strings
  have kept := kept_init all nodup
  have intact : Intact states h := by
    refine ⟨more.cells d.statesCell, more.cells d.timestampCell, fun p mem => ?_, kept.live, nodup⟩
    obtain ⟨state, listed, rfl⟩ := List.mem_map.mp mem
    obtain ⟨g, -, named⟩ := exists_related all listed
    exact named.hasString
  have start : NamesKept u libc lastModify d n ↔
      ∀ k ≤ n, Avoids .released (posts u libc lastModify states k h) ∧
        ∀ h', posts u libc lastModify states k h = .ok ((), h') → Kept d.given states h' := by
    constructor
    · rintro ⟨states', h', init', run⟩
      rw [init] at init'
      cases init'
      exact run
    · intro run
      exact ⟨states, h, init, run⟩
  rw [start]
  -- a post that stops leaves nothing to be kept
  have stopped {e : Fault} (other : e ≠ .released)
      (post : statePostInit u libc lastModify states h = .error e) (k : Nat) :
      Avoids .released (posts u libc lastModify states k h) ∧
        ∀ h', posts u libc lastModify states k h = .ok ((), h') → Kept d.given states h' := by
    cases k with
    | zero => exact kept_zero libc lastModify kept
    | succ k =>
        have run : posts u libc lastModify states (k + 1) h = .error e := by
          rw [posts, bind_apply, post, error_bind]
        rw [run]
        refine ⟨fun same => other (Except.error.inj same), fun h' same => ?_⟩
        cases same
  cases made : members u states with
  | error e =>
      have fails : ∃ g ∈ d.given, g.Fails u := (fails_iff all).mpr fun nodes same => by
        rw [made] at same
        cases same
      have other : e ≠ .released := by
        rintro rfl
        exact members_avoids states made
      exact iff_of_true
        (fun k _ => stopped other (statePostInit_error libc lastModify intact made) k)
        (.inr (.inl (.inl fails)))
  | ok nodes =>
      have gives : ¬ ∃ g ∈ d.given, g.Fails u := fun fails => (fails_iff all).mp fails nodes made
      have post := statePostInit_eq libc lastModify intact made (readChildren_members all made)
      rw [jsonEncodeProperty] at post
      rw [Stops, or_iff_right gives, ← buffers_keys_iff all made]
      cases valid : (requestTree lastModify (memberTrees u d.given)).all JsonNode.utf8Texts with
      | false =>
          rw [valid] at post
          exact iff_of_true (fun k _ => stopped (by decide) post k) (.inr (.inl rfl))
      | true =>
          rw [valid, if_pos rfl, ok_bind] at post
          rw [or_iff_right Bool.true_eq_false.mp]
          constructor
          · intro run
            by_contra neither
            obtain ⟨posted, owned⟩ := not_or.mp neither
            have released := posts_succ libc lastModify 0 post
            exact not_kept_of_owned made owned ((run 1 (Nat.pos_of_ne_zero posted)).2 _ released)
          · rintro (rfl | none) k le
            · obtain rfl := Nat.le_zero.mp le
              exact kept_zero libc lastModify kept
            · rw [none, eraseAll_nil] at post
              rw [posts_constant libc lastModify post k]
              refine ⟨avoids_ok _ _, fun h' same => ?_⟩
              cases same
              exact kept

/-- The names are kept if and only if there are no posts, or the first one does not come to its
end, or all names that are posted are constants. -/
theorem namesKept_iff (u : UnionLayout ν) (d : Declared ν) (n : Nat) :
    NamesKept u libc lastModify d n ↔
      n = 0 ∨ Stops u lastModify d.given ∨ ∀ g ∈ d.given, g.Posted u → g.kind = .const :=
  keepsNames_iff libc lastModify d n

end

/-- A truth value with a name on the stack. -/
def stackName : Declared Nat where
  heap := ⟨fun a => [statesText ++ [0], timestampText ++ [0], [0x61, 0]][a]?, 3⟩
  given := [⟨.stack, 2, [0x61], 1, .bool true⟩]
  fresh := fun _ beyond => List.getElem?_eq_none beyond
  statesCell := rfl
  timestampCell := rfl
  strings := by
    intro g mem
    obtain rfl := List.mem_singleton.mp mem
    exact ⟨⟨[], rfl⟩, by decide⟩

/-- A union that is all zero where it was not written. -/
def UnionLayout.zero : UnionLayout Nat := ⟨fun _ => false, fun _ => 0, fun _ => none⟩

/-- The first post releases the name. -/
theorem not_namesKept_stack : ¬ NamesKept .zero Libc.nat none stackName 1 := by
  rw [keepsNames_iff]
  rintro (some | (⟨g, mem, fails⟩ | invalid) | constant)
  · cases some
  · obtain rfl := List.mem_singleton.mp mem
    exact fails _ rfl
  · revert invalid
    decide
  · have kind := constant _ List.mem_cons_self ⟨_, rfl⟩
    cases kind

end AcnSdk.Arrow.StateNames

/-
Property maps, `src/data/propmap.c`.

A map is a list of nodes with two properties each, which are copied when they come in. The nodes
are on one heap and the bytes on another one. Whether there is memory for a node is told with each
addition; that there is none for a text is left out, as for properties.

* `propertyCopy_grown` — a copy is the caller's own text or a new block.
* `MapHolds` — the list has these nodes, and nothing else was made but their blocks and what was
  lost.
* `propertyMapFind_eq` — a look-up finds the first node with the key.
-/

import AcnSdk.Data.LinkedListMacros
import AcnSdk.Data.PropertyContents
import AcnSdk.Lib.Grown

namespace AcnSdk.Data

open AcnSdk.Lib Prog Heap

/-! ### The source -/

/-- `property_map_t`. -/
structure PropertyMap where
  key : Property
  value : Property
  next : Option Addr
deriving DecidableEq, Repr

/-- Its `node`. -/
def mapLink : Link PropertyMap where
  next := PropertyMap.next
  setNext p s := { s with next := p }
  next_setNext _ _ := rfl

/-- The nodes of maps, and the bytes of properties. -/
structure MapHeap where
  nodes : Heap PropertyMap
  bytes : Heap Bytes

/-- A program on the nodes. -/
def onNodes {β : Type} (x : HeapM PropertyMap β) : Prog MapHeap β :=
  fun h => (x h.nodes).bind fun r => .ok (r.1, { h with nodes := r.2 })

/-- A program on the bytes. -/
def onBytes {β : Type} (x : HeapM Bytes β) : Prog MapHeap β :=
  fun h => (x h.bytes).bind fun r => .ok (r.1, { h with bytes := r.2 })

/-- `propkeyeq`. -/
def propkeyeq (s : PropertyMap) (key : Property) : HeapM Bytes Int := do
  if (← propertyCmp s.key key) = 0 then return 0 else return -1

/-- `linked_list_find_node` with `propkeyeq`, at a node. -/
def findKeyFrom (key : Property) : Nat → Option Addr → Prog MapHeap (Option Addr)
  | 0, _ => throw .endless
  | _ + 1, none => return none
  | fuel + 1, some p => do
      let s ← onNodes (read p)
      let same ← onBytes (propkeyeq s key)
      if same = 0 then return some p else findKeyFrom key fuel s.next

/-- `property_map_find`. -/
def propertyMapFind (root : Option Addr) (key : Property) : Prog MapHeap (Option Addr) := do
  let fuel ← onNodes bound
  findKeyFrom key fuel root

/-- `property_map_add`, with the new root, where `granted` says whether there is memory for the
node. -/
def propertyMapAdd (granted : Bool) (root : Option Addr) (key value : Property) :
    Prog MapHeap (Int × Option Addr) := do
  if !granted then return (-1, root)
  else do
    let el ← onNodes (alloc ⟨.init, .init, none⟩)
    let key ← onBytes (propertyCopy key)
    onNodes (update el fun s => { s with key })
    let value ← onBytes (propertyCopy value)
    onNodes (update el fun s => { s with value })
    let root ← onNodes (addNodeLast mapLink root el)
    return (0, root)

/-- `property_map_delete`. The properties of the node are not freed. -/
def propertyMapDelete (root : Option Addr) (key : Property) : Prog MapHeap (Int × Option Addr) := do
  match ← propertyMapFind root key with
  | none => return (-1, root)
  | some rm => do
      let root ← onNodes (delNode mapLink root rm)
      onNodes (free rm)
      return (0, root)

/-- `property_map_assign`. The old value is not freed. -/
def propertyMapAssign (root : Option Addr) (key value : Property) : Prog MapHeap Int := do
  match ← propertyMapFind root key with
  | none => return -1
  | some el => do
      let value ← onBytes (propertyCopy value)
      onNodes (update el fun s => { s with value })
      return 0

/-- The loop of `property_map_clear`. The next node is known before a node is freed. -/
def clearFrom : Nat → Option Addr → Prog MapHeap Unit
  | 0, _ => throw .endless
  | _ + 1, none => return ()
  | fuel + 1, some tmp => do
      let s ← onNodes (read tmp)
      let key ← onBytes (propertyFree s.key)
      onNodes (update tmp fun s => { s with key })
      let value ← onBytes (propertyFree s.value)
      onNodes (update tmp fun s => { s with value })
      onNodes (free tmp)
      clearFrom fuel s.next

/-- `property_map_clear`. -/
def propertyMapClear (root : Option Addr) : Prog MapHeap (Int × Option Addr) := do
  if root = none then return (-1, none)
  else do
    let fuel ← onNodes bound
    clearFrom fuel root
    return (0, none)

/-! ### Copies -/

section

variable {h h₀ : Heap Bytes} {p : Property} {s : Bytes} {blocks : List Addr}

/-- The property is copied to a block of its own. -/
def Property.Copied (p : Property) : Prop :=
  p.tag = dynamicTag ∧ p.isOwner = true ∨ p.tag = stackTag

instance (p : Property) : Decidable p.Copied := by
  unfold Property.Copied
  infer_instance

/-- A property of a known type. One without a terminator is copied. -/
structure Property.Usable (p : Property) : Prop where
  known : p.tag = constTag ∨ p.tag = dynamicTag ∨ p.tag = stackTag
  raw : p.isRaw = true → p.Copied

/-- The property is a string of the heap, and this is the block that it owns. -/
structure Keeps (h : Heap Bytes) (p : Property) (s : Bytes) (owned : Bool) : Prop where
  contains : Contains h p s
  terminated : p.isRaw = false
  owned : p.owned.isSome = owned

theorem owned_eq_none (other : p.tag ≠ dynamicTag ∨ p.isOwner = false) : p.owned = none := by
  rw [Property.owned, if_neg]
  rintro ⟨owner, dynamic⟩
  rcases other with other | other
  · exact other dynamic
  · rw [other] at owner
    cases owner

/-- What is left of a string after a copy of it was made. -/
theorem Contains.mono {h' : Heap Bytes} (contains : Contains h p s)
    (kept : ∀ a x, h.cells a = some x → h'.cells a = some x) : Contains h' p s := by
  obtain ⟨plain, a, rest, value, cell, ends⟩ := contains
  exact ⟨plain, a, rest, value, kept a _ cell, ends⟩

theorem Keeps.mono {h' : Heap Bytes} {owned : Bool} (keeps : Keeps h p s owned)
    (kept : ∀ a x, h.cells a = some x → h'.cells a = some x) : Keeps h' p s owned :=
  ⟨keeps.contains.mono kept, keeps.terminated, keeps.owned⟩

/-- The copy of a property whose text goes to a block of its own. -/
theorem dynmcCopy_grown (owner : p.isOwner = true) (contains : Contains h p s) :
    dynmcCopy p h = .ok (⟨some h.brk, dynamicTag, false, true, p.size⟩, h.push (s ++ [0])) := by
  cases raw : p.isRaw with
  | true =>
      obtain ⟨a, rest, value, cell, size⟩ := contains.raw raw
      have copied : strndup a p.size h = alloc (s ++ [0]) h := by
        rw [size]
        simp only [strndup, bind_apply, read_eq cell, ok_bind, stringIn_content contains.plain,
          lift_ok]
      rw [dynmcCopy, if_pos owner, value, bind_of_ok (deref_some a h), if_pos raw, bind_apply,
        copied]
      rfl
  | false =>
      obtain ⟨a, rest, value, cell⟩ := contains.terminated raw
      have copied : strdup a h = alloc (s ++ [0]) h := strdup_eq cell contains.plain
      rw [dynmcCopy, if_pos owner, value, bind_of_ok (deref_some a h), raw,
        if_neg Bool.false_ne_true, bind_apply, copied]
      rfl

/-- A block that holds a string and its terminator. -/
theorem contains_push (plain : 0 ∉ s) (n : Nat) :
    Contains (h.push (s ++ [0])) ⟨some h.brk, dynamicTag, false, true, n⟩ s :=
  ⟨plain, h.brk, [0], rfl, if_pos rfl, rfl⟩

/-- A copy is the caller's own text, or a new block. -/
theorem propertyCopy_grown (usable : p.Usable) (contains : Contains h p s)
    (grown : Grown h₀ h blocks) :
    ∃ p' h', propertyCopy p h = .ok (p', h') ∧ Keeps h' p' s (decide p.Copied) ∧
      Grown h₀ h' (p'.owned.toList ++ blocks) ∧
      ∀ a x, h.cells a = some x → h'.cells a = some x := by
  by_cases copied : p.Copied
  · let p' : Property := ⟨some h.brk, dynamicTag, false, true, p.size⟩
    have run : propertyCopy p h = .ok (p', h.push (s ++ [0])) := by
      rcases copied with ⟨tag, owner⟩ | tag
      · rw [propertyCopy, if_neg (by rw [tag]; decide), if_pos tag]
        exact dynmcCopy_grown owner contains
      · rw [propertyCopy, if_neg (by rw [tag]; decide), if_neg (by rw [tag]; decide), if_pos tag]
        have copy := dynmcCopy_grown (p := { p with isOwner := true }) rfl
          ⟨contains.plain, contains.block⟩
        rw [stackCopy, bind_apply, bind_apply, copy]
        rfl
    refine ⟨p', _, run, ⟨contains_push contains.plain _, rfl, ?_⟩, grown.push _,
      fun a x cell => grown.fresh.push_cells cell _⟩
    rw [decide_eq_true copied]
    rfl
  · have text : p.isRaw = false := Bool.eq_false_of_not_eq_true fun raw => copied (usable.raw raw)
    rw [decide_eq_false copied]
    rcases usable.known with tag | tag | tag
    · have none : (constCopy p).owned = none :=
        owned_eq_none (.inl (show constTag ≠ dynamicTag by decide))
      refine ⟨constCopy p, h, ?_, ⟨?_, rfl, by rw [none]; rfl⟩, by rw [none]; exact grown,
        fun _ _ cell => cell⟩
      · rw [propertyCopy, if_pos tag]
        rfl
      · obtain ⟨a, rest, value, cell⟩ := contains.terminated text
        exact ⟨contains.plain, a, 0 :: rest, value, cell, rfl⟩
    · have weak : p.isOwner = false :=
        Bool.eq_false_of_not_eq_true fun owner => copied (.inl ⟨tag, owner⟩)
      have none : p.owned = none := owned_eq_none (.inr weak)
      refine ⟨p, h, ?_, ⟨contains, text, by rw [none]; rfl⟩, by rw [none]; exact grown,
        fun _ _ cell => cell⟩
      rw [propertyCopy, if_neg (by rw [tag]; decide), if_pos tag, dynmcCopy,
        if_neg (by rw [weak]; decide)]
      cases p
      cases weak
      rfl
    · exact absurd (.inr tag) copied

end

/-! ### What a map stands for -/

/-- An entry of a map, and which of its two texts are blocks of its own. -/
structure Entry where
  key : Bytes
  value : Bytes
  ownKey : Bool
  ownValue : Bool
deriving DecidableEq, Repr

/-- How many blocks are an entry's own. -/
def Entry.blocks (e : Entry) : Nat := e.ownKey.toNat + e.ownValue.toNat

/-- The entries in the order in which they came in, and how many blocks were lost. -/
structure Meaning where
  entries : List Entry
  lost : Nat

/-- The entry has the key. -/
def Entry.Has (key : Bytes) (e : Entry) : Bool := e.key = key

/-- The first entry with the key gets another value. -/
def assignFirst (key value : Bytes) (own : Bool) : List Entry → List Entry
  | [] => []
  | e :: es =>
      if e.Has key then { e with value := value, ownValue := own } :: es
      else e :: assignFirst key value own es

/-- A property that is passed to a function, with its text. -/
structure Arg where
  property : Property
  text : Bytes

/-- What is done with a map. -/
inductive MapOp where
  | add (key value : Arg) (granted : Bool)
  | delete (key : Arg)
  | assign (key value : Arg)
  | clear

/-- It is done, with the new root. -/
def MapOp.run (root : Option Addr) : MapOp → Prog MapHeap (Int × Option Addr)
  | add key value granted => propertyMapAdd granted root key.property value.property
  | delete key => propertyMapDelete root key.property
  | assign key value => do
      let rc ← propertyMapAssign root key.property value.property
      return (rc, root)
  | clear => propertyMapClear root

/-- What is meant by it. -/
def MapOp.meant (m : Meaning) : MapOp → Int × Meaning
  | add key value granted =>
      if granted then (0, { m with entries := m.entries ++
        [⟨key.text, value.text, decide key.property.Copied, decide value.property.Copied⟩] })
      else (-1, m)
  | delete key =>
      match m.entries.find? (Entry.Has key.text) with
      | none => (-1, m)
      | some e => (0, ⟨m.entries.eraseP (Entry.Has key.text), m.lost + e.blocks⟩)
  | assign key value =>
      match m.entries.find? (Entry.Has key.text) with
      | none => (-1, m)
      | some e => (0, ⟨assignFirst key.text value.text (decide value.property.Copied) m.entries,
          m.lost + e.ownValue.toNat⟩)
  | clear => if m.entries = [] then (-1, m) else (0, { m with entries := [] })

/-! ### The heap of a map -/

/-- A node of a map, with the entry that it stands for. -/
structure Slot where
  addr : Addr
  key : Property
  value : Property
  entry : Entry

/-- The blocks of a node. -/
def Slot.owned (s : Slot) : List Addr := s.key.owned.toList ++ s.value.owned.toList

/-- The properties of the node are what the entry says. -/
structure Slot.Keeps (h : Heap Bytes) (s : Slot) : Prop where
  key : Data.Keeps h s.key s.entry.key s.entry.ownKey
  value : Data.Keeps h s.value s.entry.value s.entry.ownValue

/-- The list from `root` has these nodes, and nothing else was made but them, their blocks and the
blocks that were lost. -/
structure MapHolds (N₀ : Heap PropertyMap) (h₀ : Heap Bytes) (h : MapHeap) (root : Option Addr)
    (slots : List Slot) (lost : List Addr) : Prop where
  walk : Walk (nextIn mapLink h.nodes) root (slots.map Slot.addr)
  cells : ∀ s ∈ slots, ∃ next, h.nodes.cells s.addr = some ⟨s.key, s.value, next⟩
  keeps : ∀ s ∈ slots, s.Keeps h.bytes
  nodes : Grown N₀ h.nodes (slots.map Slot.addr)
  blocks : Grown h₀ h.bytes (slots.flatMap Slot.owned ++ lost)

/-- The map stands for these entries, and so many blocks were lost. -/
def MapRepresents (N₀ : Heap PropertyMap) (h₀ : Heap Bytes) (h : MapHeap) (root : Option Addr)
    (m : Meaning) : Prop :=
  ∃ slots lost, MapHolds N₀ h₀ h root slots lost ∧ slots.map Slot.entry = m.entries ∧
    lost.length = m.lost

/-- The property and its text are there to be copied. -/
structure Arg.Given (h₀ : Heap Bytes) (a : Arg) : Prop where
  usable : a.property.Usable
  contains : Contains h₀ a.property a.text

/-- The text is what `strcmp` reads. -/
structure Arg.Read (h₀ : Heap Bytes) (a : Arg) : Prop where
  plain : 0 ∉ a.text
  block : ∃ b rest, a.property.value = some b ∧ h₀.cells b = some (a.text ++ 0 :: rest)

/-- The caller's texts are there. -/
def MapOp.Given (h₀ : Heap Bytes) : MapOp → Prop
  | add key value _ => key.Given h₀ ∧ value.Given h₀
  | delete key => key.Read h₀
  | assign key value => key.Read h₀ ∧ value.Given h₀
  | clear => True

section

variable {N₀ : Heap PropertyMap} {h₀ : Heap Bytes} {h : MapHeap} {root : Option Addr}
  {slots : List Slot} {lost : List Addr}

theorem onNodes_ok {β : Type} {x : HeapM PropertyMap β} {b : β} {n : Heap PropertyMap}
    (run : x h.nodes = .ok (b, n)) : onNodes x h = .ok (b, { h with nodes := n }) := by
  rw [onNodes, run]
  rfl

theorem onBytes_ok {β : Type} {x : HeapM Bytes β} {b : β} {n : Heap Bytes}
    (run : x h.bytes = .ok (b, n)) : onBytes x h = .ok (b, { h with bytes := n }) := by
  rw [onBytes, run]
  rfl

/-! ### Looking for a key -/

/-- The comparison of a node with a key. -/
theorem propkeyeq_eq {bytes : Heap Bytes} {s : Slot} {next : Option Addr} (keeps : s.Keeps bytes)
    {key : Arg} (there : key.Read bytes) :
    propkeyeq ⟨s.key, s.value, next⟩ key.property bytes =
      .ok (if s.entry.Has key.text then 0 else -1, bytes) := by
  obtain ⟨a, rest, value, cell⟩ := keeps.key.contains.terminated keeps.key.terminated
  obtain ⟨b, rest', value', cell'⟩ := there.block
  rw [propkeyeq, bind_of_ok (propertyCmp_text keeps.key.contains.plain there.plain
    keeps.key.terminated value cell value' cell'), Entry.Has]
  by_cases same : s.entry.key = key.text
  · rw [if_pos same, decide_eq_true same]
    rfl
  · rw [if_neg same, decide_eq_false same]
    rfl

theorem findKeyFrom_eq {key : Arg} (there : key.Read h.bytes) {p : Option Addr}
    (walk : Walk (nextIn mapLink h.nodes) p (slots.map Slot.addr))
    (cells : ∀ s ∈ slots, ∃ next, h.nodes.cells s.addr = some ⟨s.key, s.value, next⟩)
    (keeps : ∀ s ∈ slots, s.Keeps h.bytes) {fuel : Nat} (enough : slots.length < fuel) :
    findKeyFrom key.property fuel p h =
      .ok ((slots.find? fun s => s.entry.Has key.text).map Slot.addr, h) := by
  obtain ⟨fuel, rfl⟩ := Nat.exists_eq_succ_of_ne_zero (Nat.ne_zero_of_lt enough)
  induction slots generalizing p fuel with
  | nil =>
      cases walk
      rfl
  | cons s slots ih =>
      obtain ⟨rfl, rest⟩ := walk
      obtain ⟨next, cell⟩ := cells s List.mem_cons_self
      have compared : propkeyeq ⟨s.key, s.value, next⟩ key.property h.bytes = _ :=
        propkeyeq_eq (keeps s List.mem_cons_self) there
      have step : nextIn mapLink h.nodes s.addr = next := by
        rw [nextIn, cell]
        rfl
      rw [step] at rest
      obtain ⟨fuel, rfl⟩ : ∃ n, fuel = n + 1 := by
        refine Nat.exists_eq_succ_of_ne_zero ?_
        rw [List.length_cons] at enough
        omega
      rw [findKeyFrom, bind_of_ok (onNodes_ok (read_eq cell)), bind_of_ok (onBytes_ok compared)]
      rw [List.find?_cons]
      cases same : s.entry.Has key.text with
      | true => rfl
      | false =>
          exact ih rest (fun t there => cells t (List.mem_cons_of_mem s there))
            (fun t there => keeps t (List.mem_cons_of_mem s there)) fuel
            (Nat.lt_of_succ_lt_succ enough)

/-- `property_map_find` finds the first node with the key. -/
theorem propertyMapFind_eq (holds : MapHolds N₀ h₀ h root slots lost) {key : Arg}
    (there : key.Read h₀) :
    propertyMapFind root key.property h =
      .ok ((slots.find? fun s => s.entry.Has key.text).map Slot.addr, h) := by
  have still : key.Read h.bytes := by
    obtain ⟨b, rest, value, cell⟩ := there.block
    exact ⟨there.plain, b, rest, value, holds.blocks.kept b _ cell⟩
  have few : slots.length ≤ h.nodes.brk := by
    have := holds.nodes.length_le
    rwa [List.length_map] at this
  rw [propertyMapFind, bind_of_ok (onNodes_ok (bound_apply h.nodes))]
  exact findKeyFrom_eq still holds.walk holds.cells holds.keeps (by omega)

end

end AcnSdk.Data

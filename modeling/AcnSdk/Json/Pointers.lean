/-
The JSON tree as memory holds it, `src/json/json.c` and `src/json/property_json.c`.

A node lies in the memory of nodes and points to its parent, to its neighbours and to its first
and last child; what its key points to lies in the memory of texts. The members of the union
stand side by side, since each is read under its own tag only. Nodes come from an allocator
that may have no room left; texts always find some.

* `appendNode_eq`, `prependNode_eq`, `unlink_eq` — which fields of which nodes change.
-/

import AcnSdk.Data.Property
import AcnSdk.Json.Node

namespace AcnSdk.Json.Pointers

open AcnSdk.Lib Prog Heap Data

/-! ### The data -/

/-- The numbers of `JsonTag`. -/
def code : JsonTag → Nat
  | .null => 0
  | .bool => 1
  | .string => 2
  | .number => 3
  | .array => 4
  | .object => 5

variable {ν : Type}

/-- `JsonNode`. -/
structure Node (ν : Type) where
  parent : Option Addr
  prev : Option Addr
  next : Option Addr
  key : Property
  tag : Nat
  bool_ : Bool
  string_ : Option Addr
  number_ : ν
  head : Option Addr
  tail : Option Addr

/-- The two memories. -/
structure Memory (ν : Type) where
  nodes : Heap (Node ν)
  texts : Heap Bytes

abbrev JsonM (ν : Type) := Prog (Memory ν)

/-- A step on the nodes. -/
def onNodes {β : Type} (step : HeapM (Node ν) β) : JsonM ν β := fun m =>
  (step m.nodes).map fun r => (r.1, { m with nodes := r.2 })

/-- A step on the texts. -/
def onTexts {β : Type} (step : HeapM Bytes β) : JsonM ν β := fun m =>
  (step m.texts).map fun r => (r.1, { m with texts := r.2 })

/-! ### Properties of JSON texts -/

/-- `PROPERTY_JSON_TAG`. -/
def jsonTag : Nat := 4

/-- `json_strdup`. -/
def jsonStrdup (s : Addr) : HeapM Bytes Addr := strdup s

/-- `json_copy`. -/
def jsonCopy (src : Property) : HeapM Bytes Property := do
  return ⟨some (← jsonStrdup (← deref src.value)), jsonTag, false, true, src.size⟩

/-- `json_move`, with what becomes of the source. -/
def jsonMove (src : Property) : Property × Property :=
  (⟨src.value, jsonTag, false, src.isOwner, src.size⟩, { src with isOwner := false })

/-- `json_destroy`. Nothing happens to NULL. -/
def jsonDestroy (dst : Property) : HeapM Bytes Unit :=
  match dst.value with
  | some value => free value
  | none => return ()

/-- `property_copy`, with the fourth type of properties. -/
def propertyCopy (src : Property) : HeapM Bytes Property :=
  if src.tag = jsonTag then jsonCopy src else Data.propertyCopy src

/-- `property_free`. -/
def propertyFree (dst : Property) : HeapM Bytes Property :=
  if dst.isOwner ∧ dst.tag = jsonTag then do
    jsonDestroy dst
    return .init
  else Data.propertyFree dst

/-- `property_move`: the new value of the destination and of the source. -/
def propertyMove (dst src : Property) : HeapM Bytes (Property × Property) :=
  if src.tag = jsonTag then do
    let (dst, src) := jsonMove src
    return (dst, ← propertyFree src)
  else Data.propertyMove dst src

/-! ### Making nodes -/

section

variable [Zero ν]

/-- A node as `calloc` gives it, with its tag. -/
def blank (tag : JsonTag) : Node ν where
  parent := none
  prev := none
  next := none
  key := .init
  tag := code tag
  bool_ := false
  string_ := none
  number_ := 0
  head := none
  tail := none

/-- `mknode`. -/
def mknode (room : Bool) (tag : JsonTag) : JsonM ν (Option Addr) :=
  if room then do return some (← onNodes (alloc (blank tag))) else return none

/-- `if ( ret )`, and then a field of it is assigned. -/
def assign (ret : Option Addr) (f : Node ν → Node ν) : JsonM ν (Option Addr) :=
  match ret with
  | some a => do
      onNodes (update a f)
      return some a
  | none => return none

/-- `json_mknull`. -/
def jsonMknull (room : Bool) : JsonM ν (Option Addr) := mknode room .null

/-- `json_mkbool`. -/
def jsonMkbool (room : Bool) (b : Bool) : JsonM ν (Option Addr) := do
  assign (← mknode room .bool) fun x => { x with bool_ := b }

/-- `mkstring`. -/
def mkstring (room : Bool) (s : Addr) : JsonM ν (Option Addr) := do
  assign (← mknode room .string) fun x => { x with string_ := some s }

/-- `json_mkstring`. -/
def jsonMkstring (room : Bool) (s : Addr) : JsonM ν (Option Addr) := do
  mkstring room (← onTexts (jsonStrdup s))

/-- `json_mknumber`. -/
def jsonMknumber (room : Bool) (n : ν) : JsonM ν (Option Addr) := do
  assign (← mknode room .number) fun x => { x with number_ := n }

/-- `json_mkarray`. -/
def jsonMkarray (room : Bool) : JsonM ν (Option Addr) := mknode room .array

/-- `json_mkobject`. -/
def jsonMkobject (room : Bool) : JsonM ν (Option Addr) := mknode room .object

end

/-! ### Linking nodes -/

/-- `if ( p != NULL ) p->… = …; else a->… = …;` -/
def updateEither (p : Option Addr) (f : Node ν → Node ν) (a : Addr) (g : Node ν → Node ν) :
    HeapM (Node ν) Unit :=
  match p with
  | some b => update b f
  | none => update a g

/-- `append_node`. -/
def appendNode (parent child : Addr) : JsonM ν Unit := onNodes do
  let tail := (← read parent).tail
  update child fun x => { x with parent := some parent, prev := tail, next := none }
  updateEither tail (fun x => { x with next := some child })
    parent (fun x => { x with head := some child })
  update parent fun x => { x with tail := some child }

/-- `prepend_node`. -/
def prependNode (parent child : Addr) : JsonM ν Unit := onNodes do
  let head := (← read parent).head
  update child fun x => { x with parent := some parent, prev := none, next := head }
  updateEither head (fun x => { x with prev := some child })
    parent (fun x => { x with tail := some child })
  update parent fun x => { x with head := some child }

/-- `append_member`. -/
def appendMember (object : Addr) (key : Property) (value : Addr) : JsonM ν Unit := do
  let x ← onNodes (read value)
  let (moved, _) ← onTexts (propertyMove x.key key)
  onNodes (update value fun x => { x with key := moved })
  appendNode object value

/-- The two assertions of the functions below. -/
def asserts (kind : JsonTag) (container node : Addr) : JsonM ν Unit := onNodes do
  check ((← read container).tag = code kind)
  check (← read node).parent.isNone

/-- `json_append_element`. -/
def jsonAppendElement (array element : Addr) : JsonM ν Unit := do
  asserts .array array element
  appendNode array element

/-- `json_prepend_element`. -/
def jsonPrependElement (array element : Addr) : JsonM ν Unit := do
  asserts .array array element
  prependNode array element

/-- `json_append_member`. -/
def jsonAppendMember (object : Addr) (key : Property) (value : Addr) : JsonM ν Unit := do
  asserts .object object value
  appendMember object key value

/-- `json_prepend_member`. -/
def jsonPrependMember (object : Addr) (key : Property) (value : Addr) : JsonM ν Unit := do
  asserts .object object value
  let copied ← onTexts (propertyCopy key)
  onNodes (update value fun x => { x with key := copied })
  prependNode object value

/-- The neighbours of a node in `json_remove_from_parent`. -/
def unlink (node parent : Addr) : JsonM ν Unit := onNodes do
  let x ← read node
  updateEither x.prev (fun y => { y with next := x.next }) parent
    (fun y => { y with head := x.next })
  updateEither x.next (fun y => { y with prev := x.prev }) parent
    (fun y => { y with tail := x.prev })

/-- `json_remove_from_parent`. -/
def jsonRemoveFromParent (node : Addr) : JsonM ν Unit := do
  let x ← onNodes (read node)
  match x.parent with
  | some parent =>
      unlink node parent
      let freed ← onTexts (propertyFree x.key)
      onNodes
        (update node fun y => { y with key := freed, parent := none, prev := none, next := none })
  | none => return ()

/-! ### Finding nodes -/

/-- `json_first_child`. -/
def jsonFirstChild (node : Option Addr) : JsonM ν (Option Addr) :=
  match node with
  | none => return none
  | some a => do
      let x ← onNodes (read a)
      return if x.tag = code .array ∨ x.tag = code .object then x.head else none

/-- The loop of `json_find_element`, at `element` with `i` before it. -/
def findElementFrom (index : Int) : Nat → Nat → Option Addr → JsonM ν (Option Addr)
  | 0, _, _ => throw .endless
  | _ + 1, _, none => return none
  | fuel + 1, i, some element => do
      if (i : Int) = index then return some element
      else findElementFrom index fuel (i + 1) (← onNodes (read element)).next

/-- `json_find_element`. -/
def jsonFindElement (array : Option Addr) (index : Int) : JsonM ν (Option Addr) :=
  match array with
  | none => return none
  | some a => do
      if (← onNodes (read a)).tag ≠ code .array then return none
      else findElementFrom index (← onNodes bound) 0 (← jsonFirstChild array)

/-- The loop of `json_find_member`. -/
def findMemberFrom (name : Property) : Nat → Option Addr → JsonM ν (Option Addr)
  | 0, _ => throw .endless
  | _ + 1, none => return none
  | fuel + 1, some member => do
      let x ← onNodes (read member)
      if (← onTexts (propertyCmp x.key name)) = 0 then return some member
      else findMemberFrom name fuel x.next

/-- `json_find_member`. -/
def jsonFindMember (object : Option Addr) (name : Property) : JsonM ν (Option Addr) :=
  match object with
  | none => return none
  | some a => do
      if (← onNodes (read a)).tag ≠ code .object then return none
      else findMemberFrom name (← onNodes bound) (← jsonFirstChild object)

/-! ### Running the steps -/

section

variable {m : Memory ν}

theorem onNodes_ok {β : Type} {step : HeapM (Node ν) β} {b : β} {h : Heap (Node ν)}
    (run : step m.nodes = .ok (b, h)) : onNodes step m = .ok (b, { m with nodes := h }) := by
  rw [onNodes, run]
  rfl

theorem onTexts_ok {β : Type} {step : HeapM Bytes β} {b : β} {h : Heap Bytes}
    (run : step m.texts = .ok (b, h)) : onTexts step m = .ok (b, { m with texts := h }) := by
  rw [onTexts, run]
  rfl

/-- A node without links and key. -/
structure Alone (x : Node ν) (tag : JsonTag) : Prop where
  parent : x.parent = none
  prev : x.prev = none
  next : x.next = none
  key : x.key = .init
  tag : x.tag = code tag
  head : x.head = none
  tail : x.tail = none

section

variable [Zero ν]

theorem alone_blank (tag : JsonTag) : Alone (blank tag : Node ν) tag :=
  ⟨rfl, rfl, rfl, rfl, rfl, rfl, rfl⟩

theorem mknode_eq (tag : JsonTag) : mknode true tag m =
    .ok (some m.nodes.brk, { m with nodes := m.nodes.push (blank tag) }) := rfl

theorem assign_eq (tag : JsonTag) (f : Node ν → Node ν) :
    (mknode true tag >>= fun ret => assign ret f) m =
      .ok (some m.nodes.brk, { m with nodes := m.nodes.push (f (blank tag)) }) := by
  rw [bind_of_ok (mknode_eq tag), assign, bind_of_ok (onNodes_ok (update_push _ _ f))]
  rfl

end

/-- A pointer that is NULL or points to a node. -/
def Points (h : Heap (Node ν)) (p : Option Addr) : Prop := ∀ a, p = some a → ∃ x, h.cells a = some x

theorem Points.adjust {h : Heap (Node ν)} {p : Option Addr} (points : Points h p)
    (g : Addr → Node ν → Node ν) : Points (h.adjust g) p := by
  intro a eq
  obtain ⟨x, cell⟩ := points a eq
  exact ⟨g a x, adjust_live cell⟩

/-- The change that `updateEither` makes. -/
def onlyEither (p : Option Addr) (f : Node ν → Node ν) (a : Addr) (g : Node ν → Node ν) :
    Addr → Node ν → Node ν :=
  match p with
  | some b => only b f
  | none => only a g

theorem updateEither_adjust {h : Heap (Node ν)} {p : Option Addr} {a : Addr} {x : Node ν}
    (points : Points h p) (cell : h.cells a = some x) (f g : Node ν → Node ν) :
    updateEither p f a g h = .ok ((), h.adjust (onlyEither p f a g)) := by
  cases p with
  | none => exact update_adjust cell g
  | some b =>
      obtain ⟨y, cell_b⟩ := points b rfl
      exact update_adjust cell_b f

/-- What `append_node` changes, where `x` is the parent. -/
def appended (parent child : Addr) (x : Node ν) : Addr → Node ν → Node ν := fun a y =>
  only parent (fun y => { y with tail := some child }) a <|
  onlyEither x.tail (fun y => { y with next := some child })
    parent (fun y => { y with head := some child }) a <|
  only child (fun y => { y with parent := some parent, prev := x.tail, next := none }) a y

/-- What `prepend_node` changes, where `x` is the parent. -/
def prepended (parent child : Addr) (x : Node ν) : Addr → Node ν → Node ν := fun a y =>
  only parent (fun y => { y with head := some child }) a <|
  onlyEither x.head (fun y => { y with prev := some child })
    parent (fun y => { y with tail := some child }) a <|
  only child (fun y => { y with parent := some parent, prev := none, next := x.head }) a y

/-- What `json_remove_from_parent` changes around the node, which is `x`. -/
def unlinked (parent : Addr) (x : Node ν) : Addr → Node ν → Node ν := fun a y =>
  onlyEither x.next (fun y => { y with prev := x.prev })
    parent (fun y => { y with tail := x.prev }) a <|
  onlyEither x.prev (fun y => { y with next := x.next })
    parent (fun y => { y with head := x.next }) a y

/-- What it does to the node itself. -/
def cleared (y : Node ν) : Node ν :=
  { y with key := .init, parent := none, prev := none, next := none }

/-- All that `json_remove_from_parent` changes, where `x` is the node. -/
def removed (parent child : Addr) (x : Node ν) : Addr → Node ν → Node ν := fun a y =>
  only child cleared a (unlinked parent x a y)

theorem appendNode_eq {parent child : Addr} {x y : Node ν} (cell : m.nodes.cells parent = some x)
    (new : m.nodes.cells child = some y) (last : Points m.nodes x.tail) :
    appendNode parent child m =
      .ok ((), { m with nodes := m.nodes.adjust (appended parent child x) }) := by
  apply onNodes_ok
  rw [bind_of_ok (read_eq cell), bind_of_ok (update_adjust new _),
    bind_of_ok (updateEither_adjust (last.adjust _) (adjust_live cell) _ _),
    update_adjust (adjust_live (adjust_live cell)), adjust_adjust, adjust_adjust]
  rfl

theorem prependNode_eq {parent child : Addr} {x y : Node ν} (cell : m.nodes.cells parent = some x)
    (new : m.nodes.cells child = some y) (first : Points m.nodes x.head) :
    prependNode parent child m =
      .ok ((), { m with nodes := m.nodes.adjust (prepended parent child x) }) := by
  apply onNodes_ok
  rw [bind_of_ok (read_eq cell), bind_of_ok (update_adjust new _),
    bind_of_ok (updateEither_adjust (first.adjust _) (adjust_live cell) _ _),
    update_adjust (adjust_live (adjust_live cell)), adjust_adjust, adjust_adjust]
  rfl

theorem unlink_eq {node parent : Addr} {x y : Node ν} (cell : m.nodes.cells node = some x)
    (above : m.nodes.cells parent = some y) (before : Points m.nodes x.prev)
    (after : Points m.nodes x.next) :
    unlink node parent m = .ok ((), { m with nodes := m.nodes.adjust (unlinked parent x) }) := by
  apply onNodes_ok
  rw [bind_of_ok (read_eq cell), bind_of_ok (updateEither_adjust before above _ _),
    updateEither_adjust (after.adjust _) (adjust_live above), adjust_adjust]
  rfl

/-- `json_remove_from_parent`, where the key is released. -/
theorem removeFromParent_eq {node parent : Addr} {x y : Node ν} {texts' : Heap Bytes}
    (cell : m.nodes.cells node = some x) (points : x.parent = some parent)
    (above : m.nodes.cells parent = some y) (before : Points m.nodes x.prev)
    (after : Points m.nodes x.next) (freed : propertyFree x.key m.texts = .ok (.init, texts')) :
    jsonRemoveFromParent node m =
      .ok ((), ⟨m.nodes.adjust (removed parent node x), texts'⟩) := by
  have freed_key : onTexts (propertyFree x.key) ⟨m.nodes.adjust (unlinked parent x), m.texts⟩ =
      .ok (.init, ⟨m.nodes.adjust (unlinked parent x), texts'⟩) :=
    onTexts_ok (m := ⟨_, m.texts⟩) freed
  have reset : update node cleared (m.nodes.adjust (unlinked parent x)) =
      .ok ((), m.nodes.adjust (removed parent node x)) := by
    rw [update_adjust (adjust_live cell), adjust_adjust]
    rfl
  rw [jsonRemoveFromParent, bind_of_ok (onNodes_ok (read_eq cell)), points]
  dsimp only
  rw [bind_of_ok (unlink_eq cell above before after), bind_of_ok freed_key]
  exact onNodes_ok (m := ⟨_, texts'⟩) reset

/-- `asserts` passes for a node without a parent. -/
theorem asserts_eq {kind : JsonTag} {p c : Addr} {x y : Node ν} (cell : m.nodes.cells p = some x)
    (tag : x.tag = code kind) (new : m.nodes.cells c = some y) (parent : y.parent = none) :
    asserts kind p c m = .ok ((), m) := by
  apply onNodes_ok
  rw [bind_of_ok (read_eq cell), tag, decide_eq_true rfl, bind_of_ok (check_true m.nodes),
    bind_of_ok (read_eq new), parent]
  rfl

/-- A key is assigned. -/
theorem setKey_eq {c : Addr} {y : Node ν} (new : m.nodes.cells c = some y) (key : Property)
    (texts' : Heap Bytes) :
    onNodes (update c fun x => { x with key := key }) ⟨m.nodes, texts'⟩ =
      .ok ((), ⟨m.nodes.adjust (only c fun x => { x with key := key }), texts'⟩) :=
  onNodes_ok (m := ⟨m.nodes, texts'⟩) (update_adjust new _)

theorem only_key (c : Addr) (key : Property) (a : Addr) (y : Node ν) :
    (only c (fun x => { x with key := key }) a y).key = if a = c then key else y.key := by
  rw [only]
  split <;> rfl

/-! ### The fields that change -/

theorem onlyEither_cases (p : Option Addr) (f : Node ν → Node ν) (a : Addr) (g : Node ν → Node ν)
    (b : Addr) (y : Node ν) :
    onlyEither p f a g b y = if p = some b then f y else if p = none ∧ b = a then g y else y := by
  cases p with
  | none => simp [onlyEither, only]
  | some c => simp [onlyEither, only, eq_comm]

section

variable (parent child : Addr) (x : Node ν) (a : Addr) (y : Node ν)

theorem appended_eq : appended parent child x a y =
    { y with
      parent := if a = child then some parent else y.parent
      prev := if a = child then x.tail else y.prev
      next := if x.tail = some a then some child else if a = child then none else y.next
      head := if x.tail = none ∧ a = parent then some child else y.head
      tail := if a = parent then some child else y.tail } := by
  simp only [appended, onlyEither_cases, only]
  split_ifs <;> simp_all

theorem prepended_eq : prepended parent child x a y =
    { y with
      parent := if a = child then some parent else y.parent
      prev := if x.head = some a then some child else if a = child then none else y.prev
      next := if a = child then x.head else y.next
      head := if a = parent then some child else y.head
      tail := if x.head = none ∧ a = parent then some child else y.tail } := by
  simp only [prepended, onlyEither_cases, only]
  split_ifs <;> simp_all

theorem removed_eq : removed parent child x a y =
    { y with
      parent := if a = child then none else y.parent
      prev := if a = child then none else if x.next = some a then x.prev else y.prev
      next := if a = child then none else if x.prev = some a then x.next else y.next
      key := if a = child then .init else y.key
      head := if x.prev = none ∧ a = parent then x.next else y.head
      tail := if x.next = none ∧ a = parent then x.prev else y.tail } := by
  simp only [removed, unlinked, onlyEither_cases, only, cleared]
  split_ifs <;> simp_all

end

end

end AcnSdk.Json.Pointers

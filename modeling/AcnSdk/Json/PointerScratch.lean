/-
Objects that are made for their text and deleted again, with `json_delete` of `src/json/json.c`.

Such an object has members of its own, which are strings, and behind them trees that it borrows.
All its keys are constants. The trees have to be removed before the object is deleted; what is left
then is the memory as it was without it.

* `Scratch.leaf_more`, `Scratch.link` — a member more.
* `Scratch.holds` — the tree that the object is.
* `Scratch.remove`, `Scratch.delete` — borrowed trees come back as they were, and the rest goes.
-/

import AcnSdk.Json.PointerEncode

namespace AcnSdk.Json.Pointers

open AcnSdk.Lib Prog Heap Data

variable {ν : Type}

/-! ### Deleting -/

/-- `json_delete_string`. Nothing happens to NULL. -/
def jsonDeleteString (jsonStr : Option Addr) : JsonM ν Unit :=
  match jsonStr with
  | some start => onTexts (free start)
  | none => return ()

/-- The loop of `json_delete` at `child`. Its neighbour is read before it goes. -/
def deleteChildren (delete : Addr → JsonM ν Unit) : Nat → Option Addr → JsonM ν Unit
  | 0, _ => throw .endless
  | _ + 1, none => return ()
  | fuel + 1, some child => do
      let next := (← onNodes (read child)).next
      delete child
      deleteChildren delete fuel next

/-- `json_delete` of a node. -/
def jsonDelete : Nat → Addr → JsonM ν Unit
  | 0, _ => throw .endless
  | fuel + 1, node => do
      jsonRemoveFromParent node
      let x ← onNodes (read node)
      if x.tag = code .string then jsonDeleteString x.string_
      else if x.tag = code .array ∨ x.tag = code .object then
        deleteChildren (jsonDelete fuel) (fuel + 1) x.head
      onNodes (free node)

/-! ### Linking a member -/

/-- What `json_append_member` changes, where `x` is the object. -/
def linked (p c : Addr) (key : Property) (x : Node ν) : Addr → Node ν → Node ν := fun a y =>
  appended p c x a (only c (fun z => { z with key := key }) a y)

section

variable {m : Memory ν} {p c a : Addr} {x y : Node ν} {as : List Addr}

theorem propertyMove_const (dst : Property) (a : Addr) (n : Nat) (texts : Heap Bytes) :
    propertyMove dst (.const a n) texts = .ok ((.const a n, .init), texts) := rfl

/-- A constant key has nothing to release. -/
theorem propertyFree_const {key : Property} (const : key.tag = constTag) (texts : Heap Bytes) :
    propertyFree key texts = .ok (.init, texts) := by
  simp [propertyFree, Data.propertyFree, const, constTag, jsonTag, dynamicTag]

theorem appendMember_const (cell : m.nodes.cells p = some x) (tag : x.tag = code .object)
    (new : m.nodes.cells c = some y) (loose : y.parent = none) (other : p ≠ c)
    (last : Points m.nodes x.tail) (a : Addr) (n : Nat) :
    jsonAppendMember p (.const a n) c m =
      .ok ((), { m with nodes := m.nodes.adjust (linked p c (.const a n) x) }) := by
  have keyed : (m.nodes.adjust (only c fun z => { z with key := .const a n })).cells p =
      some x := by
    rw [adjust_live cell, only, if_neg other]
  rw [jsonAppendMember, bind_of_ok (asserts_eq cell tag new loose), appendMember,
    bind_of_ok (onNodes_ok (read_eq new)),
    bind_of_ok (onTexts_ok (propertyMove_const y.key a n m.texts))]
  dsimp only
  have appended := appendNode_eq
      (m := ⟨m.nodes.adjust (only c fun z => { z with key := .const a n }), m.texts⟩) keyed
    (adjust_live new) (last.adjust _)
  rw [bind_of_ok (setKey_eq new _ m.texts), appended, adjust_adjust]
  rfl

/-- Only the neighbours of a node change. -/
def Sideways (g : Addr → Node ν → Node ν) (a : Addr) : Prop :=
  ∀ y, ∃ prev next, g a y = { y with prev := prev, next := next }

theorem linked_sideways (key : Property) (x : Node ν) (parent : a ≠ p) (child : a ≠ c) :
    Sideways (linked p c key x) a := by
  intro y
  have ends : ¬ (x.tail = none ∧ a = p) := fun both => parent both.2
  rw [linked, only, if_neg child, appended_eq, if_neg child, if_neg child, if_neg child,
    if_neg parent, if_neg ends]
  exact ⟨_, _, rfl⟩

theorem removed_sideways (x : Node ν) (parent : a ≠ p) (child : a ≠ c) :
    Sideways (removed p c x) a := by
  intro y
  have front : ¬ (x.prev = none ∧ a = p) := fun both => parent both.2
  have back : ¬ (x.next = none ∧ a = p) := fun both => parent both.2
  rw [removed_eq, if_neg child, if_neg child, if_neg child, if_neg child, if_neg front, if_neg back]
  exact ⟨_, _, rfl⟩

/-- Nothing changes apart from the object and its members. -/
theorem linked_other (key : Property) (parent : a ≠ p) (child : a ≠ c) (last : x.tail ≠ some a)
    (y : Node ν) : linked p c key x a y = y := by
  rw [linked, only, if_neg child, appended_eq, if_neg child, if_neg child, if_neg last,
    if_neg child, if_neg parent, if_neg fun both => parent both.2]

theorem removed_other (parent : a ≠ p) (child : a ≠ c) (before : x.prev ≠ some a)
    (after : x.next ≠ some a) (y : Node ν) : removed p c x a y = y := by
  rw [removed_eq, if_neg child, if_neg child, if_neg child, if_neg child, if_neg before,
    if_neg after, if_neg fun both => parent both.2, if_neg fun both => parent both.2]

theorem enumerates_linked {h : Heap (Node ν)} (key : Property)
    (en : Enumerates (links h) x.head x.tail as) (new : h.cells c = some y)
    (live : ∀ a ∈ as, ∃ y, h.cells a = some y) (apart : c ∉ as) (other : p ≠ c) :
    Enumerates (links (h.adjust (linked p c key x))) (linked p c key x p x).head
      (linked p c key x p x).tail (as ++ [c]) := by
  have keyed : Enumerates (links (h.adjust (only c fun z => { z with key := key }))) x.head x.tail
      as := by
    refine en.congr fun a _ => ⟨?_, ?_⟩
    · refine pointer_adjust_same fun z => ?_
      rw [only]
      split <;> rfl
    · refine pointer_adjust_same fun z => ?_
      rw [only]
      split <;> rfl
  have appended := enumerates_appended (p := p) keyed ⟨_, adjust_live new⟩ (fun a mem => by
    obtain ⟨z, cell⟩ := live a mem
    exact ⟨_, adjust_live cell⟩) apart
  rw [adjust_adjust] at appended
  have same : only c (fun z => { z with key := key }) p x = x := if_neg other
  rw [linked, same]
  exact appended

end

/-! ### Scratch objects -/

/-- A string of the object, with the text that it owns. -/
structure Leaf where
  node : Addr
  text : Addr
  key : Bytes
  value : Bytes

/-- A tree that the object borrows. -/
structure Borrowed (ν : Type) where
  node : Addr
  key : Bytes
  tree : JsonNode ν

/-- A string in its place. The text of its key is one that stays. -/
def IsLeaf (m₀ m : Memory ν) (main : Addr) (l : Leaf) : Prop :=
  ∃ y, m.nodes.cells l.node = some y ∧ y.parent = some main ∧ y.key.tag = constTag ∧
    Spells m₀.texts y.key (some l.key) ∧ y.tag = code .string ∧ y.string_ = some l.text ∧
    Text m.texts l.text l.value

/-- A borrowed tree in its place. Without its key and its links its root is what it was. -/
def IsBorrowed (m₀ m : Memory ν) (main : Addr) (r : Borrowed ν) : Prop :=
  ∃ y, m.nodes.cells r.node = some y ∧ m₀.nodes.cells r.node = some (cleared y) ∧
    y.parent = some main ∧ y.key.tag = constTag ∧ Spells m₀.texts y.key (some r.key)

/-- An object without a parent, and its members. -/
def IsObject (h : Heap (Node ν)) (main : Addr) (as : List Addr) : Prop :=
  ∃ x, h.cells main = some x ∧ x.tag = code .object ∧ x.parent = none ∧ x.key = .init ∧
    Enumerates (links h) x.head x.tail as

/-- The memory is what it was, and the object with its members. -/
structure Scratch (m₀ m : Memory ν) (main : Addr) (leaves : List Leaf) (roots : List (Borrowed ν)) :
    Prop where
  freshNodes : m.nodes.Fresh
  freshTexts : m.texts.Fresh
  object : IsObject m.nodes main (leaves.map Leaf.node ++ roots.map Borrowed.node)
  leaf : ∀ l ∈ leaves, IsLeaf m₀ m main l
  root : ∀ r ∈ roots, IsBorrowed m₀ m main r
  apart : (leaves.map Leaf.text).Nodup
  newMain : m₀.nodes.cells main = none
  newNode : ∀ l ∈ leaves, m₀.nodes.cells l.node = none
  newText : ∀ l ∈ leaves, m₀.texts.cells l.text = none
  nodes : ∀ b, b ≠ main → b ∉ leaves.map Leaf.node → b ∉ roots.map Borrowed.node →
    m.nodes.cells b = m₀.nodes.cells b
  texts : ∀ b, b ∉ leaves.map Leaf.text → m.texts.cells b = m₀.texts.cells b

section

variable {m₀ m : Memory ν} {main c : Addr} {leaves : List Leaf} {roots : List (Borrowed ν)}
  {x y : Node ν}

theorem IsLeaf.sideways {l : Leaf} (isLeaf : IsLeaf m₀ m main l) {g : Addr → Node ν → Node ν}
    (sideways : Sideways g l.node) :
    IsLeaf m₀ { m with nodes := m.nodes.adjust g } main l := by
  obtain ⟨y, cell, parent, const, named, tag, string, text⟩ := isLeaf
  obtain ⟨prev, next, eq⟩ := sideways y
  refine ⟨g l.node y, adjust_live cell, ?_⟩
  rw [eq]
  exact ⟨parent, const, named, tag, string, text⟩

/-- A string stays where memory grows. -/
theorem IsLeaf.push {l : Leaf} (isLeaf : IsLeaf m₀ m main l) (nodes : m.nodes.Fresh)
    (texts : m.texts.Fresh) (z : Node ν) (u : Bytes) :
    IsLeaf m₀ ⟨m.nodes.push z, m.texts.push u⟩ main l := by
  obtain ⟨y, cell, parent, const, named, tag, string, plain, rest, text⟩ := isLeaf
  exact ⟨y, nodes.push_cells cell z, parent, const, named, tag, string, plain, rest,
    texts.push_cells text u⟩

/-- A string stays where another one is released. -/
theorem IsLeaf.erase {l : Leaf} (isLeaf : IsLeaf m₀ m main l) {a b : Addr} (other : l.node ≠ a)
    (other_text : l.text ≠ b) : IsLeaf m₀ ⟨m.nodes.erase a, m.texts.erase b⟩ main l := by
  obtain ⟨y, cell, parent, const, named, tag, string, plain, rest, text⟩ := isLeaf
  exact ⟨y, (if_neg other).trans cell, parent, const, named, tag, string, plain, rest,
    (if_neg other_text).trans text⟩

theorem IsBorrowed.sideways {r : Borrowed ν} (isBorrowed : IsBorrowed m₀ m main r)
    {g : Addr → Node ν → Node ν} (sideways : Sideways g r.node) :
    IsBorrowed m₀ { m with nodes := m.nodes.adjust g } main r := by
  obtain ⟨y, cell, before, parent, const, named⟩ := isBorrowed
  obtain ⟨prev, next, eq⟩ := sideways y
  refine ⟨g r.node y, adjust_live cell, ?_⟩
  rw [eq]
  exact ⟨before, parent, const, named⟩

/-- The object after a node was linked in. -/
theorem IsObject.link {h : Heap (Node ν)} {as : List Addr} (object : IsObject h main as)
    (cell : h.cells main = some x) (key : Property) (other : c ≠ main) (new : h.cells c = some y)
    (live : ∀ a ∈ as, ∃ z, h.cells a = some z) (apart : c ∉ as) :
    IsObject (h.adjust (linked main c key x)) main (as ++ [c]) := by
  obtain ⟨z, cell', tag, loose, unnamed, list⟩ := object
  cases cell.symm.trans cell'
  have longer := enumerates_linked key list new live apart other.symm
  refine ⟨_, adjust_live cell, ?_, ?_, ?_, longer⟩
  · rw [linked, only, if_neg other.symm, appended_eq]
    exact tag
  · rw [linked, only, if_neg other.symm, appended_eq]
    exact (if_neg other.symm).trans loose
  · rw [linked, only, if_neg other.symm, appended_eq]
    exact unnamed

theorem IsObject.push {h : Heap (Node ν)} {as : List Addr} (object : IsObject h main as)
    (fresh : h.Fresh) (live : ∀ a ∈ as, ∃ z, h.cells a = some z) (z : Node ν) :
    IsObject (h.push z) main as := by
  obtain ⟨x, cell, tag, loose, unnamed, list⟩ := object
  refine ⟨x, fresh.push_cells cell z, tag, loose, unnamed, list.congr fun a mem => ?_⟩
  obtain ⟨w, cell_a⟩ := live a mem
  have same : (h.push z).cells a = h.cells a := by rw [fresh.push_cells cell_a z, cell_a]
  exact ⟨congrArg (Option.bind · Node.next) same, congrArg (Option.bind · Node.prev) same⟩

/-- Linking changes the object and its members only. -/
theorem IsObject.linked_same {h : Heap (Node ν)} {as : List Addr} (object : IsObject h main as)
    (cell : h.cells main = some x) (key : Property) {b : Addr} (other : b ≠ main) (child : b ≠ c)
    (apart : b ∉ as) : (h.adjust (linked main c key x)).cells b = h.cells b := by
  obtain ⟨z, cell', -, -, -, list⟩ := object
  cases cell.symm.trans cell'
  have idle : linked main c key x b = id := by
    funext y
    refine linked_other key other child (fun tail => apart ?_) y
    exact List.mem_of_getLast? (list.tail_eq.symm.trans tail)
  rw [adjust_cells, idle, Option.map_id_fun, id_eq]

/-- The new member, but for its links and its key. -/
theorem linked_child (key : Property) (x : Node ν) (other : c ≠ main) (y : Node ν) :
    cleared (linked main c key x c y) = cleared y ∧
      (linked main c key x c y).parent = some main ∧ (linked main c key x c y).key = key := by
  have ends : ¬ (x.tail = none ∧ c = main) := fun both => other both.2
  rw [linked, only, if_pos rfl, appended_eq, if_pos rfl, if_neg other, if_neg ends]
  exact ⟨rfl, rfl, rfl⟩

/-- The string that is made and linked in. -/
theorem IsLeaf.made [Zero ν] {key : Property} {k s : Bytes} (x : Node ν)
    (other : m.nodes.brk ≠ main) (const : key.tag = constTag)
    (named : Spells m₀.texts key (some k)) (plain : 0 ∉ s) :
    IsLeaf m₀ ⟨(m.nodes.push { (blank .string : Node ν) with string_ := some m.texts.brk }).adjust
      (linked main m.nodes.brk key x), m.texts.push (s ++ [0])⟩ main
      ⟨m.nodes.brk, m.texts.brk, k, s⟩ := by
  obtain ⟨same, parent, key_eq⟩ := linked_child key x other
    { (blank .string : Node ν) with string_ := some m.texts.brk }
  refine ⟨_, adjust_live (if_pos rfl), parent, ?_, ?_, ?_, ?_, plain, [], if_pos rfl⟩
  · rw [key_eq]
    exact const
  · rw [key_eq]
    exact named
  · exact congrArg Node.tag same
  · exact congrArg Node.string_ same

namespace Scratch

/-- The addresses of the members. -/
theorem member (scratch : Scratch m₀ m main leaves roots)
    (mem : c ∈ leaves.map Leaf.node ++ roots.map Borrowed.node) :
    ∃ y, m.nodes.cells c = some y ∧ y.parent = some main := by
  rcases List.mem_append.mp mem with leaf | root
  · obtain ⟨l, mem_l, rfl⟩ := List.mem_map.mp leaf
    obtain ⟨y, cell, parent, -⟩ := scratch.leaf l mem_l
    exact ⟨y, cell, parent⟩
  · obtain ⟨r, mem_r, rfl⟩ := List.mem_map.mp root
    obtain ⟨y, cell, -, parent, -⟩ := scratch.root r mem_r
    exact ⟨y, cell, parent⟩

theorem live (scratch : Scratch m₀ m main leaves roots) :
    ∀ a ∈ leaves.map Leaf.node ++ roots.map Borrowed.node, ∃ y, m.nodes.cells a = some y :=
  fun _ mem => (scratch.member mem).imp fun _ both => both.1

theorem ne_main (scratch : Scratch m₀ m main leaves roots)
    (mem : c ∈ leaves.map Leaf.node ++ roots.map Borrowed.node) : c ≠ main := by
  rintro rfl
  obtain ⟨y, cell, parent⟩ := scratch.member mem
  obtain ⟨x, cell', -, loose, -⟩ := scratch.object
  cases cell.symm.trans cell'
  cases loose.symm.trans parent

theorem points_tail (scratch : Scratch m₀ m main leaves roots)
    (cell : m.nodes.cells main = some x) :
    Points m.nodes x.tail := by
  obtain ⟨z, cell', -, -, -, list⟩ := scratch.object
  cases cell.symm.trans cell'
  intro b eq
  obtain ⟨y, cell_b, -⟩ := scratch.member (List.mem_of_getLast? (list.tail_eq.symm.trans eq))
  exact ⟨y, cell_b⟩

/-- The object begins without members. -/
theorem begin [Zero ν] (nodes : m.nodes.Fresh) (texts : m.texts.Fresh) :
    Scratch m { m with nodes := m.nodes.push (blank .object) } m.nodes.brk [] [] where
  freshNodes := nodes.push _
  freshTexts := texts
  object := ⟨blank .object, if_pos rfl, rfl, rfl, rfl, .nil⟩
  leaf _ mem := absurd mem List.not_mem_nil
  root _ mem := absurd mem List.not_mem_nil
  apart := .nil
  newMain := nodes _ (Nat.le_refl _)
  newNode _ mem := absurd mem List.not_mem_nil
  newText _ mem := absurd mem List.not_mem_nil
  nodes _ other _ _ := if_neg other
  texts _ _ := rfl

/-- What was there before is no member, but a borrowed tree. -/
theorem not_leaf (scratch : Scratch m₀ m main leaves roots) (old : m₀.nodes.cells c = some y) :
    c ∉ leaves.map Leaf.node := by
  intro mem
  obtain ⟨l, mem_l, rfl⟩ := List.mem_map.mp mem
  cases old.symm.trans (scratch.newNode l mem_l)

theorem not_main (scratch : Scratch m₀ m main leaves roots) (old : m₀.nodes.cells c = some y) :
    c ≠ main := by
  rintro rfl
  cases old.symm.trans scratch.newMain

/-- A root that is linked in behind the members. -/
theorem link (scratch : Scratch m₀ m main leaves roots) (cell : m.nodes.cells main = some x)
    {key : Property} {r : Borrowed ν} (old : m₀.nodes.cells r.node = some y)
    (loose : cleared y = y) (fresh : r.node ∉ roots.map Borrowed.node) (const : key.tag = constTag)
    (named : Spells m₀.texts key (some r.key)) :
    Scratch m₀ { m with nodes := m.nodes.adjust (linked main r.node key x) } main leaves
      (roots ++ [r]) := by
  have other := scratch.not_main old
  have not_leaf := scratch.not_leaf old
  have new : m.nodes.cells r.node = some y :=
    (scratch.nodes r.node other not_leaf fresh).trans old
  have apart : r.node ∉ leaves.map Leaf.node ++ roots.map Borrowed.node := fun mem =>
    (List.mem_append.mp mem).elim not_leaf fresh
  have sideways : ∀ b ∈ leaves.map Leaf.node ++ roots.map Borrowed.node,
      Sideways (linked main r.node key x) b := fun b mem =>
    linked_sideways key x (scratch.ne_main mem) fun eq => apart (eq ▸ mem)
  refine ⟨scratch.freshNodes.adjust _, scratch.freshTexts, ?_, ?_, ?_, scratch.apart,
    scratch.newMain, scratch.newNode, scratch.newText, ?_, scratch.texts⟩
  · rw [List.map_append, ← List.append_assoc]
    exact scratch.object.link cell key other new scratch.live apart
  · exact fun l mem => (scratch.leaf l mem).sideways
      (sideways l.node (List.mem_append_left _ (List.mem_map_of_mem mem)))
  · intro r' mem
    rcases List.mem_append.mp mem with mem | mem
    · exact (scratch.root r' mem).sideways
        (sideways r'.node (List.mem_append_right _ (List.mem_map_of_mem mem)))
    · cases List.mem_singleton.mp mem
      obtain ⟨same, parent, key_eq⟩ := linked_child key x other y
      refine ⟨_, adjust_live new, ?_, parent, ?_, ?_⟩
      · rw [same, loose]
        exact old
      · rw [key_eq]
        exact const
      · rw [key_eq]
        exact named
  · intro b other_b not_leaf_b not_root_b
    rw [List.map_append, List.mem_append, not_or] at not_root_b
    obtain ⟨not_root_b, not_r⟩ := not_root_b
    rw [scratch.object.linked_same cell key other_b (fun eq => not_r (by simp [eq]))
      fun mem => (List.mem_append.mp mem).elim not_leaf_b not_root_b]
    exact scratch.nodes b other_b not_leaf_b not_root_b

theorem text_lt (scratch : Scratch m₀ m main leaves roots) :
    ∀ l ∈ leaves, l.text < m.texts.brk := by
  intro l mem
  obtain ⟨y, -, -, -, -, -, -, -, rest, cell⟩ := scratch.leaf l mem
  exact scratch.freshTexts.lt cell

/-- Where the next node and the next text go there was nothing before. -/
theorem brk_free (scratch : Scratch m₀ m main leaves roots) :
    m₀.nodes.cells m.nodes.brk = none ∧ m₀.texts.cells m.texts.brk = none := by
  constructor
  · rw [← scratch.nodes]
    · exact scratch.freshNodes _ (Nat.le_refl _)
    · obtain ⟨x, cell, -⟩ := scratch.object
      exact Nat.ne_of_gt (scratch.freshNodes.lt cell)
    · intro mem
      obtain ⟨y, cell⟩ := scratch.live _ (List.mem_append_left _ mem)
      exact Nat.lt_irrefl _ (scratch.freshNodes.lt cell)
    · intro mem
      obtain ⟨y, cell⟩ := scratch.live _ (List.mem_append_right _ mem)
      exact Nat.lt_irrefl _ (scratch.freshNodes.lt cell)
  · rw [← scratch.texts]
    · exact scratch.freshTexts _ (Nat.le_refl _)
    · intro mem
      obtain ⟨l, mem_l, eq⟩ := List.mem_map.mp mem
      exact Nat.ne_of_lt (scratch.text_lt l mem_l) eq

/-- A string that is made and linked in. -/
theorem leaf_more [Zero ν] (scratch : Scratch m₀ m main leaves [])
    (cell : m.nodes.cells main = some x) {key : Property} {k s : Bytes} (const : key.tag = constTag)
    (named : Spells m₀.texts key (some k)) (plain : 0 ∉ s) :
    Scratch m₀
      ⟨(m.nodes.push { (blank .string : Node ν) with string_ := some m.texts.brk }).adjust
        (linked main m.nodes.brk key x), m.texts.push (s ++ [0])⟩ main
      (leaves ++ [⟨m.nodes.brk, m.texts.brk, k, s⟩]) [] := by
  obtain ⟨free_node, free_text⟩ := scratch.brk_free
  have live := scratch.live
  have object := scratch.object
  rw [List.map_nil, List.append_nil] at live object
  have other : m.nodes.brk ≠ main := Nat.ne_of_gt (scratch.freshNodes.lt cell)
  have apart : m.nodes.brk ∉ leaves.map Leaf.node := by
    intro mem
    obtain ⟨y, cell_b⟩ := live _ mem
    exact Nat.lt_irrefl _ (scratch.freshNodes.lt cell_b)
  have pushed := object.push scratch.freshNodes live
    { (blank .string : Node ν) with string_ := some m.texts.brk }
  have cell' := scratch.freshNodes.push_cells cell
    { (blank .string : Node ν) with string_ := some m.texts.brk }
  refine ⟨(scratch.freshNodes.push _).adjust _, scratch.freshTexts.push _, ?_, ?_, ?_, ?_,
    scratch.newMain, ?_, ?_, ?_, ?_⟩
  · rw [List.map_append, List.map_nil, List.append_nil]
    refine pushed.link cell' key other (if_pos rfl) (fun a mem => ?_) apart
    obtain ⟨y, cell_a⟩ := live a mem
    exact ⟨y, scratch.freshNodes.push_cells cell_a _⟩
  · intro l mem
    rcases List.mem_append.mp mem with mem | mem
    · have in_place := (scratch.leaf l mem).push scratch.freshNodes scratch.freshTexts
        { (blank .string : Node ν) with string_ := some m.texts.brk } (s ++ [0])
      have mem_l : l.node ∈ leaves.map Leaf.node := List.mem_map_of_mem mem
      exact in_place.sideways (linked_sideways key x
        (scratch.ne_main (List.mem_append_left _ mem_l)) fun eq => apart (eq ▸ mem_l))
    · cases List.mem_singleton.mp mem
      exact .made x other const named plain
  · exact fun _ mem => absurd mem List.not_mem_nil
  · rw [List.map_append, List.nodup_append]
    refine ⟨scratch.apart, List.nodup_singleton _, ?_⟩
    intro t mem t' mem' eq
    obtain ⟨l, mem_l, rfl⟩ := List.mem_map.mp mem
    cases List.mem_singleton.mp mem'
    exact Nat.ne_of_lt (scratch.text_lt l mem_l) eq
  · exact List.forall_mem_append.mpr ⟨scratch.newNode, List.forall_mem_singleton.mpr free_node⟩
  · exact List.forall_mem_append.mpr ⟨scratch.newText, List.forall_mem_singleton.mpr free_text⟩
  · intro b other_b not_leaf_b not_root_b
    rw [List.map_append, List.mem_append, not_or] at not_leaf_b
    obtain ⟨not_leaf_b, not_new⟩ := not_leaf_b
    have not_brk : b ≠ m.nodes.brk := fun eq => not_new (by simp [eq])
    rw [pushed.linked_same cell' key other_b not_brk not_leaf_b]
    exact (if_neg not_brk).trans (scratch.nodes b other_b not_leaf_b not_root_b)
  · intro b not_text
    rw [List.map_append, List.mem_append, not_or] at not_text
    obtain ⟨not_text, not_new⟩ := not_text
    exact (if_neg fun eq => not_new (by simp [eq])).trans (scratch.texts b not_text)

/-- Texts that were there before stay. -/
theorem keeps (scratch : Scratch m₀ m main leaves roots) : KeepsTexts m₀.texts m.texts := by
  intro b u old
  rw [scratch.texts b fun mem => ?_]
  · exact old
  · obtain ⟨l, mem_l, rfl⟩ := List.mem_map.mp mem
    cases old.symm.trans (scratch.newText l mem_l)

/-- A text more, which is to stay. -/
theorem pushText (scratch : Scratch m₀ m main leaves roots) (u : Bytes) :
    Scratch { m₀ with texts := m₀.texts.set m.texts.brk u } { m with texts := m.texts.push u } main
      leaves roots := by
  have more : KeepsTexts m₀.texts (m₀.texts.set m.texts.brk u) := by
    intro b v old
    refine (if_neg fun eq => ?_).trans old
    cases old.symm.trans (eq ▸ scratch.brk_free.2)
  refine ⟨scratch.freshNodes, scratch.freshTexts.push u, scratch.object, ?_, ?_, scratch.apart,
    scratch.newMain, scratch.newNode, ?_, scratch.nodes, ?_⟩
  · intro l mem
    obtain ⟨y, cell, parent, const, named, tag, string, plain, rest, text⟩ := scratch.leaf l mem
    exact ⟨y, cell, parent, const, more.spells named, tag, string, plain, rest,
      scratch.freshTexts.push_cells text u⟩
  · intro r mem
    obtain ⟨y, cell, before, parent, const, named⟩ := scratch.root r mem
    exact ⟨y, cell, before, parent, const, more.spells named⟩
  · intro l mem
    exact (if_neg (Nat.ne_of_lt (scratch.text_lt l mem))).trans (scratch.newText l mem)
  · intro b not_text
    by_cases eq : b = m.texts.brk
    · exact (if_pos eq).trans (if_pos eq).symm
    · exact (if_neg eq).trans ((scratch.texts b not_text).trans (if_neg eq).symm)

end Scratch

/-! ### The tree of the object -/

/-- A member that is a string. -/
def Leaf.tree (l : Leaf) : JsonNode ν := .scalar (some l.key) (.string l.value)

/-- A member that is borrowed. -/
def Borrowed.member (r : Borrowed ν) : JsonNode ν := r.tree.withKey (some r.key)

/-- The tree that the object is. -/
def scratchTree (leaves : List Leaf) (roots : List (Borrowed ν)) : JsonNode ν :=
  .container none .object (leaves.map Leaf.tree ++ roots.map Borrowed.member)

namespace Scratch

/-- A borrowed tree stays what it is, under its key. -/
theorem holds_root (scratch : Scratch m₀ m main leaves roots) {r : Borrowed ν} (mem : r ∈ roots)
    (tree : Holds m₀ (fun _ => True) r.node r.tree) :
    Holds m (fun _ => True) r.node r.member := by
  -- what lies below a root has a parent, and a root has none
  have below : Holds m₀ (fun b => ∃ p, pointer m₀.nodes Node.parent b = some p) r.node r.tree :=
    tree.narrow fun b p _ _ points => ⟨p, points⟩
  refine (below.frame ?_ ?_ scratch.keeps).narrow fun _ _ _ _ _ => trivial
  · intro x cell
    obtain ⟨y, cell', before, -, -, named⟩ := scratch.root r mem
    cases cell.symm.trans before
    exact ⟨y, cell', ⟨rfl, rfl, rfl, rfl, rfl, rfl⟩, scratch.keeps.spells named⟩
  · rintro b x ⟨p, points⟩ cell
    refine (scratch.nodes b (scratch.not_main cell) (scratch.not_leaf cell) fun mem' =>
      ?_).trans cell
    obtain ⟨r', mem_r, rfl⟩ := List.mem_map.mp mem'
    obtain ⟨y, -, before, -⟩ := scratch.root r' mem_r
    rw [pointer_eq before] at points
    cases points

theorem holds_leaf (scratch : Scratch m₀ m main leaves roots) {l : Leaf} (mem : l ∈ leaves) :
    Holds m (fun _ => True) l.node l.tree := by
  obtain ⟨y, cell, -, -, named, tag, string, text⟩ := scratch.leaf l mem
  exact .scalar cell (scratch.keeps.spells named) ⟨tag, l.text, string, text⟩

/-- The object holds its tree. -/
theorem holds (scratch : Scratch m₀ m main leaves roots)
    (trees : ∀ r ∈ roots, Holds m₀ (fun _ => True) r.node r.tree) :
    Holds m (fun _ => True) main (scratchTree leaves roots) := by
  obtain ⟨x, cell, tag, -, unnamed, list⟩ := scratch.object
  refine .container cell unnamed tag list (fun c mem => ?_) (fun _ _ => trivial) ?_ ?_
  · obtain ⟨y, cell_c, parent⟩ := scratch.member mem
    exact (pointer_eq cell_c Node.parent).trans parent
  · rw [List.length_append, List.length_append, List.length_map, List.length_map, List.length_map,
      List.length_map]
  · rw [List.zip_append (by rw [List.length_map, List.length_map]), List.zip_map', List.zip_map']
    refine List.forall_mem_append.mpr ⟨?_, ?_⟩
    · intro q mem
      obtain ⟨l, mem_l, rfl⟩ := List.mem_map.mp mem
      exact scratch.holds_leaf mem_l
    · intro q mem
      obtain ⟨r, mem_r, rfl⟩ := List.mem_map.mp mem
      exact scratch.holds_root mem_r (trees r mem_r)

end Scratch

/-! ### Taking the object apart -/

namespace IsObject

variable {h : Heap (Node ν)} {l r : List Addr}

theorem ne_child {as : List Addr} (object : IsObject h main as) (cell : h.cells c = some y)
    (parent : y.parent = some main) : c ≠ main := by
  rintro rfl
  obtain ⟨x, cell', -, loose, -⟩ := object
  cases cell.symm.trans cell'
  cases loose.symm.trans parent

/-- A member is removed from between its neighbours. -/
theorem removeFromParent {m : Memory ν} (object : IsObject m.nodes main (l ++ c :: r))
    (cell : m.nodes.cells c = some y) (parent : y.parent = some main)
    (const : y.key.tag = constTag) (live : ∀ a ∈ l ++ r, ∃ z, m.nodes.cells a = some z) :
    jsonRemoveFromParent c m = .ok ((), { m with nodes := m.nodes.adjust (removed main c y) }) := by
  obtain ⟨x, cell', -, -, -, list⟩ := object
  have at_next : (links m.nodes).next c = y.next := pointer_eq cell Node.next
  have at_prev : (links m.nodes).prev c = y.prev := pointer_eq cell Node.prev
  refine removeFromParent_eq cell parent cell' (fun a prev => ?_) (fun a next => ?_)
    (propertyFree_const const m.texts)
  · refine live a (List.mem_append_left r (List.mem_of_getLast? ?_))
    rw [← list.prev_eq, at_prev, prev]
  · refine live a (List.mem_append_right l (List.mem_of_head? ?_))
    rw [← list.next_eq, at_next, next]

theorem unlink (object : IsObject h main (l ++ c :: r)) (cell : h.cells c = some y)
    (parent : y.parent = some main) (live : ∀ a ∈ l ++ r, ∃ z, h.cells a = some z) :
    IsObject (h.adjust (removed main c y)) main (l ++ r) := by
  have other := object.ne_child cell parent
  obtain ⟨x, cell', tag, loose, unnamed, list⟩ := object
  refine ⟨_, adjust_live cell', ?_, ?_, ?_, enumerates_removed list cell live⟩
  · rw [removed_eq]
    exact tag
  · rw [removed_eq]
    exact (if_neg other.symm).trans loose
  · rw [removed_eq]
    exact (if_neg other.symm).trans unnamed

theorem erase {as : List Addr} (object : IsObject h main as) (other : c ≠ main) (apart : c ∉ as) :
    IsObject (h.erase c) main as := by
  obtain ⟨x, cell, tag, loose, unnamed, list⟩ := object
  refine ⟨x, (if_neg other.symm).trans cell, tag, loose, unnamed, list.congr fun a mem => ?_⟩
  have same : (h.erase c).cells a = h.cells a := if_neg fun (eq : a = c) => apart (eq ▸ mem)
  exact ⟨congrArg (Option.bind · Node.next) same, congrArg (Option.bind · Node.prev) same⟩

/-- Removing a member changes the object and the members only. -/
theorem removed_same (object : IsObject h main (l ++ c :: r)) (cell : h.cells c = some y) {b : Addr}
    (other : b ≠ main) (child : b ≠ c) (apart : b ∉ l ++ r) :
    (h.adjust (removed main c y)).cells b = h.cells b := by
  obtain ⟨x, -, -, -, -, list⟩ := object
  have at_next : (links h).next c = y.next := pointer_eq cell Node.next
  have at_prev : (links h).prev c = y.prev := pointer_eq cell Node.prev
  have idle : removed main c y b = id := by
    funext z
    refine removed_other other child (fun prev => apart ?_) (fun next => apart ?_) z
    · refine List.mem_append_left r (List.mem_of_getLast? ?_)
      rw [← list.prev_eq, at_prev, prev]
    · refine List.mem_append_right l (List.mem_of_head? ?_)
      rw [← list.next_eq, at_next, next]
  rw [adjust_cells, idle, Option.map_id_fun, id_eq]

end IsObject

theorem removed_child (other : c ≠ main) (x y : Node ν) : removed main c x c y = cleared y := by
  have front : ¬ (x.prev = none ∧ c = main) := fun both => other both.2
  have back : ¬ (x.next = none ∧ c = main) := fun both => other both.2
  rw [removed_eq, if_pos rfl, if_pos rfl, if_pos rfl, if_pos rfl, if_neg front, if_neg back]
  rfl

namespace Scratch

/-- The members are apart from each other. -/
theorem nodup (scratch : Scratch m₀ m main leaves roots) :
    (leaves.map Leaf.node ++ roots.map Borrowed.node).Nodup := by
  obtain ⟨x, -, -, -, -, list⟩ := scratch.object
  exact list.nodup

/-- A borrowed tree that is removed is what it was. -/
theorem remove {r : Borrowed ν} (scratch : Scratch m₀ m main leaves (r :: roots)) :
    ∃ m', jsonRemoveFromParent r.node m = .ok ((), m') ∧ Scratch m₀ m' main leaves roots ∧
      m'.texts = m.texts := by
  obtain ⟨y, cell, before, parent, const, named⟩ := scratch.root r List.mem_cons_self
  have object : IsObject m.nodes main
      (leaves.map Leaf.node ++ r.node :: roots.map Borrowed.node) := scratch.object
  have nodup : (leaves.map Leaf.node ++ r.node :: roots.map Borrowed.node).Nodup := scratch.nodup
  have sub : ∀ a ∈ leaves.map Leaf.node ++ roots.map Borrowed.node,
      a ∈ leaves.map Leaf.node ++ r.node :: roots.map Borrowed.node := fun a mem =>
    List.mem_append.mpr ((List.mem_append.mp mem).imp_right (List.mem_cons_of_mem r.node))
  have apart : r.node ∉ leaves.map Leaf.node ++ roots.map Borrowed.node := by
    rw [List.mem_append, not_or]
    exact ⟨scratch.not_leaf before, (List.nodup_cons.mp (List.nodup_append.mp nodup).2.1).1⟩
  have live : ∀ a ∈ leaves.map Leaf.node ++ roots.map Borrowed.node,
      ∃ z, m.nodes.cells a = some z := fun a mem => scratch.live a (sub a mem)
  have sideways : ∀ a ∈ leaves.map Leaf.node ++ roots.map Borrowed.node,
      Sideways (removed main r.node y) a := fun a mem =>
    removed_sideways y (scratch.ne_main (sub a mem)) fun eq => apart (eq ▸ mem)
  refine ⟨_, object.removeFromParent cell parent const live, ?_, rfl⟩
  refine ⟨scratch.freshNodes.adjust _, scratch.freshTexts, object.unlink cell parent live, ?_, ?_,
    scratch.apart, scratch.newMain, scratch.newNode, scratch.newText, ?_, scratch.texts⟩
  · exact fun l mem => (scratch.leaf l mem).sideways
      (sideways l.node (List.mem_append_left _ (List.mem_map_of_mem mem)))
  · exact fun r' mem => (scratch.root r' (List.mem_cons_of_mem r mem)).sideways
      (sideways r'.node (List.mem_append_right _ (List.mem_map_of_mem mem)))
  · intro b other not_leaf not_root
    by_cases eq : b = r.node
    · rw [eq, before, adjust_live cell, removed_child (object.ne_child cell parent)]
    · rw [object.removed_same cell other eq fun mem =>
        (List.mem_append.mp mem).elim not_leaf not_root]
      exact scratch.nodes b other not_leaf (List.not_mem_cons_of_ne_of_not_mem eq not_root)

/-- The neighbour that is read before the first string goes. -/
theorem next_leaf {l : Leaf} (scratch : Scratch m₀ m main (l :: leaves) [])
    (cell : m.nodes.cells l.node = some y) : y.next = (leaves.map Leaf.node).head? := by
  obtain ⟨x, -, -, -, -, list⟩ := scratch.object
  rw [List.map_nil, List.append_nil] at list
  have split : Enumerates (links m.nodes) x.head x.tail
      ([] ++ l.node :: leaves.map Leaf.node) := list
  rw [← split.next_eq]
  exact (pointer_eq cell Node.next).symm

/-- The first string is deleted with its text. -/
theorem delete_leaf {l : Leaf} (scratch : Scratch m₀ m main (l :: leaves) []) (fuel : Nat) :
    ∃ m', jsonDelete (fuel + 1) l.node m = .ok ((), m') ∧ Scratch m₀ m' main leaves [] := by
  obtain ⟨y, cell, parent, const, -, tag, string, -, rest, text⟩ :=
    scratch.leaf l List.mem_cons_self
  have object : IsObject m.nodes main ([] ++ l.node :: leaves.map Leaf.node) := by
    have whole := scratch.object
    rwa [List.map_nil, List.append_nil] at whole
  have nodup : (l.node :: leaves.map Leaf.node).Nodup := by
    have whole := scratch.nodup
    rwa [List.map_nil, List.append_nil] at whole
  have other : l.node ≠ main := object.ne_child cell parent
  have behind : ∀ l' ∈ leaves, l'.node ≠ l.node ∧ l'.node ≠ main ∧ l'.text ≠ l.text := by
    intro l' mem
    refine ⟨fun eq => ?_, ?_, fun eq => ?_⟩
    · exact (List.nodup_cons.mp nodup).1 (eq ▸ List.mem_map_of_mem mem)
    · exact scratch.ne_main
        (List.mem_append_left _ (List.mem_map_of_mem (List.mem_cons_of_mem l mem)))
    · exact (List.nodup_cons.mp scratch.apart).1 (eq ▸ List.mem_map_of_mem mem)
  have live : ∀ a ∈ [] ++ leaves.map Leaf.node, ∃ z, m.nodes.cells a = some z := fun a mem =>
    scratch.live a (List.mem_append_left _ (List.mem_cons_of_mem l.node mem))
  have here : (m.nodes.adjust (removed main l.node y)).cells l.node = some (cleared y) := by
    rw [adjust_live cell, removed_child other]
  have tag' : (cleared y).tag = code .string := tag
  have string' : (cleared y).string_ = some l.text := string
  have found := onNodes_ok (m := ⟨m.nodes.adjust (removed main l.node y), m.texts⟩) (read_eq here)
  have freed := onTexts_ok (m := ⟨m.nodes.adjust (removed main l.node y), m.texts⟩) (free_eq text)
  refine ⟨⟨(m.nodes.adjust (removed main l.node y)).erase l.node, m.texts.erase l.text⟩, ?_, ?_⟩
  · rw [jsonDelete, bind_of_ok (object.removeFromParent cell parent const live),
      bind_of_ok found]
    dsimp only
    rw [if_pos tag', string', jsonDeleteString, bind_of_ok freed]
    exact onNodes_ok
      (m := ⟨m.nodes.adjust (removed main l.node y), m.texts.erase l.text⟩) (free_eq here)
  · refine ⟨(scratch.freshNodes.adjust _).erase _, scratch.freshTexts.erase _, ?_, ?_, ?_,
      (List.nodup_cons.mp scratch.apart).2, scratch.newMain,
      fun l' mem => scratch.newNode l' (List.mem_cons_of_mem l mem),
      fun l' mem => scratch.newText l' (List.mem_cons_of_mem l mem), ?_, ?_⟩
    · rw [List.map_nil, List.append_nil]
      exact (object.unlink cell parent live).erase other (List.nodup_cons.mp nodup).1
    · intro l' mem
      obtain ⟨not_l, not_main, not_text⟩ := behind l' mem
      have moved := (scratch.leaf l' (List.mem_cons_of_mem l mem)).sideways
        (removed_sideways (x := y) (c := l.node) not_main not_l)
      exact moved.erase not_l not_text
    · exact fun _ mem => absurd mem List.not_mem_nil
    · intro b not_main not_leaf not_root
      by_cases eq : b = l.node
      · exact (if_pos eq).trans (eq ▸ (scratch.newNode l List.mem_cons_self).symm)
      · refine (if_neg eq).trans ?_
        rw [object.removed_same cell not_main eq not_leaf]
        exact scratch.nodes b not_main (List.not_mem_cons_of_ne_of_not_mem eq not_leaf) not_root
    · intro b not_text
      by_cases eq : b = l.text
      · exact (if_pos eq).trans (eq ▸ (scratch.newText l List.mem_cons_self).symm)
      · exact (if_neg eq).trans
          (scratch.texts b (List.not_mem_cons_of_ne_of_not_mem eq not_text))

theorem delete_leaves (scratch : Scratch m₀ m main leaves []) (fuel n : Nat)
    (enough : leaves.length < n) :
    ∃ m', deleteChildren (jsonDelete (fuel + 1)) n (leaves.map Leaf.node).head? m = .ok ((), m') ∧
      Scratch m₀ m' main [] [] := by
  induction leaves generalizing m n with
  | nil =>
      obtain ⟨n, rfl⟩ := Nat.exists_eq_succ_of_ne_zero (Nat.ne_zero_of_lt enough)
      exact ⟨m, rfl, scratch⟩
  | cons l leaves ih =>
      obtain ⟨n, rfl⟩ := Nat.exists_eq_succ_of_ne_zero (Nat.ne_zero_of_lt enough)
      obtain ⟨y, cell, -⟩ := scratch.leaf l List.mem_cons_self
      obtain ⟨m₁, deleted, scratch₁⟩ := scratch.delete_leaf fuel
      obtain ⟨m₂, rest, scratch₂⟩ := ih scratch₁ n (Nat.lt_of_succ_lt_succ enough)
      refine ⟨m₂, ?_, scratch₂⟩
      rw [List.map_cons, List.head?_cons, deleteChildren, bind_of_ok (onNodes_ok (read_eq cell)),
        bind_of_ok deleted, scratch.next_leaf cell]
      exact rest

end Scratch

/-- The memory is what it was. -/
structure Restored (m₀ m : Memory ν) : Prop where
  freshNodes : m.nodes.Fresh
  freshTexts : m.texts.Fresh
  nodes : ∀ b, m.nodes.cells b = m₀.nodes.cells b
  texts : ∀ b, m.texts.cells b = m₀.texts.cells b

/-- `json_delete` of the object without borrowed trees. -/
theorem Scratch.delete (scratch : Scratch m₀ m main leaves []) (fuel : Nat)
    (enough : leaves.length + 1 < fuel) :
    ∃ m', jsonDelete fuel main m = .ok ((), m') ∧ Restored m₀ m' := by
  obtain ⟨fuel, rfl⟩ : ∃ n, fuel = n + 2 := ⟨fuel - 2, by omega⟩
  obtain ⟨x, cell, tag, loose, -, list⟩ := scratch.object
  have object : ¬ x.tag = code .string := by
    rw [tag]
    decide
  obtain ⟨m₁, emptied, scratch₁⟩ := scratch.delete_leaves fuel (fuel + 2) (Nat.lt_of_succ_lt enough)
  obtain ⟨z, cell₁, -⟩ := scratch₁.object
  have head : x.head = (leaves.map Leaf.node).head? := by
    rw [list.head_eq, List.map_nil, List.append_nil]
  refine ⟨{ m₁ with nodes := m₁.nodes.erase main }, ?_, scratch₁.freshNodes.erase _,
    scratch₁.freshTexts, fun b => ?_, fun b => ?_⟩
  · have root : jsonRemoveFromParent main m = .ok ((), m) := by
      rw [jsonRemoveFromParent, bind_of_ok (onNodes_ok (read_eq cell)), loose]
      rfl
    rw [jsonDelete, bind_of_ok root, bind_of_ok (onNodes_ok (read_eq cell)), if_neg object,
      if_pos (.inr tag), head, bind_of_ok emptied]
    exact onNodes_ok (free_eq cell₁)
  · by_cases eq : b = main
    · exact (if_pos eq).trans (eq ▸ scratch₁.newMain.symm)
    · exact (if_neg eq).trans (scratch₁.nodes b eq List.not_mem_nil List.not_mem_nil)
  · exact scratch₁.texts b List.not_mem_nil

end

end AcnSdk.Json.Pointers

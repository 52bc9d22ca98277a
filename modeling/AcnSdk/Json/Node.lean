/-
The JSON tree of `include/json/json.h`.

A `JsonNode` carries an optional key (a `property_t` whose value pointer is NULL
or a C string) and either a scalar or the list of its children. The sibling
links `prev`/`next` and the `head`/`tail` pair are the order of that list, so a
`JsonNode *` into a sibling list is the list from that node on, and NULL is the
empty list. Numbers are an arbitrary type `ν`: the code only passes doubles to
the C library and back.
-/

import AcnSdk.Lib.Bytes

namespace AcnSdk.Json

open AcnSdk.Lib Ascii

/-- `JsonTag`. -/
inductive JsonTag where
  | null | bool | string | number | array | object
deriving DecidableEq, Repr

/-- The two tags that have children. -/
inductive Container where
  | array | object
deriving DecidableEq, Repr

/-- The opening bracket of a container. -/
def openBracket : Container → Byte
  | .array => lbrack
  | .object => lbrace

/-- The closing bracket of a container. -/
def closeBracket : Container → Byte
  | .array => rbrack
  | .object => rbrace

/-- The payload of a node without children. -/
inductive Scalar (ν : Type) where
  | null
  | bool (b : Bool)
  | string (s : Bytes)
  | number (n : ν)
deriving DecidableEq, Repr

/-- `JsonNode`. The key is present on members of objects. -/
inductive JsonNode (ν : Type) where
  | scalar (key : Option Bytes) (value : Scalar ν)
  | container (key : Option Bytes) (kind : Container) (children : List (JsonNode ν))
deriving Repr

variable {ν : Type}

namespace JsonNode

/-- Induction over trees: a container may assume the statement of its children. -/
@[elab_as_elim]
theorem tree_induction {P : JsonNode ν → Prop}
    (scalar : ∀ key value, P (.scalar key value))
    (container : ∀ key kind children, (∀ c ∈ children, P c) → P (.container key kind children))
    (node : JsonNode ν) : P node :=
  @JsonNode.rec ν P (fun children => ∀ c ∈ children, P c)
    scalar container (fun _ hc => absurd hc (by simp))
    (fun _ _ head tail c hc => by
      rcases List.mem_cons.mp hc with rfl | hc
      · exact head
      · exact tail c hc)
    node

/-- The same with a statement about lists of children beside the one about nodes. -/
theorem tree_children_induction {P : JsonNode ν → Prop} {Q : List (JsonNode ν) → Prop}
    (scalar : ∀ key value, P (.scalar key value))
    (container : ∀ key kind children, Q children → P (.container key kind children))
    (nil : Q []) (cons : ∀ c cs, P c → Q cs → Q (c :: cs)) :
    (∀ node, P node) ∧ ∀ children, Q children := by
  have node : ∀ node, P node :=
    @JsonNode.rec ν P Q scalar container nil fun c cs head tail => cons c cs head tail
  refine ⟨node, fun children => ?_⟩
  induction children with
  | nil => exact nil
  | cons c cs ih => exact cons c cs (node c) ih

def key : JsonNode ν → Option Bytes
  | .scalar key _ => key
  | .container key _ _ => key

def tag : JsonNode ν → JsonTag
  | .scalar _ .null => .null
  | .scalar _ (.bool _) => .bool
  | .scalar _ (.string _) => .string
  | .scalar _ (.number _) => .number
  | .container _ .array _ => .array
  | .container _ .object _ => .object

/-- The node is an array or an object. -/
def isContainer : JsonNode ν → Bool
  | .scalar _ _ => false
  | .container _ _ _ => true

/-- `json_first_child`: the sibling list that starts at the first child. -/
def jsonFirstChild : JsonNode ν → List (JsonNode ν)
  | .scalar _ _ => []
  | .container _ _ children => children

/-- `json_find_member`. -/
def jsonFindMember (object : JsonNode ν) (name : Bytes) : Option (JsonNode ν) :=
  match object with
  | .container _ .object children => children.find? fun member => member.key == some name
  | _ => none

/-- `string_`, which only a string has. -/
def stringValue : JsonNode ν → Option Bytes
  | .scalar _ (.string s) => some s
  | _ => none

/-- The node under another key: `property_move(&value->key, &key)`. -/
def withKey (key : Option Bytes) : JsonNode ν → JsonNode ν
  | .scalar _ value => .scalar key value
  | .container _ kind children => .container key kind children

/-- `append_node`: the child becomes the last of its new siblings. -/
def appendNode : JsonNode ν → JsonNode ν → JsonNode ν
  | .scalar key value, _ => .scalar key value
  | .container key kind children, child => .container key kind (children ++ [child])

mutual

/-- Every node of the tree, the root included, passes the check `p`. -/
def all (p : JsonNode ν → Bool) : JsonNode ν → Bool
  | .scalar key value => p (.scalar key value)
  | .container key kind children => p (.container key kind children) && allList p children

def allList (p : JsonNode ν → Bool) : List (JsonNode ν) → Bool
  | [] => true
  | c :: cs => all p c && allList p cs

end

@[simp] theorem all_scalar (p : JsonNode ν → Bool) (key : Option Bytes) (value : Scalar ν) :
    all p (.scalar key value) = p (.scalar key value) := by
  simp only [all]

theorem allList_eq_all (p : JsonNode ν → Bool) (cs : List (JsonNode ν)) :
    allList p cs = cs.all (all p) := by
  induction cs with
  | nil => simp [allList]
  | cons c cs ih => simp [allList, ih]

@[simp] theorem all_container (p : JsonNode ν → Bool) (key : Option Bytes) (kind : Container)
    (children : List (JsonNode ν)) :
    all p (.container key kind children) =
      (p (.container key kind children) && children.all (all p)) := by
  simp only [all, allList_eq_all]

/-- A tree that passes a check passes it at its root. -/
theorem all_root {p : JsonNode ν → Bool} {node : JsonNode ν} (h : all p node = true) :
    p node = true := by
  cases node with
  | scalar key value => simpa using h
  | container key kind children => simp at h; exact h.1

/-- A tree that passes a check passes it below every child. -/
theorem all_child {p : JsonNode ν → Bool} {node child : JsonNode ν} (h : all p node = true)
    (mem : child ∈ node.jsonFirstChild) : all p child = true := by
  cases node with
  | scalar key value => simp [jsonFirstChild] at mem
  | container key kind children =>
      simp only [all_container, Bool.and_eq_true, List.all_eq_true] at h
      exact h.2 child mem

/-- A tree that passes a check passes a weaker one. -/
theorem all_mono {p q : JsonNode ν → Bool} (weaker : ∀ n, p n = true → q n = true)
    {node : JsonNode ν} (h : all p node = true) : all q node = true := by
  induction node using tree_induction with
  | scalar key value => simpa using weaker _ (by simpa using h)
  | container key kind children ih =>
      simp only [all_container, Bool.and_eq_true, List.all_eq_true] at h ⊢
      exact ⟨weaker _ h.1, fun c hc => ih c hc (h.2 c hc)⟩

/-- Two checks in one. -/
theorem all_and {p q : JsonNode ν → Bool} {node : JsonNode ν} (hp : all p node = true)
    (hq : all q node = true) : all (fun n => p n && q n) node = true := by
  induction node using tree_induction with
  | scalar key value => simp_all
  | container key kind children ih =>
      simp only [all_container, Bool.and_eq_true, List.all_eq_true] at hp hq ⊢
      exact ⟨⟨hp.1, hq.1⟩, fun c hc => ih c hc (hp.2 c hc) (hq.2 c hc)⟩

mutual

/-- The numbers of a tree, in order. -/
def numbers : JsonNode ν → List ν
  | .scalar _ (.number n) => [n]
  | .scalar _ _ => []
  | .container _ _ children => numbersList children

def numbersList : List (JsonNode ν) → List ν
  | [] => []
  | c :: cs => numbers c ++ numbersList cs

end

/-- The numbers of a child are numbers of its parent. -/
theorem mem_numbers_child {key : Option Bytes} {kind : Container} {children : List (JsonNode ν)}
    {child : JsonNode ν} (mem : child ∈ children) {n : ν} (h : n ∈ child.numbers) :
    n ∈ (container key kind children).numbers := by
  rw [numbers]
  induction children with
  | nil => cases mem
  | cons c cs ih =>
      rw [numbersList, List.mem_append]
      rcases List.mem_cons.mp mem with rfl | mem
      · exact .inl h
      · exact .inr (ih mem)

/-! ### Shape conditions on one node, used with `all` -/

/-- Not a `JSON_NULL` node. -/
def notNull : JsonNode ν → Bool
  | .scalar _ .null => false
  | _ => true

/-- Not an array or object without children. -/
def notEmpty : JsonNode ν → Bool
  | .container _ _ [] => false
  | _ => true

/-- The string of the node, if it is one, passes the check `p`. -/
def stringHas (p : Bytes → Bool) : JsonNode ν → Bool
  | .scalar _ (.string s) => p s
  | _ => true

/-- The key of the node, if it has one, passes the check `p`. -/
def keyHas (p : Bytes → Bool) (node : JsonNode ν) : Bool := node.key.all p

/-- Children of an object have a key and children of an array have none. -/
def childrenKeyed : JsonNode ν → Bool
  | .scalar _ _ => true
  | .container _ .array children => children.all fun c => c.key.isNone
  | .container _ .object children => children.all fun c => c.key.isSome

/-- The keyed nodes of the tree are exactly the members of its objects. -/
def wellKeyed (node : JsonNode ν) : Bool := node.key.isNone && all childrenKeyed node

end JsonNode

end AcnSdk.Json

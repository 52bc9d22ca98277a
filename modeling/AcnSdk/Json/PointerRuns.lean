/-
Building and taking apart JSON trees.

Nodes are made, a node without a parent becomes a child of a container that does not lie inside
it, and nodes are removed from their parents, in any order. Between these calls the caller does
what it likes to texts that are not keys.

* `Represents.step` — no call faults, and the pointers follow the values.
* `represents_of_reached` — so they do after any number of calls.
* `findMember_eq`, `findElement_eq` — what is found by a name and by an index.
* `reached_tree` — the lists of children, removal and search in every state that is reached.
-/

import AcnSdk.Json.PointerKeys
import AcnSdk.Json.PointerLinks
import AcnSdk.Json.Values

namespace AcnSdk.Json.Pointers

open AcnSdk.Lib Prog Heap Data

variable {ν : Type}

/-! ### Calls -/

/-- What can be made. -/
inductive Maker (ν : Type) where
  | null
  | bool (b : Bool)
  | string (s : Addr)
  | number (n : ν)
  | array
  | object

def Maker.tag : Maker ν → JsonTag
  | .null => .null
  | .bool _ => .bool
  | .string _ => .string
  | .number _ => .number
  | .array => .array
  | .object => .object

/-- The calls that change a tree. -/
inductive Op (ν : Type) where
  | make (room : Bool) (maker : Maker ν)
  | appendElement (array element : Addr)
  | prependElement (array element : Addr)
  | appendMember (object : Addr) (key : Property) (value : Addr)
  | prependMember (object : Addr) (key : Property) (value : Addr)
  | removeFromParent (node : Addr)

section

variable [Zero ν]

def Maker.run (room : Bool) : Maker ν → JsonM ν (Option Addr)
  | .null => jsonMknull room
  | .bool b => jsonMkbool room b
  | .string s => jsonMkstring room s
  | .number n => jsonMknumber room n
  | .array => jsonMkarray room
  | .object => jsonMkobject room

/-- A call, with the node that it returns. -/
def Op.run : Op ν → JsonM ν (Option Addr)
  | .make room maker => maker.run room
  | .appendElement array element => do
      jsonAppendElement array element
      return none
  | .prependElement array element => do
      jsonPrependElement array element
      return none
  | .appendMember object key value => do
      jsonAppendMember object key value
      return none
  | .prependMember object key value => do
      jsonPrependMember object key value
      return none
  | .removeFromParent node => do
      jsonRemoveFromParent node
      return none

end

/-- The string of `json_mkstring` is one. -/
def Maker.Readable (texts : Heap Bytes) : Maker ν → Prop
  | .string s => ∃ t, Text texts s t
  | _ => True

/-- The calls that a caller may make, and what becomes of the values. -/
inductive Step (m : Memory ν) (v : Values Addr) : Op ν → Values Addr → Prop where
  | full (maker : Maker ν) (readable : maker.Readable m.texts) : Step m v (.make false maker) v
  | make (maker : Maker ν) (readable : maker.Readable m.texts) :
      Step m v (.make true maker) (v.make m.nodes.brk maker.tag)
  | appendElement {p c : Addr} (fit : v.Insertable p c none) :
      Step m v (.appendElement p c) (v.append p c none fit)
  | prependElement {p c : Addr} (fit : v.Insertable p c none) :
      Step m v (.prependElement p c) (v.prepend p c none fit)
  | appendMember {p c : Addr} {key : Property} {s : Bytes} (given : Given m (Moves key) key s)
      (fit : v.Insertable p c (some s)) :
      Step m v (.appendMember p key c) (v.append p c (some s) fit)
  | prependMember {p c : Addr} {key : Property} {s : Bytes} (given : Given m (Borrows key) key s)
      (fit : v.Insertable p c (some s)) :
      Step m v (.prependMember p key c) (v.prepend p c (some s) fit)
  | remove {c : Addr} (made : v.kind c ≠ none) : Step m v (.removeFromParent c) (v.remove c)

/-- The caller changes texts that are no keys. -/
structure Elsewhere (m m' : Memory ν) : Prop where
  nodes : m'.nodes = m.nodes
  fresh : m'.texts.Fresh
  keys : ∀ {c x a}, m.nodes.cells c = some x → x.key.value = some a →
    m'.texts.cells a = m.texts.cells a

/-- What can be reached from a memory without nodes. -/
inductive Reached [Zero ν] : Memory ν → Values Addr → Prop where
  | start {m : Memory ν} (none : ∀ a, m.nodes.cells a = none) (fresh : m.texts.Fresh) :
      Reached m .empty
  | other {m m' : Memory ν} {v : Values Addr} (reached : Reached m v) (change : Elsewhere m m') :
      Reached m' v
  | step {m m' : Memory ν} {v v' : Values Addr} {op : Op ν} {r : Option Addr}
      (reached : Reached m v) (step : Step m v op v') (run : op.run m = .ok (r, m')) :
      Reached m' v'

/-! ### The memory and the values -/

/-- The tags of the nodes are the kinds of the values. -/
def Kinds (h : Heap (Node ν)) (v : Values Addr) : Prop :=
  ∀ a, (h.cells a).map Node.tag = (v.kind a).map code

/-- The memory holds the values. -/
structure Represents (m : Memory ν) (v : Values Addr) : Prop where
  kinds : Kinds m.nodes v
  linkage : Linkage m.nodes v.forest
  naming : Naming m v.name

theorem code_injective {t u : JsonTag} (eq : code t = code u) : t = u := by
  cases t <;> cases u <;> first | rfl | cases eq

section

variable {m : Memory ν} {v : Values Addr} {p c : Addr} {label : Option Bytes}

theorem Kinds.adjust {h : Heap (Node ν)} {g : Addr → Node ν → Node ν} (kinds : Kinds h v)
    (same : ∀ a y, (g a y).tag = y.tag) : Kinds (h.adjust g) v := by
  intro a
  rw [adjust_cells, Option.map_map, ← kinds a]
  exact congrArg (Option.map · _) (funext (same a))

theorem Kinds.cell {h : Heap (Node ν)} {a : Addr} {tag : JsonTag} (kinds : Kinds h v)
    (kind : v.kind a = some tag) : ∃ x, h.cells a = some x ∧ x.tag = code tag := by
  have eq := kinds a
  rw [kind, Option.map_some] at eq
  exact Option.map_eq_some_iff.mp eq

theorem Kinds.live {h : Heap (Node ν)} {a : Addr} (kinds : Kinds h v) (made : v.kind a ≠ none) :
    ∃ x, h.cells a = some x := by
  obtain ⟨tag, kind⟩ := Option.ne_none_iff_exists'.mp made
  obtain ⟨x, cell, -⟩ := kinds.cell kind
  exact ⟨x, cell⟩

/-! ### One call -/

namespace Represents

theorem parent_eq {x : Node ν} (rep : Represents m v) (root : v.forest.IsRoot c)
    (cell : m.nodes.cells c = some x) : x.parent = none :=
  (rep.linkage.isRoot_iff cell).mp root

/-- A node that is made. -/
theorem make {x : Node ν} {tag : JsonTag} {texts' : Heap Bytes} (rep : Represents m v)
    (alone : Alone x tag) (fresh : texts'.Fresh)
    (same : ∀ {d y a}, m.nodes.cells d = some y → y.key.value = some a →
      texts'.cells a = m.texts.cells a) :
    Represents ⟨m.nodes.push x, texts'⟩ (v.make m.nodes.brk tag) where
  kinds a := by
    have old := rep.kinds a
    simp only [Values.make, Heap.push]
    split_ifs with eq
    · subst eq
      rw [rep.linkage.fresh _ (Nat.le_refl _), Option.map_none, eq_comm,
        Option.map_eq_none_iff] at old
      rw [old, Option.map_some, alone.tag]
      rfl
    · rw [Option.or_none, old]
  linkage := rep.linkage.push alone
  naming := by
    have unnamed : v.name m.nodes.brk = none := v.unnamed rep.linkage.not_mem_brk
    exact (rep.naming.elsewhere fresh same).push alone.key unnamed

/-- The links of a node that gets a name and becomes the last child. -/
theorem appendNode_ok (kinds : Kinds m.nodes v) (linkage : Linkage m.nodes v.forest)
    (fit : v.Insertable p c label)
    (naming : Naming m fun b => if b = c then label else v.name b) :
    ∃ m', appendNode p c m = .ok ((), m') ∧ Represents m' (v.append p c label fit) := by
  have container : v.kind p ≠ none := by
    rcases fit.takes with ⟨kind, -⟩ | ⟨kind, -⟩ <;> rw [kind] <;> exact Option.some_ne_none _
  obtain ⟨x, cell⟩ := kinds.live container
  obtain ⟨y, new⟩ := kinds.live fit.made
  refine ⟨_, appendNode_eq cell new (linkage.points_tail cell), ?_, ?_, ?_⟩
  · exact kinds.adjust fun a z => by rw [appended_eq]
  · exact linkage.append fit.root fit.outside cell new (List.perm_append_singleton c _)
  · exact naming.adjust fun a z => by rw [appended_eq]

/-- The links of a node that gets a name and becomes the first child. -/
theorem prependNode_ok (kinds : Kinds m.nodes v) (linkage : Linkage m.nodes v.forest)
    (fit : v.Insertable p c label)
    (naming : Naming m fun b => if b = c then label else v.name b) :
    ∃ m', prependNode p c m = .ok ((), m') ∧ Represents m' (v.prepend p c label fit) := by
  have container : v.kind p ≠ none := by
    rcases fit.takes with ⟨kind, -⟩ | ⟨kind, -⟩ <;> rw [kind] <;> exact Option.some_ne_none _
  obtain ⟨x, cell⟩ := kinds.live container
  obtain ⟨y, new⟩ := kinds.live fit.made
  refine ⟨_, prependNode_eq cell new (linkage.points_head cell), ?_, ?_, ?_⟩
  · exact kinds.adjust fun a z => by rw [prepended_eq]
  · exact linkage.prepend fit.root fit.outside cell new (.refl _)
  · exact naming.adjust fun a z => by rw [prepended_eq]

/-- An element has no name before and after. -/
theorem unnamed (rep : Represents m v) (root : v.forest.IsRoot c) :
    Naming m fun b => if b = c then none else v.name b := by
  have same : (fun b => if b = c then none else v.name b) = v.name := by
    funext b
    split_ifs with eq
    · rw [eq, v.unnamed root]
    · rfl
  rw [same]
  exact rep.naming

/-- The node of a value that can be inserted, and the container. -/
theorem insertable_cells {kind : JsonTag} (rep : Represents m v) (fit : v.Insertable p c label)
    (container : v.kind p = some kind) :
    ∃ y, m.nodes.cells c = some y ∧ asserts kind p c m = .ok ((), m) := by
  obtain ⟨x, cell, tag⟩ := rep.kinds.cell container
  obtain ⟨y, new⟩ := rep.kinds.live fit.made
  exact ⟨y, new, asserts_eq cell tag new (rep.parent_eq fit.root new)⟩

theorem appendElement_ok (rep : Represents m v) (fit : v.Insertable p c none) :
    ∃ m', jsonAppendElement p c m = .ok ((), m') ∧ Represents m' (v.append p c none fit) := by
  have array : v.kind p = some .array := fit.takes.elim And.left fun object => absurd rfl object.2
  obtain ⟨y, new, passed⟩ := rep.insertable_cells fit array
  rw [jsonAppendElement, bind_of_ok passed]
  exact appendNode_ok rep.kinds rep.linkage fit (rep.unnamed fit.root)

theorem prependElement_ok (rep : Represents m v) (fit : v.Insertable p c none) :
    ∃ m', jsonPrependElement p c m = .ok ((), m') ∧ Represents m' (v.prepend p c none fit) := by
  have array : v.kind p = some .array := fit.takes.elim And.left fun object => absurd rfl object.2
  obtain ⟨y, new, passed⟩ := rep.insertable_cells fit array
  rw [jsonPrependElement, bind_of_ok passed]
  exact prependNode_ok rep.kinds rep.linkage fit (rep.unnamed fit.root)

/-- A key that is assigned leaves the kinds and the links alone. -/
theorem rekeyed (rep : Represents m v) (key : Property) :
    Kinds (m.nodes.adjust (only c fun x => { x with key := key })) v ∧
      Linkage (m.nodes.adjust (only c fun x => { x with key := key })) v.forest := by
  constructor
  · refine rep.kinds.adjust fun a y => ?_
    rw [only]
    split <;> rfl
  · refine rep.linkage.adjust fun a y => ?_
    rw [only]
    split <;> exact ⟨rfl, rfl, rfl, rfl, rfl⟩

variable {key : Property} {s : Bytes}

theorem appendMember_ok (rep : Represents m v) (given : Given m (Moves key) key s)
    (fit : v.Insertable p c (some s)) :
    ∃ m', jsonAppendMember p key c m = .ok ((), m') ∧
      Represents m' (v.append p c (some s) fit) := by
  have object : v.kind p = some .object := fit.takes.elim (fun array => nomatch array.2) And.left
  obtain ⟨y, new, passed⟩ := rep.insertable_cells fit object
  obtain ⟨key', src', texts', moved, kept⟩ := propertyMove_kept y.key given
  obtain ⟨kinds, linkage⟩ := rep.rekeyed (c := c) key'
  rw [jsonAppendMember, bind_of_ok passed, appendMember, bind_of_ok (onNodes_ok (read_eq new)),
    bind_of_ok (onTexts_ok moved)]
  dsimp only
  rw [bind_of_ok (setKey_eq new key' texts')]
  exact appendNode_ok kinds linkage fit (rep.naming.take given kept (only_key c key'))

theorem prependMember_ok (rep : Represents m v) (given : Given m (Borrows key) key s)
    (fit : v.Insertable p c (some s)) :
    ∃ m', jsonPrependMember p key c m = .ok ((), m') ∧
      Represents m' (v.prepend p c (some s) fit) := by
  have object : v.kind p = some .object := fit.takes.elim (fun array => nomatch array.2) And.left
  obtain ⟨y, new, passed⟩ := rep.insertable_cells fit object
  obtain ⟨key', texts', copied, kept⟩ := propertyCopy_kept given
  obtain ⟨kinds, linkage⟩ := rep.rekeyed (c := c) key'
  rw [jsonPrependMember, bind_of_ok passed, bind_of_ok (onTexts_ok copied),
    bind_of_ok (setKey_eq new key' texts')]
  exact prependNode_ok kinds linkage fit (rep.naming.take given kept (only_key c key'))

/-- The memory after a child is removed. -/
theorem removeChild_eq {x : Node ν} (rep : Represents m v) (child : c ∈ v.children p)
    (cell : m.nodes.cells c = some x) :
    jsonRemoveFromParent c m =
      .ok ((), ⟨m.nodes.adjust (removed p c x), released m.texts x.key⟩) := by
  have parent : x.parent = some p := (rep.linkage.parent cell p).mpr child
  obtain ⟨y, above⟩ := (rep.linkage.live child).2
  have before : Points m.nodes x.prev := fun a prev =>
    (rep.linkage.live (rep.linkage.prev_mem cell child prev)).1
  have after : Points m.nodes x.next := fun a next =>
    (rep.linkage.live (rep.linkage.next_mem cell child next)).1
  exact removeFromParent_eq cell parent above before after
    (propertyFree_eq (rep.naming.spells cell))

theorem removed_key (x : Node ν) (a : Addr) (y : Node ν) :
    (removed p c x a y).key = if a = c then .init else y.key := by
  rw [removed_eq]

theorem removeChild_represents {x : Node ν} (rep : Represents m v) (child : c ∈ v.children p)
    (cell : m.nodes.cells c = some x) :
    Represents ⟨m.nodes.adjust (removed p c x), released m.texts x.key⟩ (v.remove c) where
  kinds := Kinds.adjust (v := v) rep.kinds fun a y => by rw [removed_eq]
  linkage := rep.linkage.remove cell child
  naming := rep.naming.release cell (removed_key x)

/-- A root is removed from nothing. -/
theorem removeRoot_eq {x : Node ν} (rep : Represents m v) (root : v.forest.IsRoot c)
    (cell : m.nodes.cells c = some x) : jsonRemoveFromParent c m = .ok ((), m) := by
  rw [jsonRemoveFromParent, bind_of_ok (onNodes_ok (read_eq cell)), rep.parent_eq root cell]
  rfl

theorem removeRoot_represents (rep : Represents m v) (root : v.forest.IsRoot c) :
    Represents m (v.remove c) where
  kinds := rep.kinds
  linkage := by
    have same : (v.remove c).forest = v.forest := Forest.detach_root root
    rw [same]
    exact rep.linkage
  naming := rep.unnamed root

theorem remove_ok (rep : Represents m v) (made : v.kind c ≠ none) :
    ∃ m', jsonRemoveFromParent c m = .ok ((), m') ∧ Represents m' (v.remove c) := by
  obtain ⟨x, cell⟩ := rep.kinds.live made
  by_cases child : ∃ p, c ∈ v.children p
  · obtain ⟨p, child⟩ := child
    exact ⟨_, rep.removeChild_eq child cell, rep.removeChild_represents child cell⟩
  · have root : v.forest.IsRoot c := fun p mem => child ⟨p, mem⟩
    exact ⟨m, rep.removeRoot_eq root cell, rep.removeRoot_represents root⟩

end Represents

end

/-! ### Any number of calls -/

section Runs

variable {m : Memory ν} {v v' : Values Addr}

/-- The texts that `json_mkstring` may have made. -/
def Copied (texts texts' : Heap Bytes) : Prop := texts' = texts ∨ ∃ block, texts' = texts.push block

/-- The string is copied first. -/
theorem jsonStrdup_eq {s : Addr} {t : Bytes} (text : Text m.texts s t) :
    onTexts (ν := ν) (jsonStrdup s) m =
      .ok (m.texts.brk, { m with texts := m.texts.push (t ++ [0]) }) := by
  obtain ⟨plain, rest, cell⟩ := text
  exact onTexts_ok (strdup_eq cell plain)

/-- The texts of the keys are where they were. -/
theorem Represents.copied {texts' : Heap Bytes} (rep : Represents m v)
    (copied : Copied m.texts texts') : texts'.Fresh ∧
      ∀ {d y a}, m.nodes.cells d = some y → y.key.value = some a →
        texts'.cells a = m.texts.cells a := by
  rcases copied with rfl | ⟨block, rfl⟩
  · exact ⟨rep.naming.fresh, fun _ _ => rfl⟩
  · refine ⟨rep.naming.fresh.push block, fun {d y a} cell value => ?_⟩
    obtain ⟨old, live⟩ := rep.naming.value_live cell value
    exact (rep.naming.fresh.push_cells live block).trans live.symm

/-- The caller's texts are no keys. -/
theorem Represents.elsewhere {m' : Memory ν} (rep : Represents m v) (change : Elsewhere m m') :
    Represents m' v := by
  obtain ⟨nodes', texts'⟩ := m'
  obtain ⟨rfl, fresh, keys⟩ := change
  exact ⟨rep.kinds, rep.linkage, rep.naming.elsewhere fresh keys⟩

/-- The memory without nodes. -/
theorem represents_empty (none : ∀ a, m.nodes.cells a = none) (fresh : m.texts.Fresh) :
    Represents m .empty := by
  have no : ∀ {a x}, m.nodes.cells a ≠ some x := by
    intro a x cell
    cases (none a).symm.trans cell
  refine ⟨fun a => ?_, ?_, ?_⟩
  · rw [none a]
    rfl
  · exact ⟨fun a _ => none a, fun child => absurd child List.not_mem_nil,
      fun cell => absurd cell no, fun cell => absurd cell no, fun cell => absurd cell no⟩
  · exact ⟨fresh, fun cell => absurd cell no, fun cell => absurd cell no⟩

variable [Zero ν]

/-- A maker gives a new node, and may have copied a string. -/
theorem Maker.run_eq (maker : Maker ν) (readable : maker.Readable m.texts) :
    ∃ x texts', maker.run true m = .ok (some m.nodes.brk, ⟨m.nodes.push x, texts'⟩) ∧
      Alone x maker.tag ∧ Copied m.texts texts' := by
  cases maker with
  | null => exact ⟨_, _, mknode_eq _, alone_blank _, .inl rfl⟩
  | bool b => exact ⟨_, _, assign_eq _ _, ⟨rfl, rfl, rfl, rfl, rfl, rfl, rfl⟩, .inl rfl⟩
  | number n => exact ⟨_, _, assign_eq _ _, ⟨rfl, rfl, rfl, rfl, rfl, rfl, rfl⟩, .inl rfl⟩
  | array => exact ⟨_, _, mknode_eq _, alone_blank _, .inl rfl⟩
  | object => exact ⟨_, _, mknode_eq _, alone_blank _, .inl rfl⟩
  | string s =>
      obtain ⟨t, text⟩ := readable
      refine ⟨{ blank .string with string_ := some m.texts.brk }, _, ?_,
        ⟨rfl, rfl, rfl, rfl, rfl, rfl, rfl⟩, .inr ⟨t ++ [0], rfl⟩⟩
      exact (bind_of_ok (jsonStrdup_eq text)).trans (assign_eq .string _)

/-- Without room nothing is made. -/
theorem Maker.run_full (maker : Maker ν) (readable : maker.Readable m.texts) :
    ∃ texts', maker.run false m = .ok (none, ⟨m.nodes, texts'⟩) ∧ Copied m.texts texts' := by
  cases maker with
  | string s =>
      obtain ⟨t, text⟩ := readable
      exact ⟨_, bind_of_ok (jsonStrdup_eq text), .inr ⟨t ++ [0], rfl⟩⟩
  | _ => exact ⟨_, rfl, .inl rfl⟩

/-- A call does not fault, and the memory holds what becomes of the values. -/
theorem Represents.step {op : Op ν} (rep : Represents m v) (step : Step m v op v') :
    ∃ r m', op.run m = .ok (r, m') ∧ Represents m' v' := by
  cases step with
  | full maker readable =>
      obtain ⟨texts', run, copied⟩ := maker.run_full readable
      obtain ⟨fresh, same⟩ := rep.copied copied
      exact ⟨none, _, run, rep.elsewhere ⟨rfl, fresh, same⟩⟩
  | make maker readable =>
      obtain ⟨x, texts', run, alone, copied⟩ := maker.run_eq readable
      obtain ⟨fresh, same⟩ := rep.copied copied
      exact ⟨_, _, run, rep.make alone fresh same⟩
  | appendElement fit =>
      obtain ⟨m', run, rep'⟩ := rep.appendElement_ok fit
      exact ⟨none, m', bind_of_ok run, rep'⟩
  | prependElement fit =>
      obtain ⟨m', run, rep'⟩ := rep.prependElement_ok fit
      exact ⟨none, m', bind_of_ok run, rep'⟩
  | appendMember given fit =>
      obtain ⟨m', run, rep'⟩ := rep.appendMember_ok given fit
      exact ⟨none, m', bind_of_ok run, rep'⟩
  | prependMember given fit =>
      obtain ⟨m', run, rep'⟩ := rep.prependMember_ok given fit
      exact ⟨none, m', bind_of_ok run, rep'⟩
  | remove made =>
      obtain ⟨m', run, rep'⟩ := rep.remove_ok made
      exact ⟨none, m', bind_of_ok run, rep'⟩

/-- The invariant of all runs. -/
theorem represents_of_reached (reached : Reached m v) : Represents m v := by
  induction reached with
  | start none fresh => exact represents_empty none fresh
  | other _ change ih => exact ih.elsewhere change
  | step _ step run ih =>
      obtain ⟨r, m', run', rep⟩ := ih.step step
      cases run.symm.trans run'
      exact rep

end Runs

/-! ### Search -/

section Search

variable {m : Memory ν} {v : Values Addr}

/-- Children are no more than there are nodes. -/
theorem Represents.length_lt (rep : Represents m v) (p : Addr) :
    (v.children p).length < m.nodes.brk + 2 := by
  have live : ∀ c ∈ v.children p, c < m.nodes.brk := by
    intro c child
    obtain ⟨x, cell⟩ := (rep.linkage.live child).1
    exact rep.linkage.fresh.lt cell
  have short : (v.children p).length ≤ m.nodes.brk := length_le_of_nodup (v.forest.nodup p) live
  exact Nat.lt_of_le_of_lt short (Nat.lt_add_of_pos_right (by decide))

/-- The first child of a container. -/
theorem Represents.firstChild_eq {p : Addr} {x : Node ν} (cell : m.nodes.cells p = some x)
    (tag : x.tag = code .array ∨ x.tag = code .object) :
    jsonFirstChild (some p) m = .ok (x.head, m) := by
  rw [jsonFirstChild, bind_of_ok (onNodes_ok (read_eq cell)), if_pos tag]
  rfl

/-- The walk over named nodes finds the first one of the name. -/
theorem findMemberFrom_eq {name : Property} {t : Bytes} {a : Addr} {names : Addr → Option Bytes}
    (value : name.value = some a) (text : Text m.texts a t) {as : List Addr} :
    ∀ {start : Option Addr} {fuel : Nat}, Walk (links m.nodes).next start as →
      (∀ c ∈ as, ∃ x s, m.nodes.cells c = some x ∧ names c = some s ∧
        Spells m.texts x.key (some s)) → as.length < fuel →
      findMemberFrom name fuel start m = .ok (as.find? fun c => names c == some t, m) := by
  induction as with
  | nil =>
      rintro start fuel rfl _ enough
      obtain ⟨fuel, rfl⟩ := Nat.exists_eq_succ_of_ne_zero (Nat.ne_zero_of_lt enough)
      rfl
  | cons c as ih =>
      rintro start fuel ⟨rfl, walk⟩ named enough
      obtain ⟨fuel, rfl⟩ := Nat.exists_eq_succ_of_ne_zero (Nat.ne_zero_of_lt enough)
      obtain ⟨x, s, cell, name_c, spells⟩ := named c List.mem_cons_self
      have compared := onTexts_ok (ν := ν) (propertyCmp_eq spells value text)
      have next : (links m.nodes).next c = x.next := pointer_eq cell Node.next
      rw [next] at walk
      have rest := ih walk (fun d mem => named d (List.mem_cons_of_mem c mem))
        (Nat.lt_of_succ_lt_succ enough)
      rw [findMemberFrom, bind_of_ok (onNodes_ok (read_eq cell)), bind_of_ok compared]
      by_cases same : s = t
      · rw [if_pos same, if_pos rfl,
          List.find?_cons_of_pos (by rw [name_c, same, beq_self_eq_true])]
        rfl
      · rw [if_neg same, if_neg (by decide), List.find?_cons_of_neg (by simp [name_c, same])]
        exact rest

/-- `json_find_member` finds the first member of the name. -/
theorem Represents.findMember_eq (rep : Represents m v) {o : Option Addr} {name : Property}
    {t : Bytes} {a : Addr} (made : ∀ p, o = some p → v.kind p ≠ none)
    (value : name.value = some a) (text : Text m.texts a t) :
    jsonFindMember o name m = .ok (o.bind fun p => v.find p t, m) := by
  cases o with
  | none => rfl
  | some p =>
      obtain ⟨k, kind⟩ := Option.ne_none_iff_exists'.mp (made p rfl)
      obtain ⟨x, cell, tag⟩ := rep.kinds.cell kind
      rw [jsonFindMember, bind_of_ok (onNodes_ok (read_eq cell)), Option.bind_some,
        Values.find, kind]
      by_cases object : k = .object
      · subst object
        have walk := (rep.linkage.children cell).forth
        have named : ∀ c ∈ v.children p, ∃ x s, m.nodes.cells c = some x ∧ v.name c = some s ∧
            Spells m.texts x.key (some s) := by
          intro c child
          obtain ⟨y, cell_c⟩ := (rep.linkage.live child).1
          have spells := rep.naming.spells cell_c
          rcases v.named child with ⟨array, -⟩ | ⟨-, some_name⟩
          · cases kind.symm.trans array
          · obtain ⟨s, name_c⟩ := Option.ne_none_iff_exists'.mp some_name
            rw [name_c] at spells
            exact ⟨y, s, cell_c, name_c, spells⟩
        rw [if_neg (fun other => other tag), bind_of_ok (onNodes_ok (bound_apply m.nodes)),
          bind_of_ok (firstChild_eq cell (.inr tag)), if_pos rfl]
        exact findMemberFrom_eq value text walk named (rep.length_lt p)
      · have other : x.tag ≠ code .object := fun eq => object (code_injective (tag.symm.trans eq))
        have other_kind : some k ≠ some JsonTag.object := fun eq => object (Option.some.inj eq)
        rw [if_pos other, if_neg other_kind]
        rfl

/-- The walk to an index. -/
theorem findElementFrom_eq (index : Int) {as : List Addr} :
    ∀ {start : Option Addr} {fuel : Nat} (i : Nat), Walk (links m.nodes).next start as →
      (∀ c ∈ as, ∃ x, m.nodes.cells c = some x) → as.length < fuel →
      findElementFrom index fuel i start m =
        .ok (if (i : Int) ≤ index then as[(index - i).toNat]? else none, m) := by
  induction as with
  | nil =>
      rintro start fuel i rfl _ enough
      obtain ⟨fuel, rfl⟩ := Nat.exists_eq_succ_of_ne_zero (Nat.ne_zero_of_lt enough)
      simp [findElementFrom]
  | cons c as ih =>
      rintro start fuel i ⟨rfl, walk⟩ live enough
      obtain ⟨fuel, rfl⟩ := Nat.exists_eq_succ_of_ne_zero (Nat.ne_zero_of_lt enough)
      obtain ⟨x, cell⟩ := live c List.mem_cons_self
      have next : (links m.nodes).next c = x.next := pointer_eq cell Node.next
      rw [next] at walk
      have rest := ih (i + 1) walk (fun d mem => live d (List.mem_cons_of_mem c mem))
        (Nat.lt_of_succ_lt_succ enough)
      rw [findElementFrom]
      by_cases here : (i : Int) = index
      · simp [here]
      · rw [if_neg here, bind_of_ok (onNodes_ok (read_eq cell)), rest]
        by_cases before : (i : Int) ≤ index
        · have later : ((i + 1 : Nat) : Int) ≤ index := by omega
          have place : (index - i).toNat = (index - (i + 1 : Nat)).toNat + 1 := by omega
          rw [if_pos before, if_pos later, place, List.getElem?_cons_succ]
        · have never : ¬ ((i + 1 : Nat) : Int) ≤ index := by omega
          rw [if_neg before, if_neg never]

/-- `json_find_element` finds the element at the index. -/
theorem Represents.findElement_eq (rep : Represents m v) {o : Option Addr} (index : Int)
    (made : ∀ p, o = some p → v.kind p ≠ none) :
    jsonFindElement o index m = .ok (o.bind fun p => v.element p index, m) := by
  cases o with
  | none => rfl
  | some p =>
      obtain ⟨k, kind⟩ := Option.ne_none_iff_exists'.mp (made p rfl)
      obtain ⟨x, cell, tag⟩ := rep.kinds.cell kind
      rw [jsonFindElement, bind_of_ok (onNodes_ok (read_eq cell)), Option.bind_some, Values.element,
        kind]
      by_cases array : k = .array
      · subst array
        have walk := (rep.linkage.children cell).forth
        have found := findElementFrom_eq index 0 walk
          (fun c child => (rep.linkage.live child).1) (rep.length_lt p)
        rw [if_neg (fun other => other tag), bind_of_ok (onNodes_ok (bound_apply m.nodes)),
          bind_of_ok (firstChild_eq cell (.inl tag)), found]
        simp
      · have other : x.tag ≠ code .array := fun eq => array (code_injective (tag.symm.trans eq))
        have other_kind : some k ≠ some JsonTag.array := fun eq => array (Option.some.inj eq)
        rw [if_pos other, if_neg fun both => other_kind both.1]
        rfl

end Search

/-! ### Every state that is reached -/

/-- The children of every node are the list from its head to its tail, and point to it. -/
def ChildLists (h : Heap (Node ν)) (children : Addr → List Addr) : Prop :=
  ∀ p x, h.cells p = some x → Enumerates (links h) x.head x.tail (children p) ∧
    ∀ c ∈ children p, pointer h Node.parent c = some p

theorem Represents.childLists {m : Memory ν} {v : Values Addr} (rep : Represents m v) :
    ChildLists m.nodes v.children := by
  intro p x cell
  refine ⟨rep.linkage.children cell, fun c child => ?_⟩
  obtain ⟨y, cell_c⟩ := (rep.linkage.live child).1
  rw [pointer_eq cell_c]
  exact (rep.linkage.parent cell_c p).mpr child

/-- Nodes that lie inside a removed one stay as they are. -/
theorem Represents.removed_inside {m : Memory ν} {v : Values Addr} {p c d : Addr} {x : Node ν}
    (rep : Represents m v) (child : c ∈ v.children p) (cell : m.nodes.cells c = some x)
    (inside : v.forest.Inside d c) (below : d ≠ c) :
    (m.nodes.adjust (removed p c x)).cells d = m.nodes.cells d := by
  have not_parent : d ≠ p := by
    rintro rfl
    exact Forest.not_inside_child child inside
  have not_sibling : d ∉ v.children p := Forest.not_sibling_of_inside child inside below
  have not_prev : x.prev ≠ some d := fun prev =>
    not_sibling (rep.linkage.prev_mem cell child prev)
  have not_next : x.next ≠ some d := fun next =>
    not_sibling (rep.linkage.next_mem cell child next)
  have idle : removed p c x d = id := by
    funext y
    rw [removed_eq]
    simp only [below, not_parent, not_prev, not_next, and_false, if_false, id_eq]
  rw [adjust_cells, idle, Option.map_id_fun, id_eq]

/-- In every state that is reached by making, inserting and removing nodes, the links are the
lists of children, no call faults, a removed node is a root with its tree as it was, and members
are found by their names. -/
theorem reached_tree [Zero ν] {m : Memory ν} {v : Values Addr} (reached : Reached m v) :
    ChildLists m.nodes v.children ∧
    (∀ op v', Step m v op v' → ∃ r m', op.run m = .ok (r, m') ∧ Reached m' v') ∧
    (∀ c p x, c ∈ v.children p → m.nodes.cells c = some x →
      ∃ m', jsonRemoveFromParent c m = .ok ((), m') ∧
        m'.nodes.cells c =
          some { x with parent := none, prev := none, next := none, key := .init } ∧
        (∀ d, v.forest.Inside d c → d ≠ c → m'.nodes.cells d = m.nodes.cells d) ∧
        ChildLists m'.nodes (fun q => (v.children q).erase c) ∧
        ∀ d y, d ≠ c → m'.nodes.cells d = some y → Spells m'.texts y.key (v.name d)) ∧
    ∀ o name a t, (∀ p, o = some p → v.kind p ≠ none) → name.value = some a → Text m.texts a t →
      jsonFindMember o name m = .ok (o.bind fun p => v.find p t, m) := by
  have rep := represents_of_reached reached
  refine ⟨rep.childLists, ?_, ?_, ?_⟩
  · intro op v' step
    obtain ⟨r, m', run, -⟩ := rep.step step
    exact ⟨r, m', run, reached.step step run⟩
  · intro c p x child cell
    have rep' := rep.removeChild_represents child cell
    refine ⟨_, rep.removeChild_eq child cell, ?_, ?_, rep'.childLists, ?_⟩
    · have ne : c ≠ p := Forest.child_ne child
      rw [adjust_live cell, removed_eq]
      simp only [ne, and_false, if_true, if_false]
    · exact fun d inside below => rep.removed_inside child cell inside below
    · intro d y ne cell_d
      have named : (v.remove c).name d = v.name d := if_neg ne
      rw [← named]
      exact rep'.naming.spells cell_d
  · exact fun o name a t made value text => rep.findMember_eq made value text

/-- An object at 0 and nulls at 1 and 2, with texts for two keys. -/
def objectAndNulls : Memory Nat where
  nodes := ((Heap.push ⟨fun _ => none, 0⟩ (blank .object)).push (blank .null)).push (blank .null)
  texts := ⟨fun a => if a = 0 then some [0x61, 0] else if a = 1 then some [0x62, 0] else none, 2⟩

def objectAndNullsValues : Values Addr :=
  ((Values.empty.make 0 .object).make 1 .null).make 2 .null

theorem reached_objectAndNulls : Reached objectAndNulls objectAndNullsValues := by
  have fresh : objectAndNulls.texts.Fresh := by
    intro a (beyond : 2 ≤ a)
    have first : a ≠ 0 := by omega
    have second : a ≠ 1 := by omega
    simp [objectAndNulls, first, second]
  have start : Reached (ν := Nat) ⟨⟨fun _ => none, 0⟩, objectAndNulls.texts⟩ .empty :=
    .start (fun _ => rfl) fresh
  have object := start.step (.make .object trivial) rfl
  have null := object.step (.make .null trivial) rfl
  exact null.step (.make .null trivial) rfl

theorem objectAndNulls_insertable : objectAndNullsValues.Insertable 0 1 (some [0x61]) := by
  refine ⟨.inr ⟨rfl, nofun⟩, nofun, fun p child => (nomatch child), fun inside => ?_⟩
  rcases Relation.ReflTransGen.cases_head inside with eq | ⟨q, step, -⟩
  · cases eq
  · cases step

theorem objectAndNulls_insertable_second :
    (objectAndNullsValues.append 0 1 (some [0x61]) objectAndNulls_insertable).Insertable 0 2
      (some [0x62]) := by
  have only : ∀ {c p}, c ∈ (objectAndNullsValues.append 0 1 (some [0x61])
      objectAndNulls_insertable).children p → c = 1 := by
    intro c p child
    rcases (Forest.mem_attached (List.perm_append_singleton 1 _)).mp child with old | ⟨eq, -⟩
    · cases old
    · exact eq
  refine ⟨.inr ⟨rfl, nofun⟩, nofun, fun p child => ?_, fun inside => ?_⟩
  · cases only child
  · rcases Relation.ReflTransGen.cases_head inside with eq | ⟨q, step, -⟩
    · cases eq
    · cases only step

/-- `{"a":null,"b":null}`, made with keys on the stack, from which `a` is removed. -/
theorem reached_tree_members : ∃ (m m' : Memory Nat) (v : Values Addr) (x : Node Nat),
    v.children 0 = [1, 2] ∧ v.name 1 = some [0x61] ∧ v.name 2 = some [0x62] ∧
    ChildLists m.nodes v.children ∧
    jsonFindMember (some 0) (.stack 1 1) m = .ok (some 2, m) ∧
    jsonRemoveFromParent 1 m = .ok ((), m') ∧
    m'.nodes.cells 1 = some { x with parent := none, prev := none, next := none, key := .init } ∧
    ChildLists m'.nodes fun q => (v.children q).erase 1 := by
  have spelled : ∀ {m : Memory Nat} {a c}, m.texts.cells a = some [c, 0] → c ≠ 0 →
      Given m (Moves (.stack a 1)) (.stack a 1) [c] := fun cell plain =>
    ⟨.inr (.inr (.inl rfl)), ⟨rfl, _, rfl, fun mem => plain (List.mem_singleton.mp mem).symm, [],
      cell⟩, fun moves => absurd rfl moves, fun moves => absurd rfl moves⟩
  have one := reached_objectAndNulls.step
    (.appendMember (spelled (a := 0) rfl (by decide)) objectAndNulls_insertable) rfl
  have two := one.step
    (.appendMember (spelled (a := 1) rfl (by decide)) objectAndNulls_insertable_second) rfl
  obtain ⟨lists, -, removal, find⟩ := reached_tree two
  obtain ⟨m', run, alone, -, rest, -⟩ := removal 1 0 _ (.head _) rfl
  have found := find (some 0) (.stack 1 1) 1 [0x62] (by rintro p ⟨⟩; nofun) rfl
    ⟨by decide, [], rfl⟩
  exact ⟨_, m', _, _, rfl, rfl, rfl, lists, found, run, alone, rest⟩

end AcnSdk.Json.Pointers

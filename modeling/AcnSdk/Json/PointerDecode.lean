/-
The nodes that `json_decode` of `src/json/json.c` makes.

The parser makes a container before its children and the text of a key before the value, and
appends each child when it is read. All nodes of a child lie behind those that were there
before it.

* `Built.link` — a child that is appended becomes a part of its container.
* `makeTree_built` — the nodes that are made hold the tree.
-/

import AcnSdk.Json.PointerTrees

namespace AcnSdk.Json.Pointers

open AcnSdk.Lib Prog Heap Data

variable {ν : Type}

/-! ### Making nodes -/

/-- `p_json`, with what `strlen` says of the value. -/
def pJson (x : Addr) (len : Nat) : Property := ⟨some x, jsonTag, false, true, len % 2 ^ 16⟩

/-- The text that `parse_string` makes. -/
def makeText (s : Bytes) : JsonM ν Addr := onTexts (alloc (s ++ [0]))

/-- A node that is not NULL. -/
def present (node : Option Addr) : JsonM ν Addr :=
  match node with
  | some a => return a
  | none => throw .nullPointer

section

variable [Zero ν]

/-- The node that `parse_value` makes for a value without children. -/
def makeScalar : Scalar ν → JsonM ν (Option Addr)
  | .null => jsonMknull true
  | .bool b => jsonMkbool true b
  | .string s => do mkstring true (← makeText s)
  | .number n => jsonMknumber true n

/-- The node that `parse_array` and `parse_object` begin with. -/
def makeContainer : Container → JsonM ν (Option Addr)
  | .array => jsonMkarray true
  | .object => jsonMkobject true

/-- A round of `parse_array` or `parse_object`, with what `parse_value` does in it. -/
def makeChild (kind : Container) (ret : Addr) (key : Option Bytes) (value : JsonM ν Addr) :
    JsonM ν Unit :=
  match kind, key with
  | .array, _ => do jsonAppendElement ret (← value)
  | .object, some key => do
      let text ← makeText key
      appendMember ret (pJson text key.length) (← value)
  | .object, none => throw .nullPointer

mutual

/-- The nodes that `parse_value` makes for what it reads. -/
def makeTree : JsonNode ν → JsonM ν Addr
  | .scalar _ value => do present (← makeScalar value)
  | .container _ kind children => do
      let ret ← present (← makeContainer kind)
      makeChildren kind ret children
      return ret

def makeChildren (kind : Container) (ret : Addr) : List (JsonNode ν) → JsonM ν Unit
  | [] => return ()
  | c :: cs => do
      makeChild kind ret c.key (makeTree c)
      makeChildren kind ret cs

end

/-- `json_decode`, with the nodes that it makes where it reads a tree. -/
def jsonDecodeNodes (libc : Libc ν) (s : Bytes) : JsonM ν (Option Addr) :=
  match jsonDecode libc s with
  | some tree => do return some (← makeTree tree)
  | none => return none

end

/-! ### Memory that grows -/

/-- The memory holds what it held before, and more. -/
structure Grown (m m' : Memory ν) : Prop where
  nodes : m'.nodes.Fresh
  texts : m'.texts.Fresh
  node : ∀ b x, m.nodes.cells b = some x → m'.nodes.cells b = some x
  text : KeepsTexts m.texts m'.texts

theorem Grown.trans {m m₁ m₂ : Memory ν} (first : Grown m m₁) (second : Grown m₁ m₂) :
    Grown m m₂ where
  nodes := second.nodes
  texts := second.texts
  node b x cell := second.node b x (first.node b x cell)
  text b u cell := second.text b u (first.text b u cell)

theorem Grown.push {m : Memory ν} (nodes : m.nodes.Fresh) (texts : m.texts.Fresh) (x : Node ν) :
    Grown m { m with nodes := m.nodes.push x } where
  nodes := nodes.push x
  texts := texts
  node _ _ cell := nodes.push_cells cell x
  text _ _ cell := cell

theorem Grown.pushText {m : Memory ν} (nodes : m.nodes.Fresh) (texts : m.texts.Fresh) (s : Bytes) :
    Grown m { m with texts := m.texts.push s } where
  nodes := nodes
  texts := texts.push s
  node _ _ cell := cell
  text _ _ cell := texts.push_cells cell s

/-- The tree was made, without a key, behind what was there. -/
structure Built (m m' : Memory ν) (tree : JsonNode ν) : Prop extends Grown m m' where
  loose : pointer m'.nodes Node.parent m.nodes.brk = none
  holds : Holds m' (m.nodes.brk < ·) m.nodes.brk (tree.withKey none)

section

variable {m m₁ : Memory ν} {kind : Container} {done : List (JsonNode ν)}

/-- What was made stays there while other nodes are made. -/
theorem Built.grown {tree : JsonNode ν} (built : Built m m₁ tree) {m₂ : Memory ν}
    (grown : Grown m₁ m₂) : Built m m₂ tree where
  toGrown := built.toGrown.trans grown
  loose := by
    obtain ⟨x, cell, -⟩ := built.holds.cell
    rw [pointer_eq (grown.node _ _ cell) Node.parent, ← pointer_eq cell Node.parent, built.loose]
  holds := by
    have framed : Holds m₂ (m.nodes.brk < ·) m.nodes.brk ((tree.withKey none).withKey none) := by
      refine built.holds.frame (fun x cell => ?_) (fun b x _ cell => grown.node b x cell) grown.text
      obtain ⟨y, cell', named⟩ := built.holds.cell
      cases cell.symm.trans cell'
      rw [key_withKey] at named
      exact ⟨x, grown.node _ _ cell, .refl x, grown.text.spells named⟩
    rwa [withKey_withKey] at framed

/-! ### Appending a child -/

/-- `append_node` leaves the keys and, but for the parent, the values alone. -/
theorem appended_same {p c : Addr} (x : Node ν) {a : Addr} (other : a ≠ p) (y : Node ν) :
    SameValue y (appended p c x a y) := by
  rw [appended_eq]
  exact ⟨rfl, rfl, rfl, rfl, if_neg fun both => other both.2, if_neg other⟩

theorem appended_key (p c : Addr) (x : Node ν) (a : Addr) (y : Node ν) :
    (appended p c x a y).key = y.key := by
  rw [appended_eq]

/-- It leaves alone what is not the parent, the child or its new neighbour. -/
theorem appended_other {h : Heap (Node ν)} {p c : Addr} {x : Node ν} {a : Addr} {y : Node ν}
    (cell : h.cells a = some y) (parent : a ≠ p) (child : a ≠ c) (last : x.tail ≠ some a) :
    (h.adjust (appended p c x)).cells a = some y := by
  rw [adjust_live cell, appended_eq, if_neg child, if_neg child, if_neg last, if_neg child,
    if_neg fun both => parent both.2, if_neg parent]

/-- Where a child and what is below it stay when another one is appended behind it. -/
theorem Holds.sibling {m₂ : Memory ν} {p c a : Addr} {x : Node ν} {t : JsonNode ν}
    (holds : Holds m₁ (p < ·) a t) (after : p < a)
    (before : ∀ b y, m₁.nodes.cells b = some y → b < c) (grown : Grown m₁ m₂)
    (last : ∀ b, x.tail = some b → pointer m₁.nodes Node.parent b = some p) :
    Holds { m₂ with nodes := m₂.nodes.adjust (appended p c x) } (p < ·) a t := by
  -- what lies below a child has another parent than the child
  have narrowed : Holds m₁ (fun b => p < b ∧ pointer m₁.nodes Node.parent b ≠ some p) a t := by
    refine holds.narrow fun b q mem above points => ⟨mem, fun eq => ?_⟩
    have same : q = p := Option.some.inj (points.symm.trans eq)
    rw [same] at above
    exact above.elim (Nat.ne_of_lt after) (Nat.lt_irrefl p)
  rw [← withKey_key t]
  refine (narrowed.frame (fun y cell => ?_) (fun b y mem cell => ?_) ?_).narrow
    fun b _ mem _ _ => mem.1
  · obtain ⟨z, cell_z, named⟩ := holds.cell
    cases cell.symm.trans cell_z
    refine ⟨_, adjust_live (grown.node a y cell), appended_same x (Nat.ne_of_gt after) y, ?_⟩
    rw [appended_key]
    exact grown.text.spells named
  · refine appended_other (grown.node b y cell) (Nat.ne_of_gt mem.1)
      (Nat.ne_of_lt (before b y cell)) fun tail => ?_
    exact mem.2 (last b tail)
  · exact grown.text

/-- A child that is appended becomes a part of its container. -/
theorem Holds.append {m₂ : Memory ν} {p c : Addr} {x : Node ν} {key : Option Bytes}
    {t : JsonNode ν} (holds : Holds m₁ (p < ·) p (.container key kind done))
    (cell : m₁.nodes.cells p = some x)
    (before : ∀ b y, m₁.nodes.cells b = some y → b < c) (grown : Grown m₁ m₂)
    (new : Holds m₂ (c < ·) c t) :
    Holds { m₂ with nodes := m₂.nodes.adjust (appended p c x) } (p < ·) p
      (.container key kind (done ++ [t])) := by
  have after : p < c := before p x cell
  obtain ⟨y, cell_c, named_c⟩ := new.cell
  cases holds with
  | @container _ z _ _ cs _ cell' named tag list parent inside length below =>
      cases cell.symm.trans cell'
      have live : ∀ b ∈ cs, ∃ z, m₁.nodes.cells b = some z := fun b mem =>
        (Option.bind_eq_some_iff.mp (parent b mem)).imp fun _ both => both.1
      have apart : c ∉ cs := fun mem => by
        obtain ⟨z, cell_z⟩ := live c mem
        exact Nat.lt_irrefl c (before c z cell_z)
      have pointers : ∀ b ∈ cs, ∀ field : Node ν → Option Addr,
          pointer m₂.nodes field b = pointer m₁.nodes field b := by
        intro b mem field
        obtain ⟨z, cell_z⟩ := live b mem
        rw [pointer_eq cell_z, pointer_eq (grown.node b z cell_z)]
      have list₂ : Enumerates (links m₂.nodes) x.head x.tail cs :=
        list.congr fun b mem => ⟨pointers b mem Node.next, pointers b mem Node.prev⟩
      have last : ∀ b, x.tail = some b → b ∈ cs := fun b eq =>
        List.mem_of_getLast? (list.tail_eq.symm.trans eq)
      refine .container (adjust_live (grown.node p x cell)) ?_ ?_
        (enumerates_appended list₂ ⟨y, cell_c⟩ ?_ apart) ?_ ?_ ?_ ?_
      · rw [appended_key]
        exact grown.text.spells named
      · rw [appended_eq]
        exact tag
      · intro b mem
        obtain ⟨z, cell_z⟩ := live b mem
        exact ⟨z, grown.node b z cell_z⟩
      · intro b mem
        rcases List.mem_append.mp mem with old | eq
        · refine (pointer_adjust_same fun z => ?_).trans ((pointers b old Node.parent).trans
            (parent b old))
          rw [appended_eq]
          exact if_neg fun (eq : b = c) => apart (eq ▸ old)
        · cases List.mem_singleton.mp eq
          refine pointer_adjust_set ⟨y, cell_c⟩ fun z => ?_
          rw [appended_eq]
          exact if_pos rfl
      · exact List.forall_mem_append.mpr ⟨inside, List.forall_mem_singleton.mpr after⟩
      · rw [List.length_append, List.length_append, length]
        rfl
      · rw [List.zip_append length]
        refine List.forall_mem_append.mpr ⟨fun q mem => ?_, List.forall_mem_singleton.mpr ?_⟩
        · obtain ⟨mem_c, -⟩ := List.of_mem_zip mem
          exact (below q mem).sibling (inside q.1 mem_c) before grown
            fun b eq => parent b (last b eq)
        · rw [← withKey_key t]
          refine (new.frame (fun z cell_z => ?_) (fun b z mem cell_z => ?_) ?_).narrow
            fun b _ mem _ _ => Nat.lt_trans after mem
          · cases cell_c.symm.trans cell_z
            refine ⟨_, adjust_live cell_c, appended_same x (Nat.ne_of_gt after) y, ?_⟩
            rw [appended_key]
            exact named_c
          · refine appended_other cell_z (Nat.ne_of_gt (Nat.lt_trans after mem))
              (Nat.ne_of_gt mem) fun eq => ?_
            obtain ⟨w, cell_w⟩ := live b (last b eq)
            exact Nat.lt_asymm mem (before b w cell_w)
          · exact fun _ _ text => text

/-- The last child lies below its container. -/
theorem Holds.tail_inside {region : Addr → Prop} {a b : Addr} {x : Node ν} {key : Option Bytes}
    (holds : Holds m₁ region a (.container key kind done)) (cell : m₁.nodes.cells a = some x)
    (last : x.tail = some b) : region b ∧ ∃ y, m₁.nodes.cells b = some y := by
  cases holds with
  | container cell' _ _ list parent inside _ _ =>
      cases cell.symm.trans cell'
      have mem := List.mem_of_getLast? (list.tail_eq.symm.trans last)
      obtain ⟨y, cell_b, -⟩ := Option.bind_eq_some_iff.mp (parent b mem)
      exact ⟨inside b mem, y, cell_b⟩

theorem Built.link {m₂ : Memory ν} {t : JsonNode ν} (fresh : m.nodes.Fresh)
    (built : Built m m₁ (.container none kind done)) (grown : Grown m₁ m₂)
    (holds : Holds m₂ (m₁.nodes.brk < ·) m₁.nodes.brk t) :
    ∃ m₃, appendNode m.nodes.brk m₁.nodes.brk m₂ = .ok ((), m₃) ∧
      Built m m₃ (.container none kind (done ++ [t])) := by
  have container : Holds m₁ (m.nodes.brk < ·) m.nodes.brk (.container none kind done) := built.holds
  obtain ⟨x, cell, -⟩ := container.cell
  obtain ⟨y, cell_c, -⟩ := holds.cell
  have before : ∀ b z, m₁.nodes.cells b = some z → b < m₁.nodes.brk := fun b z cell =>
    built.nodes.lt cell
  have last : Points m₂.nodes x.tail := fun b eq => by
    obtain ⟨-, z, cell_b⟩ := container.tail_inside cell eq
    exact ⟨z, grown.node b z cell_b⟩
  refine ⟨_, appendNode_eq (grown.node _ x cell) cell_c last, ⟨?_, grown.texts, ?_, ?_⟩, ?_, ?_⟩
  · exact grown.nodes.adjust _
  · intro b z cell_b
    have old : b < m.nodes.brk := fresh.lt cell_b
    refine appended_other (grown.node b z (built.node b z cell_b)) (Nat.ne_of_lt old)
      (Nat.ne_of_lt (Nat.lt_trans old (before _ x cell))) fun eq => ?_
    exact Nat.lt_asymm old (container.tail_inside cell eq).1
  · exact fun b u text => grown.text b u (built.text b u text)
  · have other : m.nodes.brk ≠ m₁.nodes.brk := Nat.ne_of_lt (before _ x cell)
    rw [pointer_adjust_same fun z => by rw [appended_eq]; exact if_neg other]
    exact (built.grown grown).loose
  · exact container.append cell before grown holds

theorem withKey_none {t : JsonNode ν} (bare : t.key = none) : t.withKey none = t := by
  rw [← bare, withKey_key]

/-- The key of a member is assigned before it is appended. -/
theorem Built.named {t : JsonNode ν} {k : Bytes} {text : Addr} (built : Built m m₁ t)
    (named : t.key = some k) (fresh : m.nodes.Fresh) (spelled : Text m₁.texts text k)
    (length : Nat) :
    ∃ y, m₁.nodes.cells m.nodes.brk = some y ∧
      Grown m ⟨m₁.nodes.adjust (only m.nodes.brk fun x => { x with key := pJson text length }),
        m₁.texts⟩ ∧
      Holds ⟨m₁.nodes.adjust (only m.nodes.brk fun x => { x with key := pJson text length }),
        m₁.texts⟩ (m.nodes.brk < ·) m.nodes.brk t := by
  obtain ⟨y, cell, -⟩ := built.holds.cell
  have other : ∀ b z, b ≠ m.nodes.brk → m₁.nodes.cells b = some z → (m₁.nodes.adjust
      (only m.nodes.brk fun x => { x with key := pJson text length })).cells b = some z := by
    intro b z ne cell_b
    rw [adjust_live cell_b, only, if_neg ne]
  refine ⟨y, cell, ⟨built.nodes.adjust _, built.texts, fun b z cell_b => ?_, built.text⟩, ?_⟩
  · exact other b z (Nat.ne_of_lt (fresh.lt cell_b)) (built.node b z cell_b)
  · rw [← withKey_key t, named, ← withKey_withKey none]
    refine built.holds.frame (fun z cell_z => ?_) (fun b z mem cell_b => ?_) fun _ _ text => text
    · cases cell.symm.trans cell_z
      refine ⟨_, adjust_live cell, ?_, ?_⟩
      · rw [only, if_pos rfl]
        exact ⟨rfl, rfl, rfl, rfl, rfl, rfl⟩
      · rw [only_key, if_pos rfl]
        exact ⟨rfl, text, rfl, spelled⟩
    · exact other b z (Nat.ne_of_gt mem) cell_b

/-! ### Making a tree -/

section

variable [Zero ν]

/-- What is to be shown of a tree, for its children first. -/
def Makes (t : JsonNode ν) : Prop :=
  ∀ m : Memory ν, m.nodes.Fresh → m.texts.Fresh →
    ∃ m', makeTree t m = .ok (m.nodes.brk, m') ∧ Built m m' t

/-- One round of the loops. -/
theorem makeChild_built {t : JsonNode ν} (fresh : m.nodes.Fresh)
    (built : Built m m₁ (.container none kind done)) (decoded : Decoded t)
    (keyed : JsonNode.childrenKeyed (.container none kind [t]) = true) (makes : Makes t) :
    ∃ m₂, makeChild kind m.nodes.brk t.key (makeTree t) m₁ = .ok ((), m₂) ∧
      Built m m₂ (.container none kind (done ++ [t])) := by
  have container : Holds m₁ (m.nodes.brk < ·) m.nodes.brk (.container none kind done) := built.holds
  obtain ⟨x, cell, -⟩ := container.cell
  cases kind with
  | array =>
      have bare : t.key = none := by
        rw [JsonNode.childrenKeyed, List.all_cons, Bool.and_eq_true] at keyed
        exact Option.isNone_iff_eq_none.mp keyed.1
      obtain ⟨m₂, made, child⟩ := makes m₁ built.nodes built.texts
      have holds := child.holds
      rw [withKey_none bare] at holds
      obtain ⟨y, cell_c, -⟩ := holds.cell
      obtain ⟨m₃, appended, built'⟩ := built.link fresh child.toGrown holds
      refine ⟨m₃, ?_, built'⟩
      have tag : x.tag = code .array := by
        cases container with
        | container cell' _ tag _ _ _ _ _ =>
            cases cell.symm.trans cell'
            exact tag
      have parent : y.parent = none := (pointer_eq cell_c Node.parent).symm.trans child.loose
      rw [makeChild, bind_of_ok made, jsonAppendElement,
        bind_of_ok (asserts_eq (child.node _ x cell) tag cell_c parent)]
      exact appended
  | object =>
      obtain ⟨k, named⟩ : ∃ k, t.key = some k := by
        rw [JsonNode.childrenKeyed, List.all_cons, Bool.and_eq_true] at keyed
        exact Option.isSome_iff_exists.mp keyed.1
      have plain : 0 ∉ k := ((isText_iff k).mp (decoded.key named)).1
      have pushed := Grown.pushText built.nodes built.texts (k ++ [0])
      obtain ⟨m₂, made, child⟩ := makes _ pushed.nodes pushed.texts
      have spelled : Text m₂.texts m₁.texts.brk k := ⟨plain, [], child.text _ _ (if_pos rfl)⟩
      obtain ⟨y, cell_c, grown, holds⟩ := child.named named pushed.nodes spelled k.length
      obtain ⟨m₃, appended, built'⟩ := (built.grown pushed).link fresh grown holds
      refine ⟨m₃, ?_, built'⟩
      have text : makeText k m₁ =
          .ok (m₁.texts.brk, { m₁ with texts := m₁.texts.push (k ++ [0]) }) :=
        onTexts_ok (alloc_eq m₁.texts (k ++ [0]))
      have moved : propertyMove y.key (pJson m₁.texts.brk k.length) m₂.texts =
          .ok ((pJson m₁.texts.brk k.length, .init), m₂.texts) := rfl
      rw [named, makeChild, bind_of_ok text, bind_of_ok made, appendMember,
        bind_of_ok (onNodes_ok (read_eq cell_c)), bind_of_ok (onTexts_ok moved)]
      dsimp only
      rw [bind_of_ok (setKey_eq cell_c _ m₂.texts)]
      exact appended

theorem makeChildren_built {children : List (JsonNode ν)} (fresh : m.nodes.Fresh)
    (built : Built m m₁ (.container none kind done))
    (each : ∀ c ∈ children, Decoded c ∧ Makes c)
    (keyed : JsonNode.childrenKeyed (.container none kind children) = true) :
    ∃ m₂, makeChildren kind m.nodes.brk children m₁ = .ok ((), m₂) ∧
      Built m m₂ (.container none kind (done ++ children)) := by
  induction children generalizing m₁ done with
  | nil =>
      rw [List.append_nil, makeChildren]
      exact ⟨m₁, rfl, built⟩
  | cons c cs ih =>
      obtain ⟨decoded, makes⟩ := each c List.mem_cons_self
      have keyed_both : JsonNode.childrenKeyed (.container none kind [c]) = true ∧
          JsonNode.childrenKeyed (.container none kind cs) = true := by
        cases kind <;> simpa [JsonNode.childrenKeyed] using keyed
      obtain ⟨m₂, made, built₂⟩ := makeChild_built fresh built decoded keyed_both.1 makes
      obtain ⟨m₃, rest, built₃⟩ := ih built₂
        (fun d mem => each d (List.mem_cons_of_mem c mem)) keyed_both.2
      refine ⟨m₃, ?_, ?_⟩
      · rw [makeChildren, bind_of_ok made]
        exact rest
      · rwa [List.append_assoc] at built₃

/-- A node that is made has its value, and a string its text. -/
theorem makeScalar_eq {value : Scalar ν} (texts : m.texts.Fresh)
    (plain : ∀ s, value = .string s → 0 ∉ s) : ∃ (x : Node ν) (texts' : Heap Bytes),
      makeScalar value m = .ok (some m.nodes.brk, ⟨m.nodes.push x, texts'⟩) ∧ texts'.Fresh ∧
      KeepsTexts m.texts texts' ∧ x.parent = none ∧ x.key = .init ∧ HoldsValue texts' x value := by
  have keeps : KeepsTexts m.texts m.texts := fun _ _ cell => cell
  cases value with
  | null => exact ⟨_, _, mknode_eq .null, texts, keeps, rfl, rfl, rfl⟩
  | bool b => exact ⟨_, _, assign_eq .bool _, texts, keeps, rfl, rfl, rfl, rfl⟩
  | number n => exact ⟨_, _, assign_eq .number _, texts, keeps, rfl, rfl, rfl, rfl⟩
  | string s =>
      have text : makeText s m = .ok (m.texts.brk, ⟨m.nodes, m.texts.push (s ++ [0])⟩) :=
        onTexts_ok (alloc_eq m.texts (s ++ [0]))
      refine ⟨{ blank .string with string_ := some m.texts.brk }, m.texts.push (s ++ [0]), ?_,
        texts.push _, fun b u cell => texts.push_cells cell _, rfl, rfl, rfl, m.texts.brk, rfl,
        plain s rfl, [], if_pos rfl⟩
      rw [makeScalar, bind_of_ok text]
      exact assign_eq (m := ⟨m.nodes, m.texts.push (s ++ [0])⟩) .string _

theorem makeContainer_eq (kind : Container) : makeContainer kind m =
    .ok (some m.nodes.brk, { m with nodes := m.nodes.push (blank (kindTag kind)) }) := by
  cases kind <;> rfl

theorem built_container (nodes : m.nodes.Fresh) (texts : m.texts.Fresh) :
    Built m { m with nodes := m.nodes.push (blank (kindTag kind)) } (.container none kind []) where
  toGrown := .push nodes texts _
  loose := by
    have cell : (m.nodes.push (blank (kindTag kind))).cells m.nodes.brk =
      some (blank (kindTag kind)) := if_pos rfl
    exact pointer_eq cell Node.parent
  holds := .container (if_pos rfl) rfl rfl .nil nofun nofun rfl nofun

/-- The nodes that are made hold the tree. -/
theorem makeTree_built {t : JsonNode ν} (decoded : Decoded t) : Makes t := by
  induction t using JsonNode.tree_induction with
  | scalar key value =>
      intro m nodes texts
      have plain : ∀ s, value = .string s → 0 ∉ s := by
        rintro s rfl
        exact ((isText_iff s).mp decoded.string).1
      obtain ⟨x, texts', made, fresh, keeps, parent, bare, holds⟩ := makeScalar_eq texts plain
      have cell : (m.nodes.push x).cells m.nodes.brk = some x := if_pos rfl
      refine ⟨⟨m.nodes.push x, texts'⟩, ?_,
        ⟨nodes.push x, fresh, fun b y old => nodes.push_cells old x, keeps⟩, ?_,
        .scalar cell bare holds⟩
      · rw [makeTree, bind_of_ok made]
        rfl
      · exact (pointer_eq cell Node.parent).trans parent
  | container key kind children ih =>
      intro m nodes texts
      have each : ∀ c ∈ children, Decoded c ∧ Makes c := fun c mem =>
        ⟨decoded.child mem, ih c mem (decoded.child mem)⟩
      have root := JsonNode.all_root decoded.keyed
      have keyed : JsonNode.childrenKeyed (.container none kind children) = true := by
        cases kind <;> exact root
      obtain ⟨m₂, made, built⟩ := makeChildren_built nodes (built_container nodes texts) each keyed
      refine ⟨m₂, ?_, built.toGrown, built.loose, built.holds⟩
      have first : (makeContainer kind >>= present) m = .ok (m.nodes.brk,
          { m with nodes := m.nodes.push (blank (kindTag kind)) }) := by
        rw [bind_of_ok (makeContainer_eq kind)]
        rfl
      rw [makeTree, ← bind_assoc, bind_of_ok first, bind_of_ok made]
      rfl

/-- What `json_decode` makes is finite and well formed, and passes without members. -/
theorem jsonDecodeNodes_ok {libc : Libc ν} {s : Bytes} {tree : JsonNode ν} (nodes : m.nodes.Fresh)
    (texts : m.texts.Fresh) (parsed : jsonDecode libc s = some tree) :
    ∃ a m', jsonDecodeNodes libc s m = .ok (some a, m') ∧ Finite m' a ∧ WellFormed m' a ∧
      (Returns m' a true ↔ tree.all memberless = true) := by
  obtain ⟨bare, decoded⟩ := jsonDecode_decoded parsed
  obtain ⟨m', made, built⟩ := makeTree_built decoded m nodes texts
  have holds := built.holds
  rw [withKey_none bare] at holds
  refine ⟨_, m', ?_, holds.finite, holds.wellFormed decoded, holds.returns_iff decoded⟩
  rw [jsonDecodeNodes, parsed]
  dsimp only
  rw [bind_of_ok made]
  rfl

/-- `json_check` decides whether a finite structure is well formed unless members with keys, or
without, are all that decides it. Of the trees that `json_decode` makes it passes those without
members. -/
theorem jsonCheck_decides_iff (libc : Libc ν) :
    (∀ (m : Memory ν) (a : Addr), Finite m a → (∃ passed, Returns m a passed) ∧
      ((Returns m a true ↔ WellFormed m a) ↔ (∀ y, ¬ Member m a y) ∨ ¬ Sound m a ∨
        (∃ y, Member m a y ∧ Keyed y.key) ∧ ∃ y, Member m a y ∧ Unkeyed y.key)) ∧
    ∀ (s : Bytes) (tree : JsonNode ν) (m : Memory ν), m.nodes.Fresh → m.texts.Fresh →
      jsonDecode libc s = some tree → ∃ a m', jsonDecodeNodes libc s m = .ok (some a, m') ∧
        Finite m' a ∧ WellFormed m' a ∧ (Returns m' a true ↔ tree.all memberless = true) := by
  constructor
  · exact fun m a finite => ⟨(returns_iff finite).1, verdict_iff finite⟩
  · exact fun s tree m nodes texts parsed => jsonDecodeNodes_ok nodes texts parsed

end

/-- No nodes and no texts. -/
def noMemory : Memory Nat := ⟨⟨fun _ => none, 0⟩, ⟨fun _ => none, 0⟩⟩

/-- `[{},null]` passes, as it should. -/
theorem jsonCheck_decides_emptyObject : ∃ a m',
    jsonDecodeNodes Libc.nat [0x5B, 0x7B, 0x7D, 0x2C, 0x6E, 0x75, 0x6C, 0x6C, 0x5D] noMemory =
      .ok (some a, m') ∧ Returns m' a true ∧ WellFormed m' a ∧
      ((∀ y, ¬ Member m' a y) ∨ ¬ Sound m' a ∨
        (∃ y, Member m' a y ∧ Keyed y.key) ∧ ∃ y, Member m' a y ∧ Unkeyed y.key) := by
  obtain ⟨a, m', made, finite, formed, passes⟩ := (jsonCheck_decides_iff Libc.nat).2
    [0x5B, 0x7B, 0x7D, 0x2C, 0x6E, 0x75, 0x6C, 0x6C, 0x5D]
    (.container none .array [.container none .object [], .scalar none .null]) noMemory
    (fun _ _ => rfl) (fun _ _ => rfl) rfl
  have returns : Returns m' a true := passes.mpr rfl
  exact ⟨a, m', made, returns, formed,
    ((jsonCheck_decides_iff Libc.nat).1 m' a finite).2.mp (iff_of_true returns formed)⟩

/-- `{"a":null}` -/
def nullMember : Bytes := [0x7B, 0x22, 0x61, 0x22, 0x3A, 0x6E, 0x75, 0x6C, 0x6C, 0x7D]

/-- `{"a":null}` does not pass, with a report that its member has no key. -/
theorem not_jsonCheck_nullMember : ∃ a m',
    jsonDecodeNodes Libc.nat nullMember noMemory = .ok (some a, m') ∧ WellFormed m' a ∧
      Returns m' a false ∧ ∀ fuel, jsonCheck (fuel + 1) a m' = .ok (some .memberKey, m') := by
  have parsed : jsonDecode Libc.nat nullMember =
    some (.container none .object [.scalar (some [0x61]) .null]) := rfl
  obtain ⟨a, m', made, -, formed, -⟩ := jsonDecodeNodes_ok (m := noMemory) (fun _ _ => rfl)
    (fun _ _ => rfl) parsed
  have reports : ∀ fuel, jsonCheck (fuel + 1) a m' = .ok (some .memberKey, m') := by
    cases made
    exact fun fuel => rfl
  refine ⟨a, m', made, formed, ⟨1, fun fuel le => ?_⟩, reports⟩
  obtain ⟨fuel, rfl⟩ := Nat.exists_eq_succ_of_ne_zero (Nat.ne_zero_of_lt le)
  exact ⟨some .memberKey, reports fuel, rfl⟩

end

end AcnSdk.Json.Pointers

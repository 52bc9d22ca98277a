/-
Trees as memory holds them, and how `json_check` finds the trees that `json_decode` returns.

A node holds a tree when its texts are those of the root and its list of children holds those
of the tree, in their order.

* `Holds.finite`, `Holds.wellFormed` — what holds a decoded tree is finite and well formed.
* `Holds.member_iff` — where it has members.
-/

import AcnSdk.Json.DecodedTexts
import AcnSdk.Json.PointerCheck

namespace AcnSdk.Json.Pointers

open AcnSdk.Lib Prog Heap Data

variable {ν : Type}

/-! ### What a node holds -/

/-- The tag of an array or object. -/
def kindTag : Container → JsonTag
  | .array => .array
  | .object => .object

/-- The node has the value of a node without children. -/
def HoldsValue (texts : Heap Bytes) (x : Node ν) : Scalar ν → Prop
  | .null => x.tag = code .null
  | .bool b => x.tag = code .bool ∧ x.bool_ = b
  | .string s => x.tag = code .string ∧ ∃ a, x.string_ = some a ∧ Text texts a s
  | .number n => x.tag = code .number ∧ x.number_ = n

/-- The node at `a` is the root of the tree, and the nodes below it lie in the region. -/
inductive Holds (m : Memory ν) (region : Addr → Prop) : Addr → JsonNode ν → Prop where
  | scalar {a : Addr} {x : Node ν} {key : Option Bytes} {value : Scalar ν}
      (cell : m.nodes.cells a = some x) (named : Spells m.texts x.key key)
      (holds : HoldsValue m.texts x value) : Holds m region a (.scalar key value)
  | container {a : Addr} {x : Node ν} {key : Option Bytes} {kind : Container} {cs : List Addr}
      {children : List (JsonNode ν)} (cell : m.nodes.cells a = some x)
      (named : Spells m.texts x.key key) (tag : x.tag = code (kindTag kind))
      (list : Enumerates (links m.nodes) x.head x.tail cs)
      (parent : ∀ c ∈ cs, pointer m.nodes Node.parent c = some a) (inside : ∀ c ∈ cs, region c)
      (length : cs.length = children.length)
      (below : ∀ p ∈ cs.zip children, Holds m region p.1 p.2) :
      Holds m region a (.container key kind children)

/-- An object without members, or no object at all. -/
def memberless : JsonNode ν → Bool
  | .container _ .object children => children.isEmpty
  | _ => true

theorem isContainer_of_kindTag {x : Node ν} {kind : Container} (tag : x.tag = code (kindTag kind)) :
    IsContainer x := by
  cases kind with
  | array => exact .inl tag
  | object => exact .inr tag

theorem HoldsValue.tag_le {texts : Heap Bytes} {x : Node ν} {value : Scalar ν}
    (holds : HoldsValue texts x value) : x.tag ≤ code .number := by
  cases value with
  | null => exact Nat.le_trans (Nat.le_of_eq holds) (by decide)
  | bool b => exact Nat.le_trans (Nat.le_of_eq holds.1) (by decide)
  | string s => exact Nat.le_trans (Nat.le_of_eq holds.1) (by decide)
  | number n => exact Nat.le_of_eq holds.1

theorem HoldsValue.leaf {texts : Heap Bytes} {x : Node ν} {value : Scalar ν}
    (holds : HoldsValue texts x value) : ¬ IsContainer x := by
  have tag := holds.tag_le
  rintro (array | object)
  · rw [array] at tag
    exact absurd tag (by decide)
  · rw [object] at tag
    exact absurd tag (by decide)

section

variable {m : Memory ν} {region : Addr → Prop} {a : Addr} {tree : JsonNode ν}

/-- Each child in memory is one of the tree, and the other way round. -/
theorem exists_zip_left {α β : Type} {as : List α} {bs : List β} (length : as.length = bs.length)
    {x : α} (mem : x ∈ as) : ∃ y ∈ bs, (x, y) ∈ as.zip bs := by
  rw [← List.map_fst_zip (Nat.le_of_eq length)] at mem
  obtain ⟨⟨x, y⟩, pair, rfl⟩ := List.mem_map.mp mem
  exact ⟨y, (List.of_mem_zip pair).2, pair⟩

theorem exists_zip_right {α β : Type} {as : List α} {bs : List β} (length : as.length = bs.length)
    {y : β} (mem : y ∈ bs) : ∃ x ∈ as, (x, y) ∈ as.zip bs := by
  rw [← List.map_snd_zip (Nat.le_of_eq length.symm)] at mem
  obtain ⟨⟨x, y⟩, pair, rfl⟩ := List.mem_map.mp mem
  exact ⟨x, (List.of_mem_zip pair).1, pair⟩

theorem Holds.cell (holds : Holds m region a tree) :
    ∃ x, m.nodes.cells a = some x ∧ Spells m.texts x.key tree.key := by
  cases holds with
  | scalar cell named _ => exact ⟨_, cell, named⟩
  | container cell named _ _ _ _ _ _ => exact ⟨_, cell, named⟩

theorem Spells.readable {texts : Heap Bytes} {key : Property} {name : Option Bytes}
    (spells : Spells texts key name) {b : Addr} (value : key.value = some b) :
    ∃ s, name = some s ∧ Text texts b s := by
  cases name with
  | none =>
      rw [show key = .init from spells] at value
      cases value
  | some s =>
      obtain ⟨-, c, eq, text⟩ := spells
      cases value.symm.trans eq
      exact ⟨s, rfl, text⟩

theorem Spells.value_none_iff {texts : Heap Bytes} {key : Property} {name : Option Bytes}
    (spells : Spells texts key name) : key.value = none ↔ name = none := by
  cases name with
  | none =>
      rw [show key = .init from spells]
      exact iff_of_true rfl rfl
  | some s =>
      obtain ⟨-, c, eq, -⟩ := spells
      rw [eq]
      exact iff_of_false (Option.some_ne_none c) (Option.some_ne_none s)

/-- A string has its text. -/
theorem HoldsValue.string {texts : Heap Bytes} {x : Node ν} {value : Scalar ν}
    (holds : HoldsValue texts x value) (string : x.tag = code .string) :
    ∃ s b, value = .string s ∧ x.string_ = some b ∧ Text texts b s := by
  cases value with
  | null => exact absurd (Eq.trans (Eq.symm holds) string) (by decide)
  | bool b => exact absurd (holds.1.symm.trans string) (by decide)
  | string s =>
      obtain ⟨b, eq, text⟩ := holds.2
      exact ⟨s, b, rfl, eq, text⟩
  | number n => exact absurd (holds.1.symm.trans string) (by decide)

/-! ### Trees in memory -/

/-- What holds a tree is finite. -/
theorem Holds.finite (holds : Holds m region a tree) : Finite m a := by
  induction tree using JsonNode.tree_induction generalizing a with
  | scalar key value =>
      obtain ⟨cell, named, value⟩ := holds
      refine .leaf cell ⟨fun b eq => ?_, fun string b eq => ?_⟩ value.leaf
      · obtain ⟨s, -, text⟩ := named.readable eq
        exact ⟨s, text⟩
      · obtain ⟨s, c, -, eq', text⟩ := value.string string
        cases eq.symm.trans eq'
        exact ⟨s, text⟩
  | container key kind children ih =>
      cases holds with
      | @container _ x _ _ cs _ cell named tag list parent _ length below =>
          refine .container cell ⟨fun b eq => ?_, fun string => ?_⟩ (isContainer_of_kindTag tag)
            list.forth (fun c mem => ?_) fun c mem _ => ?_
          · obtain ⟨s, -, text⟩ := named.readable eq
            exact ⟨s, text⟩
          · cases kind <;> exact absurd (tag.symm.trans string) (by decide)
          · obtain ⟨t, -, pair⟩ := exists_zip_left length mem
            obtain ⟨y, cell, -⟩ := (below _ pair).cell
            exact ⟨y, cell⟩
          · obtain ⟨t, mem_t, pair⟩ := exists_zip_left length mem
            exact ih t mem_t (below _ pair)

theorem validText {texts : Heap Bytes} {s : Bytes} {b : Addr} (text : Text texts b s)
    (valid : isText s = true) : ValidText texts b :=
  ⟨s, text, ((isText_iff s).mp valid).2⟩

theorem validKey {texts : Heap Bytes} {x : Node ν} (decoded : Decoded tree)
    (named : Spells texts x.key tree.key) (b : Addr) (eq : x.key.value = some b) :
    ValidText texts b := by
  obtain ⟨s, key, text⟩ := named.readable eq
  exact validText text (decoded.key key)

/-- What holds a decoded tree is well formed. -/
theorem Holds.wellFormed (holds : Holds m region a tree) (decoded : Decoded tree) :
    WellFormed m a := by
  induction tree using JsonNode.tree_induction generalizing a with
  | scalar key value =>
      obtain ⟨cell, named, value⟩ := holds
      refine .leaf cell ⟨validKey decoded named, ?_, fun string => ?_⟩ value.leaf
      · exact Nat.le_trans value.tag_le (by decide)
      · obtain ⟨s, b, rfl, eq, text⟩ := value.string string
        exact ⟨b, eq, validText text decoded.string⟩
  | container key kind children ih =>
      cases holds with
      | @container _ x _ _ cs _ cell named tag list parent _ length below =>
          have keyed := JsonNode.all_root decoded.keyed
          refine .container cell ⟨validKey decoded named, ?_, fun string => ?_⟩
            (isContainer_of_kindTag tag) ⟨list, parent, ?_, ?_⟩ fun c mem => ?_
          · rw [tag]
            cases kind <;> decide
          · cases kind <;> exact absurd (tag.symm.trans string) (by decide)
          · intro array c mem y cell'
            obtain ⟨t, mem_t, pair⟩ := exists_zip_left length mem
            obtain ⟨z, cell_z, named_z⟩ := (below _ pair).cell
            cases cell'.symm.trans cell_z
            cases kind with
            | array =>
                exact named_z.value_none_iff.mpr
                  (Option.isNone_iff_eq_none.mp (List.all_eq_true.mp keyed t mem_t))
            | object => exact absurd (tag.symm.trans array) (by decide)
          · intro object c mem y cell'
            obtain ⟨t, mem_t, pair⟩ := exists_zip_left length mem
            obtain ⟨z, cell_z, named_z⟩ := (below _ pair).cell
            cases cell'.symm.trans cell_z
            cases kind with
            | array => exact absurd (tag.symm.trans object) (by decide)
            | object =>
                exact mt named_z.value_none_iff.mp
                  (Option.isSome_iff_ne_none.mp (List.all_eq_true.mp keyed t mem_t))
          · obtain ⟨t, mem_t, pair⟩ := exists_zip_left length mem
            exact ih t mem_t (below _ pair) (decoded.child mem_t)

/-- It has members where an object of the tree has. -/
theorem Holds.member_iff (holds : Holds m region a tree) :
    (∀ y, ¬ Member m a y) ↔ tree.all memberless = true := by
  induction tree using JsonNode.tree_induction generalizing a with
  | scalar key value =>
      obtain ⟨cell, -, value⟩ := holds
      refine iff_of_true (fun y member => ?_) rfl
      cases member with
      | here cell' object =>
          cases cell.symm.trans cell'
          exact value.leaf (.inr object)
      | deeper cell' kind =>
          cases cell.symm.trans cell'
          exact value.leaf kind
  | container key kind children ih =>
      cases holds with
      | @container _ x _ _ cs _ cell named tag list parent _ length below =>
          rw [JsonNode.all_container, Bool.and_eq_true, List.all_eq_true]
          constructor
          · intro none
            refine ⟨?_, fun t mem_t => ?_⟩
            · cases kind with
              | array => rfl
              | object =>
                  rw [memberless, List.isEmpty_iff]
                  by_contra some
                  obtain ⟨t, more, rfl⟩ := List.exists_cons_of_ne_nil some
                  obtain ⟨c, mem, pair⟩ := exists_zip_right length List.mem_cons_self
                  obtain ⟨y, cell_y, -⟩ := (below _ pair).cell
                  exact none y (.here cell tag list.forth mem cell_y)
            · obtain ⟨c, mem, pair⟩ := exists_zip_right length mem_t
              refine (ih t mem_t (below _ pair)).mp fun y member => ?_
              exact none y (.deeper cell (isContainer_of_kindTag tag) list.forth mem member)
          · rintro ⟨root, children_ok⟩ y member
            cases member with
            | here cell' object walk mem node =>
                cases cell.symm.trans cell'
                rw [walk.unique list.forth] at mem
                cases kind with
                | array => exact absurd (tag.symm.trans object) (by decide)
                | object =>
                    rw [memberless, List.isEmpty_iff] at root
                    rw [root, List.length_nil, List.length_eq_zero_iff] at length
                    rw [length] at mem
                    exact List.not_mem_nil mem
            | deeper cell' _ walk mem member =>
                cases cell.symm.trans cell'
                rw [walk.unique list.forth] at mem
                obtain ⟨t, mem_t, pair⟩ := exists_zip_left length mem
                exact (ih t mem_t (below _ pair)).mpr (children_ok t mem_t) y member

/-- A decoded tree passes where no object of it has members. -/
theorem Holds.returns_iff (holds : Holds m region a tree) (decoded : Decoded tree) :
    Returns m a true ↔ tree.all memberless = true := by
  rw [(Pointers.returns_iff holds.finite).2, ← holds.member_iff, formed_iff]
  have formed := holds.wellFormed decoded
  rw [and_iff_right formed.sound]
  constructor
  · exact fun unkeyed y member => formed.member member (unkeyed y member)
  · exact fun none y member => absurd member (none y)

/-! ### Memory that changes elsewhere -/

/-- Only nodes of the region that are children of the root or of the region count. -/
theorem Holds.narrow {region' : Addr → Prop} (holds : Holds m region a tree)
    (into : ∀ b p, region b → p = a ∨ region p → pointer m.nodes Node.parent b = some p →
      region' b) : Holds m region' a tree := by
  induction tree using JsonNode.tree_induction generalizing a with
  | scalar key value =>
      obtain ⟨cell, named, value⟩ := holds
      exact .scalar cell named value
  | container key kind children ih =>
      cases holds with
      | container cell named tag list parent inside length below =>
          refine .container cell named tag list parent ?_ length fun p mem => ?_
          · exact fun c mem => into c a (inside c mem) (.inl rfl) (parent c mem)
          · obtain ⟨mem_c, mem_t⟩ := List.of_mem_zip mem
            refine ih p.2 mem_t (below p mem) fun b q mem_b above points => ?_
            refine into b q mem_b (.inr ?_) points
            exact above.elim (fun eq => eq ▸ inside p.1 mem_c) id

/-- The node has the same value and the same children. -/
structure SameValue (x x' : Node ν) : Prop where
  tag : x'.tag = x.tag
  bool_ : x'.bool_ = x.bool_
  string_ : x'.string_ = x.string_
  number_ : x'.number_ = x.number_
  head : x'.head = x.head
  tail : x'.tail = x.tail

theorem SameValue.refl (x : Node ν) : SameValue x x := ⟨rfl, rfl, rfl, rfl, rfl, rfl⟩

/-- No text is lost or changed. -/
def KeepsTexts (texts texts' : Heap Bytes) : Prop :=
  ∀ b u, texts.cells b = some u → texts'.cells b = some u

theorem KeepsTexts.text {texts texts' : Heap Bytes} (keeps : KeepsTexts texts texts') {b : Addr}
    {s : Bytes} (text : Text texts b s) : Text texts' b s := by
  obtain ⟨plain, rest, cell⟩ := text
  exact ⟨plain, rest, keeps b _ cell⟩

theorem KeepsTexts.spells {texts texts' : Heap Bytes} (keeps : KeepsTexts texts texts')
    {key : Property} {name : Option Bytes} (spells : Spells texts key name) :
    Spells texts' key name := by
  cases name with
  | none => exact spells
  | some s =>
      obtain ⟨raw, b, value, text⟩ := spells
      exact ⟨raw, b, value, keeps.text text⟩

theorem HoldsValue.same {texts texts' : Heap Bytes} {x x' : Node ν} {value : Scalar ν}
    (holds : HoldsValue texts x value) (same : SameValue x x') (keeps : KeepsTexts texts texts') :
    HoldsValue texts' x' value := by
  cases value with
  | null => exact same.tag.trans holds
  | bool b => exact ⟨same.tag.trans holds.1, same.bool_.trans holds.2⟩
  | string s =>
      obtain ⟨tag, b, eq, text⟩ := holds
      exact ⟨same.tag.trans tag, b, same.string_.trans eq, keeps.text text⟩
  | number n => exact ⟨same.tag.trans holds.1, same.number_.trans holds.2⟩

theorem withKey_key (node : JsonNode ν) : node.withKey node.key = node := by
  cases node <;> rfl

theorem key_withKey (key : Option Bytes) (node : JsonNode ν) : (node.withKey key).key = key := by
  cases node <;> rfl

theorem withKey_withKey (key key' : Option Bytes) (node : JsonNode ν) :
    (node.withKey key).withKey key' = node.withKey key' := by
  cases node <;> rfl

/-- A tree stays where its region is left alone, and may get another key. -/
theorem Holds.frame {m' : Memory ν} {key : Option Bytes} (holds : Holds m region a tree)
    (root : ∀ x, m.nodes.cells a = some x → ∃ x', m'.nodes.cells a = some x' ∧ SameValue x x' ∧
      Spells m'.texts x'.key key)
    (nodes : ∀ b x, region b → m.nodes.cells b = some x → m'.nodes.cells b = some x)
    (keeps : KeepsTexts m.texts m'.texts) : Holds m' region a (tree.withKey key) := by
  induction tree using JsonNode.tree_induction generalizing a key with
  | scalar key' value =>
      obtain ⟨cell, -, value⟩ := holds
      obtain ⟨x', cell', same, named⟩ := root _ cell
      exact .scalar cell' named (value.same same keeps)
  | container key' kind children ih =>
      cases holds with
      | @container _ x _ _ cs _ cell _ tag list parent inside length below =>
          obtain ⟨x', cell', same, named⟩ := root x cell
          have child : ∀ c ∈ cs, ∃ y, m.nodes.cells c = some y ∧ m'.nodes.cells c = some y := by
            intro c mem
            obtain ⟨y, cell_c, -⟩ := Option.bind_eq_some_iff.mp (parent c mem)
            exact ⟨y, cell_c, nodes c y (inside c mem) cell_c⟩
          have pointers : ∀ c ∈ cs, ∀ field : Node ν → Option Addr,
              pointer m'.nodes field c = pointer m.nodes field c := by
            intro c mem field
            obtain ⟨y, old, new⟩ := child c mem
            rw [pointer_eq old, pointer_eq new]
          refine .container cell' named (same.tag.trans tag) ?_ ?_ inside length fun p mem => ?_
          · rw [same.head, same.tail]
            exact list.congr fun c mem => ⟨pointers c mem Node.next, pointers c mem Node.prev⟩
          · exact fun c mem => (pointers c mem Node.parent).trans (parent c mem)
          · obtain ⟨mem_c, mem_t⟩ := List.of_mem_zip mem
            obtain ⟨y, old, new⟩ := child p.1 mem_c
            obtain ⟨z, cell_z, named_z⟩ := (below p mem).cell
            cases old.symm.trans cell_z
            rw [← withKey_key p.2]
            refine ih p.2 mem_t (below p mem) fun z cell_z => ?_
            cases old.symm.trans cell_z
            exact ⟨y, new, .refl y, keeps.spells named_z⟩

end

end AcnSdk.Json.Pointers

/-
What a tree in memory owns, and what `json_delete` of `src/json/json.c` does to it.

A tree owns its nodes, the texts of its strings, and those texts of its keys that are not borrowed.
The key of the root is released with the link to its parent, so it is not counted here.

* `Owns.frame` — what a tree owns does not depend on the links and the key of its root.
* `Holder.delete_first` — a child that is deleted leaves the other children as they are.
* `deletes` — all that a tree owns is released, once each, and nothing else is touched.
-/

import AcnSdk.Json.PointerScratch
import Mathlib.Data.List.Pairwise

namespace AcnSdk.Json.Pointers

open AcnSdk.Lib Prog Heap Data

variable {ν : Type} {m m' m₁ m₂ : Memory ν} {a : Addr} {x y : Node ν}

/-! ### Ownership -/

/-- The text that goes with a string. -/
def stringText (x : Node ν) : List Addr := if x.tag = code .string then x.string_.toList else []

/-- A child with the text of its key, where it owns that, and what lies below it. -/
structure Part where
  node : Addr
  key : Option Addr
  nodes : List Addr
  texts : List Addr

def partNodes (parts : List Part) : List Addr := parts.flatMap Part.nodes

def partTexts (parts : List Part) : List Addr := parts.flatMap fun q => q.key.toList ++ q.texts

/-- The part is a child of the node, and its key can be released. -/
def Part.IsChild (m : Memory ν) (a : Addr) (q : Part) : Prop :=
  ∃ y, m.nodes.cells q.node = some y ∧ y.parent = some a ∧ (y.key = .init ∨ y.key.value ≠ none) ∧
    releases y.key = q.key ∧ ∀ t, q.key = some t → ∃ u, m.texts.cells t = some u

/-- The nodes of a tree, from the root on, and the texts that it owns. -/
inductive Owns (m : Memory ν) : Addr → List Addr → List Addr → Prop where
  | leaf {a : Addr} {x : Node ν} (cell : m.nodes.cells a = some x) (leaf : ¬ IsContainer x)
      (live : ∀ t ∈ stringText x, ∃ u, m.texts.cells t = some u) : Owns m a [a] (stringText x)
  | container {a : Addr} {x : Node ν} {parts : List Part} (cell : m.nodes.cells a = some x)
      (container : IsContainer x)
      (list : Enumerates (links m.nodes) x.head x.tail (parts.map Part.node))
      (child : ∀ q ∈ parts, q.IsChild m a) (below : ∀ q ∈ parts, Owns m q.node q.nodes q.texts) :
      Owns m a (a :: partNodes parts) (partTexts parts)

/-- A container of which these parts are left. -/
structure Holder (m : Memory ν) (a : Addr) (parts : List Part) : Prop where
  node : ∃ x, m.nodes.cells a = some x ∧ IsContainer x ∧
    Enumerates (links m.nodes) x.head x.tail (parts.map Part.node)
  child : ∀ q ∈ parts, q.IsChild m a
  below : ∀ q ∈ parts, Owns m q.node q.nodes q.texts

theorem Holder.owns {parts : List Part} (holder : Holder m a parts) :
    Owns m a (a :: partNodes parts) (partTexts parts) := by
  obtain ⟨x, cell, container, list⟩ := holder.node
  exact .container cell container list holder.child holder.below

section

variable {nodes texts : List Addr} {parts : List Part} {q : Part}

theorem Owns.root_mem (owns : Owns m a nodes texts) : a ∈ nodes := by
  cases owns <;> exact List.mem_cons_self

theorem Owns.live (owns : Owns m a nodes texts) : ∀ b ∈ nodes, ∃ z, m.nodes.cells b = some z := by
  induction owns with
  | leaf cell _ _ =>
      intro b mem
      rw [List.mem_singleton.mp mem]
      exact ⟨_, cell⟩
  | container cell _ _ _ _ ih =>
      intro b mem
      obtain rfl | mem := List.mem_cons.mp mem
      · exact ⟨_, cell⟩
      · obtain ⟨q, mem_q, mem⟩ := List.mem_flatMap.mp mem
        exact ih q mem_q b mem

theorem Owns.liveText (owns : Owns m a nodes texts) :
    ∀ t ∈ texts, ∃ u, m.texts.cells t = some u := by
  induction owns with
  | leaf _ _ live => exact live
  | container _ _ _ child _ ih =>
      intro t mem
      obtain ⟨q, mem_q, mem⟩ := List.mem_flatMap.mp mem
      obtain key | mem := List.mem_append.mp mem
      · obtain ⟨-, -, -, -, -, live⟩ := child q mem_q
        exact live t (Option.mem_toList.mp key)
      · exact ih q mem_q t mem

theorem SameValue.stringText (same : SameValue x y) : stringText y = stringText x := by
  rw [Pointers.stringText, Pointers.stringText, same.tag, same.string_]

theorem SameValue.isContainer (same : SameValue x y) : IsContainer y ↔ IsContainer x := by
  rw [IsContainer, IsContainer, same.tag]

theorem mem_partNodes (mem : q ∈ parts) {b : Addr} (below : b ∈ q.nodes) : b ∈ partNodes parts :=
  List.mem_flatMap.mpr ⟨q, mem, below⟩

theorem mem_partTexts (mem : q ∈ parts) {t : Addr} (below : t ∈ q.key.toList ++ q.texts) :
    t ∈ partTexts parts :=
  List.mem_flatMap.mpr ⟨q, mem, below⟩

theorem Part.IsChild.same (child : q.IsChild m a)
    (cell : m'.nodes.cells q.node = m.nodes.cells q.node)
    (texts : ∀ t, q.key = some t → m'.texts.cells t = m.texts.cells t) : q.IsChild m' a := by
  obtain ⟨y, cell_y, parent, keyed, key, live⟩ := child
  refine ⟨y, cell.trans cell_y, parent, keyed, key, fun t eq => ?_⟩
  rw [texts t eq]
  exact live t eq

/-- What a tree owns does not depend on the links and the key of its root. -/
theorem Owns.frame (owns : Owns m a nodes texts) (nodup : nodes.Nodup)
    (root : ∀ x, m.nodes.cells a = some x → ∃ x', m'.nodes.cells a = some x' ∧ SameValue x x')
    (same : ∀ b ∈ nodes, b ≠ a → m'.nodes.cells b = m.nodes.cells b)
    (sameText : ∀ t ∈ texts, m'.texts.cells t = m.texts.cells t) : Owns m' a nodes texts := by
  induction owns with
  | leaf cell leaf live =>
      obtain ⟨x', cell', value⟩ := root _ cell
      rw [← value.stringText]
      refine .leaf cell' (fun container => leaf (value.isContainer.mp container)) fun t mem => ?_
      rw [value.stringText] at mem
      rw [sameText t mem]
      exact live t mem
  | @container a x parts cell container list child below ih =>
      obtain ⟨x', cell', value⟩ := root _ cell
      obtain ⟨apart, distinct⟩ := List.nodup_cons.mp nodup
      -- below the root every cell is the same
      have inner : ∀ q ∈ parts, ∀ b ∈ q.nodes, m'.nodes.cells b = m.nodes.cells b := by
        intro q mem b mem_b
        have inside := mem_partNodes mem mem_b
        exact same b (List.mem_cons_of_mem a inside) fun eq => apart (eq ▸ inside)
      have child_cell : ∀ q ∈ parts, m'.nodes.cells q.node = m.nodes.cells q.node :=
        fun q mem => inner q mem q.node (below q mem).root_mem
      refine .container cell' (value.isContainer.mpr container) ?_ (fun q mem => ?_)
        fun q mem => ?_
      · rw [value.head, value.tail]
        refine list.congr fun c mem => ?_
        obtain ⟨q, mem_q, rfl⟩ := List.mem_map.mp mem
        have cell_q := child_cell q mem_q
        exact ⟨congrArg (Option.bind · Node.next) cell_q, congrArg (Option.bind · Node.prev) cell_q⟩
      · refine (child q mem).same (child_cell q mem) fun t key => sameText t ?_
        exact mem_partTexts mem (List.mem_append_left _ (Option.mem_toList.mpr key))
      · refine ih q mem (List.nodup_flatMap.mp distinct |>.1 q mem) (fun y cell_y => ?_)
          (fun b mem_b _ => inner q mem b mem_b) fun t mem_t => sameText t ?_
        · exact ⟨y, (child_cell q mem).trans cell_y, .refl y⟩
        · exact mem_partTexts mem (List.mem_append_right _ mem_t)

theorem length_le_partNodes (below : ∀ q ∈ parts, Owns m q.node q.nodes q.texts) :
    parts.length ≤ (partNodes parts).length := by
  induction parts with
  | nil => exact Nat.zero_le _
  | cons q parts ih =>
      have one := List.length_pos_of_mem (below q List.mem_cons_self).root_mem
      have rest := ih fun p mem => below p (List.mem_cons_of_mem q mem)
      have length : (partNodes (q :: parts)).length = q.nodes.length + (partNodes parts).length :=
        List.length_append
      rw [List.length_cons, length]
      omega

/-- A node of a part is no node of another part. -/
theorem part_unique (distinct : (partNodes parts).Nodup) {q' : Part} (mem : q ∈ parts)
    (mem' : q' ∈ parts) {b : Addr} (inside : b ∈ q.nodes) (inside' : b ∈ q'.nodes) : q = q' := by
  by_contra other
  have : Std.Symm (Function.onFun List.Disjoint Part.nodes) := ⟨fun _ _ apart => apart.symm⟩
  exact (List.nodup_flatMap.mp distinct).2.forall mem mem' other inside inside'

/-- `property_free` of a key that owns its text, or none. -/
theorem propertyFree_live {key : Property} {texts : Heap Bytes}
    (keyed : key = .init ∨ key.value ≠ none)
    (live : ∀ t, releases key = some t → ∃ u, texts.cells t = some u) :
    propertyFree key texts = .ok (.init, released texts key) := by
  obtain rfl | value := keyed
  · rfl
  · obtain ⟨t, value⟩ := Option.ne_none_iff_exists'.mp value
    by_cases owns : key.isOwner ∧ (key.tag = dynamicTag ∨ key.tag = jsonTag)
    · have owned : releases key = some t := (if_pos owns).trans value
      obtain ⟨u, cell⟩ := live t owned
      obtain ⟨owner, dynamic | json⟩ := owns
      · have other : dynamicTag ≠ jsonTag := by decide
        simp [propertyFree, owner, dynamic, other, Data.propertyFree, dynmcDestroy, value,
          free_eq cell, released, owned]
      · simp [propertyFree, owner, json, jsonDestroy, value, free_eq cell, released, owned]
    · have idle : releases key = none := if_neg owns
      have not_json : ¬ (key.isOwner = true ∧ key.tag = jsonTag) := fun both =>
        owns ⟨both.1, .inr both.2⟩
      have not_dynamic : ¬ (key.isOwner = true ∧ key.tag = dynamicTag) := fun both =>
        owns ⟨both.1, .inl both.2⟩
      rw [propertyFree, if_neg not_json, Data.propertyFree, if_neg not_dynamic, released, idle]
      rfl

/-! ### Deleting -/

/-- What is left after a part of the nodes in `touched` and the texts is released. -/
structure Cleared (m m' : Memory ν) (touched gone texts : List Addr) : Prop where
  brk : m'.nodes.brk = m.nodes.brk
  brkText : m'.texts.brk = m.texts.brk
  kept : ∀ b, b ∉ touched → m'.nodes.cells b = m.nodes.cells b
  gone : ∀ b ∈ gone, m'.nodes.cells b = none
  keptText : ∀ t, t ∉ texts → m'.texts.cells t = m.texts.cells t
  goneText : ∀ t ∈ texts, m'.texts.cells t = none

/-- What one part and then the others leave. -/
theorem Cleared.trans {touched gone gone' texts' : List Addr} {b : Addr}
    (first : Cleared m m₁ (b :: (gone ++ touched)) gone texts)
    (second : Cleared m₁ m₂ (b :: touched) gone' texts')
    (apart : ∀ c ∈ gone, c ∉ b :: touched) (apartText : ∀ t ∈ texts, t ∉ texts') :
    Cleared m m₂ (b :: (gone ++ touched)) (gone ++ gone') (texts ++ texts') where
  brk := second.brk.trans first.brk
  brkText := second.brkText.trans first.brkText
  kept c other := by
    have other' : c ∉ b :: touched := fun mem => other <| by
      obtain rfl | mem := List.mem_cons.mp mem
      · exact List.mem_cons_self
      · exact List.mem_cons_of_mem b (List.mem_append_right gone mem)
    exact (second.kept c other').trans (first.kept c other)
  gone c mem := by
    obtain mem | mem := List.mem_append.mp mem
    · exact (second.kept c (apart c mem)).trans (first.gone c mem)
    · exact second.gone c mem
  keptText t other := by
    rw [List.mem_append, not_or] at other
    exact (second.keptText t other.2).trans (first.keptText t other.1)
  goneText t mem := by
    obtain mem | mem := List.mem_append.mp mem
    · exact (second.keptText t (apartText t mem)).trans (first.goneText t mem)
    · exact second.goneText t mem

/-- A node that was removed from its parent first. -/
theorem jsonDelete_removed {c : Addr} (run : jsonRemoveFromParent c m = .ok ((), m₁))
    (cell : m₁.nodes.cells c = some y) (loose : y.parent = none) (fuel : Nat) :
    jsonDelete (fuel + 1) c m = jsonDelete (fuel + 1) c m₁ := by
  have again : jsonRemoveFromParent c m₁ = .ok ((), m₁) := by
    rw [jsonRemoveFromParent, bind_of_ok (onNodes_ok (read_eq cell)), loose]
    rfl
  rw [jsonDelete, bind_of_ok run, bind_of_ok again]

/-- Trees of fewer nodes than this are deleted with all that they own. -/
def Deletes (ν : Type) (fuel : Nat) : Prop :=
  ∀ {m : Memory ν} {a : Addr} {x : Node ν} {nodes texts : List Addr}, Owns m a nodes texts →
    nodes.Nodup → texts.Nodup → m.nodes.cells a = some x → x.parent = none →
    nodes.length < fuel →
    jsonDelete fuel a m = .ok ((), ⟨m.nodes.eraseAll nodes, m.texts.eraseAll texts⟩)

theorem mem_cells_released {key : Property} {t : Addr} {h : Heap Bytes}
    (owned : releases key = some t) :
    (released h key).cells t = none := by
  rw [released, owned]
  exact if_pos rfl

theorem released_brk (h : Heap Bytes) (key : Property) : (released h key).brk = h.brk := by
  rw [released]
  split <;> rfl

/-- A child that is deleted leaves the other children as they are. -/
theorem Holder.delete_first {fuel : Nat} (holder : Holder m a (q :: parts))
    (nodup : (a :: partNodes (q :: parts)).Nodup) (nodupText : (partTexts (q :: parts)).Nodup)
    (deletes : Deletes ν fuel) (enough : q.nodes.length < fuel) :
    ∃ m', jsonDelete fuel q.node m = .ok ((), m') ∧ Holder m' a parts ∧
      Cleared m m' (a :: (q.nodes ++ partNodes parts)) q.nodes (q.key.toList ++ q.texts) := by
  obtain ⟨x, cell, container, list⟩ := holder.node
  obtain ⟨y, cell_q, parent, keyed, key, live⟩ := holder.child q List.mem_cons_self
  have owns := holder.below q List.mem_cons_self
  obtain ⟨apart, distinct⟩ := List.nodup_cons.mp nodup
  obtain ⟨distinct_q, distinct_parts, between⟩ := List.nodup_append.mp
    (show (q.nodes ++ partNodes parts).Nodup from distinct)
  obtain ⟨distinct_text, -, betweenText⟩ := List.nodup_append.mp
    (show ((q.key.toList ++ q.texts) ++ partTexts parts).Nodup from nodupText)
  have child_mem : ∀ c ∈ parts.map Part.node, ∃ p ∈ parts, p.node = c := fun c mem =>
    List.mem_map.mp mem
  have inside : ∀ p ∈ parts, p.node ∈ partNodes parts := fun p mem =>
    mem_partNodes mem (holder.below p (List.mem_cons_of_mem q mem)).root_mem
  have other : q.node ≠ a := fun eq =>
    apart (eq ▸ mem_partNodes List.mem_cons_self owns.root_mem)
  have siblings : ∀ c ∈ [] ++ parts.map Part.node, ∃ z, m.nodes.cells c = some z := by
    intro c mem
    obtain ⟨p, mem_p, rfl⟩ := child_mem c mem
    obtain ⟨z, cell_p, -⟩ := holder.child p (List.mem_cons_of_mem q mem_p)
    exact ⟨z, cell_p⟩
  have list' : Enumerates (links m.nodes) x.head x.tail
      ([] ++ q.node :: parts.map Part.node) := list
  have prev : y.prev = none := (pointer_eq cell_q Node.prev).symm.trans list'.prev_eq
  have next : y.next = (parts.map Part.node).head? :=
    (pointer_eq cell_q Node.next).symm.trans list'.next_eq
  have next_mem : ∀ b, y.next = some b → b ∈ parts.map Part.node := fun b eq =>
    List.mem_of_head? (next.symm.trans eq)
  -- the child is removed first, with its key
  have run : jsonRemoveFromParent q.node m =
      .ok ((), ⟨m.nodes.adjust (removed a q.node y), released m.texts y.key⟩) := by
    refine removeFromParent_eq cell_q parent cell (fun b eq => ?_) (fun b eq => ?_)
      (propertyFree_live keyed fun t eq => live t (key.symm.trans eq))
    · rw [prev] at eq
      cases eq
    · exact siblings b (next_mem b eq)
  have loose : (m.nodes.adjust (removed a q.node y)).cells q.node = some (cleared y) := by
    rw [adjust_live cell_q, removed_child other]
  have still : ∀ b, b ≠ a → b ≠ q.node → b ∉ parts.map Part.node →
      (m.nodes.adjust (removed a q.node y)).cells b = m.nodes.cells b := by
    intro b not_a not_q not_child
    have idle : removed a q.node y b = id := by
      funext z
      refine removed_other not_a not_q (fun eq => ?_) (fun eq => not_child (next_mem b eq)) z
      rw [prev] at eq
      cases eq
    rw [adjust_cells, idle, Option.map_id_fun, id_eq]
  have stillText : ∀ t, t ∉ q.key.toList → (released m.texts y.key).cells t = m.texts.cells t :=
    fun t not_key => released_cells fun eq => not_key (Option.mem_toList.mpr (key.symm.trans eq))
  have owns₁ : Owns (⟨m.nodes.adjust (removed a q.node y), released m.texts y.key⟩ : Memory ν)
      q.node q.nodes q.texts := by
    refine owns.frame distinct_q (fun z cell_z => ?_) (fun b mem not_q => ?_) fun t mem => ?_
    · cases cell_q.symm.trans cell_z
      exact ⟨cleared y, loose, rfl, rfl, rfl, rfl, rfl, rfl⟩
    · refine still b (fun eq => apart (eq ▸ mem_partNodes List.mem_cons_self mem)) not_q
        fun child => ?_
      obtain ⟨p, mem_p, rfl⟩ := child_mem b child
      exact between _ mem _ (inside p mem_p) rfl
    · exact stillText t fun key_mem =>
        (List.nodup_append.mp distinct_text).2.2 t key_mem t mem rfl
  obtain ⟨fuel, rfl⟩ := Nat.exists_eq_succ_of_ne_zero (Nat.ne_zero_of_lt enough)
  refine ⟨_, (jsonDelete_removed run loose rfl fuel).trans (deletes owns₁ distinct_q
    (List.nodup_append.mp distinct_text).2.1 loose rfl enough), ?_, ?_⟩
  · have outside : ∀ p ∈ parts, ∀ b ∈ p.nodes, b ∉ q.nodes := fun p mem b mem_b mem_q =>
      between b mem_q b (mem_partNodes mem mem_b) rfl
    have outsideText : ∀ p ∈ parts, ∀ t ∈ p.key.toList ++ p.texts,
        ((released m.texts y.key).eraseAll q.texts).cells t = m.texts.cells t := by
      intro p mem t mem_t
      have apart_t : t ∉ q.key.toList ++ q.texts := fun mem_q =>
        betweenText t mem_q t (mem_partTexts mem mem_t) rfl
      rw [List.mem_append, not_or] at apart_t
      exact (eraseAll_cells apart_t.2).trans (stillText t apart_t.1)
    have sibling : ∀ p ∈ parts, p.node ≠ a ∧ p.node ≠ q.node ∧ p.node ∉ q.nodes := by
      intro p mem
      have root := (holder.below p (List.mem_cons_of_mem q mem)).root_mem
      refine ⟨fun eq => ?_, fun eq => ?_, outside p mem _ root⟩
      · exact apart (eq ▸ mem_partNodes (List.mem_cons_of_mem q mem) root)
      · exact outside p mem _ root (eq ▸ owns.root_mem)
    have sideways : ∀ p ∈ parts, ∀ z, m.nodes.cells p.node = some z → ∃ prev next,
        ((m.nodes.adjust (removed a q.node y)).eraseAll q.nodes).cells p.node =
          some { z with prev := prev, next := next } := by
      intro p mem z cell_p
      obtain ⟨not_a, not_q, not_inside⟩ := sibling p mem
      obtain ⟨prev, next, eq⟩ := removed_sideways y not_a not_q z
      exact ⟨prev, next, (eraseAll_cells not_inside).trans ((adjust_live cell_p).trans
        (congrArg some eq))⟩
    refine ⟨⟨removed a q.node y a x, ?_, ?_, ?_⟩, fun p mem => ?_, fun p mem => ?_⟩
    · refine (eraseAll_cells fun mem => ?_).trans (adjust_live cell)
      exact apart (mem_partNodes List.mem_cons_self mem)
    · rw [IsContainer, removed_eq]
      exact container
    · refine (enumerates_removed list' cell_q siblings).congr fun c mem => ?_
      obtain ⟨p, mem_p, rfl⟩ := child_mem c mem
      have same : ((m.nodes.adjust (removed a q.node y)).eraseAll q.nodes).cells p.node =
          (m.nodes.adjust (removed a q.node y)).cells p.node :=
        eraseAll_cells (sibling p mem_p).2.2
      exact ⟨congrArg (Option.bind · Node.next) same, congrArg (Option.bind · Node.prev) same⟩
    · obtain ⟨z, cell_p, parent_p, keyed_p, key_p, live_p⟩ :=
        holder.child p (List.mem_cons_of_mem q mem)
      obtain ⟨prev, next, cell_p'⟩ := sideways p mem z cell_p
      refine ⟨_, cell_p', parent_p, keyed_p, key_p, fun t eq => ?_⟩
      rw [outsideText p mem t (List.mem_append_left _ (Option.mem_toList.mpr eq))]
      exact live_p t eq
    · refine (holder.below p (List.mem_cons_of_mem q mem)).frame
        ((List.nodup_flatMap.mp distinct_parts).1 p mem) (fun z cell_p => ?_)
        (fun b mem_b not_p => ?_) fun t mem_t =>
          outsideText p mem t (List.mem_append_right _ mem_t)
      · obtain ⟨prev, next, cell_p'⟩ := sideways p mem z cell_p
        exact ⟨_, cell_p', rfl, rfl, rfl, rfl, rfl, rfl⟩
      · refine (eraseAll_cells (outside p mem b mem_b)).trans (still b (fun eq => ?_)
          (fun eq => ?_) fun child => ?_)
        · exact apart (eq ▸ mem_partNodes (List.mem_cons_of_mem q mem) mem_b)
        · exact outside p mem b mem_b (eq ▸ owns.root_mem)
        · obtain ⟨p', mem', rfl⟩ := child_mem b child
          have root := (holder.below p' (List.mem_cons_of_mem q mem')).root_mem
          exact not_p (congrArg Part.node (part_unique distinct_parts mem' mem root mem_b))
  · refine ⟨rfl, released_brk m.texts y.key, fun b other_b => ?_, fun b mem => eraseAll_mem mem,
      fun t not_t => ?_, fun t mem => ?_⟩
    · rw [List.mem_cons, List.mem_append, not_or, not_or] at other_b
      obtain ⟨not_a, not_q, not_parts⟩ := other_b
      refine (eraseAll_cells not_q).trans (still b not_a (fun eq => ?_) fun child => ?_)
      · exact not_q (eq ▸ owns.root_mem)
      · obtain ⟨p, mem_p, rfl⟩ := child_mem b child
        exact not_parts (inside p mem_p)
    · rw [List.mem_append, not_or] at not_t
      exact (eraseAll_cells not_t.2).trans (stillText t not_t.1)
    · by_cases below : t ∈ q.texts
      · exact eraseAll_mem below
      · have owned : releases y.key = some t := by
          rw [key]
          exact Option.mem_toList.mp ((List.mem_append.mp mem).resolve_right below)
        exact (eraseAll_cells below).trans (mem_cells_released owned)

/-- The loop over the children. -/
theorem Holder.delete_all {fuel n : Nat} (holder : Holder m a parts)
    (nodup : (a :: partNodes parts).Nodup) (nodupText : (partTexts parts).Nodup)
    (deletes : Deletes ν fuel) (enough : (partNodes parts).length < fuel)
    (rounds : parts.length < n) :
    ∃ m', deleteChildren (jsonDelete fuel) n (parts.map Part.node).head? m = .ok ((), m') ∧
      Holder m' a [] ∧ Cleared m m' (a :: partNodes parts) (partNodes parts) (partTexts parts) := by
  induction parts generalizing m n with
  | nil =>
      obtain ⟨n, rfl⟩ := Nat.exists_eq_succ_of_ne_zero (Nat.ne_zero_of_lt rounds)
      exact ⟨m, rfl, holder, rfl, rfl, fun _ _ => rfl, nofun, fun _ _ => rfl, nofun⟩
  | cons q parts ih =>
      obtain ⟨n, rfl⟩ := Nat.exists_eq_succ_of_ne_zero (Nat.ne_zero_of_lt rounds)
      obtain ⟨y, cell, -⟩ := holder.child q List.mem_cons_self
      obtain ⟨x, -, -, list⟩ := holder.node
      have length : q.nodes.length + (partNodes parts).length < fuel := by
        rwa [← List.length_append]
      obtain ⟨m₁, deleted, holder₁, cleared₁⟩ :=
        holder.delete_first nodup nodupText deletes (by omega)
      have nodup_all : (a :: (q.nodes ++ partNodes parts)).Nodup := nodup
      have nodup_text : ((q.key.toList ++ q.texts) ++ partTexts parts).Nodup := nodupText
      have nodup_rest : (a :: partNodes parts).Nodup :=
        nodup_all.sublist (.cons_cons a (List.sublist_append_right _ _))
      obtain ⟨m₂, rest, holder₂, cleared₂⟩ := ih holder₁ nodup_rest
        (List.nodup_append.mp nodup_text).2.1 (by omega) (Nat.lt_of_succ_lt_succ rounds)
      have next : y.next = (parts.map Part.node).head? := by
        have split : Enumerates (links m.nodes) x.head x.tail
          ([] ++ q.node :: parts.map Part.node) := list
        exact (pointer_eq cell Node.next).symm.trans split.next_eq
      refine ⟨m₂, ?_, holder₂, cleared₁.trans cleared₂ (fun c mem => ?_) fun t mem mem' => ?_⟩
      · rw [List.map_cons, List.head?_cons, deleteChildren, bind_of_ok (onNodes_ok (read_eq cell)),
          bind_of_ok deleted, next]
        exact rest
      · obtain ⟨apart, distinct⟩ := List.nodup_cons.mp nodup_all
        rw [List.mem_cons, not_or]
        refine ⟨fun eq => apart (eq ▸ List.mem_append_left _ mem), fun mem' => ?_⟩
        exact (List.nodup_append.mp distinct).2.2 c mem c mem' rfl
      · exact (List.nodup_append.mp nodup_text).2.2 t mem t mem' rfl

theorem Heap.ext_cells {α : Type} {h h' : Heap α} (brk : h'.brk = h.brk)
    (cells : ∀ b, h'.cells b = h.cells b) : h' = h := by
  obtain ⟨c, n⟩ := h
  obtain ⟨c', n'⟩ := h'
  cases brk
  cases (funext cells : c' = c)
  rfl

/-- All that a tree owns is released, once each, and nothing else is touched. -/
theorem deletes (fuel : Nat) : Deletes ν fuel := by
  induction fuel with
  | zero => exact fun _ _ _ _ _ enough => absurd enough (Nat.not_lt_zero _)
  | succ fuel ih =>
      intro m a x nodes texts owns nodup nodupText cell loose enough
      have root : jsonRemoveFromParent a m = .ok ((), m) := by
        rw [jsonRemoveFromParent, bind_of_ok (onNodes_ok (read_eq cell)), loose]
        rfl
      cases owns with
      | leaf cell' leaf live =>
          cases cell.symm.trans cell'
          have no_children : ¬ (x.tag = code .array ∨ x.tag = code .object) := leaf
          rw [jsonDelete, bind_of_ok root, bind_of_ok (onNodes_ok (read_eq cell)), stringText]
          dsimp only
          by_cases string : x.tag = code .string
          · rw [if_pos string, if_pos string]
            rw [stringText, if_pos string] at live
            cases text : x.string_ with
            | none =>
                rw [← erase_eq_eraseAll, Option.toList_none, eraseAll_nil]
                change onNodes (free a) m = _
                exact onNodes_ok (free_eq cell)
            | some t =>
                rw [text] at live
                obtain ⟨u, there⟩ := live t (List.mem_singleton_self t)
                have freed : jsonDeleteString (some t) m =
                    .ok ((), { m with texts := m.texts.erase t }) := onTexts_ok (free_eq there)
                rw [bind_of_ok freed, Option.toList_some, ← erase_eq_eraseAll, ← erase_eq_eraseAll]
                exact onNodes_ok (m := { m with texts := m.texts.erase t }) (free_eq cell)
          · rw [if_neg string, if_neg string, if_neg no_children, eraseAll_nil,
              ← erase_eq_eraseAll]
            exact onNodes_ok (free_eq cell)
      | @container _ _ parts cell' container list child below =>
          cases cell.symm.trans cell'
          have not_string : ¬ x.tag = code .string := by
            obtain array | object := container
            · rw [array]
              decide
            · rw [object]
              decide
          have holder : Holder m a parts := ⟨⟨x, cell, container, list⟩, child, below⟩
          have apart := (List.nodup_cons.mp nodup).1
          have length : (partNodes parts).length < fuel := Nat.lt_of_succ_lt_succ enough
          have rounds : parts.length < fuel + 1 :=
            Nat.lt_succ_of_lt (Nat.lt_of_le_of_lt (length_le_partNodes below) length)
          obtain ⟨m₁, emptied, holder₁, cleared⟩ :=
            holder.delete_all nodup nodupText ih length rounds
          obtain ⟨z, cell₁, -⟩ := holder₁.node
          have same : (⟨m₁.nodes.erase a, m₁.texts⟩ : Memory ν) =
              ⟨m.nodes.eraseAll (a :: partNodes parts), m.texts.eraseAll (partTexts parts)⟩ := by
            have nodes : m₁.nodes.erase a = m.nodes.eraseAll (a :: partNodes parts) := by
              refine Heap.ext_cells cleared.brk fun b => ?_
              by_cases mem : b ∈ a :: partNodes parts
              · rw [eraseAll_mem mem, erase_cells]
                split_ifs with eq
                · rfl
                · exact cleared.gone b ((List.mem_cons.mp mem).resolve_left eq)
              · rw [eraseAll_cells mem, erase_cells,
                  if_neg fun eq : b = a => mem (eq ▸ List.mem_cons_self)]
                exact cleared.kept b mem
            have texts : m₁.texts = m.texts.eraseAll (partTexts parts) := by
              refine Heap.ext_cells cleared.brkText fun t => ?_
              by_cases mem : t ∈ partTexts parts
              · rw [eraseAll_mem mem, cleared.goneText t mem]
              · rw [eraseAll_cells mem, cleared.keptText t mem]
            rw [nodes, texts]
          rw [jsonDelete, bind_of_ok root, bind_of_ok (onNodes_ok (read_eq cell)),
            if_neg not_string, if_pos
              (show x.tag = code .array ∨ x.tag = code .object from container),
            list.head_eq, bind_of_ok emptied, ← same]
          exact onNodes_ok (free_eq cell₁)

end

end AcnSdk.Json.Pointers

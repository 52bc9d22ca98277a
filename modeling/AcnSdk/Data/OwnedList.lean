/-
Lists whose nodes are all that was made.

A program that makes its nodes itself and keeps them in one list has on its heap what was there
before, and the nodes of the list.

* `OwnedList.add`, `OwnedList.del` — a node is made for the list, and one is taken out and released.
* `OwnedList.find` — a search ends at the first node that compares equal.
-/

import AcnSdk.Data.LinkedListMacros
import AcnSdk.Lib.Grown

namespace AcnSdk.Data

open AcnSdk.Lib Prog Heap

variable {α : Type} {link : Link α} {h₀ h h' : Heap α} {root : Option Addr} {as nodes : List Addr}
  {a el : Addr} {x : α}

/-- The list from `root` on has these nodes, and nothing else was made. -/
structure OwnedList (link : Link α) (h₀ h : Heap α) (root : Option Addr) (as : List Addr) :
    Prop where
  walk : Walk (nextIn link h) root as
  nodes : Grown h₀ h as

/-- Changing links makes and releases nothing. -/
theorem Grown.relinked (grown : Grown h₀ h as) (relinked : Relinked link h h' nodes)
    (sub : nodes ⊆ as) : Grown h₀ h' as := by
  refine grown.changed relinked.brk (fun a => ?_) fun a apart =>
    relinked.others a fun there => apart (sub there)
  rw [Option.isSome_iff_exists, Option.isSome_iff_exists]
  exact relinked.live a

/-- A node keeps what it holds besides its link. -/
theorem Relinked.keeps (relinked : Relinked link h h' nodes) {β : Type} (data : α → β)
    (free : ∀ p x, data (link.setNext p x) = data x) (cell : h.cells a = some x) :
    ∃ y, h'.cells a = some y ∧ data y = data x := by
  have same := relinked.contents data free a
  rw [cell, Option.map_some, Option.map_eq_some_iff] at same
  exact same

namespace OwnedList

theorem nil (fresh : h₀.Fresh) : OwnedList link h₀ h₀ none [] := ⟨rfl, .refl fresh⟩

theorem length_le (list : OwnedList link h₀ h root as) : as.length ≤ h.brk := list.nodes.length_le

theorem live (list : OwnedList link h₀ h root as) (there : a ∈ as) : Live h a :=
  list.nodes.cell there

/-- A list in a heap with the same cells. -/
theorem same (list : OwnedList link h₀ h root as) (fresh : h'.Fresh)
    (cells : ∀ a, h'.cells a = h.cells a) : OwnedList link h₀ h' root as where
  walk := list.walk.congr fun a _ => congrArg (Option.bind · link.next) (cells a)
  nodes := list.nodes.same fresh cells

/-- A new node is put at the end. -/
theorem add (list : OwnedList link h₀ h root as) (x : α) :
    ∃ root' h', addNodeLast link root h.brk (h.push x) = .ok (root', h') ∧
      OwnedList link h₀ h' root' (as ++ [h.brk]) ∧
      Relinked link (h.push x) h' (h.brk :: as) := by
  have new : h.brk ∉ as := fun there => Nat.lt_irrefl _ (list.nodes.lt there)
  have grown : Grown h₀ (h.push x) (h.brk :: as) := list.nodes.push x
  have walk : Walk (nextIn link (h.push x)) root as := by
    refine list.walk.congr fun a there => congrArg (Option.bind · link.next) ?_
    exact if_neg (Nat.ne_of_lt (list.nodes.lt there))
  obtain ⟨root', h', run, relinked, walk'⟩ := arrowLinkedListAdd_walk walk
    (fun a there => grown.cell (List.mem_cons_of_mem _ there))
    (Nat.le_of_succ_le grown.length_le) new ⟨x, if_pos rfl⟩
  refine ⟨root', h', run, ⟨walk', ?_⟩, relinked⟩
  exact (Grown.relinked grown relinked (List.Subset.refl _)).perm
    (List.perm_append_singleton _ _).symm

/-- A node is taken out of the list, and released. -/
theorem del {l r : List Addr} (list : OwnedList link h₀ h root (l ++ el :: r)) :
    ∃ root' h', delNode link root el h = .ok (root', h') ∧
      (∃ y, h'.cells el = some y) ∧ OwnedList link h₀ (h'.erase el) root' (l ++ r) ∧
      Relinked link h h' (l ++ el :: r) := by
  obtain ⟨first, rfl⟩ : ∃ first, root = some first := by
    refine Option.isSome_iff_exists.mp ?_
    rw [list.walk.start_eq]
    cases l <;> rfl
  obtain ⟨root', h', run, relinked, walk⟩ := arrowLinkedListDel_walk list.walk
    (fun a there => list.live there) list.length_le
  have grown : Grown h₀ h' (el :: (l ++ r)) :=
    (Grown.relinked list.nodes relinked (List.Subset.refl _)).perm List.perm_middle
  have distinct : el ∉ l ++ r := (List.nodup_cons.mp grown.distinct).1
  refine ⟨root', h', run, grown.cell List.mem_cons_self, ⟨?_, grown.erase⟩, relinked⟩
  refine walk.congr fun a there => congrArg (Option.bind · link.next) (if_neg ?_)
  rintro rfl
  exact distinct there

/-- A search ends at the first node that compares equal. -/
theorem find (list : OwnedList link h₀ h root as) (func : α → Int) :
    findNode link func root h = .ok (as.find? (Matches func h), h) :=
  findNode_eq func list.walk (fun _ there => list.live there) list.length_le

end OwnedList

end AcnSdk.Data

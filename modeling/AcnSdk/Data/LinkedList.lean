/-
The singly linked lists of `src/data/linkedlist.c`.

A list node is embedded in a larger record (`arrow_linked_list_head_node`), so the
functions are generic over the records of a heap and over the link of a record;
`container_of` gives the record back and has no counterpart. A walk that visits
more nodes than were ever made has met one twice and does not end.
-/

import AcnSdk.Lib.Heap

namespace AcnSdk.Data

open AcnSdk.Lib Heap

/-- The `node` member of a record. -/
structure Link (α : Type) where
  next : α → Option Addr
  setNext : Option Addr → α → α
  next_setNext : ∀ p x, next (setNext p x) = p

variable {α : Type} (link : Link α)

/-- `while ( last && last->next ) last = last->next;` from the node `last` on. -/
def arrowLinkedListLast : Nat → Addr → HeapM α Addr
  | 0, _ => throw .endless
  | fuel + 1, last => do
      let x ← read last
      match link.next x with
      | some next => arrowLinkedListLast fuel next
      | none => return last

/-- `arrow_linked_list_add`. -/
def arrowLinkedListAdd (root : Option Addr) (el : Addr) : HeapM α (Option Addr) := do
  update el (link.setNext none)
  match root with
  | some root =>
      let last ← arrowLinkedListLast link (← bound) root
      update last (link.setNext (some el))
      return some root
  | none => return some el

/-- The loop of `arrow_linked_list_del`, at `last` with `prev` before it. -/
def arrowLinkedListDelFrom (root el : Addr) : Nat → Option Addr → Option Addr →
    HeapM α (Option Addr)
  | 0, _, _ => throw .endless
  | _ + 1, _, none => return none
  | fuel + 1, prev, some last => do
      let x ← read last
      if last = el then
        match prev with
        | some prev =>
            update prev (link.setNext (link.next x))
            return some root
        | none =>
            update root (link.setNext none)
            return link.next x
      else arrowLinkedListDelFrom root el fuel (some last) (link.next x)

/-- `arrow_linked_list_del`. -/
def arrowLinkedListDel (root el : Addr) : HeapM α (Option Addr) := do
  arrowLinkedListDelFrom link root el (← bound) none (some root)

variable {link}

/-- Adding after the last node of a list. -/
theorem arrowLinkedListAdd_last {h : Heap α} {a el : Addr} {x e : α} (hx : h.cells a = some x)
    (he : h.cells el = some e) (ne : a ≠ el) (last : link.next x = none) :
    arrowLinkedListAdd link (some a) el h =
      .ok (some a, (h.set el (link.setNext none e)).set a (link.setNext (some el) x)) := by
  have hx' : (h.set el (link.setNext none e)).cells a = some x := by simp [ne, hx]
  have walk : arrowLinkedListLast link (h.brk + 2) a (h.set el (link.setNext none e)) =
      .ok (a, h.set el (link.setNext none e)) := by
    simp [arrowLinkedListLast, read_eq hx', last]
  simp [arrowLinkedListAdd, update_eq he, walk, update_eq hx']

/-- Deleting the node after the root. -/
theorem arrowLinkedListDel_second {h : Heap α} {a el : Addr} {x e : α} (hx : h.cells a = some x)
    (he : h.cells el = some e) (ne : a ≠ el) (next : link.next x = some el) :
    arrowLinkedListDel link a el h =
      .ok (some a, h.set a (link.setNext (link.next e) x)) := by
  simp [arrowLinkedListDel, arrowLinkedListDelFrom, read_eq hx, read_eq he, ne, next, update_eq hx]

/-- Deleting the root. -/
theorem arrowLinkedListDel_root {h : Heap α} {a : Addr} {x : α} (hx : h.cells a = some x) :
    arrowLinkedListDel link a a h = .ok (link.next x, h.set a (link.setNext none x)) := by
  simp [arrowLinkedListDel, arrowLinkedListDelFrom, read_eq hx, update_eq hx]

/-! ### Lists -/

section Lists

variable {β : Type} {data : α → β}

variable (link) (data) in
/-- The list from a pointer on: its nodes, with what their records hold besides the link. -/
inductive Linked (h : Heap α) : Option Addr → List (Addr × β) → Prop where
  | nil : Linked h none []
  | cons {a : Addr} {x : α} {items : List (Addr × β)} (cell : h.cells a = some x)
      (rest : Linked h (link.next x) items) : Linked h (some a) ((a, data x) :: items)

theorem Linked.congr {h h' : Heap α} {p : Option Addr} {items : List (Addr × β)}
    (linked : Linked link data h p items)
    (same : ∀ a ∈ items.map Prod.fst, h'.cells a = h.cells a) : Linked link data h' p items := by
  induction linked with
  | nil => exact .nil
  | cons cell _ ih =>
      exact .cons ((same _ List.mem_cons_self).trans cell)
        (ih fun a ha => same a (List.mem_cons_of_mem _ ha))

/-- The last node of a list, and what linking another one to it does. -/
theorem Linked.link_last (keeps : ∀ p x, data (link.setNext p x) = data x) {h : Heap α}
    {items : List (Addr × β)} {a el : Addr} {e : α} (linked : Linked link data h (some a) items)
    (nodup : (items.map Prod.fst).Nodup) (new : el ∉ items.map Prod.fst)
    (cell_el : h.cells el = some e) (single : link.next e = none) :
    ∃ last x, h.cells last = some x ∧ last ∈ items.map Prod.fst ∧
      (∀ fuel, items.length ≤ fuel → arrowLinkedListLast link fuel a h = .ok (last, h)) ∧
      Linked link data (h.set last (link.setNext (some el) x)) (some a)
        (items ++ [(el, data e)]) := by
  induction items generalizing a with
  | nil => cases linked
  | cons item items ih =>
      obtain @⟨⟩ | ⟨cell, rest⟩ := linked
      rename_i x
      rw [List.map_cons, List.nodup_cons] at nodup
      have ne : el ≠ a := fun e => new (by rw [e]; exact List.mem_cons_self)
      cases next : link.next x with
      | none =>
          rw [next] at rest
          cases rest
          refine ⟨a, x, cell, List.mem_cons_self, fun fuel enough => ?_, ?_⟩
          · obtain ⟨fuel, rfl⟩ := Nat.exists_eq_succ_of_ne_zero (Nat.ne_zero_of_lt enough)
            simp [arrowLinkedListLast, read_eq cell, next]
          · rw [← keeps (some el) x]
            refine .cons (by simp) ?_
            rw [link.next_setNext]
            refine .cons (x := e) (by simp [ne, cell_el]) ?_
            rw [single]
            exact .nil
      | some b =>
          rw [next] at rest
          obtain ⟨last, y, cell_last, mem, walk, longer⟩ :=
            ih rest nodup.2 fun mem => new (List.mem_cons_of_mem _ mem)
          have other : a ≠ last := fun e => nodup.1 (e ▸ mem)
          refine ⟨last, y, cell_last, List.mem_cons_of_mem _ mem, fun fuel enough => ?_, ?_⟩
          · obtain ⟨fuel, rfl⟩ := Nat.exists_eq_succ_of_ne_zero (Nat.ne_zero_of_lt enough)
            simp [arrowLinkedListLast, read_eq cell, next,
              walk fuel (Nat.le_of_succ_le_succ enough)]
          · refine .cons (x := x) (by simp [other, cell]) ?_
            rw [next]
            exact longer

/-- `arrow_linked_list_add` adds a node at the end. -/
theorem arrowLinkedListAdd_linked (keeps : ∀ p x, data (link.setNext p x) = data x) {h : Heap α}
    {items : List (Addr × β)} {p : Option Addr} {el : Addr} {e : α}
    (linked : Linked link data h p items) (nodup : (items.map Prod.fst).Nodup)
    (short : items.length ≤ h.brk) (new : el ∉ items.map Prod.fst) (cell : h.cells el = some e) :
    ∃ p' h', arrowLinkedListAdd link p el h = .ok (p', h') ∧ h'.brk = h.brk ∧
      Linked link data h' p' (items ++ [(el, data e)]) := by
  have same : data (link.setNext none e) = data e := keeps none e
  have linked₁ : Linked link data (h.set el (link.setNext none e)) p items := by
    refine linked.congr fun a ha => ?_
    have other : a ≠ el := fun eq => new (eq ▸ ha)
    simp [other]
  cases p with
  | none =>
      cases linked
      refine ⟨some el, h.set el (link.setNext none e), by simp [arrowLinkedListAdd, update_eq cell],
        rfl, ?_⟩
      rw [← same]
      refine .cons (by simp) ?_
      rw [link.next_setNext]
      exact .nil
  | some a =>
      obtain ⟨last, x, cell_last, -, walk, longer⟩ := linked₁.link_last keeps nodup new
        (e := link.setNext none e) (by simp) (link.next_setNext none e)
      have walked := walk (h.brk + 2) (Nat.le_add_right_of_le short)
      have linked_el : arrowLinkedListAdd link (some a) el h = .ok (some a,
          (h.set el (link.setNext none e)).set last (link.setNext (some el) x)) := by
        simp [arrowLinkedListAdd, update_eq cell, walked, update_eq cell_last]
      refine ⟨some a, _, linked_el, rfl, ?_⟩
      rw [← same]
      exact longer

end Lists

end AcnSdk.Data

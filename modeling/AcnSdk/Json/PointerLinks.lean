/-
The links of the nodes, and the forest that they are.

The children of a node are one doubly linked list from its first to its last one, each of them
points to it, and a node that is no child has no neighbours.

* `Linkage.append`, `Linkage.prepend` — a root that is linked becomes a child.
* `Linkage.remove` — a child that is unlinked becomes a root.
-/

import AcnSdk.Json.Pointers
import AcnSdk.Lib.DoublyLinked
import AcnSdk.Lib.Forest

namespace AcnSdk.Json.Pointers

open AcnSdk.Lib Heap

variable {ν : Type}

/-- Where a field of the node at an address points to. -/
def pointer (h : Heap (Node ν)) (field : Node ν → Option Addr) (a : Addr) : Option Addr :=
  (h.cells a).bind field

/-- The neighbours of the nodes. -/
def links (h : Heap (Node ν)) : Links Addr := ⟨pointer h Node.prev, pointer h Node.next⟩

/-- The pointers of the nodes are those of the forest. -/
structure Linkage (h : Heap (Node ν)) (f : Forest Addr) : Prop where
  fresh : h.Fresh
  live : ∀ {c p}, c ∈ f.children p → (∃ x, h.cells c = some x) ∧ ∃ y, h.cells p = some y
  children : ∀ {p x}, h.cells p = some x → Enumerates (links h) x.head x.tail (f.children p)
  parent : ∀ {c x}, h.cells c = some x → ∀ p, x.parent = some p ↔ c ∈ f.children p
  loose : ∀ {c x}, h.cells c = some x → x.parent = none → x.prev = none ∧ x.next = none

theorem pointer_eq {h : Heap (Node ν)} {a : Addr} {x : Node ν} (cell : h.cells a = some x)
    (field : Node ν → Option Addr) : pointer h field a = field x := by
  rw [pointer, cell, Option.bind_some]

/-- A field that a change leaves alone. -/
theorem pointer_adjust_same {h : Heap (Node ν)} {g : Addr → Node ν → Node ν}
    {field : Node ν → Option Addr} {a : Addr} (same : ∀ y, field (g a y) = field y) :
    pointer (h.adjust g) field a = pointer h field a := by
  rw [pointer, pointer, adjust_cells, Option.bind_map]
  exact congrArg _ (funext same)

/-- A field that a change sets. -/
theorem pointer_adjust_set {h : Heap (Node ν)} {g : Addr → Node ν → Node ν}
    {field : Node ν → Option Addr} {a : Addr} {p : Option Addr} (live : ∃ x, h.cells a = some x)
    (set : ∀ y, field (g a y) = p) : pointer (h.adjust g) field a = p := by
  obtain ⟨x, cell⟩ := live
  rw [pointer_eq (adjust_live cell)]
  exact set x

/-- `append_node` appends a node to the list of children. -/
theorem enumerates_appended {h : Heap (Node ν)} {p c : Addr} {x : Node ν} {as : List Addr}
    (en : Enumerates (links h) x.head x.tail as) (new : ∃ y, h.cells c = some y)
    (live : ∀ a ∈ as, ∃ y, h.cells a = some y) (apart : c ∉ as) :
    Enumerates (links (h.adjust (appended p c x))) (appended p c x p x).head
      (appended p c x p x).tail (as ++ [c]) := by
  have ne : ∀ {a}, a ∈ as → a ≠ c := fun mem eq => apart (eq ▸ mem)
  have not_last : x.tail ≠ some c := fun eq =>
    apart (List.mem_of_getLast? (en.tail_eq.symm.trans eq))
  have head : (appended p c x p x).head = x.head.or (some c) := by
    rw [appended_eq, en.tail_eq, en.head_eq]
    cases as <;> simp
  have tail : (appended p c x p x).tail = some c := by
    rw [appended_eq]
    exact if_pos rfl
  rw [head, tail]
  refine en.append apart ?_ ?_ ?_ ?_ ?_
  · refine pointer_adjust_set new fun z => ?_
    rw [appended_eq]
    exact if_pos rfl
  · refine pointer_adjust_set new fun z => ?_
    rw [appended_eq]
    exact (if_neg not_last).trans (if_pos rfl)
  · refine fun a mem => pointer_adjust_same fun z => ?_
    rw [appended_eq]
    exact if_neg (ne mem)
  · refine fun a mem last => pointer_adjust_set (live a mem) fun z => ?_
    rw [appended_eq]
    exact if_pos last
  · refine fun a mem inner => pointer_adjust_same fun z => ?_
    rw [appended_eq]
    exact (if_neg inner).trans (if_neg (ne mem))

/-- `json_remove_from_parent` takes a node out of the list of children. -/
theorem enumerates_removed {h : Heap (Node ν)} {p c : Addr} {x z : Node ν} {l r : List Addr}
    (en : Enumerates (links h) z.head z.tail (l ++ c :: r)) (cell : h.cells c = some x)
    (live : ∀ a ∈ l ++ r, ∃ y, h.cells a = some y) :
    Enumerates (links (h.adjust (removed p c x))) (removed p c x p z).head
      (removed p c x p z).tail (l ++ r) := by
  have at_next : (links h).next c = x.next := pointer_eq cell Node.next
  have at_prev : (links h).prev c = x.prev := pointer_eq cell Node.prev
  have not_l : c ∉ l :=
    fun mem => (List.nodup_append.mp en.nodup).2.2 c mem c List.mem_cons_self rfl
  have ne : ∀ {a}, a ∈ l ++ r → a ≠ c := by
    rintro a mem rfl
    exact (List.mem_append.mp mem).elim not_l (Enumerates.not_mem_rest en.nodup)
  have shorter := en.remove (links (h.adjust (removed p c x))) ?_ ?_ ?_ ?_
  · rw [at_prev, at_next] at shorter
    rw [removed_eq]
    simpa [Option.isNone_iff_eq_none] using shorter
  · intro a mem prev
    have mem' : a ∈ l ++ r := List.mem_append_left r mem
    refine pointer_adjust_set (live a mem') fun w => ?_
    rw [removed_eq, at_next]
    exact (if_neg (ne mem')).trans (if_pos (at_prev.symm.trans prev))
  · intro a mem apart
    refine pointer_adjust_same fun w => ?_
    rw [removed_eq]
    exact (if_neg (ne mem)).trans (if_neg fun prev => apart (at_prev.trans prev))
  · intro a mem next
    have mem' : a ∈ l ++ r := List.mem_append_right l mem
    refine pointer_adjust_set (live a mem') fun w => ?_
    rw [removed_eq, at_prev]
    exact (if_neg (ne mem')).trans (if_pos (at_next.symm.trans next))
  · intro a mem apart
    refine pointer_adjust_same fun w => ?_
    rw [removed_eq]
    exact (if_neg (ne mem)).trans (if_neg fun next => apart (at_next.trans next))

namespace Linkage

variable {h : Heap (Node ν)} {f : Forest Addr} {p c : Addr} {x y : Node ν}

/-- A list whose nodes keep their neighbours. -/
theorem elsewhere {g : Addr → Node ν → Node ν} {head tail : Option Addr} {as : List Addr}
    (en : Enumerates (links h) head tail as)
    (same : ∀ a ∈ as, ∀ y, (g a y).next = y.next ∧ (g a y).prev = y.prev) :
    Enumerates (links (h.adjust g)) head tail as := by
  refine en.congr fun a mem => ⟨?_, ?_⟩
  · exact pointer_adjust_same fun y => (same a mem y).1
  · exact pointer_adjust_same fun y => (same a mem y).2

theorem head_mem (linkage : Linkage h f) (cell : h.cells p = some x) {a : Addr}
    (head : x.head = some a) : a ∈ f.children p :=
  List.mem_of_head? ((linkage.children cell).head_eq.symm.trans head)

theorem tail_mem (linkage : Linkage h f) (cell : h.cells p = some x) {a : Addr}
    (tail : x.tail = some a) : a ∈ f.children p :=
  List.mem_of_getLast? ((linkage.children cell).tail_eq.symm.trans tail)

theorem points_head (linkage : Linkage h f) (cell : h.cells p = some x) : Points h x.head :=
  fun _ head => (linkage.live (linkage.head_mem cell head)).1

theorem points_tail (linkage : Linkage h f) (cell : h.cells p = some x) : Points h x.tail :=
  fun _ tail => (linkage.live (linkage.tail_mem cell tail)).1

theorem isRoot_iff (linkage : Linkage h f) (cell : h.cells c = some x) :
    f.IsRoot c ↔ x.parent = none := by
  rw [Option.eq_none_iff_forall_ne_some]
  exact forall_congr' fun q => not_congr (linkage.parent cell q).symm

/-- Changes that leave the links alone. -/
theorem adjust {g : Addr → Node ν → Node ν} (linkage : Linkage h f)
    (same : ∀ a y, (g a y).parent = y.parent ∧ (g a y).prev = y.prev ∧ (g a y).next = y.next ∧
      (g a y).head = y.head ∧ (g a y).tail = y.tail) : Linkage (h.adjust g) f where
  fresh := linkage.fresh.adjust g
  live child := by
    obtain ⟨⟨x, cell⟩, y, cell'⟩ := linkage.live child
    exact ⟨⟨_, adjust_live cell⟩, _, adjust_live cell'⟩
  children {q x'} cell' := by
    obtain ⟨x, cell, rfl⟩ := Option.map_eq_some_iff.mp cell'
    obtain ⟨-, -, -, head, tail⟩ := same q x
    rw [head, tail]
    exact elsewhere (linkage.children cell) fun a _ y => ⟨(same a y).2.2.1, (same a y).2.1⟩
  parent {a x'} cell' := by
    obtain ⟨x, cell, rfl⟩ := Option.map_eq_some_iff.mp cell'
    rw [(same a x).1]
    exact linkage.parent cell
  loose {a x'} cell' := by
    obtain ⟨x, cell, rfl⟩ := Option.map_eq_some_iff.mp cell'
    obtain ⟨parent, prev, next, -, -⟩ := same a x
    rw [parent, prev, next]
    exact linkage.loose cell

/-- No node without a cell is linked. -/
theorem not_mem_brk (linkage : Linkage h f) (q : Addr) : h.brk ∉ f.children q := by
  intro child
  obtain ⟨x, cell⟩ := (linkage.live child).1
  exact Nat.lt_irrefl _ (linkage.fresh.lt cell)

theorem children_brk (linkage : Linkage h f) : f.children h.brk = [] := by
  refine List.eq_nil_iff_forall_not_mem.mpr fun c child => ?_
  obtain ⟨y, cell⟩ := (linkage.live child).2
  exact Nat.lt_irrefl _ (linkage.fresh.lt cell)

/-- A new node is a root without children. -/
theorem push {tag : JsonTag} (linkage : Linkage h f) (alone : Alone x tag) :
    Linkage (h.push x) f where
  fresh := linkage.fresh.push x
  live child := by
    obtain ⟨⟨y, cell⟩, z, cell'⟩ := linkage.live child
    exact ⟨⟨y, linkage.fresh.push_cells cell x⟩, z, linkage.fresh.push_cells cell' x⟩
  children {q y} cell := by
    by_cases eq : q = h.brk
    · subst eq
      cases (if_pos rfl : (h.push x).cells h.brk = some x).symm.trans cell
      rw [linkage.children_brk, alone.head, alone.tail]
      exact .nil
    · have old : h.cells q = some y := (if_neg eq).symm.trans cell
      refine (linkage.children old).congr fun a mem => ?_
      have same : (h.push x).cells a = h.cells a :=
        if_neg fun (new : a = h.brk) => linkage.not_mem_brk q (new ▸ mem)
      exact ⟨congrArg (Option.bind · Node.next) same, congrArg (Option.bind · Node.prev) same⟩
  parent {a y} cell q := by
    by_cases eq : a = h.brk
    · subst eq
      cases (if_pos rfl : (h.push x).cells h.brk = some x).symm.trans cell
      rw [alone.parent]
      exact iff_of_false (Option.some_ne_none q).symm (linkage.not_mem_brk q)
    · exact linkage.parent ((if_neg eq).symm.trans cell) q
  loose {a y} cell top := by
    by_cases eq : a = h.brk
    · subst eq
      cases (if_pos rfl : (h.push x).cells h.brk = some x).symm.trans cell
      exact ⟨alone.prev, alone.next⟩
    · exact linkage.loose ((if_neg eq).symm.trans cell) top

/-- The parts that a change has to keep, where it changes the children of `p` only. -/
theorem of_adjust {g : Addr → Node ν → Node ν} {f' : Forest Addr} (linkage : Linkage h f)
    (live : ∀ {c q}, c ∈ f'.children q →
      (∃ x, h.cells c = some x) ∧ ∃ y, h.cells q = some y)
    (own : ∀ x, h.cells p = some x →
      Enumerates (links (h.adjust g)) (g p x).head (g p x).tail (f'.children p))
    (others : ∀ q, q ≠ p → f'.children q = f.children q)
    (ends : ∀ q y, q ≠ p → (g q y).head = y.head ∧ (g q y).tail = y.tail)
    (sides : ∀ q a, q ≠ p → a ∈ f.children q →
      ∀ y, (g a y).next = y.next ∧ (g a y).prev = y.prev)
    (parent : ∀ {a x}, h.cells a = some x → ∀ q, (g a x).parent = some q ↔ a ∈ f'.children q)
    (loose : ∀ {a x}, h.cells a = some x → (g a x).parent = none →
      (g a x).prev = none ∧ (g a x).next = none) : Linkage (h.adjust g) f' where
  fresh := linkage.fresh.adjust g
  live {b q} child := by
    obtain ⟨⟨x, cell⟩, y, cell'⟩ := live child
    exact ⟨⟨_, adjust_live cell⟩, _, adjust_live cell'⟩
  children {q x'} cell' := by
    rw [adjust_cells, Option.map_eq_some_iff] at cell'
    obtain ⟨x, cell, rfl⟩ := cell'
    by_cases eq : q = p
    · subst eq
      exact own x cell
    · rw [(ends q x eq).1, (ends q x eq).2, others q eq]
      exact elsewhere (linkage.children cell) fun a mem => sides q a eq mem
  parent {a x'} cell' := by
    rw [adjust_cells, Option.map_eq_some_iff] at cell'
    obtain ⟨x, cell, rfl⟩ := cell'
    exact parent cell
  loose {a x'} cell' := by
    rw [adjust_cells, Option.map_eq_some_iff] at cell'
    obtain ⟨x, cell, rfl⟩ := cell'
    exact loose cell

section Attach

variable {cs : List Addr} (more : cs.Perm (c :: f.children p)) (root : f.IsRoot c)
  (outside : ¬ f.Inside p c)

/-- The parts that are the same wherever the new child goes. -/
theorem attach {g : Addr → Node ν → Node ν} (linkage : Linkage h f) (cell : h.cells p = some x)
    (new : h.cells c = some y)
    (parent : ∀ a y, (g a y).parent = if a = c then some p else y.parent)
    (own : Enumerates (links (h.adjust g)) (g p x).head (g p x).tail cs)
    (ends : ∀ q y, q ≠ p → (g q y).head = y.head ∧ (g q y).tail = y.tail)
    (sides : ∀ a y, a ≠ c → a ∉ f.children p → (g a y).next = y.next ∧ (g a y).prev = y.prev) :
    Linkage (h.adjust g) (f.attach p c cs more root outside) := by
  apply linkage.of_adjust (p := p)
  · intro a q child
    rcases (Forest.mem_attached more).mp child with old | ⟨rfl, rfl⟩
    · exact linkage.live old
    · exact ⟨⟨y, new⟩, x, cell⟩
  · intro z cell'
    cases cell.symm.trans cell'
    rw [Forest.attach_children, Forest.replaced_self]
    exact own
  · exact fun q ne => Forest.replaced_ne f cs ne
  · exact ends
  · intro q a ne mem
    refine fun y => sides a y ?_ fun mem' => ne (f.single mem mem')
    rintro rfl
    exact root q mem
  · intro a z cell_a q
    rw [parent, Forest.attach_children, Forest.mem_attached more]
    split_ifs with eq
    · subst eq
      rw [Option.some.injEq, eq_comm, or_iff_right (root q), and_iff_right rfl]
    · rw [linkage.parent cell_a q, or_iff_left fun new => eq new.1]
  · intro a z cell_a none_a
    rw [parent] at none_a
    split_ifs at none_a with eq
    have top : f.IsRoot a := (linkage.isRoot_iff cell_a).mpr none_a
    obtain ⟨next_a, prev_a⟩ := sides a z eq (top p)
    rw [next_a, prev_a]
    exact linkage.loose cell_a none_a

/-- `append_node` adds a child at the end. -/
theorem append (linkage : Linkage h f) (cell : h.cells p = some x) (new : h.cells c = some y)
    (more : (f.children p ++ [c]).Perm (c :: f.children p)) :
    Linkage (h.adjust (appended p c x)) (f.attach p c (f.children p ++ [c]) more root outside) := by
  have not_last : x.tail ≠ some c := fun eq => root p (linkage.tail_mem cell eq)
  refine linkage.attach more root outside cell new (fun a z => by rw [appended_eq]) ?_ ?_ ?_
  · exact enumerates_appended (linkage.children cell) ⟨y, new⟩ (fun a mem => (linkage.live mem).1)
      (root p)
  · intro q z other
    rw [appended_eq]
    exact ⟨if_neg fun eq => other eq.2, if_neg other⟩
  · intro a z other apart
    rw [appended_eq]
    have inner : x.tail ≠ some a := fun eq => apart (linkage.tail_mem cell eq)
    exact ⟨(if_neg inner).trans (if_neg other), if_neg other⟩

/-- `prepend_node` adds a child at the front. -/
theorem prepend (linkage : Linkage h f) (cell : h.cells p = some x) (new : h.cells c = some y)
    (more : (c :: f.children p).Perm (c :: f.children p)) :
    Linkage (h.adjust (prepended p c x)) (f.attach p c (c :: f.children p) more root outside) := by
  have en := linkage.children cell
  have ne : ∀ {a}, a ∈ f.children p → a ≠ c := fun mem eq => root p (eq ▸ mem)
  have not_first : x.head ≠ some c := fun eq => root p (linkage.head_mem cell eq)
  refine linkage.attach more root outside cell new (fun a z => by rw [prepended_eq]) ?_ ?_ ?_
  · have tail : (prepended p c x p x).tail = x.tail.or (some c) := by
      rw [prepended_eq, en.tail_eq, en.head_eq]
      cases f.children p <;> simp [List.getLast?_cons]
    have head : (prepended p c x p x).head = some c := by
      rw [prepended_eq]
      exact if_pos rfl
    rw [head, tail]
    refine en.prepend (root p) ?_ ?_ ?_ ?_ ?_
    · refine pointer_adjust_set ⟨y, new⟩ fun z => ?_
      rw [prepended_eq]
      exact if_pos rfl
    · refine pointer_adjust_set ⟨y, new⟩ fun z => ?_
      rw [prepended_eq]
      exact (if_neg not_first).trans (if_pos rfl)
    · refine fun a mem => pointer_adjust_same fun z => ?_
      rw [prepended_eq]
      exact if_neg (ne mem)
    · refine fun a mem first => pointer_adjust_set (linkage.live mem).1 fun z => ?_
      rw [prepended_eq]
      exact if_pos first
    · refine fun a mem inner => pointer_adjust_same fun z => ?_
      rw [prepended_eq]
      exact (if_neg inner).trans (if_neg (ne mem))
  · intro q z other
    rw [prepended_eq]
    exact ⟨if_neg other, if_neg fun eq => other eq.2⟩
  · intro a z other apart
    rw [prepended_eq]
    have inner : x.head ≠ some a := fun eq => apart (linkage.head_mem cell eq)
    exact ⟨if_neg other, (if_neg inner).trans (if_neg other)⟩

end Attach

section Detach

/-- The neighbours of a child are children. -/
theorem next_mem (linkage : Linkage h f) (cell : h.cells c = some x) (child : c ∈ f.children p)
    {a : Addr} (next : x.next = some a) : a ∈ f.children p := by
  obtain ⟨y, above⟩ := (linkage.live child).2
  obtain ⟨l, r, split⟩ := List.append_of_mem child
  have en := linkage.children above
  rw [split] at en ⊢
  have at_next : (links h).next c = x.next := pointer_eq cell Node.next
  have mem : a ∈ r := List.mem_of_head? (en.next_eq.symm.trans (at_next.trans next))
  exact List.mem_append_right l (List.mem_cons_of_mem c mem)

theorem prev_mem (linkage : Linkage h f) (cell : h.cells c = some x) (child : c ∈ f.children p)
    {a : Addr} (prev : x.prev = some a) : a ∈ f.children p := by
  obtain ⟨y, above⟩ := (linkage.live child).2
  obtain ⟨l, r, split⟩ := List.append_of_mem child
  have en := linkage.children above
  rw [split] at en ⊢
  have at_prev : (links h).prev c = x.prev := pointer_eq cell Node.prev
  have mem : a ∈ l := List.mem_of_getLast? (en.prev_eq.symm.trans (at_prev.trans prev))
  exact List.mem_append_left _ mem

/-- The list that is left when a child is removed. -/
theorem remove_own {z : Node ν} (linkage : Linkage h f) (cell : h.cells c = some x)
    (child : c ∈ f.children p) (above : h.cells p = some z) :
    Enumerates (links (h.adjust (removed p c x))) (removed p c x p z).head (removed p c x p z).tail
      ((f.children p).erase c) := by
  obtain ⟨l, r, split⟩ := List.append_of_mem child
  have en := linkage.children above
  rw [split] at en
  rw [split, erase_middle en.nodup]
  refine enumerates_removed en cell fun a mem => (linkage.live (p := p) ?_).1
  rw [split]
  exact List.mem_append.mpr ((List.mem_append.mp mem).imp_right (List.mem_cons_of_mem c))

/-- `json_remove_from_parent` makes a child a root. -/
theorem remove (linkage : Linkage h f) (cell : h.cells c = some x) (child : c ∈ f.children p) :
    Linkage (h.adjust (removed p c x)) (f.detach c) := by
  obtain ⟨z, above⟩ := (linkage.live child).2
  apply linkage.of_adjust (p := p)
  · exact fun kept => linkage.live (Forest.mem_detached.mp kept).1
  · intro y above'
    cases above.symm.trans above'
    exact linkage.remove_own cell child above
  · exact fun q other => List.erase_of_not_mem fun mem => other (f.single mem child)
  · intro q y other
    rw [removed_eq]
    exact ⟨if_neg fun eq => other eq.2, if_neg fun eq => other eq.2⟩
  · intro q a other mem y
    have apart : a ∉ f.children p := fun mem' => other (f.single mem mem')
    have ne : a ≠ c := fun eq => apart (eq ▸ child)
    rw [removed_eq]
    constructor
    · exact (if_neg ne).trans (if_neg fun prev => apart (linkage.prev_mem cell child prev))
    · exact (if_neg ne).trans (if_neg fun next => apart (linkage.next_mem cell child next))
  · intro a y cell_a q
    rw [removed_eq, Forest.detach_children, Forest.mem_detached]
    by_cases eq : a = c
    · simp only [eq, if_true, reduceCtorEq, ne_eq, not_true_eq_false, and_false]
    · rw [and_iff_left eq, ← linkage.parent cell_a q]
      exact Eq.congr_left (if_neg eq)
  · intro a y cell_a none_a
    rw [removed_eq] at none_a ⊢
    by_cases eq : a = c
    · exact ⟨if_pos eq, if_pos eq⟩
    · have top : y.parent = none := (if_neg eq).symm.trans none_a
      have apart : a ∉ f.children p := (linkage.isRoot_iff cell_a).mpr top p
      have loose := linkage.loose cell_a top
      constructor
      · refine (if_neg eq).trans ((if_neg fun next => ?_).trans loose.1)
        exact apart (linkage.next_mem cell child next)
      · refine (if_neg eq).trans ((if_neg fun prev => ?_).trans loose.2)
        exact apart (linkage.prev_mem cell child prev)

end Detach

end Linkage

end AcnSdk.Json.Pointers

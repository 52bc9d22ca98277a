/-
The circular doubly linked lists of `src/data/dllist.h` and `src/data/dllist.c`.

The head of a list is its last node, and iteration begins at the node behind it. A list that was
never used has no head. One whose last remaining node was deleted has that node for its head, with
NULL links: iteration ends at once, but adding follows NULL. A search that finds nothing leaves
its pointer at the last node.

* `listAdd_ring`, `doublyLinkedListDel_ring` — one node more or less in a ring.
* `dlVisited_eq`, `doublyLinkedListFindNode_eq` — iteration and search.
-/

import AcnSdk.Data.LinkedListMacros
import AcnSdk.Lib.Ring
import Mathlib.Logic.Function.Basic

namespace AcnSdk.Data

open AcnSdk.Lib Prog Heap

/-- The `node` member of a record with two links. -/
structure DoublyLink (α : Type) where
  next : α → Option Addr
  prev : α → Option Addr
  setNext : Option Addr → α → α
  setPrev : Option Addr → α → α
  next_setNext : ∀ p x, next (setNext p x) = p
  prev_setNext : ∀ p x, prev (setNext p x) = prev x
  next_setPrev : ∀ p x, next (setPrev p x) = next x
  prev_setPrev : ∀ p x, prev (setPrev p x) = p

variable {α : Type} (link : DoublyLink α)

/-! ### Functions -/

/-- `__list_add`. -/
def listAdd (n : Addr) (prev next : Option Addr) : HeapM α Unit := do
  update (← deref next) (link.setPrev (some n))
  update n (link.setNext next)
  update n (link.setPrev prev)
  update (← deref prev) (link.setNext (some n))

/-- `doubly_linked_list_add`. -/
def doublyLinkedListAdd (n head : Addr) : HeapM α Addr := do
  listAdd link n (some head) (link.next (← read head))
  return n

/-- `doubly_linked_list_add_tail`. -/
def doublyLinkedListAddTail (n head : Addr) : HeapM α Addr := do
  listAdd link n (link.prev (← read head)) (some head)
  return head

/-- `doubly_linked_list_del`. -/
def doublyLinkedListDel (el : Addr) : HeapM α Addr := do
  let x ← read el
  let prev := link.prev x
  let next := link.next x
  update (← deref prev) (link.setNext next)
  update (← deref next) (link.setPrev prev)
  update el (link.setNext none)
  update el (link.setPrev none)
  return el

/-! ### Macros -/

/-- The first node of a list, which is its own neighbour. -/
def dlAlone (el : Addr) : HeapM α (Option Addr) := do
  update el (link.setPrev (some el))
  update el (link.setNext (some el))
  return some el

/-- `doubly_linked_list_add_node`: the new head. -/
def doublyLinkedListAddNode (head : Option Addr) (el : Addr) : HeapM α (Option Addr) :=
  match head with
  | none => dlAlone link el
  | some head => some <$> doublyLinkedListAdd link el head

/-- `doubly_linked_list_add_node_tail`. -/
def doublyLinkedListAddNodeTail (head : Option Addr) (el : Addr) : HeapM α (Option Addr) :=
  match head with
  | none => dlAlone link el
  | some head => some <$> doublyLinkedListAddTail link el head

/-- `doubly_linked_list_del_node`. -/
def doublyLinkedListDelNode (head el : Option Addr) : HeapM α (Option Addr) :=
  match el with
  | none => return head
  | some el => do
      let head ← if head = some el then link.prev <$> read el else pure head
      let _ ← doublyLinkedListDel link el
      return head

/-- `doubly_linked_list_del_node_head`. -/
def doublyLinkedListDelNodeHead (head : Option Addr) : HeapM α (Option Addr) :=
  match head with
  | none => return none
  | some head => do
      let headPrev := link.prev (← read head)
      let _ ← doublyLinkedListDel link head
      return headPrev

section

variable {σ : Type}

/-- The loop of `dl_for_each_node` at `p`. The node behind the head is read again in each round.
The body says whether it breaks. -/
def dlForEachFrom (body : Addr → σ → HeapM α (σ × Bool)) (head first : Addr) :
    Nat → Option Addr → Option Addr → σ → HeapM α σ
  | 0, _, _, _ => throw .endless
  | _ + 1, _, none, s => return s
  | fuel + 1, base, some p, s => do
      if base = link.next (← read head) then return s
      else
        let (s, stop) ← body p s
        if stop then return s
        else
          let next := link.next (← read (base.getD first))
          dlForEachFrom body head first fuel next next s

/-- `dl_for_each_node`. Where the head has no neighbours, what `container_of` makes of NULL is not
looked at. -/
def dlForEachNode (body : Addr → σ → HeapM α (σ × Bool)) (head : Option Addr) (s : σ) :
    HeapM α σ :=
  match head with
  | none => return s
  | some head => do
      match link.next (← read head) with
      | none => return s
      | some first => dlForEachFrom link body head first (← bound) none (some first) s

/-- The nodes that `dl_for_each_node` visits. -/
def dlVisited (head : Option Addr) : HeapM α (List Addr) :=
  dlForEachNode link (fun p list => return (list ++ [p], false)) head []

/-- `doubly_linked_list_find_node`, with what `func` says of a node. -/
def doublyLinkedListFindNode (func : α → Int) (head : Option Addr) : HeapM α (Option Addr) :=
  dlForEachNode link (fun tmp _ => do return (some tmp, func (← read tmp) = 0)) head none

end

/-! ### Links in a heap -/

/-- The links of the nodes. -/
def linksIn (h : Heap α) : Links Addr :=
  ⟨fun a => (h.cells a).bind link.prev, fun a => (h.cells a).bind link.next⟩

/-- Links may have changed, and nothing else has. -/
structure Rewired (h h' : Heap α) : Prop where
  brk : h'.brk = h.brk
  live : ∀ a, Live h' a ↔ Live h a
  contents : ∀ {β : Type} (data : α → β), (∀ p x, data (link.setNext p x) = data x) →
    (∀ p x, data (link.setPrev p x) = data x) → ∀ a, (h'.cells a).map data = (h.cells a).map data

variable {link} {h h' h'' : Heap α} {as : List Addr} {a el p q : Addr}

theorem Rewired.trans (first : Rewired link h h') (second : Rewired link h' h'') :
    Rewired link h h'' where
  brk := second.brk.trans first.brk
  live a := (second.live a).trans (first.live a)
  contents data next prev a :=
    (second.contents data next prev a).trans (first.contents data next prev a)

variable (link) in
theorem read_links (live : Live h a) : ∃ x, read a h = .ok (x, h) ∧
    link.next x = (linksIn link h).next a ∧ link.prev x = (linksIn link h).prev a := by
  obtain ⟨x, cell⟩ := live
  refine ⟨x, read_eq cell, ?_, ?_⟩
  · simp only [linksIn, cell, Option.bind_some]
  · simp only [linksIn, cell, Option.bind_some]

theorem live_adjust (f : α → α) (b : Addr) : Live (h.adjust (only a f)) b ↔ Live h b := by
  rw [Live, Live, adjust_cells]
  simp

theorem map_adjust {β : Type} {data : α → β} {f : α → α} (keeps : ∀ x, data (f x) = data x)
    (b : Addr) : ((h.adjust (only a f)).cells b).map data = (h.cells b).map data := by
  rw [adjust_cells, Option.map_map]
  congr 1
  funext y
  simp only [Function.comp_apply, only]
  split_ifs
  · exact keeps y
  · rfl

theorem bind_adjust_self {γ : Type} {field : α → Option γ} {f : α → α} {v : Option γ}
    (live : Live h a) (sets : ∀ x, field (f x) = v) :
    (fun b => ((h.adjust (only a f)).cells b).bind field) =
      Function.update (fun b => (h.cells b).bind field) a v := by
  obtain ⟨x, cell⟩ := live
  funext b
  by_cases same : b = a
  · rw [same, Function.update_self, adjust_live cell, Option.bind_some, only, if_pos rfl, sets]
  · have idle : only a f b = id := by
      funext y
      exact if_neg same
    rw [Function.update_of_ne same, adjust_cells, idle, Option.map_id_fun, id_eq]

theorem bind_adjust_other {γ : Type} {field : α → Option γ} {f : α → α}
    (keeps : ∀ x, field (f x) = field x) :
    (fun b => ((h.adjust (only a f)).cells b).bind field) = fun b => (h.cells b).bind field := by
  funext b
  have same := map_adjust (h := h) (a := a) keeps b
  cases cell : h.cells b with
  | none => rw [adjust_cells, cell]; rfl
  | some x =>
      rw [adjust_cells, cell, Option.map_some, Option.bind_some, Option.bind_some]
      rw [adjust_cells, cell, Option.map_some, Option.map_some, Option.map_some] at same
      exact Option.some.inj same

variable (link) in
/-- Setting the forward link of a node. -/
theorem update_next (live : Live h a) (v : Option Addr) :
    ∃ h', update a (link.setNext v) h = .ok ((), h') ∧ Rewired link h h' ∧
      (linksIn link h').next = Function.update (linksIn link h).next a v ∧
      (linksIn link h').prev = (linksIn link h).prev := by
  obtain ⟨x, cell⟩ := live
  refine ⟨h.adjust (only a (link.setNext v)), update_adjust cell _, ⟨rfl, live_adjust _, ?_⟩,
    bind_adjust_self ⟨x, cell⟩ (link.next_setNext v), bind_adjust_other (link.prev_setNext v)⟩
  exact fun data next _ b => map_adjust (next v) b

variable (link) in
/-- Setting the backward link of a node. -/
theorem update_prev (live : Live h a) (v : Option Addr) :
    ∃ h', update a (link.setPrev v) h = .ok ((), h') ∧ Rewired link h h' ∧
      (linksIn link h').next = (linksIn link h).next ∧
      (linksIn link h').prev = Function.update (linksIn link h).prev a v := by
  obtain ⟨x, cell⟩ := live
  refine ⟨h.adjust (only a (link.setPrev v)), update_adjust cell _, ⟨rfl, live_adjust _, ?_⟩,
    bind_adjust_other (link.next_setPrev v), bind_adjust_self ⟨x, cell⟩ (link.prev_setPrev v)⟩
  exact fun data _ prev b => map_adjust (prev v) b

/-! ### Functions on rings -/

variable (link) in
theorem dlAlone_ring (node : Live h el) :
    ∃ h', dlAlone link el h = .ok (some el, h') ∧ Rewired link h h' ∧
      Ring (linksIn link h') [el] := by
  obtain ⟨h₁, run₁, wired₁, next₁, prev₁⟩ := update_prev link node (some el)
  obtain ⟨h₂, run₂, wired₂, next₂, prev₂⟩ :=
    update_next link ((wired₁.live el).mpr node) (some el)
  refine ⟨h₂, ?_, wired₁.trans wired₂, ring_singleton ⟨?_, ?_⟩⟩
  · rw [dlAlone, bind_of_ok run₁, bind_of_ok run₂]
    rfl
  · rw [next₂, Function.update_self]
  · rw [prev₂, prev₁, Function.update_self]

variable (link) in
/-- `__list_add` between two nodes. -/
theorem listAdd_links (node : Live h el) (before : Live h p) (after : Live h q) :
    ∃ h', listAdd link el (some p) (some q) h = .ok ((), h') ∧ Rewired link h h' ∧
      (linksIn link h').next =
        Function.update (Function.update (linksIn link h).next el (some q)) p (some el) ∧
      (linksIn link h').prev =
        Function.update (Function.update (linksIn link h).prev q (some el)) el (some p) := by
  obtain ⟨h₁, run₁, wired₁, next₁, prev₁⟩ := update_prev link after (some el)
  obtain ⟨h₂, run₂, wired₂, next₂, prev₂⟩ :=
    update_next link ((wired₁.live el).mpr node) (some q)
  have wired₁₂ := wired₁.trans wired₂
  obtain ⟨h₃, run₃, wired₃, next₃, prev₃⟩ :=
    update_prev link ((wired₁₂.live el).mpr node) (some p)
  have wired₁₃ := wired₁₂.trans wired₃
  obtain ⟨h₄, run₄, wired₄, next₄, prev₄⟩ :=
    update_next link ((wired₁₃.live p).mpr before) (some el)
  refine ⟨h₄, ?_, wired₁₃.trans wired₄, ?_, ?_⟩
  · rw [listAdd, bind_of_ok (deref_some q h), bind_of_ok run₁, bind_of_ok run₂, bind_of_ok run₃,
      bind_of_ok (deref_some p h₃)]
    exact run₄
  · rw [next₄, next₃, next₂, next₁]
  · rw [prev₄, prev₃, prev₂, prev₁]

/-- Between the last node of a ring and the first one. -/
theorem listAdd_ring (ring : Ring (linksIn link h) as) (nodup : as.Nodup)
    (live : ∀ b ∈ as, Live h b) (node : Live h el) (new : el ∉ as) (first : as.head? = some q)
    (last : as.getLast? = some p) :
    ∃ h', listAdd link el (some p) (some q) h = .ok ((), h') ∧ Rewired link h h' ∧
      Ring (linksIn link h') (as ++ [el]) := by
  have mem_p : p ∈ as := List.mem_of_getLast? last
  have mem_q : q ∈ as := List.mem_of_head? first
  have apart : ∀ d ∈ as, d ≠ el := fun d mem eq => new (eq ▸ mem)
  obtain ⟨h', run, wired, next, prev⟩ :=
    listAdd_links link node (live p mem_p) (live q mem_q)
  refine ⟨h', run, wired, ring.append nodup first last ⟨?_, ?_⟩ ⟨?_, ?_⟩ ?_ ?_⟩
  · rw [next, Function.update_self]
  · rw [prev, Function.update_self]
  · rw [next, Function.update_of_ne (apart p mem_p).symm, Function.update_self]
  · rw [prev, Function.update_of_ne (apart q mem_q), Function.update_self]
  · intro d mem other
    rw [next, Function.update_of_ne other, Function.update_of_ne (apart d mem)]
  · intro d mem other
    rw [prev, Function.update_of_ne (apart d mem), Function.update_of_ne other]

/-- `doubly_linked_list_add` puts a node behind the head. -/
theorem doublyLinkedListAdd_ring (ring : Ring (linksIn link h) as) (nodup : as.Nodup)
    (live : ∀ b ∈ as, Live h b) (node : Live h el) (new : el ∉ as) (last : as.getLast? = some p) :
    ∃ h', doublyLinkedListAdd link el p h = .ok (el, h') ∧ Rewired link h h' ∧
      Ring (linksIn link h') (as ++ [el]) := by
  obtain ⟨q, first⟩ : ∃ q, as.head? = some q := by
    cases as with
    | nil => cases last
    | cons q as => exact ⟨q, rfl⟩
  obtain ⟨x, read_x, next_x, -⟩ := read_links link (live p (List.mem_of_getLast? last))
  obtain ⟨h', run, wired, ring'⟩ := listAdd_ring ring nodup live node new first last
  refine ⟨h', ?_, wired, ring'⟩
  rw [doublyLinkedListAdd, bind_of_ok read_x, next_x, (ring.joined_ends first last).1,
    bind_of_ok run]
  rfl

/-- `doubly_linked_list_add_tail` puts a node before the head. -/
theorem doublyLinkedListAddTail_ring {l : List Addr} (ring : Ring (linksIn link h) (l ++ [p]))
    (nodup : (l ++ [p]).Nodup) (live : ∀ b ∈ l ++ [p], Live h b) (node : Live h el)
    (new : el ∉ l ++ [p]) :
    ∃ h', doublyLinkedListAddTail link el p h = .ok (p, h') ∧ Rewired link h h' ∧
      Ring (linksIn link h') (l ++ [el] ++ [p]) := by
  have perm : ([p] ++ l).Perm (l ++ [p]) := List.perm_append_comm
  have ring_p : Ring (linksIn link h) ([p] ++ l) := ring.rotate
  obtain ⟨q, last⟩ : ∃ q, ([p] ++ l).getLast? = some q := ⟨_, List.getLast?_cons⟩
  obtain ⟨x, read_x, -, prev_x⟩ :=
    read_links link (live p (List.mem_append_right l List.mem_cons_self))
  obtain ⟨h', run, wired, ring'⟩ := listAdd_ring ring_p (perm.nodup_iff.mpr nodup)
    (fun b mem => live b (perm.mem_iff.mp mem)) node (fun mem => new (perm.mem_iff.mp mem)) rfl last
  refine ⟨h', ?_, wired, ?_⟩
  · rw [doublyLinkedListAddTail, bind_of_ok read_x, prev_x, (ring_p.joined_ends rfl last).2,
      bind_of_ok run]
    rfl
  · rw [List.append_assoc] at ring'
    exact ring'.rotate

/-- `doubly_linked_list_del` of a node between two others, or of one that is alone. -/
theorem doublyLinkedListDel_links (node : Live h el) (before : Live h p) (after : Live h q)
    (prev_el : (linksIn link h).prev el = some p) (next_el : (linksIn link h).next el = some q) :
    ∃ h', doublyLinkedListDel link el h = .ok (el, h') ∧ Rewired link h h' ∧
      (linksIn link h').next =
        Function.update (Function.update (linksIn link h).next p (some q)) el none ∧
      (linksIn link h').prev =
        Function.update (Function.update (linksIn link h).prev q (some p)) el none := by
  obtain ⟨x, read_x, next_x, prev_x⟩ := read_links link node
  obtain ⟨h₁, run₁, wired₁, next₁, prev₁⟩ := update_next link before (some q)
  obtain ⟨h₂, run₂, wired₂, next₂, prev₂⟩ :=
    update_prev link ((wired₁.live q).mpr after) (some p)
  have wired₁₂ := wired₁.trans wired₂
  obtain ⟨h₃, run₃, wired₃, next₃, prev₃⟩ :=
    update_next link ((wired₁₂.live el).mpr node) none
  have wired₁₃ := wired₁₂.trans wired₃
  obtain ⟨h₄, run₄, wired₄, next₄, prev₄⟩ :=
    update_prev link ((wired₁₃.live el).mpr node) none
  refine ⟨h₄, ?_, wired₁₃.trans wired₄, ?_, ?_⟩
  · rw [doublyLinkedListDel, bind_of_ok read_x, prev_x, next_x, prev_el, next_el,
      bind_of_ok (deref_some p h), bind_of_ok run₁, bind_of_ok (deref_some q h₁), bind_of_ok run₂,
      bind_of_ok run₃, bind_of_ok run₄]
    rfl
  · rw [next₄, next₃, next₂, next₁]
  · rw [prev₄, prev₃, prev₂, prev₁]

/-- `doubly_linked_list_del` takes a node out of its ring. -/
theorem doublyLinkedListDel_ring {l r : List Addr} (ring : Ring (linksIn link h) (l ++ el :: r))
    (nodup : (l ++ el :: r).Nodup) (live : ∀ b ∈ l ++ el :: r, Live h b) :
    ∃ p h', (linksIn link h).prev el = some p ∧ (el :: (r ++ l)).getLast? = some p ∧
      doublyLinkedListDel link el h = .ok (el, h') ∧ Rewired link h h' ∧
      Ring (linksIn link h') (l ++ r) ∧ (linksIn link h').next el = none ∧
      (linksIn link h').prev el = none := by
  have mem : el ∈ l ++ el :: r := List.mem_append_right l List.mem_cons_self
  -- the ring is read from the node behind the element on
  have around : Ring (linksIn link h) (r ++ l ++ [el]) := by
    have next : Ring (linksIn link h) ([el] ++ (r ++ l)) := ring.rotate
    exact next.rotate
  have perm : (r ++ l ++ [el]).Perm (l ++ el :: r) := by
    have turned : (r ++ l ++ [el]).Perm (el :: r ++ l) := List.perm_append_comm
    exact turned.trans List.perm_append_comm
  have nodup' : (r ++ l ++ [el]).Nodup := perm.nodup_iff.mpr nodup
  have live' : ∀ b ∈ r ++ l ++ [el], Live h b := fun b inside => live b (perm.mem_iff.mp inside)
  cases rest : r ++ l with
  | nil =>
      obtain ⟨rfl, rfl⟩ := List.append_eq_nil_iff.mp rest
      obtain ⟨next_el, prev_el⟩ := around.joined_ends rfl rfl
      obtain ⟨h', run, wired, next, prev⟩ :=
        doublyLinkedListDel_links (live el mem) (live el mem) (live el mem) prev_el next_el
      refine ⟨el, h', prev_el, rfl, run, wired, ring_nil, ?_, ?_⟩
      · rw [next, Function.update_self]
      · rw [prev, Function.update_self]
  | cons a t =>
      rw [rest] at around nodup' live'
      obtain ⟨b, last⟩ : ∃ b, (a :: t).getLast? = some b := ⟨_, List.getLast?_cons⟩
      have apart : ∀ d ∈ a :: t, d ≠ el := by
        rintro d inside rfl
        exact (List.nodup_append.mp nodup').2.2 d inside d List.mem_cons_self rfl
      have mem_b : b ∈ a :: t := List.mem_of_getLast? last
      have before : Joined (linksIn link h) b el :=
        (List.isChain_append.mp around.chain).2.2 b last el rfl
      have after : Joined (linksIn link h) el a := around.joined_ends rfl List.getLast?_concat
      obtain ⟨h', run, wired, next, prev⟩ := doublyLinkedListDel_links (live el mem)
        (live' b (List.mem_append_left _ mem_b)) (live' a List.mem_cons_self) before.2 after.1
      have removed : Ring (linksIn link h') (a :: t) := by
        refine around.remove nodup' rfl last ⟨?_, ?_⟩ ?_ ?_
        · rw [next, Function.update_of_ne (apart b mem_b), Function.update_self]
        · rw [prev, Function.update_of_ne (apart a List.mem_cons_self), Function.update_self]
        · intro d inside other
          rw [next, Function.update_of_ne (apart d inside), Function.update_of_ne other]
        · intro d inside other
          rw [prev, Function.update_of_ne (apart d inside), Function.update_of_ne other]
      rw [← rest] at removed
      refine ⟨b, h', before.2, ?_, run, wired, removed.rotate, ?_, ?_⟩
      · rw [List.getLast?_cons_cons, last]
      · rw [next, Function.update_self]
      · rw [prev, Function.update_self]

/-! ### Iteration -/

section

variable {σ : Type}

/-- A loop over a sequence whose body may break. -/
def scan (f : σ → Addr → σ × Bool) (s : σ) : List Addr → σ
  | [] => s
  | a :: as => if (f s a).2 then (f s a).1 else scan f (f s a).1 as

theorem scan_append (as bs : List Addr) :
    scan (fun list a => (list ++ [a], false)) bs as = bs ++ as := by
  induction as generalizing bs with
  | nil => exact (List.append_nil bs).symm
  | cons a as ih =>
      rw [scan, if_neg Bool.false_ne_true, ih, List.append_assoc, List.singleton_append]

theorem scan_find (found : Addr → Bool) (as : List Addr) (s : Option Addr) :
    scan (fun _ a => (some a, found a)) s as = (as.find? found).or (as.getLast?.or s) := by
  induction as generalizing s with
  | nil => rfl
  | cons a as ih =>
      rw [scan, List.find?_cons]
      cases found a with
      | true => rfl
      | false =>
          rw [if_neg Bool.false_ne_true, ih, List.getLast?_cons]
          cases as.getLast? <;> rfl

/-- The loop, from one of the nodes of a ring on, with a body that reads only. -/
theorem dlForEachFrom_scan {first head b : Addr} {base : Option Addr} {rest : List Addr}
    {body : Addr → σ → HeapM α (σ × Bool)} {f : σ → Addr → σ × Bool}
    (joined : Joined (linksIn link h) head first) (live_head : Live h head)
    (chain : (b :: rest ++ [first]).IsChain (Joined (linksIn link h))) (new : first ∉ rest)
    (live : ∀ a ∈ b :: rest, Live h a)
    (pure_body : ∀ a ∈ b :: rest, ∀ s, body a s h = .ok (f s a, h))
    (at_b : base.getD first = b) (inside : base ≠ some first) (fuel : Nat)
    (enough : rest.length + 1 < fuel) (s : σ) :
    dlForEachFrom link body head first fuel base (some b) s h = .ok (scan f s (b :: rest), h) := by
  obtain ⟨x, read_x, next_x, -⟩ := read_links link live_head
  rw [joined.1] at next_x
  induction rest generalizing b base fuel s with
  | nil =>
      obtain ⟨y, read_y, next_y, -⟩ := read_links link (live b List.mem_cons_self)
      obtain ⟨fuel, rfl⟩ := Nat.exists_eq_add_of_lt enough
      have back : (linksIn link h).next b = some first := (List.isChain_cons_cons.mp chain).1.1
      rw [dlForEachFrom, bind_of_ok read_x, next_x, if_neg inside,
        bind_of_ok (pure_body b List.mem_cons_self s), scan]
      dsimp only
      split
      · rfl
      · rw [at_b, bind_of_ok read_y, next_y, back, Nat.add_right_comm, dlForEachFrom,
          bind_of_ok read_x, next_x, if_pos rfl]
        rfl
  | cons c rest ih =>
      obtain ⟨y, read_y, next_y, -⟩ := read_links link (live b List.mem_cons_self)
      rw [List.cons_append, List.cons_append, List.isChain_cons_cons] at chain
      rw [List.mem_cons, not_or] at new
      obtain ⟨fuel, rfl⟩ := Nat.exists_eq_succ_of_ne_zero (Nat.ne_zero_of_lt enough)
      rw [dlForEachFrom, bind_of_ok read_x, next_x, if_neg inside,
        bind_of_ok (pure_body b List.mem_cons_self s), scan]
      dsimp only
      split
      · rfl
      · rw [at_b, bind_of_ok read_y, next_y, chain.1.1]
        exact ih chain.2 new.2 (fun a mem => live a (List.mem_cons_of_mem b mem))
          (fun a mem => pure_body a (List.mem_cons_of_mem b mem)) rfl
          (fun eq => new.1 (Option.some.inj eq).symm) fuel (Nat.lt_of_succ_lt_succ enough) _

/-- `dl_for_each_node` goes through a ring from the node behind the head on. -/
theorem dlForEachNode_ring {head : Option Addr} {body : Addr → σ → HeapM α (σ × Bool)}
    (f : σ → Addr → σ × Bool) (ring : Ring (linksIn link h) as) (nodup : as.Nodup)
    (live : ∀ a ∈ as, Live h a) (short : as.length ≤ h.brk) (last : head = as.getLast?)
    (pure_body : ∀ a ∈ as, ∀ s, body a s h = .ok (f s a, h)) (s : σ) :
    dlForEachNode link body head s h = .ok (scan f s as, h) := by
  cases as with
  | nil =>
      rw [last]
      rfl
  | cons first rest =>
      obtain ⟨b, at_end⟩ : ∃ b, (first :: rest).getLast? = some b := ⟨_, List.getLast?_cons⟩
      have live_b := live b (List.mem_of_getLast? at_end)
      have joined := ring.joined_ends rfl at_end
      obtain ⟨x, read_x, next_x, -⟩ := read_links link live_b
      rw [last, at_end, dlForEachNode, bind_of_ok read_x, next_x, joined.1]
      dsimp only
      rw [bind_of_ok (bound_apply h)]
      refine dlForEachFrom_scan joined live_b ring (List.nodup_cons.mp nodup).1 live pure_body rfl
        (Option.some_ne_none first).symm _ ?_ s
      rw [List.length_cons] at short
      omega

/-- A list whose last remaining node was deleted. -/
theorem dlForEachNode_emptied {body : Addr → σ → HeapM α (σ × Bool)} {head : Addr}
    (live : Live h head) (alone : (linksIn link h).next head = none) (s : σ) :
    dlForEachNode link body (some head) s h = .ok (s, h) := by
  obtain ⟨x, read_x, next_x, -⟩ := read_links link live
  rw [dlForEachNode, bind_of_ok read_x, next_x, alone]
  rfl

end

/-- `dl_for_each_node` visits the nodes of a list in their order. -/
theorem dlVisited_eq {head : Option Addr} (ring : Ring (linksIn link h) as) (nodup : as.Nodup)
    (live : ∀ a ∈ as, Live h a) (short : as.length ≤ h.brk) (last : head = as.getLast?) :
    dlVisited link head h = .ok (as, h) := by
  rw [dlVisited, dlForEachNode_ring (fun list a => (list ++ [a], false)) ring nodup live short last
    fun _ _ _ => rfl, scan_append, List.nil_append]

/-- `doubly_linked_list_find_node` ends at the first node that compares equal, or at the last
node. -/
theorem doublyLinkedListFindNode_eq (func : α → Int) {head : Option Addr}
    (ring : Ring (linksIn link h) as) (nodup : as.Nodup) (live : ∀ a ∈ as, Live h a)
    (short : as.length ≤ h.brk) (last : head = as.getLast?) :
    doublyLinkedListFindNode link func head h =
      .ok ((as.find? (Matches func h)).or as.getLast?, h) := by
  rw [doublyLinkedListFindNode, dlForEachNode_ring (fun _ a => (some a, Matches func h a)) ring
    nodup live short last, scan_find, Option.or_none]
  intro a mem s
  obtain ⟨x, cell⟩ := live a mem
  rw [bind_of_ok (read_eq cell), Matches, cell, Option.any_some]
  rfl

end AcnSdk.Data

/-
Runs of the macros of `src/data/dllist.h` on a list.

The list is compared with a sequence of addresses: what is added goes behind the last node or before
it, and the head is the last node. Once deletes have made the sequence empty again the head has no
neighbours, so nothing can be added any more. A search of a list without a node that compares equal
ends at the last node.

* `DlRepresents.step`, `DlRepresents.sound` — when a step keeps what the head denotes.
* `dl_refined_iff` — the runs in which iteration and search agree with the sequence in every state.
-/

import AcnSdk.Data.DoublyLinkedList

namespace AcnSdk.Data

open AcnSdk.Lib Prog Heap

variable {α β : Type}

/-! ### Steps -/

/-- A record with the node of a circular list in it, and what else it holds. -/
structure DoublyRecord (α β : Type) extends DoublyLink α where
  data : α → β
  data_setNext : ∀ p x, data (setNext p x) = data x
  data_setPrev : ∀ p x, data (setPrev p x) = data x

/-- A list of a program, and the nodes there are. -/
structure DlList (α : Type) where
  heap : Heap α
  head : Option Addr

/-- A macro on the list. -/
inductive DlStep (β : Type) where
  | addNode (el : Addr)
  | addNodeTail (el : Addr)
  | delNode (el : Option Addr)
  | delNodeHead
  | findNode (func : β → Int)

namespace DlStep

/-- What it does to the head. -/
def onHead (rec : DoublyRecord α β) : DlStep β → Option Addr → HeapM α (Option Addr)
  | addNode el, head => doublyLinkedListAddNode rec.toDoublyLink head el
  | addNodeTail el, head => doublyLinkedListAddNodeTail rec.toDoublyLink head el
  | delNode el, head => doublyLinkedListDelNode rec.toDoublyLink head el
  | delNodeHead, head => doublyLinkedListDelNodeHead rec.toDoublyLink head
  | findNode func, head => do
      let _ ← doublyLinkedListFindNode rec.toDoublyLink (fun x => func (rec.data x)) head
      return head

/-- A step on the list. -/
def run (rec : DoublyRecord α β) (step : DlStep β) (s : DlList α) : Except Fault (DlList α) := do
  let (head, heap) ← step.onHead rec s.head s.heap
  return ⟨heap, head⟩

/-- A step on the sequence. -/
def onSeq : DlStep β → List Addr → List Addr
  | addNode el, as => as ++ [el]
  | addNodeTail el, as => as.dropLast ++ [el] ++ as.getLast?.toList
  | delNode el, as => el.elim as as.erase
  | delNodeHead, as => as.dropLast
  | findNode _, as => as

/-- Whether the list has been emptied, after a step. -/
def empties (step : DlStep β) (as : List Addr) (emptied : Bool) : Bool :=
  emptied || (!as.isEmpty && (step.onSeq as).isEmpty)

/-- What is added is a node outside of the list, and what is deleted is one of the list. -/
def Allowed (nodes : Addr → Option β) (as : List Addr) : DlStep β → Prop
  | addNode el | addNodeTail el => nodes el ≠ none ∧ el ∉ as
  | delNode el => ∀ a ∈ el, a ∈ as
  | delNodeHead | findNode _ => True

/-- The list was not emptied before something is added or its head is deleted, and a search has
something to find. -/
def Sound (nodes : Addr → Option β) (as : List Addr) (emptied : Bool) : DlStep β → Prop
  | addNode _ | addNodeTail _ | delNodeHead => emptied = false
  | delNode _ => True
  | findNode func => as = [] ∨ ∃ a ∈ as, (nodes a).any fun y => func y = 0

/-- A search ends at the first node of the sequence that compares equal, or with NULL. -/
def Answers (rec : DoublyRecord α β) (nodes : Addr → Option β) (s : DlList α) (as : List Addr) :
    DlStep β → Prop
  | findNode func =>
      doublyLinkedListFindNode rec.toDoublyLink (fun x => func (rec.data x)) s.head s.heap =
        .ok (as.find? fun a => (nodes a).any fun y => func y = 0, s.heap)
  | addNode _ | addNodeTail _ | delNode _ | delNodeHead => True

end DlStep

/-! ### Lists and sequences -/

/-- The head is the last node. In a list that has been emptied it is a node without neighbours. -/
def IsHead (rec : DoublyRecord α β) (s : DlList α) (as : List Addr) : Bool → Prop
  | false => s.head = as.getLast?
  | true => as = [] ∧ ∃ head, s.head = some head ∧ Live s.heap head ∧
      (linksIn rec.toDoublyLink s.heap).next head = none ∧
      (linksIn rec.toDoublyLink s.heap).prev head = none

/-- The list denotes the sequence, and the nodes are what they were. -/
structure DlRepresents (rec : DoublyRecord α β) (nodes : Addr → Option β) (s : DlList α)
    (as : List Addr) (emptied : Bool) : Prop where
  ring : Ring (linksIn rec.toDoublyLink s.heap) as
  nodup : as.Nodup
  live : ∀ a ∈ as, Live s.heap a
  contents : ∀ a, (s.heap.cells a).map rec.data = nodes a
  fresh : s.heap.Fresh
  isHead : IsHead rec s as emptied

section

variable {rec : DoublyRecord α β} {nodes : Addr → Option β} {s : DlList α} {as : List Addr}
  {emptied : Bool}

theorem dlRepresents_empty {h : Heap α} (fresh : h.Fresh) :
    DlRepresents rec (fun a => (h.cells a).map rec.data) ⟨h, none⟩ [] false where
  ring := ring_nil
  nodup := .nil
  live _ mem := absurd mem List.not_mem_nil
  contents _ := rfl
  fresh := fresh
  isHead := rfl

namespace DlRepresents

theorem short (rep : DlRepresents rec nodes s as emptied) : as.length ≤ s.heap.brk := by
  refine length_le_of_nodup rep.nodup fun a mem => ?_
  obtain ⟨x, cell⟩ := rep.live a mem
  exact rep.fresh.lt cell

theorem node (rep : DlRepresents rec nodes s as emptied) {a : Addr} (some_node : nodes a ≠ none) :
    Live s.heap a := by
  rw [← rep.contents a] at some_node
  cases cell : s.heap.cells a with
  | none => exact absurd (by rw [cell, Option.map_none]) some_node
  | some x => exact ⟨x, cell⟩

/-- Iteration visits the sequence. -/
theorem visits (rep : DlRepresents rec nodes s as emptied) :
    dlVisited rec.toDoublyLink s.head s.heap = .ok (as, s.heap) := by
  cases emptied with
  | false => exact dlVisited_eq rep.ring rep.nodup rep.live rep.short rep.isHead
  | true =>
      obtain ⟨rfl, head, head_eq, live, next, -⟩ := rep.isHead
      rw [dlVisited, head_eq]
      exact dlForEachNode_emptied live next []

theorem matches_eq (rep : DlRepresents rec nodes s as emptied) (func : β → Int) :
    Matches (fun x => func (rec.data x)) s.heap = fun a => (nodes a).any fun y => func y = 0 := by
  funext a
  rw [Matches, ← rep.contents a, Option.any_map]

theorem finds (rep : DlRepresents rec nodes s as emptied) (func : β → Int) :
    doublyLinkedListFindNode rec.toDoublyLink (fun x => func (rec.data x)) s.head s.heap =
      .ok ((as.find? fun a => (nodes a).any fun y => func y = 0).or as.getLast?, s.heap) := by
  cases emptied with
  | false =>
      rw [doublyLinkedListFindNode_eq _ rep.ring rep.nodup rep.live rep.short rep.isHead,
        rep.matches_eq]
  | true =>
      obtain ⟨rfl, head, head_eq, live, next, -⟩ := rep.isHead
      rw [doublyLinkedListFindNode, head_eq]
      exact dlForEachNode_emptied live next none

/-- A search of a list that is not empty needs something to find. -/
theorem answers_iff (rep : DlRepresents rec nodes s as emptied) (func : β → Int) :
    (DlStep.findNode func).Answers rec nodes s as ↔
      (DlStep.findNode func).Sound nodes as emptied := by
  rw [DlStep.Answers, rep.finds func]
  constructor
  · intro found
    by_contra unsound
    rw [DlStep.Sound, not_or] at unsound
    obtain ⟨some_el, nothing⟩ := unsound
    have none_found : (as.find? fun a => (nodes a).any fun y => func y = 0) = none := by
      rw [List.find?_eq_none]
      exact fun a mem equal => nothing ⟨a, mem, equal⟩
    rw [none_found, Option.none_or] at found
    cases at_end : as.getLast? with
    | none => exact some_el (List.getLast?_eq_none_iff.mp at_end)
    | some b =>
        rw [at_end] at found
        cases found
  · rintro (rfl | found)
    · rfl
    · obtain ⟨a, first⟩ := Option.isSome_iff_exists.mp (List.find?_isSome.mpr found)
      rw [first, Option.some_or]

/-- Other links, and the same nodes. -/
theorem rewired (rep : DlRepresents rec nodes s as emptied) {h : Heap α} {head : Option Addr}
    {bs : List Addr} {now : Bool} (wired : Rewired rec.toDoublyLink s.heap h)
    (ring : Ring (linksIn rec.toDoublyLink h) bs) (nodup : bs.Nodup)
    (live : ∀ b ∈ bs, Live s.heap b) (isHead : IsHead rec ⟨h, head⟩ bs now) :
    DlRepresents rec nodes ⟨h, head⟩ bs now where
  ring := ring
  nodup := nodup
  live b mem := (wired.live b).mpr (live b mem)
  contents a :=
    (wired.contents rec.data rec.data_setNext rec.data_setPrev a).trans (rep.contents a)
  fresh := rep.fresh.of_old wired.brk fun a x cell => (wired.live a).mp ⟨x, cell⟩
  isHead := isHead

/-- A node more, of a list that has not been emptied. -/
theorem added (rep : DlRepresents rec nodes s as false) {el : Addr} (some_node : nodes el ≠ none)
    (new : el ∉ as) {h : Heap α} {bs : List Addr} (perm : bs.Perm (el :: as))
    (wired : Rewired rec.toDoublyLink s.heap h) (ring : Ring (linksIn rec.toDoublyLink h) bs) :
    DlRepresents rec nodes ⟨h, bs.getLast?⟩ bs false := by
  refine rep.rewired wired ring (perm.nodup_iff.mpr ?_) (fun b mem => ?_) rfl
  · exact List.nodup_cons.mpr ⟨new, rep.nodup⟩
  · rcases List.mem_cons.mp (perm.mem_iff.mp mem) with rfl | mem
    · exact rep.node some_node
    · exact rep.live b mem

/-- A node less. The head moves where it was the head that went. -/
theorem deleted {l r : List Addr} {el : Addr}
    (rep : DlRepresents rec nodes s (l ++ el :: r) false) :
    ∃ p h, (linksIn rec.toDoublyLink s.heap).prev el = some p ∧
      doublyLinkedListDel rec.toDoublyLink el s.heap = .ok (el, h) ∧
      DlRepresents rec nodes ⟨h, if r = [] then some p else s.head⟩ (l ++ r) (l ++ r).isEmpty := by
  obtain ⟨p, h, prev, at_end, run, wired, ring, next_el, prev_el⟩ :=
    doublyLinkedListDel_ring rep.ring rep.nodup rep.live
  have sub : (l ++ r).Sublist (l ++ el :: r) := (List.sublist_cons_self el r).append_left l
  refine ⟨p, h, prev, run, rep.rewired wired ring (sub.nodup rep.nodup)
    (fun b mem => rep.live b (sub.subset mem)) ?_⟩
  cases r with
  | nil =>
      rw [List.nil_append] at at_end
      rw [List.append_nil, if_pos rfl]
      cases l with
      | nil =>
          cases at_end
          exact ⟨rfl, el, rfl, (wired.live el).mpr (rep.live el List.mem_cons_self),
            next_el, prev_el⟩
      | cons a l =>
          rw [List.getLast?_cons_cons] at at_end
          exact at_end.symm
  | cons a r =>
      rw [if_neg (List.cons_ne_nil a r)]
      have stays : s.head = (l ++ el :: a :: r).getLast? := rep.isHead
      have some_el : (l ++ a :: r).isEmpty = false := by simp
      rw [some_el, IsHead, stays, List.getLast?_append_cons, List.getLast?_append_cons,
        List.getLast?_cons_cons]

/-! ### Runs -/

theorem run_eq {step : DlStep β} {head : Option Addr} {h : Heap α}
    (run : step.onHead rec s.head s.heap = .ok (head, h)) : step.run rec s = .ok ⟨h, head⟩ := by
  rw [DlStep.run, then_of_ok run]
  rfl

theorem addNode_run (rep : DlRepresents rec nodes s as false) {el : Addr}
    (some_node : nodes el ≠ none) (new : el ∉ as) :
    ∃ s', (DlStep.addNode el : DlStep β).run rec s = .ok s' ∧
      DlRepresents rec nodes s' (as ++ [el]) false := by
  have head_eq : s.head = as.getLast? := rep.isHead
  have perm : (as ++ [el]).Perm (el :: as) := List.perm_append_singleton el as
  cases at_end : as.getLast? with
  | none =>
      obtain rfl := List.getLast?_eq_none_iff.mp at_end
      obtain ⟨h, run, wired, ring⟩ := dlAlone_ring rec.toDoublyLink (rep.node some_node)
      refine ⟨⟨h, some el⟩, run_eq ?_, rep.added some_node new perm wired ring⟩
      rw [head_eq]
      exact run
  | some p =>
      obtain ⟨h, run, wired, ring⟩ := doublyLinkedListAdd_ring rep.ring rep.nodup rep.live
        (rep.node some_node) new at_end
      have added := rep.added some_node new perm wired ring
      rw [List.getLast?_concat] at added
      refine ⟨⟨h, some el⟩, run_eq ?_, added⟩
      rw [head_eq, at_end, DlStep.onHead, doublyLinkedListAddNode, map_apply, run]
      rfl

theorem addNodeTail_run (rep : DlRepresents rec nodes s as false) {el : Addr}
    (some_node : nodes el ≠ none) (new : el ∉ as) :
    ∃ s', (DlStep.addNodeTail el : DlStep β).run rec s = .ok s' ∧
      DlRepresents rec nodes s' (as.dropLast ++ [el] ++ as.getLast?.toList) false := by
  have head_eq : s.head = as.getLast? := rep.isHead
  obtain rfl | ⟨l, p, rfl⟩ := List.eq_nil_or_concat as
  · obtain ⟨h, run, wired, ring⟩ := dlAlone_ring rec.toDoublyLink (rep.node some_node)
    refine ⟨⟨h, some el⟩, run_eq ?_, rep.added some_node new (.refl _) wired ring⟩
    rw [head_eq]
    exact run
  · rw [List.concat_eq_append] at *
    rw [List.dropLast_concat, List.getLast?_concat, Option.toList_some]
    rw [List.getLast?_concat] at head_eq
    have perm : (l ++ [el] ++ [p]).Perm (el :: (l ++ [p])) := by
      rw [List.append_assoc]
      exact List.perm_middle
    obtain ⟨h, run, wired, ring⟩ := doublyLinkedListAddTail_ring rep.ring rep.nodup rep.live
      (rep.node some_node) new
    have added := rep.added some_node new perm wired ring
    rw [List.getLast?_concat] at added
    refine ⟨⟨h, some p⟩, run_eq ?_, added⟩
    rw [head_eq, DlStep.onHead, doublyLinkedListAddNodeTail, map_apply, run]
    rfl

theorem delNode_run {l r : List Addr} {el : Addr}
    (rep : DlRepresents rec nodes s (l ++ el :: r) false) :
    ∃ s', (DlStep.delNode (some el) : DlStep β).run rec s = .ok s' ∧
      DlRepresents rec nodes s' (l ++ r) (l ++ r).isEmpty := by
  have head_eq : s.head = (l ++ el :: r).getLast? := rep.isHead
  obtain ⟨p, h, prev, run, deleted⟩ := rep.deleted
  have head_iff : s.head = some el ↔ r = [] := by
    rw [head_eq, List.getLast?_append_cons]
    cases r with
    | nil => exact iff_of_true rfl rfl
    | cons a r =>
        refine iff_of_false (fun same => ?_) (List.cons_ne_nil a r)
        rw [List.getLast?_cons_cons] at same
        exact (List.nodup_cons.mp (List.nodup_append.mp rep.nodup).2.1).1
          (List.mem_of_getLast? same)
  obtain ⟨x, read_x, -, prev_x⟩ :=
    read_links rec.toDoublyLink (rep.live el (List.mem_append_right l List.mem_cons_self))
  refine ⟨_, run_eq ?_, deleted⟩
  have deletes (head : Option Addr) : (do
      let _ ← doublyLinkedListDel rec.toDoublyLink el
      return head : HeapM α (Option Addr)) s.heap = .ok (head, h) := by
    rw [bind_of_ok run]
    rfl
  change doublyLinkedListDelNode rec.toDoublyLink s.head (some el) s.heap = _
  by_cases at_head : s.head = some el
  · have moved : (rec.prev <$> read el : HeapM α (Option Addr)) s.heap = .ok (some p, s.heap) := by
      rw [map_apply, read_x, ← prev, ← prev_x]
      rfl
    rw [doublyLinkedListDelNode, if_pos at_head, if_pos (head_iff.mp at_head), bind_of_ok moved]
    exact deletes (some p)
  · rw [doublyLinkedListDelNode, if_neg at_head, if_neg fun last => at_head (head_iff.mpr last),
      bind_of_ok (pure_apply s.head s.heap)]
    exact deletes s.head

theorem delNodeHead_run (rep : DlRepresents rec nodes s as false) :
    ∃ s', (DlStep.delNodeHead : DlStep β).run rec s = .ok s' ∧
      DlRepresents rec nodes s' as.dropLast (!as.isEmpty && as.dropLast.isEmpty) := by
  have head_eq : s.head = as.getLast? := rep.isHead
  obtain rfl | ⟨l, el, rfl⟩ := List.eq_nil_or_concat as
  · refine ⟨s, run_eq ?_, rep⟩
    rw [head_eq]
    rfl
  · rw [List.concat_eq_append] at *
    rw [List.getLast?_concat] at head_eq
    obtain ⟨p, h, prev, run, deleted⟩ := rep.deleted
    obtain ⟨x, read_x, -, prev_x⟩ :=
      read_links rec.toDoublyLink (rep.live el (List.mem_append_right l List.mem_cons_self))
    have some_el : (l ++ [el]).isEmpty = false := by simp
    rw [List.append_nil, if_pos rfl] at deleted
    rw [List.dropLast_concat, some_el, Bool.not_false, Bool.true_and]
    refine ⟨_, run_eq ?_, deleted⟩
    rw [head_eq, DlStep.onHead, doublyLinkedListDelNodeHead, bind_of_ok read_x, bind_of_ok run,
      prev_x, prev]
    rfl

/-- A sound step does to the list what it does to the sequence. -/
theorem step (rep : DlRepresents rec nodes s as emptied) {step : DlStep β}
    (allowed : step.Allowed nodes as) (sound : step.Sound nodes as emptied) :
    ∃ s', step.run rec s = .ok s' ∧
      DlRepresents rec nodes s' (step.onSeq as) (step.empties as emptied) := by
  have stays : ∀ b : Bool, (b || (!as.isEmpty && as.isEmpty)) = b := by
    intro b
    rw [Bool.not_and_self, Bool.or_false]
  cases step with
  | addNode el =>
      obtain rfl : emptied = false := sound
      have some_el : ((DlStep.addNode el : DlStep β).onSeq as).isEmpty = false := by
        simp [DlStep.onSeq]
      rw [DlStep.empties, some_el, Bool.and_false, Bool.or_false]
      exact rep.addNode_run allowed.1 allowed.2
  | addNodeTail el =>
      obtain rfl : emptied = false := sound
      have some_el : ((DlStep.addNodeTail el : DlStep β).onSeq as).isEmpty = false := by
        simp [DlStep.onSeq]
      rw [DlStep.empties, some_el, Bool.and_false, Bool.or_false]
      exact rep.addNodeTail_run allowed.1 allowed.2
  | delNode el =>
      cases el with
      | none =>
          rw [DlStep.empties, DlStep.onSeq, Option.elim_none, stays]
          exact ⟨s, run_eq rfl, rep⟩
      | some el =>
          have mem : el ∈ as := allowed el rfl
          obtain rfl : emptied = false := by
            cases emptied with
            | false => rfl
            | true => exact absurd mem (rep.isHead.1 ▸ List.not_mem_nil)
          obtain ⟨l, r, rfl⟩ := List.append_of_mem mem
          have some_el : (l ++ el :: r).isEmpty = false := by simp
          rw [DlStep.empties, DlStep.onSeq, Option.elim_some, erase_middle rep.nodup, some_el,
            Bool.not_false, Bool.true_and, Bool.false_or]
          exact rep.delNode_run
  | delNodeHead =>
      obtain rfl : emptied = false := sound
      rw [DlStep.empties, Bool.false_or]
      exact rep.delNodeHead_run
  | findNode func =>
      rw [DlStep.empties, DlStep.onSeq, stays]
      refine ⟨s, run_eq ?_, rep⟩
      rw [DlStep.onHead, bind_of_ok (rep.finds func)]
      rfl

/-- Nothing can be added to a list that has been emptied, and its head cannot be deleted. -/
theorem emptied_faults (rep : DlRepresents rec nodes s as true) {step : DlStep β}
    (allowed : step.Allowed nodes as) (unsound : ¬ step.Sound nodes as true) :
    step.run rec s = .error .nullPointer := by
  obtain ⟨empty, head, head_eq, live, next, prev⟩ := rep.isHead
  obtain ⟨x, read_x, next_x, prev_x⟩ := read_links rec.toDoublyLink live
  rw [next] at next_x
  rw [prev] at prev_x
  suffices faults : step.onHead rec (some head) s.heap = .error .nullPointer by
    rw [DlStep.run, head_eq, faults]
    rfl
  cases step with
  | addNode el =>
      rw [DlStep.onHead, doublyLinkedListAddNode, map_apply, doublyLinkedListAdd,
        bind_of_ok read_x, next_x]
      rfl
  | addNodeTail el =>
      -- the backward link of the head is followed last
      have node := rep.node allowed.1
      obtain ⟨h₁, run₁, wired₁, -, -⟩ := update_prev rec.toDoublyLink live (some el)
      obtain ⟨h₂, run₂, wired₂, -, -⟩ :=
        update_next rec.toDoublyLink ((wired₁.live el).mpr node) (some head)
      obtain ⟨h₃, run₃, -, -, -⟩ :=
        update_prev rec.toDoublyLink (((wired₁.trans wired₂).live el).mpr node) none
      have faults : listAdd rec.toDoublyLink el none (some head) s.heap = .error .nullPointer := by
        rw [listAdd, bind_of_ok (deref_some head s.heap), bind_of_ok run₁, bind_of_ok run₂,
          bind_of_ok run₃]
        rfl
      rw [DlStep.onHead, doublyLinkedListAddNodeTail, map_apply, doublyLinkedListAddTail,
        bind_of_ok read_x, prev_x, bind_apply, faults]
      rfl
  | delNode el => exact absurd trivial unsound
  | delNodeHead =>
      have faults : doublyLinkedListDel rec.toDoublyLink head s.heap = .error .nullPointer := by
        rw [doublyLinkedListDel, bind_of_ok read_x, prev_x]
        rfl
      rw [DlStep.onHead, doublyLinkedListDelNodeHead, bind_of_ok read_x, bind_apply, faults]
      rfl
  | findNode func => exact absurd (.inl empty) unsound

/-- A step that runs and answers what it should is sound. -/
theorem sound (rep : DlRepresents rec nodes s as emptied) {step : DlStep β} {s' : DlList α}
    (allowed : step.Allowed nodes as) (answers : step.Answers rec nodes s as)
    (run : step.run rec s = .ok s') : step.Sound nodes as emptied := by
  by_contra unsound
  cases emptied with
  | true => cases run.symm.trans (rep.emptied_faults allowed unsound)
  | false =>
      cases step with
      | findNode func => exact unsound ((rep.answers_iff func).mp answers)
      | delNode el => exact unsound trivial
      | addNode el => exact unsound rfl
      | addNodeTail el => exact unsound rfl
      | delNodeHead => exact unsound rfl

theorem answers (rep : DlRepresents rec nodes s as emptied) {step : DlStep β}
    (sound : step.Sound nodes as emptied) : step.Answers rec nodes s as := by
  cases step with
  | findNode func => exact (rep.answers_iff func).mpr sound
  | delNode el => trivial
  | addNode el => trivial
  | addNodeTail el => trivial
  | delNodeHead => trivial

end DlRepresents

variable (rec nodes) in
/-- Iteration visits the sequence in every state of a run, and every search answers for it. -/
def DlRefined : List (DlStep β) → DlList α → List Addr → Prop
  | [], s, as => dlVisited rec.toDoublyLink s.head s.heap = .ok (as, s.heap)
  | step :: steps, s, as =>
      dlVisited rec.toDoublyLink s.head s.heap = .ok (as, s.heap) ∧
        step.Answers rec nodes s as ∧
        ∃ s', step.run rec s = .ok s' ∧ DlRefined steps s' (step.onSeq as)

variable (nodes) in
/-- In a run nodes outside of the list are added and nodes of the list are deleted. -/
def DlAllowed : List (DlStep β) → List Addr → Prop
  | [], _ => True
  | step :: steps, as => step.Allowed nodes as ∧ DlAllowed steps (step.onSeq as)

variable (nodes) in
/-- In a run nothing is added and no head is deleted once the list was emptied, and every search of
a list that is not empty has something to find. -/
def DlSound : List (DlStep β) → List Addr → Bool → Prop
  | [], _, _ => True
  | step :: steps, as, emptied =>
      step.Sound nodes as emptied ∧ DlSound steps (step.onSeq as) (step.empties as emptied)

theorem DlRepresents.refined_iff {steps : List (DlStep β)}
    (rep : DlRepresents rec nodes s as emptied) (allowed : DlAllowed nodes steps as) :
    DlRefined rec nodes steps s as ↔ DlSound nodes steps as emptied := by
  induction steps generalizing s as emptied with
  | nil => exact iff_of_true rep.visits trivial
  | cons step steps ih =>
      constructor
      · rintro ⟨-, answers, s', run, refined⟩
        have sound := rep.sound allowed.1 answers run
        obtain ⟨s'', run', rep'⟩ := rep.step allowed.1 sound
        cases run.symm.trans run'
        exact ⟨sound, (ih rep' allowed.2).mp refined⟩
      · rintro ⟨sound, rest⟩
        obtain ⟨s', run, rep'⟩ := rep.step allowed.1 sound
        exact ⟨rep.visits, rep.answers sound, s', run, (ih rep' allowed.2).mpr rest⟩

end

/-- A run that begins without a list, adds nodes that are outside of it and deletes nodes that are
in it agrees with the sequence exactly if it is sound. -/
theorem dl_refined_iff (rec : DoublyRecord α β) {h : Heap α} (fresh : h.Fresh)
    {steps : List (DlStep β)}
    (allowed : DlAllowed (fun a => (h.cells a).map rec.data) steps []) :
    DlRefined rec (fun a => (h.cells a).map rec.data) steps ⟨h, none⟩ [] ↔
      DlSound (fun a => (h.cells a).map rec.data) steps [] false :=
  (dlRepresents_empty fresh).refined_iff allowed

/-- A number, behind its links. -/
def doublyNumberRecord : DoublyRecord (Option Addr × Option Addr × Nat) Nat where
  next x := x.1
  prev x := x.2.1
  setNext p x := (p, x.2)
  setPrev p x := (x.1, p, x.2.2)
  next_setNext _ _ := rfl
  prev_setNext _ _ := rfl
  next_setPrev _ _ := rfl
  prev_setPrev _ _ := rfl
  data x := x.2.2
  data_setNext _ _ := rfl
  data_setPrev _ _ := rfl

/-- Three nodes that are in no list. -/
def threeApart : Heap (Option Addr × Option Addr × Nat) :=
  ⟨fun a => if a < 3 then some (none, none, a) else none, 3⟩

theorem threeApart_fresh : threeApart.Fresh := fun _ beyond => if_neg (Nat.not_lt.mpr beyond)

/-- A list that is filled, searched and emptied. -/
theorem dl_refined_emptied : DlRefined doublyNumberRecord
    (fun a => (threeApart.cells a).map doublyNumberRecord.data)
    [.delNodeHead, .findNode fun _ => 1, .addNode 0, .addNode 1, .addNodeTail 2,
      .findNode fun n => n - 2, .delNode (some 1), .delNodeHead, .delNode none, .delNode (some 0),
      .findNode fun _ => 1] ⟨threeApart, none⟩ [] := by
  refine (dl_refined_iff doublyNumberRecord threeApart_fresh ?_).mpr ?_
  · simp [DlAllowed, DlStep.Allowed, DlStep.onSeq, threeApart]
  · simp [DlSound, DlStep.Sound, DlStep.onSeq, DlStep.empties, threeApart, doublyNumberRecord]

/-- Adding a node again after the only one was deleted, and a search for what is not there. -/
theorem not_dl_refined_again :
    ¬ DlRefined doublyNumberRecord (fun a => (threeApart.cells a).map doublyNumberRecord.data)
      [.addNode 0, .delNode (some 0), .addNode 0] ⟨threeApart, none⟩ [] ∧
    ¬ DlRefined doublyNumberRecord (fun a => (threeApart.cells a).map doublyNumberRecord.data)
      [.addNode 0, .findNode fun _ => 1] ⟨threeApart, none⟩ [] := by
  constructor
  · rw [(dlRepresents_empty threeApart_fresh).refined_iff]
    · simp [DlSound, DlStep.Sound, DlStep.onSeq, DlStep.empties]
    · simp [DlAllowed, DlStep.Allowed, DlStep.onSeq, threeApart]
  · rw [(dlRepresents_empty threeApart_fresh).refined_iff]
    · simp [DlSound, DlStep.Sound, DlStep.onSeq, threeApart]
    · simp [DlAllowed, DlStep.Allowed, threeApart]

end AcnSdk.Data

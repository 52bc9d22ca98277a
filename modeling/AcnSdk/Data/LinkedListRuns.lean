/-
Runs of the list macros of `src/data/linkedlist.h` on the lists of a program.

The lists are compared with sequences of addresses: a macro on a list does to its sequence what its
name says, and does nothing to the others. Deleting what is not there does nothing to a sequence,
but loses a list.

* `Represents.step`, `Represents.finds` — when a step keeps what the roots denote.
* `lists_refined_iff` — the runs in which all lists are the sequences, in every state.
-/

import AcnSdk.Data.LinkedListMacros
import Mathlib.Logic.Function.Basic

namespace AcnSdk.Data

open AcnSdk.Lib Prog Heap

variable {α β ι : Type}

/-! ### Steps -/

/-- A record with a list node in it, and what else it holds. -/
structure Record (α β : Type) extends Link α where
  data : α → β
  data_setNext : ∀ p x, data (setNext p x) = data x

/-- The lists of a program: the nodes, and a root for each list. -/
structure Lists (α ι : Type) where
  heap : Heap α
  root : ι → Option Addr

/-- A macro on one of the lists. -/
inductive ListStep (ι : Type) where
  | addNodeLast (i : ι) (el : Addr)
  | addNodeFirst (i : ι) (el : Addr)
  | delNode (i : ι) (el : Addr)
  | delNodeFirst (i : ι)
  | delNodeLast (i : ι)
deriving DecidableEq, Repr

namespace ListStep

/-- The list it is about. -/
def list : ListStep ι → ι
  | addNodeLast i _ | addNodeFirst i _ | delNode i _ | delNodeFirst i | delNodeLast i => i

/-- What it does to a root. -/
def onRoot (link : Link α) : ListStep ι → Option Addr → HeapM α (Option Addr)
  | addNodeLast _ el, root => Data.addNodeLast link root el
  | addNodeFirst _ el, root => Data.addNodeFirst link root el
  | delNode _ el, root => Data.delNode link root el
  | delNodeFirst _, root => Data.delNodeFirst link root
  | delNodeLast _, root => Data.delNodeLast link root

/-- What it does to a sequence. -/
def onSeq : ListStep ι → List Addr → List Addr
  | addNodeLast _ el, as => as ++ [el]
  | addNodeFirst _ el, as => el :: as
  | delNode _ el, as => as.erase el
  | delNodeFirst _, as => as.tail
  | delNodeLast _, as => as.dropLast

variable [DecidableEq ι]

/-- A step on the lists. -/
def run (link : Link α) (step : ListStep ι) (s : Lists α ι) : Except Fault (Lists α ι) := do
  let (root, heap) ← step.onRoot link (s.root step.list) s.heap
  return ⟨heap, Function.update s.root step.list root⟩

/-- A step on the sequences. -/
def apply (step : ListStep ι) (seqs : ι → List Addr) : ι → List Addr :=
  Function.update seqs step.list (step.onSeq (seqs step.list))

omit [DecidableEq ι] in
/-- What is added is a node, and in no list. -/
def Allowed (nodes : Addr → Option β) (seqs : ι → List Addr) : ListStep ι → Prop
  | addNodeLast _ el | addNodeFirst _ el => nodes el ≠ none ∧ ∀ j, el ∉ seqs j
  | delNode _ _ | delNodeFirst _ | delNodeLast _ => True

omit [DecidableEq ι] in
/-- What is deleted is there. -/
def Finds (seqs : ι → List Addr) : ListStep ι → Prop
  | addNodeLast _ _ | addNodeFirst _ _ => True
  | delNode i el => el ∈ seqs i
  | delNodeFirst i | delNodeLast i => seqs i ≠ []

end ListStep

/-! ### Lists and sequences -/

/-- The roots denote the sequences, the nodes are what they were, each in one list at most. -/
structure Represents (rec : Record α β) (nodes : Addr → Option β) (s : Lists α ι)
    (seqs : ι → List Addr) : Prop where
  walk : ∀ i, Walk (nextIn rec.toLink s.heap) (s.root i) (seqs i)
  contents : ∀ a, (s.heap.cells a).map rec.data = nodes a
  live : ∀ i, ∀ a ∈ seqs i, Live s.heap a
  apart : ∀ i j a, a ∈ seqs i → a ∈ seqs j → i = j
  fresh : s.heap.Fresh

/-- What a program sees of a list: iteration visits the sequence, and a search finds the first
element that compares equal. -/
structure Observed (rec : Record α β) (nodes : Addr → Option β) (s : Lists α ι)
    (seqs : ι → List Addr) : Prop where
  walk : ∀ i, Walk (nextIn rec.toLink s.heap) (s.root i) (seqs i)
  visits : ∀ i, visited rec.toLink (s.root i) s.heap = .ok (seqs i, s.heap)
  finds : ∀ i (func : β → Int), findNode rec.toLink (fun x => func (rec.data x)) (s.root i) s.heap =
    .ok ((seqs i).find? fun a => (nodes a).any fun y => func y = 0, s.heap)

section

variable {rec : Record α β} {nodes : Addr → Option β} {s : Lists α ι} {seqs : ι → List Addr}

theorem live_iff (contents : ∀ a, (s.heap.cells a).map rec.data = nodes a) (a : Addr) :
    Live s.heap a ↔ nodes a ≠ none := by
  rw [Live, ← contents a, ← Option.isSome_iff_exists, ← Option.isSome_iff_ne_none,
    Option.isSome_map]

theorem Represents.short (rep : Represents rec nodes s seqs) (i : ι) :
    (seqs i).length ≤ s.heap.brk := by
  refine length_le_of_nodup (rep.walk i).nodup fun a mem => ?_
  obtain ⟨x, cell⟩ := rep.live i a mem
  exact rep.fresh.lt cell

theorem Represents.observed (rep : Represents rec nodes s seqs) : Observed rec nodes s seqs where
  walk := rep.walk
  visits i := visited_eq (rep.walk i) (rep.live i) (rep.short i)
  finds i func := by
    have same : Matches (fun x => func (rec.data x)) s.heap =
        fun a => (nodes a).any fun y => func y = 0 := by
      funext a
      rw [Matches, ← rep.contents a, Option.any_map]
    rw [findNode_eq _ (rep.walk i) (rep.live i) (rep.short i), same]

/-- The lists begin empty. -/
theorem represents_empty {h : Heap α} (fresh : h.Fresh) :
    Represents rec (fun a => (h.cells a).map rec.data) ⟨h, fun _ : ι => none⟩ fun _ => [] where
  walk _ := rfl
  contents _ := rfl
  live _ _ mem := absurd mem List.not_mem_nil
  apart _ _ _ mem := absurd mem List.not_mem_nil
  fresh := fresh

/-- Other links for the nodes of one list, and for one that was in none. -/
theorem Represents.relinked [DecidableEq ι] (rep : Represents rec nodes s seqs) (i : ι)
    {root : Option Addr} {h : Heap α} {touched as : List Addr}
    (relinked : Relinked rec.toLink s.heap h touched) (walk : Walk (nextIn rec.toLink h) root as)
    (inside : ∀ a ∈ as, a ∈ touched) (own : ∀ a ∈ touched, ∀ j ≠ i, a ∉ seqs j)
    (live : ∀ a ∈ touched, Live s.heap a) :
    Represents rec nodes ⟨h, Function.update s.root i root⟩ (Function.update seqs i as) where
  walk j := by
    dsimp only
    by_cases same : j = i
    · rw [same, Function.update_self, Function.update_self]
      exact walk
    · rw [Function.update_of_ne same, Function.update_of_ne same]
      exact (rep.walk j).congr fun a mem => relinked.next fun touch => own a touch j same mem
  contents a := (relinked.contents rec.data rec.data_setNext a).trans (rep.contents a)
  live j a mem := by
    rw [relinked.live]
    by_cases same : j = i
    · rw [same, Function.update_self] at mem
      exact live a (inside a mem)
    · rw [Function.update_of_ne same] at mem
      exact rep.live j a mem
  apart j k a mem_j mem_k := by
    by_cases same_j : j = i <;> by_cases same_k : k = i
    · rw [same_j, same_k]
    · rw [same_j, Function.update_self] at mem_j
      rw [Function.update_of_ne same_k] at mem_k
      exact absurd mem_k (own a (inside a mem_j) k same_k)
    · rw [Function.update_of_ne same_j] at mem_j
      rw [same_k, Function.update_self] at mem_k
      exact absurd mem_j (own a (inside a mem_k) j same_j)
    · rw [Function.update_of_ne same_j] at mem_j
      rw [Function.update_of_ne same_k] at mem_k
      exact rep.apart j k a mem_j mem_k
  fresh := rep.fresh.of_old relinked.brk fun a x cell => (relinked.live a).mp ⟨x, cell⟩

/-- The effect of a step on its own list. -/
structure OnList (rec : Record α β) (s : Lists α ι) (seqs : ι → List Addr) (step : ListStep ι)
    (root : Option Addr) (h : Heap α) (touched : List Addr) : Prop where
  run : step.onRoot rec.toLink (s.root step.list) s.heap = .ok (root, h)
  relinked : Relinked rec.toLink s.heap h touched
  walk : Walk (nextIn rec.toLink h) root (step.onSeq (seqs step.list))
  inside : ∀ a ∈ step.onSeq (seqs step.list), a ∈ touched
  own : ∀ a ∈ touched, ∀ j ≠ step.list, a ∉ seqs j
  live : ∀ a ∈ touched, Live s.heap a

theorem Represents.own (rep : Represents rec nodes s seqs) (i : ι) :
    ∀ a ∈ seqs i, ∀ j ≠ i, a ∉ seqs j :=
  fun a mem j ne mem_j => ne (rep.apart j i a mem_j mem)

theorem Represents.first (rep : Represents rec nodes s seqs) {i : ι} (some_el : seqs i ≠ []) :
    ∃ first, s.root i = some first := by
  have start := (rep.walk i).start_eq
  cases list : seqs i with
  | nil => exact absurd list some_el
  | cons a as =>
      rw [list] at start
      exact ⟨a, start⟩

/-- A step that keeps to the nodes of its list. -/
theorem Represents.shrinks (rep : Represents rec nodes s seqs) {step : ListStep ι}
    {root : Option Addr} {h : Heap α}
    (run : step.onRoot rec.toLink (s.root step.list) s.heap = .ok (root, h))
    (relinked : Relinked rec.toLink s.heap h (seqs step.list))
    (walk : Walk (nextIn rec.toLink h) root (step.onSeq (seqs step.list)))
    (inside : ∀ a ∈ step.onSeq (seqs step.list), a ∈ seqs step.list) :
    OnList rec s seqs step root h (seqs step.list) :=
  ⟨run, relinked, walk, inside, rep.own step.list, rep.live step.list⟩

/-- A step that finds what it deletes does to the list what it does to the sequence. -/
theorem Represents.onList (rep : Represents rec nodes s seqs) {step : ListStep ι}
    (allowed : step.Allowed nodes seqs) (finds : step.Finds seqs) :
    ∃ root h touched, OnList rec s seqs step root h touched := by
  cases step with
  | addNodeLast i el =>
      have node := (live_iff rep.contents el).mpr allowed.1
      obtain ⟨root, h, run, relinked, walk⟩ :=
        arrowLinkedListAdd_walk (rep.walk i) (rep.live i) (rep.short i) (allowed.2 i) node
      refine ⟨root, h, el :: seqs i, run, relinked, walk, fun a mem => ?_, ?_, ?_⟩
      · exact (List.mem_append.mp mem).elim (List.mem_cons_of_mem el) fun last =>
          List.mem_singleton.mp last ▸ List.mem_cons_self
      · exact List.forall_mem_cons.mpr ⟨fun j _ => allowed.2 j, rep.own i⟩
      · exact List.forall_mem_cons.mpr ⟨node, rep.live i⟩
  | addNodeFirst i el =>
      have node := (live_iff rep.contents el).mpr allowed.1
      obtain ⟨h, run, relinked, walk⟩ :=
        arrowLinkedListAddFirst_walk (rep.walk i) (allowed.2 i) node
      refine ⟨some el, h, el :: seqs i, ?_, relinked, walk, fun _ mem => mem, ?_, ?_⟩
      · change addNodeFirst rec.toLink (s.root i) el s.heap = _
        rw [addNodeFirst, map_apply, run]
        rfl
      · exact List.forall_mem_cons.mpr ⟨fun j _ => allowed.2 j, rep.own i⟩
      · exact List.forall_mem_cons.mpr ⟨node, rep.live i⟩
  | delNode i el =>
      have mem : el ∈ seqs i := finds
      obtain ⟨first, root_eq⟩ := rep.first (List.ne_nil_of_mem mem)
      obtain ⟨l, r, split⟩ := List.append_of_mem mem
      have walk := rep.walk i
      have live := rep.live i
      have short := rep.short i
      rw [split] at walk live short
      have erased : (seqs i).erase el = l ++ r := by rw [split, erase_middle walk.nodup]
      rw [root_eq] at walk
      obtain ⟨root, h, run, relinked, walk'⟩ := arrowLinkedListDel_walk walk live short
      rw [← split] at relinked
      rw [← erased] at walk'
      refine ⟨root, h, seqs i, rep.shrinks ?_ relinked walk' fun _ => List.mem_of_mem_erase⟩
      change delNode rec.toLink (s.root i) el s.heap = _
      rw [root_eq]
      exact run
  | delNodeFirst i =>
      obtain ⟨first, root_eq⟩ := rep.first finds
      obtain ⟨a, as, list⟩ := List.exists_cons_of_ne_nil finds
      have walk := rep.walk i
      have live := rep.live i
      have short := rep.short i
      rw [list] at walk live short
      rw [root_eq] at walk
      obtain rfl : first = a := Option.some.inj walk.1
      have tail : (seqs i).tail = as := by rw [list, List.tail_cons]
      obtain ⟨root, h, run, relinked, walk'⟩ :=
        arrowLinkedListDel_walk (l := []) walk live short
      rw [List.nil_append, ← list] at relinked
      rw [List.nil_append, ← tail] at walk'
      refine ⟨root, h, seqs i, rep.shrinks ?_ relinked walk' fun _ => List.mem_of_mem_tail⟩
      change delNodeFirst rec.toLink (s.root i) s.heap = _
      rw [root_eq]
      exact run
  | delNodeLast i =>
      obtain ⟨first, root_eq⟩ := rep.first finds
      obtain ⟨l, last, list⟩ := (List.eq_nil_or_concat (seqs i)).resolve_left finds
      rw [List.concat_eq_append] at list
      have walk := rep.walk i
      have live := rep.live i
      have short := rep.short i
      rw [list] at walk live short
      rw [root_eq] at walk
      have front : (seqs i).dropLast = l := by rw [list, List.dropLast_concat]
      obtain ⟨root, h, run, relinked, walk'⟩ := arrowLinkedListDelLast_walk walk live short
      rw [← list] at relinked
      rw [← front] at walk'
      refine ⟨root, h, seqs i, rep.shrinks ?_ relinked walk' fun _ => List.mem_of_mem_dropLast⟩
      change delNodeLast rec.toLink (s.root i) s.heap = _
      rw [root_eq]
      exact run

/-- A step that does not find what it deletes faults or loses the list. -/
theorem Represents.loses (rep : Represents rec nodes s seqs) {step : ListStep ι}
    (misses : ¬ step.Finds seqs) {root : Option Addr} {h : Heap α}
    (run : step.onRoot rec.toLink (s.root step.list) s.heap = .ok (root, h)) :
    ¬ Walk (nextIn rec.toLink h) root (step.onSeq (seqs step.list)) := by
  have no_root : ∀ i, seqs i = [] → s.root i = none := by
    intro i none_el
    have walk := rep.walk i
    rwa [none_el] at walk
  cases step with
  | addNodeLast i el => exact absurd trivial misses
  | addNodeFirst i el => exact absurd trivial misses
  | delNode i el =>
      have absent : el ∉ seqs i := misses
      change delNode rec.toLink (s.root i) el s.heap = _ at run
      by_cases some_el : seqs i = []
      · rw [no_root i some_el] at run
        cases run
      · obtain ⟨first, root_eq⟩ := rep.first some_el
        have walk := rep.walk i
        rw [root_eq] at walk run
        have lost := arrowLinkedListDel_absent walk (rep.live i) absent (rep.short i)
        have run : arrowLinkedListDel rec.toLink first el s.heap = .ok (root, h) := run
        cases lost.symm.trans run
        intro kept
        have start := kept.start_eq
        rw [ListStep.onSeq, ListStep.list, List.erase_of_not_mem absent] at start
        exact some_el (List.head?_eq_none_iff.mp start.symm)
  | delNodeFirst i =>
      change delNodeFirst rec.toLink (s.root i) s.heap = _ at run
      rw [no_root i (not_not.mp misses)] at run
      cases run
  | delNodeLast i =>
      change delNodeLast rec.toLink (s.root i) s.heap = _ at run
      rw [no_root i (not_not.mp misses)] at run
      cases run

/-! ### Runs -/

variable [DecidableEq ι]

theorem ListStep.run_eq {step : ListStep ι} {root : Option Addr} {h : Heap α}
    (run : step.onRoot rec.toLink (s.root step.list) s.heap = .ok (root, h)) :
    step.run rec.toLink s = .ok ⟨h, Function.update s.root step.list root⟩ := by
  rw [ListStep.run, then_of_ok run]
  rfl

theorem Represents.step (rep : Represents rec nodes s seqs) {step : ListStep ι}
    (allowed : step.Allowed nodes seqs) (finds : step.Finds seqs) :
    ∃ s', step.run rec.toLink s = .ok s' ∧ Represents rec nodes s' (step.apply seqs) := by
  obtain ⟨root, h, touched, on⟩ := rep.onList allowed finds
  exact ⟨_, ListStep.run_eq on.run,
    rep.relinked step.list on.relinked on.walk on.inside on.own on.live⟩

/-- A step after which the root denotes the sequence has found what it deletes. -/
theorem Represents.finds (rep : Represents rec nodes s seqs) {step : ListStep ι} {s' : Lists α ι}
    (run : step.run rec.toLink s = .ok s')
    (walk : Walk (nextIn rec.toLink s'.heap) (s'.root step.list) (step.apply seqs step.list)) :
    step.Finds seqs := by
  by_contra misses
  obtain ⟨⟨root, h⟩, ran, same⟩ := ok_of_bind run
  cases same
  dsimp only at walk
  rw [ListStep.apply, Function.update_self, Function.update_self] at walk
  exact rep.loses misses ran walk

variable (rec nodes) in
/-- All lists are the sequences in every state of a run. -/
def Refined : List (ListStep ι) → Lists α ι → (ι → List Addr) → Prop
  | [], s, seqs => Observed rec nodes s seqs
  | step :: steps, s, seqs => Observed rec nodes s seqs ∧
      ∃ s', step.run rec.toLink s = .ok s' ∧ Refined steps s' (step.apply seqs)

variable (nodes) in
/-- In a run each node is in one list at most. -/
def AllAllowed : List (ListStep ι) → (ι → List Addr) → Prop
  | [], _ => True
  | step :: steps, seqs => step.Allowed nodes seqs ∧ AllAllowed steps (step.apply seqs)

/-- In a run all that is deleted is there. -/
def AllFind : List (ListStep ι) → (ι → List Addr) → Prop
  | [], _ => True
  | step :: steps, seqs => step.Finds seqs ∧ AllFind steps (step.apply seqs)

theorem Represents.refined_iff {steps : List (ListStep ι)} (rep : Represents rec nodes s seqs)
    (allowed : AllAllowed nodes steps seqs) :
    Refined rec nodes steps s seqs ↔ AllFind steps seqs := by
  induction steps generalizing s seqs with
  | nil => exact iff_of_true rep.observed trivial
  | cons step steps ih =>
      constructor
      · rintro ⟨-, s', run, refined⟩
        have observed : Observed rec nodes s' (step.apply seqs) := by
          cases steps with
          | nil => exact refined
          | cons _ _ => exact refined.1
        have finds := rep.finds run (observed.walk step.list)
        obtain ⟨s'', run', rep'⟩ := rep.step allowed.1 finds
        cases run.symm.trans run'
        exact ⟨finds, (ih rep' allowed.2).mp refined⟩
      · rintro ⟨finds, rest⟩
        obtain ⟨s', run, rep'⟩ := rep.step allowed.1 finds
        exact ⟨rep.observed, s', run, (ih rep' allowed.2).mpr rest⟩

end

/-- The nodes of a heap, with what they hold besides their links. -/
def nodesOf (rec : Record α β) (h : Heap α) (a : Addr) : Option β := (h.cells a).map rec.data

/-- A run that begins with empty lists, and in which each node is in one list at most, has all
lists right in every state exactly if all that it deletes is there. -/
theorem lists_refined_iff [DecidableEq ι] (rec : Record α β) {h : Heap α} (fresh : h.Fresh)
    {steps : List (ListStep ι)} (allowed : AllAllowed (nodesOf rec h) steps fun _ => []) :
    Refined rec (nodesOf rec h) steps ⟨h, fun _ => none⟩ (fun _ => []) ↔
      AllFind steps fun _ => [] :=
  (represents_empty fresh).refined_iff allowed

/-- A number, behind a link. -/
def numberRecord : Record (Option Addr × Nat) Nat where
  next := Prod.fst
  setNext p x := (p, x.2)
  next_setNext _ _ := rfl
  data := Prod.snd
  data_setNext _ _ := rfl

/-- Three nodes. -/
def threeNodes : Heap (Option Addr × Nat) := ⟨fun a => if a < 3 then some (none, a) else none, 3⟩

theorem threeNodes_fresh : threeNodes.Fresh := fun _ beyond => if_neg (Nat.not_lt.mpr beyond)

/-- A run that fills two lists and empties one of them. -/
theorem lists_refined_filled : Refined numberRecord (nodesOf numberRecord threeNodes)
    [.addNodeLast 0 0, .addNodeFirst 0 1, .addNodeLast 1 2, .delNode 0 0, .delNodeLast 1,
      .addNodeLast 0 2, .delNodeFirst 0, .delNodeLast 0]
    ⟨threeNodes, fun _ : Fin 2 => none⟩ fun _ => [] := by
  refine (lists_refined_iff numberRecord threeNodes_fresh ?_).mpr ?_
  · simp [AllAllowed, ListStep.Allowed, ListStep.apply, ListStep.onSeq, ListStep.list, nodesOf,
      threeNodes, Function.update]
  · simp [AllFind, ListStep.Finds, ListStep.apply, ListStep.onSeq, ListStep.list, Function.update]

/-- Deleting the second of two nodes from a list with the first one only. -/
theorem not_refined_absent : ¬ Refined numberRecord (nodesOf numberRecord threeNodes)
    [.addNodeLast () 0, .delNode () 1] ⟨threeNodes, fun _ => none⟩ fun _ => [] := by
  have allowed : AllAllowed (nodesOf numberRecord threeNodes)
      [.addNodeLast () 0, .delNode () 1] fun _ => [] := by
    simp [AllAllowed, ListStep.Allowed, nodesOf, threeNodes]
  refine fun refined => ?_
  have finds := ((represents_empty threeNodes_fresh).refined_iff allowed).mp refined
  simp [AllFind, ListStep.Finds, ListStep.apply, ListStep.onSeq, ListStep.list] at finds

end AcnSdk.Data

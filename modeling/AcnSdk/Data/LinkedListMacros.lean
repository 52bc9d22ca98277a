/-
The list macros of `src/data/linkedlist.h` on the functions of `src/data/linkedlist.c`.

A macro hands the root to a function and makes the root of what comes back. The lists of a program
share the nodes of one heap, and each node is in one list at most. `arrow_linked_list_del` returns
NULL where it does not find its element, so the macro loses the list; and the macros that delete
take the address of a member of the root, which must not be NULL.

* `arrowLinkedListDel_walk`, `arrowLinkedListDel_absent` — an element that is in the list, and one
  that is not.
* `visited_eq`, `findNode_eq` — iteration and search.
-/

import AcnSdk.Data.LinkedList
import AcnSdk.Lib.DoublyLinked

namespace AcnSdk.Data

open AcnSdk.Lib Prog Heap

variable {α : Type} (link : Link α)

/-! ### Functions -/

/-- `arrow_linked_list_add_first`. -/
def arrowLinkedListAddFirst (root : Option Addr) (el : Addr) : HeapM α Addr := do
  update el (link.setNext root)
  return el

/-- The loop of `arrow_linked_list_del_last`, at `last` with `prev` before it. -/
def arrowLinkedListDelLastFrom : Nat → Option Addr → Addr → HeapM α (Option Addr × Addr)
  | 0, _, _ => throw .endless
  | fuel + 1, prev, last => do
      match link.next (← read last) with
      | some next => arrowLinkedListDelLastFrom fuel (some last) next
      | none => return (prev, last)

/-- `arrow_linked_list_del_last`. -/
def arrowLinkedListDelLast (root : Addr) : HeapM α (Option Addr) := do
  let (prev, last) ← arrowLinkedListDelLastFrom link (← bound) none root
  match prev with
  | some prev =>
      update prev (link.setNext (link.next (← read last)))
      update last (link.setNext none)
      return some root
  | none => return none

/-! ### Macros -/

/-- `arrow_linked_list_add_node_last`: the new root. -/
def addNodeLast (root : Option Addr) (el : Addr) : HeapM α (Option Addr) :=
  arrowLinkedListAdd link root el

/-- `arrow_linked_list_add_node_first`. -/
def addNodeFirst (root : Option Addr) (el : Addr) : HeapM α (Option Addr) :=
  some <$> arrowLinkedListAddFirst link root el

/-- `arrow_linked_list_del_node`. -/
def delNode (root : Option Addr) (el : Addr) : HeapM α (Option Addr) := do
  arrowLinkedListDel link (← deref root) el

/-- `arrow_linked_list_del_node_first`. -/
def delNodeFirst (root : Option Addr) : HeapM α (Option Addr) := do
  arrowLinkedListDel link (← deref root) (← deref root)

/-- `arrow_linked_list_del_node_last`. -/
def delNodeLast (root : Option Addr) : HeapM α (Option Addr) := do
  arrowLinkedListDelLast link (← deref root)

section

variable {σ : Type}

/-- The loop of `arrow_linked_list_for_each` at `base`. The body may assign to `p`, and says whether
it breaks. -/
def forEachFrom (body : Option Addr → σ → HeapM α (Option Addr × σ × Bool)) :
    Nat → Option Addr → Option Addr → σ → HeapM α (Option Addr × σ)
  | 0, _, _, _ => throw .endless
  | _ + 1, none, p, s => return (p, s)
  | fuel + 1, some base, p, s => do
      let (p, s, stop) ← body p s
      if stop then return (p, s)
      else
        let next := link.next (← read base)
        forEachFrom body fuel next (next.or p) s

/-- `arrow_linked_list_for_each`. -/
def forEach (body : Option Addr → σ → HeapM α (Option Addr × σ × Bool)) (root : Option Addr)
    (s : σ) : HeapM α (Option Addr × σ) := do
  forEachFrom link body (← bound) root root s

/-- The nodes that `arrow_linked_list_for_each` visits. -/
def visited (root : Option Addr) : HeapM α (List Addr) := do
  let (_, list) ← forEach link (fun p list => do return (p, list ++ [← deref p], false)) root []
  return list

/-- `linked_list_find_node`, with what `func` says of a node. -/
def findNode (func : α → Int) (root : Option Addr) : HeapM α (Option Addr) := do
  let (p, _) ← forEach link (fun p s => do
    if func (← read (← deref p)) = 0 then return (p, s, true) else return (none, s, false)) root ()
  return p

end

/-! ### Links in a heap -/

/-- The link of the node at an address. -/
def nextIn (h : Heap α) (a : Addr) : Option Addr := (h.cells a).bind link.next

/-- There is a node at the address. -/
def Live (h : Heap α) (a : Addr) : Prop := ∃ x, h.cells a = some x

/-- Some nodes have other links, and nothing else is changed. -/
structure Relinked (h h' : Heap α) (nodes : List Addr) : Prop where
  brk : h'.brk = h.brk
  live : ∀ a, Live h' a ↔ Live h a
  others : ∀ a ∉ nodes, h'.cells a = h.cells a
  contents : ∀ {β : Type} (data : α → β), (∀ p x, data (link.setNext p x) = data x) →
    ∀ a, (h'.cells a).map data = (h.cells a).map data

variable {link} {h h' h'' : Heap α} {nodes as : List Addr} {root : Option Addr} {a el : Addr}

theorem Relinked.refl (h : Heap α) (nodes : List Addr) : Relinked link h h nodes :=
  ⟨rfl, fun _ => Iff.rfl, fun _ _ => rfl, fun _ _ _ => rfl⟩

theorem Relinked.trans (first : Relinked link h h' nodes) (second : Relinked link h' h'' nodes) :
    Relinked link h h'' nodes where
  brk := second.brk.trans first.brk
  live a := (second.live a).trans (first.live a)
  others a apart := (second.others a apart).trans (first.others a apart)
  contents data keeps a := (second.contents data keeps a).trans (first.contents data keeps a)

theorem Relinked.next (relinked : Relinked link h h' nodes) (apart : a ∉ nodes) :
    nextIn link h' a = nextIn link h a :=
  congrArg (Option.bind · link.next) (relinked.others a apart)

variable (link) in
/-- Setting the link of a node. -/
theorem update_link (nodes : List Addr) (live : Live h a) (mem : a ∈ nodes) (p : Option Addr) :
    ∃ h', update a (link.setNext p) h = .ok ((), h') ∧ Relinked link h h' nodes ∧
      nextIn link h' a = p ∧ ∀ b ≠ a, nextIn link h' b = nextIn link h b := by
  obtain ⟨x, cell⟩ := live
  have other : ∀ b ≠ a, (h.adjust (only a (link.setNext p))).cells b = h.cells b := by
    intro b ne
    have idle : only a (link.setNext p) b = id := by
      funext y
      exact if_neg ne
    rw [adjust_cells, idle, Option.map_id_fun, id_eq]
  have here : (h.adjust (only a (link.setNext p))).cells a = some (link.setNext p x) := by
    rw [adjust_live cell, only, if_pos rfl]
  refine ⟨h.adjust (only a (link.setNext p)), update_adjust cell _, ⟨rfl, ?_, ?_, ?_⟩, ?_, ?_⟩
  · intro b
    rw [Live, Live, adjust_cells]
    simp
  · exact fun b apart => other b fun eq => apart (eq ▸ mem)
  · intro β data keeps b
    rw [adjust_cells, Option.map_map]
    congr 1
    funext y
    simp only [Function.comp_apply, only]
    split_ifs
    · exact keeps p y
    · rfl
  · rw [nextIn, here, Option.bind_some, link.next_setNext]
  · exact fun b ne => congrArg (Option.bind · link.next) (other b ne)

variable (link) in
theorem read_live (live : Live h a) :
    ∃ x, read a h = .ok (x, h) ∧ link.next x = nextIn link h a := by
  obtain ⟨x, cell⟩ := live
  exact ⟨x, read_eq cell, by rw [nextIn, cell, Option.bind_some]⟩

/-! ### Functions on lists -/

section

variable {prev : Option Addr}

/-- The walk ends at the last node. -/
theorem arrowLinkedListLast_walk {a : Addr} (fuel : Nat) (walk : Walk (nextIn link h) (some a) as)
    (live : ∀ b ∈ as, Live h b) (enough : as.length ≤ fuel) :
    ∃ last, as.getLast? = some last ∧ arrowLinkedListLast link fuel a h = .ok (last, h) := by
  induction as generalizing a fuel with
  | nil => cases walk
  | cons b as ih =>
      obtain ⟨same, rest⟩ := walk
      cases same
      obtain ⟨fuel, rfl⟩ := Nat.exists_eq_succ_of_ne_zero (Nat.ne_zero_of_lt enough)
      obtain ⟨x, read_x, next⟩ := read_live link (live b List.mem_cons_self)
      rw [arrowLinkedListLast, bind_of_ok read_x, next]
      cases as with
      | nil =>
          rw [show nextIn link h b = none from rest]
          exact ⟨b, rfl, rfl⟩
      | cons c as =>
          have next_b : nextIn link h b = some c := rest.1
          rw [next_b] at rest ⊢
          rw [List.getLast?_cons_cons]
          exact ih fuel rest (fun d mem => live d (List.mem_cons_of_mem b mem))
            (Nat.le_of_succ_le_succ enough)

/-- `arrow_linked_list_add` puts a new node at the end. -/
theorem arrowLinkedListAdd_walk (walk : Walk (nextIn link h) root as) (live : ∀ b ∈ as, Live h b)
    (short : as.length ≤ h.brk) (new : el ∉ as) (node : Live h el) :
    ∃ root' h', arrowLinkedListAdd link root el h = .ok (root', h') ∧
      Relinked link h h' (el :: as) ∧ Walk (nextIn link h') root' (as ++ [el]) := by
  have nodup := walk.nodup
  obtain ⟨h₁, cleared, relinked₁, next_el, next₁⟩ :=
    update_link link (el :: as) node List.mem_cons_self none
  have walk₁ : Walk (nextIn link h₁) root as :=
    walk.congr fun b mem => next₁ b fun eq => new (eq ▸ mem)
  cases root with
  | none =>
      obtain rfl : as = [] := by
        cases as with
        | nil => rfl
        | cons b as => cases walk.1
      refine ⟨some el, h₁, ?_, relinked₁, rfl, next_el⟩
      rw [arrowLinkedListAdd, bind_of_ok cleared]
      rfl
  | some r =>
      have live₁ : ∀ b ∈ as, Live h₁ b := fun b mem => (relinked₁.live b).mpr (live b mem)
      obtain ⟨last, at_last, found⟩ := arrowLinkedListLast_walk (h₁.brk + 2) walk₁ live₁
        (by rw [relinked₁.brk]; omega)
      have mem : last ∈ as := List.mem_of_getLast? at_last
      obtain ⟨h₂, linked, relinked₂, next_last, next₂⟩ := update_link link (el :: as)
        (live₁ last mem) (List.mem_cons_of_mem el mem) (some el)
      refine ⟨some r, h₂, ?_, relinked₁.trans relinked₂, ?_⟩
      · rw [arrowLinkedListAdd, bind_of_ok cleared, bind_of_ok (bound_apply h₁), bind_of_ok found,
          bind_of_ok linked]
        rfl
      · refine walk₁.append ((next₂ el fun eq => new (eq ▸ mem)).trans next_el) ?_ ?_
        · intro b at_b
          cases at_last.symm.trans at_b
          exact next_last
        · exact fun b _ other => next₂ b fun eq => other (eq ▸ at_last)

/-- `arrow_linked_list_add_first` puts a new node at the front. -/
theorem arrowLinkedListAddFirst_walk (walk : Walk (nextIn link h) root as) (new : el ∉ as)
    (node : Live h el) :
    ∃ h', arrowLinkedListAddFirst link root el h = .ok (el, h') ∧
      Relinked link h h' (el :: as) ∧ Walk (nextIn link h') (some el) (el :: as) := by
  obtain ⟨h', linked, relinked, next_el, next⟩ :=
    update_link link (el :: as) node List.mem_cons_self root
  refine ⟨h', ?_, relinked, rfl, ?_⟩
  · rw [arrowLinkedListAddFirst, bind_of_ok linked]
    rfl
  · rw [next_el]
    exact walk.congr fun b mem => next b fun eq => new (eq ▸ mem)

variable (link) in
/-- What `arrow_linked_list_del` does at its element, which `next` follows. -/
def unlink (root : Addr) (next : Option Addr) : Option Addr → HeapM α (Option Addr)
  | some prev => do
      update prev (link.setNext next)
      return some root
  | none => do
      update root (link.setNext none)
      return next

theorem arrowLinkedListDelFrom_found {l r : List Addr} {start : Option Addr} (first : Addr)
    (fuel : Nat) (prev : Option Addr) (walk : Walk (nextIn link h) start (l ++ el :: r))
    (live : ∀ b ∈ l ++ el :: r, Live h b) (enough : l.length < fuel) :
    arrowLinkedListDelFrom link first el fuel prev start h =
      unlink link first (nextIn link h el) (l.getLast?.or prev) h := by
  obtain ⟨fuel, rfl⟩ := Nat.exists_eq_succ_of_ne_zero (Nat.ne_zero_of_lt enough)
  induction l generalizing start fuel prev with
  | nil =>
      obtain ⟨rfl, -⟩ := walk
      obtain ⟨x, read_x, next⟩ := read_live link (live el List.mem_cons_self)
      rw [arrowLinkedListDelFrom, bind_of_ok read_x, if_pos rfl, next]
      cases prev <;> rfl
  | cons b l ih =>
      have nodup := walk.nodup
      obtain ⟨rfl, rest⟩ := walk
      obtain ⟨x, read_x, next⟩ := read_live link (live b List.mem_cons_self)
      have ne : b ≠ el := fun eq => (List.nodup_cons.mp nodup).1
        (eq ▸ List.mem_append_right l List.mem_cons_self)
      obtain ⟨fuel, rfl⟩ : ∃ n, fuel = n + 1 := by
        refine Nat.exists_eq_succ_of_ne_zero ?_
        rw [List.length_cons] at enough
        omega
      have before : (b :: l).getLast?.or prev = l.getLast?.or (some b) := by
        rw [List.getLast?_cons]
        cases l.getLast? <;> rfl
      rw [arrowLinkedListDelFrom, bind_of_ok read_x, if_neg ne, next, before]
      exact ih (some b) rest (fun d mem => live d (List.mem_cons_of_mem b mem)) fuel
        (Nat.lt_of_succ_lt_succ enough)

/-- `arrow_linked_list_del` takes an element out of its list. -/
theorem arrowLinkedListDel_walk {first : Addr} {l r : List Addr}
    (walk : Walk (nextIn link h) (some first) (l ++ el :: r))
    (live : ∀ b ∈ l ++ el :: r, Live h b) (short : (l ++ el :: r).length ≤ h.brk) :
    ∃ root' h', arrowLinkedListDel link first el h = .ok (root', h') ∧
      Relinked link h h' (l ++ el :: r) ∧ Walk (nextIn link h') root' (l ++ r) := by
  have nodup := walk.nodup
  have found := arrowLinkedListDelFrom_found first (h.brk + 2) none walk live (by
    rw [List.length_append] at short
    omega)
  rw [arrowLinkedListDel, bind_of_ok (bound_apply h), found, Option.or_none]
  obtain rfl | ⟨l, prev, rfl⟩ := List.eq_nil_or_concat l
  · -- the element is the root, and its own link goes
    obtain ⟨same, rest⟩ := walk
    cases same
    obtain ⟨h', cleared, relinked, -, next⟩ :=
      update_link link (el :: r) (live el List.mem_cons_self) List.mem_cons_self none
    refine ⟨nextIn link h el, h', ?_, relinked, rest.congr fun b mem => next b ?_⟩
    · rw [List.getLast?_nil, unlink, bind_of_ok cleared]
      rfl
    · exact fun eq => (List.nodup_cons.mp nodup).1 (eq ▸ mem)
  · rw [List.concat_eq_append] at *
    have mem : prev ∈ l ++ [prev] ++ el :: r :=
      List.mem_append_left _ (List.mem_append_right l List.mem_cons_self)
    obtain ⟨h', linked, relinked, next_prev, next⟩ :=
      update_link link (l ++ [prev] ++ el :: r) (live prev mem) mem (nextIn link h el)
    refine ⟨some first, h', ?_, relinked, ?_⟩
    · rw [List.getLast?_concat, unlink, bind_of_ok linked]
      rfl
    · have removed : Walk (nextIn link h')
          (if l ++ [prev] = [] then nextIn link h el else some first) (l ++ [prev] ++ r) := by
        refine walk.remove (fun l' b split => ?_) fun b _ other => next b fun eq => ?_
        · obtain ⟨-, same⟩ := List.append_inj' split rfl
          cases same
          exact next_prev
        · rw [List.getLast?_concat, eq] at other
          exact other rfl
      rwa [if_neg (by simp)] at removed

/-- `arrow_linked_list_del` returns NULL where the element is not in the list. -/
theorem arrowLinkedListDelFrom_absent {start : Option Addr} (first : Addr) (fuel : Nat)
    (prev : Option Addr) (walk : Walk (nextIn link h) start as) (live : ∀ b ∈ as, Live h b)
    (absent : el ∉ as) (enough : as.length < fuel) :
    arrowLinkedListDelFrom link first el fuel prev start h = .ok (none, h) := by
  obtain ⟨fuel, rfl⟩ := Nat.exists_eq_succ_of_ne_zero (Nat.ne_zero_of_lt enough)
  induction as generalizing start fuel prev with
  | nil =>
      cases walk
      rfl
  | cons b as ih =>
      obtain ⟨rfl, rest⟩ := walk
      obtain ⟨x, read_x, next⟩ := read_live link (live b List.mem_cons_self)
      rw [List.mem_cons, not_or] at absent
      obtain ⟨fuel, rfl⟩ : ∃ n, fuel = n + 1 := by
        refine Nat.exists_eq_succ_of_ne_zero ?_
        rw [List.length_cons] at enough
        omega
      rw [arrowLinkedListDelFrom, bind_of_ok read_x, if_neg (Ne.symm absent.1), next]
      exact ih (some b) rest (fun d mem => live d (List.mem_cons_of_mem b mem)) absent.2 fuel
        (Nat.lt_of_succ_lt_succ enough)

theorem arrowLinkedListDel_absent {first : Addr} (walk : Walk (nextIn link h) (some first) as)
    (live : ∀ b ∈ as, Live h b) (absent : el ∉ as) (short : as.length ≤ h.brk) :
    arrowLinkedListDel link first el h = .ok (none, h) := by
  rw [arrowLinkedListDel, bind_of_ok (bound_apply h)]
  exact arrowLinkedListDelFrom_absent first _ none walk live absent (by omega)

theorem arrowLinkedListDelLastFrom_walk {l : List Addr} {a last : Addr} (fuel : Nat)
    (prev : Option Addr) (walk : Walk (nextIn link h) (some a) (l ++ [last]))
    (live : ∀ b ∈ l ++ [last], Live h b) (enough : l.length < fuel) :
    arrowLinkedListDelLastFrom link fuel prev a h = .ok ((l.getLast?.or prev, last), h) := by
  obtain ⟨fuel, rfl⟩ := Nat.exists_eq_succ_of_ne_zero (Nat.ne_zero_of_lt enough)
  induction l generalizing a fuel prev with
  | nil =>
      obtain ⟨same, rest⟩ := walk
      cases same
      obtain ⟨x, read_x, next⟩ := read_live link (live last List.mem_cons_self)
      have none_next : nextIn link h last = none := rest
      rw [arrowLinkedListDelLastFrom, bind_of_ok read_x, next, none_next]
      rfl
  | cons b l ih =>
      obtain ⟨same, rest⟩ := walk
      cases same
      obtain ⟨x, read_x, next⟩ := read_live link (live b List.mem_cons_self)
      obtain ⟨fuel, rfl⟩ : ∃ n, fuel = n + 1 := by
        refine Nat.exists_eq_succ_of_ne_zero ?_
        rw [List.length_cons] at enough
        omega
      obtain ⟨c, next_c⟩ : ∃ c, nextIn link h b = some c := by
        have step := rest.start_eq
        cases l with
        | nil => exact ⟨last, step⟩
        | cons d l => exact ⟨d, step⟩
      have before : (b :: l).getLast?.or prev = l.getLast?.or (some b) := by
        rw [List.getLast?_cons]
        cases l.getLast? <;> rfl
      rw [next_c] at rest
      rw [arrowLinkedListDelLastFrom, bind_of_ok read_x, next, next_c, before]
      exact ih (some b) rest (fun d mem => live d (List.mem_cons_of_mem b mem)) fuel
        (Nat.lt_of_succ_lt_succ enough)

/-- `arrow_linked_list_del_last` takes the last element out. -/
theorem arrowLinkedListDelLast_walk {first last : Addr} {l : List Addr}
    (walk : Walk (nextIn link h) (some first) (l ++ [last]))
    (live : ∀ b ∈ l ++ [last], Live h b) (short : (l ++ [last]).length ≤ h.brk) :
    ∃ root' h', arrowLinkedListDelLast link first h = .ok (root', h') ∧
      Relinked link h h' (l ++ [last]) ∧ Walk (nextIn link h') root' l := by
  have nodup := walk.nodup
  have found := arrowLinkedListDelLastFrom_walk (h.brk + 2) none walk live (by
    rw [List.length_append] at short
    omega)
  rw [Option.or_none] at found
  rw [arrowLinkedListDelLast, bind_of_ok (bound_apply h), bind_of_ok found]
  obtain rfl | ⟨l, prev, rfl⟩ := List.eq_nil_or_concat l
  · exact ⟨none, h, rfl, .refl h _, rfl⟩
  · rw [List.concat_eq_append] at *
    rw [List.getLast?_concat]
    dsimp only
    have mem : prev ∈ l ++ [prev] ++ [last] :=
      List.mem_append_left _ (List.mem_append_right l List.mem_cons_self)
    have mem_last : last ∈ l ++ [prev] ++ [last] := List.mem_append_right _ List.mem_cons_self
    have ne : prev ≠ last := by
      intro eq
      exact (List.nodup_append.mp nodup).2.2 prev (List.mem_append_right l List.mem_cons_self) last
        List.mem_cons_self eq
    have next_last : nextIn link h last = none := walk.step_eq
    obtain ⟨x, read_x, next_x⟩ := read_live link (live last mem_last)
    obtain ⟨h₁, linked, relinked₁, next_prev, next₁⟩ :=
      update_link link (l ++ [prev] ++ [last]) (live prev mem) mem (link.next x)
    obtain ⟨h₂, cleared, relinked₂, -, next₂⟩ :=
      update_link link (l ++ [prev] ++ [last]) ((relinked₁.live last).mpr (live last mem_last))
        mem_last none
    refine ⟨some first, h₂, ?_, relinked₁.trans relinked₂, ?_⟩
    · rw [bind_of_ok read_x, bind_of_ok linked, bind_of_ok cleared]
      rfl
    · have removed : Walk (nextIn link h₂)
          (if l ++ [prev] = [] then nextIn link h last else some first) (l ++ [prev] ++ []) := by
        refine walk.remove (fun l' b split => ?_) fun b mem_b other => ?_
        · obtain ⟨-, same⟩ := List.append_inj' split rfl
          cases same
          rw [next₂ prev ne, next_prev, next_x]
        · have apart : b ≠ last := by
            rintro rfl
            rw [List.append_nil] at mem_b
            exact (List.nodup_append.mp nodup).2.2 b mem_b b List.mem_cons_self rfl
          have before : b ≠ prev := by
            rintro rfl
            exact other List.getLast?_concat
          rw [next₂ b apart, next₁ b before]
      rwa [if_neg (by simp), List.append_nil] at removed

end

/-! ### Iteration -/

section

variable {σ : Type}

/-- With a body that reads only and does not break, the iteration is a fold over the list. -/
theorem forEachFrom_fold {base : Option Addr} (fuel : Nat)
    (body : Option Addr → σ → HeapM α (Option Addr × σ × Bool)) (f : σ → Addr → σ) (s : σ)
    (walk : Walk (nextIn link h) base as) (live : ∀ a ∈ as, Live h a)
    (pure_body : ∀ a ∈ as, ∀ s, ∃ p, body (some a) s h = .ok ((p, f s a, false), h))
    (enough : as.length < fuel) (p : Option Addr) :
    ∃ p', forEachFrom link body fuel base (base.or p) s h = .ok ((p', as.foldl f s), h) := by
  obtain ⟨fuel, rfl⟩ := Nat.exists_eq_succ_of_ne_zero (Nat.ne_zero_of_lt enough)
  induction as generalizing base fuel s p with
  | nil =>
      cases walk
      exact ⟨p, rfl⟩
  | cons a as ih =>
      obtain ⟨rfl, rest⟩ := walk
      obtain ⟨p', run⟩ := pure_body a List.mem_cons_self s
      obtain ⟨x, read_x, next⟩ := read_live link (live a List.mem_cons_self)
      obtain ⟨fuel, rfl⟩ : ∃ n, fuel = n + 1 := by
        refine Nat.exists_eq_succ_of_ne_zero ?_
        rw [List.length_cons] at enough
        omega
      rw [forEachFrom, Option.some_or, bind_of_ok run]
      dsimp only
      rw [if_neg Bool.false_ne_true, bind_of_ok read_x, next, List.foldl_cons]
      exact ih (f s a) rest (fun b mem => live b (List.mem_cons_of_mem a mem))
        (fun b mem => pure_body b (List.mem_cons_of_mem a mem)) p' fuel
          (Nat.lt_of_succ_lt_succ enough)

/-- `arrow_linked_list_for_each` visits the elements of the list in their order. -/
theorem visited_eq (walk : Walk (nextIn link h) root as) (live : ∀ a ∈ as, Live h a)
    (short : as.length ≤ h.brk) : visited link root h = .ok (as, h) := by
  obtain ⟨p, run⟩ := forEachFrom_fold (h.brk + 2)
    (fun p list => do return (p, list ++ [← deref p], false)) (fun list a => list ++ [a]) [] walk
    live (fun a _ list => ⟨some a, rfl⟩) (by omega) root
  have whole : as.foldl (fun list a => list ++ [a]) [] = as := by
    rw [List.foldl_append_eq_append, List.nil_append, ← List.flatMap_def, List.flatMap_singleton']
  rw [Option.or_self, whole] at run
  rw [visited, forEach, bind_apply, bind_of_ok (bound_apply h), run]
  rfl

/-- Whether a node compares equal. -/
def Matches (func : α → Int) (h : Heap α) (a : Addr) : Bool := (h.cells a).any fun x => func x = 0

theorem findFrom_eq (func : α → Int) {base : Option Addr} (fuel : Nat)
    (walk : Walk (nextIn link h) base as) (live : ∀ a ∈ as, Live h a)
    (enough : as.length < fuel) :
    forEachFrom link (fun p s => do
        if func (← read (← deref p)) = 0 then return (p, s, true) else return (none, s, false))
      fuel base base () h = .ok ((as.find? (Matches func h), ()), h) := by
  obtain ⟨fuel, rfl⟩ := Nat.exists_eq_succ_of_ne_zero (Nat.ne_zero_of_lt enough)
  induction as generalizing base fuel with
  | nil =>
      cases walk
      rfl
  | cons a as ih =>
      obtain ⟨rfl, rest⟩ := walk
      obtain ⟨x, cell⟩ := live a List.mem_cons_self
      have next : link.next x = nextIn link h a := by rw [nextIn, cell, Option.bind_some]
      have matches_iff : Matches func h a = decide (func x = 0) := by
        rw [Matches, cell, Option.any_some]
      obtain ⟨fuel, rfl⟩ : ∃ n, fuel = n + 1 := by
        refine Nat.exists_eq_succ_of_ne_zero ?_
        rw [List.length_cons] at enough
        omega
      rw [List.find?_cons, matches_iff, forEachFrom, bind_apply, bind_of_ok (deref_some a h),
        bind_of_ok (read_eq cell)]
      by_cases equal : func x = 0
      · rw [if_pos equal, decide_eq_true equal]
        rfl
      · rw [if_neg equal, decide_eq_false equal, pure_apply, ok_bind]
        dsimp only
        rw [if_neg Bool.false_ne_true, bind_of_ok (read_eq cell), next, Option.or_none]
        exact ih rest (fun b mem => live b (List.mem_cons_of_mem a mem)) fuel
          (Nat.lt_of_succ_lt_succ enough)

/-- `linked_list_find_node` ends at the first element that compares equal, or with NULL. -/
theorem findNode_eq (func : α → Int) (walk : Walk (nextIn link h) root as)
    (live : ∀ a ∈ as, Live h a) (short : as.length ≤ h.brk) :
    findNode link func root h = .ok (as.find? (Matches func h), h) := by
  rw [findNode, forEach, bind_apply, bind_of_ok (bound_apply h),
    findFrom_eq func _ walk live (by omega)]
  rfl

end

end AcnSdk.Data

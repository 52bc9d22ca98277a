/-
Doubly linked lists.

A list is given by the two links of its nodes and the two pointers to its ends. It enumerates
a sequence when following the links forth meets the sequence and following them back meets it
in reverse.

* `Walk.nodup` — a walk that ends meets no node twice.
* `Walk.append`, `Walk.remove` — what the steps have to become for one node more or less.
* `Enumerates.append`, `Enumerates.prepend`, `Enumerates.remove` — what the links have to become
  for one node more or less.
-/

import Mathlib.Data.List.Basic
import Mathlib.Data.List.Nodup
import Mathlib.Tactic.Common

namespace AcnSdk.Lib

variable {ν : Type}

/-- The links of the nodes. -/
structure Links (ν : Type) where
  prev : ν → Option ν
  next : ν → Option ν

/-- Taking the steps from `start` on meets the nodes of the list, and ends. -/
def Walk (step : ν → Option ν) : Option ν → List ν → Prop
  | start, [] => start = none
  | start, a :: as => start = some a ∧ Walk step (step a) as

/-- The list from `head` to `tail` is the sequence, in both directions. -/
structure Enumerates (k : Links ν) (head tail : Option ν) (as : List ν) : Prop where
  forth : Walk k.next head as
  back : Walk k.prev tail as.reverse

/-- Where no node is met twice, a node is erased from where it stands. -/
theorem erase_middle [BEq ν] [LawfulBEq ν] {l r : List ν} {a : ν} (nodup : (l ++ a :: r).Nodup) :
    (l ++ a :: r).erase a = l ++ r := by
  have not_front : a ∉ l := fun front =>
    (List.nodup_append.mp nodup).2.2 a front a List.mem_cons_self rfl
  rw [List.erase_append_right _ not_front, List.erase_cons_head]

/-! ### Walks -/

section Walk

variable {step step' : ν → Option ν} {start : Option ν} {as : List ν}

theorem Walk.start_eq (walk : Walk step start as) : start = as.head? := by
  cases as with
  | nil => exact walk
  | cons a as => exact walk.1

/-- From one node of a walk on, it goes to the next one. -/
theorem Walk.step_eq {a : ν} {l r : List ν} (walk : Walk step start (l ++ a :: r)) :
    step a = r.head? := by
  induction l generalizing start with
  | nil => exact walk.2.start_eq
  | cons b l ih => exact ih walk.2

theorem walk_of_steps (first : start = as.head?)
    (steps : ∀ l a r, as = l ++ a :: r → step a = r.head?) : Walk step start as := by
  induction as generalizing start with
  | nil => exact first
  | cons a as ih =>
      refine ⟨first, ih (steps [] a as rfl) fun l b r split => ?_⟩
      exact steps (a :: l) b r (congrArg (a :: ·) split)

/-- What is left of a walk is settled by where it stands. -/
theorem Walk.unique {bs : List ν} (walk : Walk step start as) (other : Walk step start bs) :
    as = bs := by
  induction as generalizing start bs with
  | nil =>
      cases bs with
      | nil => rfl
      | cons b bs => exact absurd (walk.symm.trans other.1) (by simp)
  | cons a as ih =>
      cases bs with
      | nil => exact absurd (other.symm.trans walk.1) (by simp)
      | cons b bs =>
          have same : a = b := Option.some.inj (walk.1.symm.trans other.1)
          subst same
          rw [ih walk.2 other.2]

theorem Walk.suffix {l r : List ν} (walk : Walk step start (l ++ r)) : Walk step r.head? r := by
  induction l generalizing start with
  | nil =>
      have first := walk.start_eq
      rw [List.nil_append] at first walk
      rwa [← first]
  | cons a l ih => exact ih walk.2

/-- A walk that meets a node twice goes on for ever. -/
theorem Walk.nodup (walk : Walk step start as) : as.Nodup := by
  induction as generalizing start with
  | nil => exact List.nodup_nil
  | cons a as ih =>
      refine List.nodup_cons.mpr ⟨fun again => ?_, ih walk.2⟩
      obtain ⟨l, r, split⟩ := List.append_of_mem again
      have here : Walk step (some a) (a :: as) := ⟨rfl, walk.2⟩
      have there : Walk step (some a) (a :: r) := by
        have tail := walk.2
        rw [split] at tail
        exact tail.suffix
      have same := congrArg List.length (here.unique there)
      rw [split, List.length_cons, List.length_append, List.length_cons] at same
      omega

theorem Walk.congr (walk : Walk step start as) (same : ∀ a ∈ as, step' a = step a) :
    Walk step' start as := by
  induction as generalizing start with
  | nil => exact walk
  | cons a as ih =>
      refine ⟨walk.1, ?_⟩
      rw [same a List.mem_cons_self]
      exact ih walk.2 fun b mem => same b (List.mem_cons_of_mem a mem)

/-- One node more at the end. -/
theorem Walk.append {c : ν} (walk : Walk step start as) (new : step' c = none)
    (last : ∀ a, as.getLast? = some a → step' a = some c)
    (old : ∀ a ∈ as, as.getLast? ≠ some a → step' a = step a) :
    Walk step' (start.or (some c)) (as ++ [c]) := by
  have nodup := walk.nodup
  induction as generalizing start with
  | nil =>
      cases walk
      exact ⟨rfl, new⟩
  | cons a as ih =>
      obtain ⟨rfl, rest⟩ := walk
      refine ⟨rfl, ?_⟩
      cases as with
      | nil =>
          rw [last a rfl]
          exact ⟨rfl, new⟩
      | cons b as =>
          rw [List.getLast?_cons_cons] at last old
          have inner : (b :: as).getLast? ≠ some a := fun eq =>
            (List.nodup_cons.mp nodup).1 (List.mem_of_getLast? eq)
          have tail := ih rest last (fun d mem => old d (List.mem_cons_of_mem a mem))
            (List.nodup_cons.mp nodup).2
          rw [old a List.mem_cons_self inner, rest.1]
          rwa [rest.1] at tail

/-- One node less: the one before it goes on where it went on. -/
theorem Walk.remove {c : ν} {l r : List ν} (walk : Walk step start (l ++ c :: r))
    (before : ∀ l' a, l = l' ++ [a] → step' a = step c)
    (old : ∀ a ∈ l ++ r, l.getLast? ≠ some a → step' a = step a) :
    Walk step' (if l = [] then step c else start) (l ++ r) := by
  have nodup := walk.nodup
  have apart : ∀ a ∈ r, l.getLast? ≠ some a := by
    intro a mem last
    have here : a ∈ l := List.mem_of_getLast? last
    exact (List.nodup_append.mp nodup).2.2 a here a (List.mem_cons_of_mem c mem) rfl
  have rest : Walk step' (step c) r := by
    have tail : Walk step (some c) (c :: r) := walk.suffix
    exact tail.2.congr fun a mem => old a (List.mem_append_right l mem) (apart a mem)
  induction l generalizing start with
  | nil =>
      rw [if_pos rfl]
      exact rest
  | cons a l ih =>
      rw [if_neg (List.cons_ne_nil a l)]
      have tail := ih walk.2 (fun l' b split => before (a :: l') b (congrArg (a :: ·) split))
        (fun b mem other => old b (List.mem_cons_of_mem a mem) fun last => by
          cases l with
          | nil =>
              cases last
              exact (List.nodup_cons.mp nodup).1 (List.mem_cons_of_mem c mem)
          | cons d l =>
              rw [List.getLast?_cons_cons] at last
              exact other last)
        (List.nodup_cons.mp nodup).2 fun b mem last => by
          cases l with
          | nil => cases last
          | cons d l => exact apart b mem (by rwa [List.getLast?_cons_cons])
      refine ⟨walk.1, ?_⟩
      cases l with
      | nil =>
          rw [before [] a rfl]
          rwa [if_pos rfl] at tail
      | cons d l =>
          rw [if_neg (List.cons_ne_nil d l)] at tail
          rwa [old a List.mem_cons_self]
          rw [List.getLast?_cons_cons]
          intro last
          exact (List.nodup_cons.mp nodup).1
            (List.mem_append_left _ (List.mem_of_getLast? last))

end Walk

/-! ### Lists -/

/-- The links the other way round. -/
def Links.swap (k : Links ν) : Links ν := ⟨k.next, k.prev⟩

namespace Enumerates

variable {k k' : Links ν} {head tail : Option ν} {as : List ν}

theorem nil : Enumerates k none none [] := ⟨rfl, rfl⟩

theorem swap (en : Enumerates k head tail as) : Enumerates k.swap tail head as.reverse :=
  ⟨en.back, by rw [List.reverse_reverse]; exact en.forth⟩

theorem nodup (en : Enumerates k head tail as) : as.Nodup := en.forth.nodup

theorem head_eq (en : Enumerates k head tail as) : head = as.head? := en.forth.start_eq

theorem tail_eq (en : Enumerates k head tail as) : tail = as.getLast? := by
  rw [en.back.start_eq, List.head?_reverse]

theorem next_eq {l r : List ν} {a : ν} (en : Enumerates k head tail (l ++ a :: r)) :
    k.next a = r.head? :=
  en.forth.step_eq

theorem prev_eq {l r : List ν} {a : ν} (en : Enumerates k head tail (l ++ a :: r)) :
    k.prev a = l.getLast? := by
  have back := en.back
  rw [List.reverse_append, List.reverse_cons, List.append_assoc, List.singleton_append] at back
  rw [back.step_eq, List.head?_reverse]

/-- A list is settled by the neighbours of its nodes. -/
theorem of_neighbours (first : head = as.head?) (last : tail = as.getLast?)
    (next : ∀ l a r, as = l ++ a :: r → k.next a = r.head?)
    (prev : ∀ l a r, as = l ++ a :: r → k.prev a = l.getLast?) : Enumerates k head tail as where
  forth := walk_of_steps first next
  back := by
    refine walk_of_steps (by rw [last, List.head?_reverse]) fun l a r split => ?_
    have mirror : as = r.reverse ++ a :: l.reverse := by
      rw [← List.reverse_reverse as, split]
      simp
    rw [prev _ _ _ mirror, List.getLast?_reverse]

theorem congr (en : Enumerates k head tail as)
    (same : ∀ a ∈ as, k'.next a = k.next a ∧ k'.prev a = k.prev a) :
    Enumerates k' head tail as where
  forth := en.forth.congr fun a mem => (same a mem).1
  back := en.back.congr fun a mem => (same a (List.mem_reverse.mp mem)).2

theorem not_mem_rest {l r : List ν} {a : ν} (nodup : (l ++ a :: r).Nodup) : a ∉ r :=
  (List.nodup_cons.mp (List.nodup_append.mp nodup).2.1).1

/-- One node more at the end. -/
theorem append {c : ν} (en : Enumerates k head tail as) (new : c ∉ as)
    (prev_new : k'.prev c = tail) (next_new : k'.next c = none)
    (prev_old : ∀ a ∈ as, k'.prev a = k.prev a)
    (next_last : ∀ a ∈ as, tail = some a → k'.next a = some c)
    (next_old : ∀ a ∈ as, tail ≠ some a → k'.next a = k.next a) :
    Enumerates k' (head.or (some c)) (some c) (as ++ [c]) := by
  apply of_neighbours
  · rw [List.head?_append, en.head_eq]
    rfl
  · exact List.getLast?_concat.symm
  · intro l a r split
    obtain rfl | ⟨r, d, rfl⟩ := List.eq_nil_or_concat r
    · obtain ⟨-, same⟩ := List.append_inj' split rfl
      cases same
      exact next_new
    · rw [List.concat_eq_append, ← List.cons_append, ← List.append_assoc] at split
      obtain ⟨rfl, same⟩ := List.append_inj' split rfl
      cases same
      have mem : a ∈ l ++ a :: r := List.mem_append_right l List.mem_cons_self
      rw [List.concat_eq_append, List.head?_append]
      have at_last := en.tail_eq
      rw [List.getLast?_append] at at_last
      cases r with
      | nil => exact next_last a mem at_last
      | cons b r =>
          have inner : tail ≠ some a := by
            intro eq
            have last : (b :: r).getLast? = some a := by
              rw [← eq, at_last, List.getLast?_cons_cons, List.getLast?_cons]
              rfl
            exact not_mem_rest en.nodup (List.mem_of_getLast? last)
          rw [next_old a mem inner, en.next_eq]
          rfl
  · intro l a r split
    obtain rfl | ⟨r, d, rfl⟩ := List.eq_nil_or_concat r
    · obtain ⟨rfl, same⟩ := List.append_inj' split rfl
      cases same
      rw [prev_new, en.tail_eq]
    · rw [List.concat_eq_append, ← List.cons_append, ← List.append_assoc] at split
      obtain ⟨rfl, same⟩ := List.append_inj' split rfl
      have mem : a ∈ l ++ a :: r := List.mem_append_right l List.mem_cons_self
      rw [prev_old a mem, en.prev_eq]

/-- One node more at the front. -/
theorem prepend {c : ν} (en : Enumerates k head tail as) (new : c ∉ as)
    (next_new : k'.next c = head) (prev_new : k'.prev c = none)
    (next_old : ∀ a ∈ as, k'.next a = k.next a)
    (prev_first : ∀ a ∈ as, head = some a → k'.prev a = some c)
    (prev_old : ∀ a ∈ as, head ≠ some a → k'.prev a = k.prev a) :
    Enumerates k' (some c) (tail.or (some c)) (c :: as) := by
  have mirror : Enumerates k'.swap (tail.or (some c)) (some c) (as.reverse ++ [c]) := by
    refine en.swap.append (fun mem => new (List.mem_reverse.mp mem)) next_new prev_new ?_ ?_ ?_
    · exact fun a mem => next_old a (List.mem_reverse.mp mem)
    · exact fun a mem => prev_first a (List.mem_reverse.mp mem)
    · exact fun a mem => prev_old a (List.mem_reverse.mp mem)
  have back := mirror.swap
  rwa [List.reverse_append, List.reverse_reverse] at back

theorem remove_forth (k' : Links ν) {c : ν} {l r : List ν}
    (en : Enumerates k head tail (l ++ c :: r))
    (next_before : ∀ a ∈ l, k.prev c = some a → k'.next a = k.next c)
    (next_old : ∀ a ∈ l ++ r, k.prev c ≠ some a → k'.next a = k.next a) :
    Walk k'.next (if (k.prev c).isNone then k.next c else head) (l ++ r) := by
  have prev_c : k.prev c = l.getLast? := en.prev_eq
  have removed : Walk k'.next (if l = [] then k.next c else head) (l ++ r) := by
    refine en.forth.remove (fun l' a split => ?_) fun a mem other => next_old a mem ?_
    · have mem : a ∈ l := split ▸ List.mem_append_right l' List.mem_cons_self
      refine next_before a mem ?_
      rw [prev_c, split, List.getLast?_concat]
    · rwa [prev_c]
  rw [prev_c]
  cases l with
  | nil => exact removed
  | cons b l => exact removed

/-- One node less: its neighbours become neighbours. -/
theorem remove (k' : Links ν) {c : ν} {l r : List ν}
    (en : Enumerates k head tail (l ++ c :: r))
    (next_before : ∀ a ∈ l, k.prev c = some a → k'.next a = k.next c)
    (next_old : ∀ a ∈ l ++ r, k.prev c ≠ some a → k'.next a = k.next a)
    (prev_after : ∀ a ∈ r, k.next c = some a → k'.prev a = k.prev c)
    (prev_old : ∀ a ∈ l ++ r, k.next c ≠ some a → k'.prev a = k.prev a) :
    Enumerates k' (if (k.prev c).isNone then k.next c else head)
      (if (k.next c).isNone then k.prev c else tail) (l ++ r) where
  forth := en.remove_forth k' next_before next_old
  back := by
    have mirror : Enumerates k.swap tail head (r.reverse ++ c :: l.reverse) := by
      have swapped := en.swap
      rwa [List.reverse_append, List.reverse_cons, List.append_assoc] at swapped
    rw [List.reverse_append]
    refine mirror.remove_forth k'.swap ?_ ?_
    · exact fun a mem => prev_after a (List.mem_reverse.mp mem)
    · refine fun a mem => prev_old a ?_
      rwa [← List.reverse_append, List.mem_reverse] at mem

end Enumerates

end AcnSdk.Lib

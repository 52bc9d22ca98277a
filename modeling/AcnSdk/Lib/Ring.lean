/-
Rings of doubly linked nodes.

A ring is read from any of its nodes on, so the sequence of its nodes can be rotated. One node more
or less changes the links of two neighbours.

* `Ring.rotate` — a ring is read from any node on.
* `Ring.append`, `Ring.remove` — what the links have to become for one node more or less.
-/

import AcnSdk.Lib.DoublyLinked
import Mathlib.Data.List.Chain

namespace AcnSdk.Lib

variable {ν : Type}

/-- The links of two neighbours. -/
def Joined (k : Links ν) (a b : ν) : Prop := k.next a = some b ∧ k.prev b = some a

/-- The nodes are neighbours one after the other, and so are the last and the first one. -/
def Ring (k : Links ν) (as : List ν) : Prop := (as ++ as.head?.toList).IsChain (Joined k)

variable {k k' : Links ν} {as : List ν} {a b c : ν} {l r : List ν}

theorem ring_nil : Ring k [] := .nil

theorem ring_singleton (joined : Joined k a a) : Ring k [a] := .cons_cons joined (.singleton a)

namespace Ring

/-- A ring is read from the next node on. -/
theorem rotate_one (ring : Ring k (a :: l)) : Ring k (l ++ [a]) := by
  cases l with
  | nil => exact ring
  | cons b l =>
      rw [Ring, List.head?_cons, Option.toList_some, List.cons_append, List.cons_append,
        List.isChain_cons_cons] at ring
      rw [Ring, List.cons_append, List.head?_cons, Option.toList_some, ← List.cons_append,
        List.isChain_append]
      refine ⟨ring.2, .singleton b, fun x at_end y at_front => ?_⟩
      cases at_front
      rw [List.getLast?_concat] at at_end
      cases at_end
      exact ring.1

theorem rotate (ring : Ring k (l ++ r)) : Ring k (r ++ l) := by
  induction l generalizing r with
  | nil => rwa [List.append_nil]
  | cons a l ih =>
      have next : Ring k (l ++ r ++ [a]) := rotate_one ring
      rw [List.append_assoc] at next
      have whole := ih next
      rwa [List.append_assoc, List.singleton_append] at whole

/-- The first node follows the last one. -/
theorem joined_ends (ring : Ring k as) (first : as.head? = some a) (last : as.getLast? = some b) :
    Joined k b a := by
  rw [Ring, first, Option.toList_some, List.isChain_append] at ring
  exact ring.2.2 b last a rfl

theorem chain (ring : Ring k as) : as.IsChain (Joined k) := ring.left_of_append

/-- Neighbours within the sequence, where their links stay. -/
theorem chain_congr (nodup : as.Nodup) (chain : as.IsChain (Joined k))
    (next : ∀ a ∈ as, as.getLast? ≠ some a → k'.next a = k.next a)
    (prev : ∀ a ∈ as, as.head? ≠ some a → k'.prev a = k.prev a) : as.IsChain (Joined k') := by
  rw [List.isChain_iff_forall_rel_of_append_cons_cons] at chain ⊢
  rintro a b l r rfl
  obtain ⟨forth, back⟩ := chain rfl
  have nodup_tail := (List.nodup_append.mp nodup).2.1
  have not_last : (l ++ a :: b :: r).getLast? ≠ some a := by
    intro eq
    rw [List.getLast?_append, List.getLast?_cons_cons] at eq
    refine (List.nodup_cons.mp nodup_tail).1 ?_
    cases tail : (b :: r).getLast? with
    | none => simp at tail
    | some d =>
        rw [tail] at eq
        cases eq
        exact List.mem_of_getLast? tail
  have not_first : (l ++ a :: b :: r).head? ≠ some b := by
    intro eq
    cases l with
    | nil =>
        cases eq
        exact (List.nodup_cons.mp nodup_tail).1 List.mem_cons_self
    | cons d l =>
        cases eq
        exact (List.nodup_cons.mp nodup).1 (by simp)
  exact ⟨(next a (by simp) not_last).trans forth, (prev b (by simp) not_first).trans back⟩

/-- One node more, between the last and the first one. -/
theorem append (ring : Ring k as) (nodup : as.Nodup) (first : as.head? = some a)
    (last : as.getLast? = some b) (before : Joined k' b c) (after : Joined k' c a)
    (next : ∀ d ∈ as, d ≠ b → k'.next d = k.next d)
    (prev : ∀ d ∈ as, d ≠ a → k'.prev d = k.prev d) : Ring k' (as ++ [c]) := by
  have inner : as.IsChain (Joined k') := chain_congr nodup ring.chain
    (fun d mem other => next d mem fun eq => other (eq ▸ last))
    fun d mem other => prev d mem fun eq => other (eq ▸ first)
  have head : (as ++ [c]).head? = some a := by rw [List.head?_append, first, Option.some_or]
  rw [Ring, head, Option.toList_some, List.isChain_append, List.isChain_append]
  refine ⟨⟨inner, .singleton c, ?_⟩, .singleton a, ?_⟩
  · intro x at_end y at_front
    cases at_end.symm.trans last
    cases at_front
    exact before
  · intro x at_end y at_front
    rw [List.getLast?_concat] at at_end
    cases at_end
    cases at_front
    exact after

/-- One node less: the last one. -/
theorem remove (ring : Ring k (as ++ [c])) (nodup : (as ++ [c]).Nodup) (first : as.head? = some a)
    (last : as.getLast? = some b) (joined : Joined k' b a)
    (next : ∀ d ∈ as, d ≠ b → k'.next d = k.next d)
    (prev : ∀ d ∈ as, d ≠ a → k'.prev d = k.prev d) : Ring k' as := by
  have inner : as.IsChain (Joined k') :=
    chain_congr (List.nodup_append.mp nodup).1 ring.chain.left_of_append
      (fun d mem other => next d mem fun eq => other (eq ▸ last))
      fun d mem other => prev d mem fun eq => other (eq ▸ first)
  rw [Ring, first, Option.toList_some, List.isChain_append]
  refine ⟨inner, .singleton a, ?_⟩
  intro x at_end y at_front
  cases at_end.symm.trans last
  cases at_front
  exact joined

end Ring

end AcnSdk.Lib

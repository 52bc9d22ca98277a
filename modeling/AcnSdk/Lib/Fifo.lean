/-
A bounded queue, first in first out.

`Fifo.run` is what any sequence of operations does to a queue that holds at most
`capacity` items. `Fifo.simulates` is the rule that takes a representation from single
operations to whole runs.
-/

import AcnSdk.Lib.Prog
import Mathlib.Data.List.Basic

namespace AcnSdk.Lib.Fifo

variable {α σ : Type}

inductive Op (α : Type) where
  | push (s : List α)
  | pop (len : Nat)
  | clear
deriving DecidableEq, Repr

/-- What an operation answers, `none` if it fails, and the queue after it. -/
def step (capacity : Nat) (q : List α) : Op α → Option (List α) × List α
  | .push s => if q.length + s.length ≤ capacity then (some [], q ++ s) else (none, q)
  | .pop len => if len ≤ q.length then (some (q.take len), q.drop len) else (none, q)
  | .clear => (some [], [])

/-- The answers of a sequence of operations, and the queue after it. -/
def run (capacity : Nat) (q : List α) : List (Op α) → List (Option (List α)) × List α
  | [] => ([], q)
  | op :: ops =>
      let (answer, q) := step capacity q op
      let (answers, q) := run capacity q ops
      (answer :: answers, q)

/-- If each operation of a program answers as the queue does and keeps the relation `holds`
between its state and the queue, so does every sequence of operations. -/
theorem simulates (capacity : Nat) {perform : Op α → Prog σ (Option (List α))}
    (holds : σ → List α → Prop) (valid : Op α → Prop)
    (single : ∀ s q op, holds s q → valid op → ∃ s', holds s' (step capacity q op).2 ∧
      perform op s = .ok ((step capacity q op).1, s'))
    (ops : List (Op α)) (valid_ops : ∀ op ∈ ops, valid op) {s : σ} {q : List α}
    (start : holds s q) :
    ∃ s', holds s' (run capacity q ops).2 ∧
      ops.mapM perform s = .ok ((run capacity q ops).1, s') := by
  induction ops generalizing s q with
  | nil => exact ⟨s, start, rfl⟩
  | cons op ops ih =>
      obtain ⟨s₁, holds₁, first⟩ := single s q op start (valid_ops op List.mem_cons_self)
      obtain ⟨s', holds', rest⟩ := ih (fun o mem => valid_ops o (List.mem_cons_of_mem _ mem)) holds₁
      refine ⟨s', holds', ?_⟩
      rw [List.mapM_cons, Prog.bind_apply, first, Prog.ok_bind, Prog.bind_apply, rest]
      rfl

end AcnSdk.Lib.Fifo

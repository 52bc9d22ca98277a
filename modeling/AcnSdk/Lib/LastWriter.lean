/-
Registers that the last writer wins.

An update is stamped, and it is written only if its stamp is later than that of the register.
What many updates leave behind depends on which updates there are, not on their order or on how
often each comes.

* `settled_foldl` — the latest update wins, if it is later than the register.
* `Settled.unique` — only one state can be left behind.
-/

import Mathlib.Order.Defs.LinearOrder
import Mathlib.Order.Basic
import Mathlib.Order.Lattice
import Mathlib.Data.List.Basic

namespace AcnSdk.Lib

/-- Registers of type `σ` and updates of type `υ`, with stamps. -/
structure LastWriter (σ υ κ : Type) [LinearOrder κ] where
  stamp : σ → κ
  time : υ → κ
  write : υ → σ → σ
  stamp_write : ∀ u s, stamp (write u s) = time u
  write_write : ∀ u v s, write u (write v s) = write u s

namespace LastWriter

variable {σ υ κ : Type} [LinearOrder κ] (reg : LastWriter σ υ κ)

/-- The guarded update. -/
def update (s : σ) (u : υ) : σ := if reg.stamp s < reg.time u then reg.write u s else s

/-- What the updates leave behind. -/
def Settled (us : List υ) (s s' : σ) : Prop :=
  (∃ u ∈ us, reg.stamp s < reg.time u ∧ (∀ v ∈ us, reg.time v ≤ reg.time u) ∧ s' = reg.write u s) ∨
    (∀ v ∈ us, reg.time v ≤ reg.stamp s) ∧ s' = s

variable {reg}

theorem Settled.cons {u : υ} {us : List υ} {s s' : σ}
    (settled : reg.Settled us (reg.update s u) s') : reg.Settled (u :: us) s s' := by
  rw [update] at settled
  by_cases later : reg.stamp s < reg.time u
  · rw [if_pos later] at settled
    rcases settled with ⟨v, mem, after, latest, rfl⟩ | ⟨none_later, rfl⟩
    · rw [reg.stamp_write] at after
      refine .inl ⟨v, List.mem_cons_of_mem _ mem, later.trans after, ?_, reg.write_write v u s⟩
      exact List.forall_mem_cons.mpr ⟨after.le, latest⟩
    · rw [reg.stamp_write] at none_later
      refine .inl ⟨u, List.mem_cons_self, later, ?_, rfl⟩
      exact List.forall_mem_cons.mpr ⟨le_rfl, none_later⟩
  · rw [if_neg later] at settled
    have before : reg.time u ≤ reg.stamp s := not_lt.mp later
    rcases settled with ⟨v, mem, after, latest, rfl⟩ | ⟨none_later, rfl⟩
    · refine .inl ⟨v, List.mem_cons_of_mem _ mem, after, ?_, rfl⟩
      exact List.forall_mem_cons.mpr ⟨before.trans after.le, latest⟩
    · exact .inr ⟨List.forall_mem_cons.mpr ⟨before, none_later⟩, rfl⟩

/-- Of many updates the latest wins. -/
theorem settled_foldl (us : List υ) (s : σ) : reg.Settled us s (us.foldl reg.update s) := by
  induction us generalizing s with
  | nil => exact .inr ⟨fun _ mem => absurd mem List.not_mem_nil, rfl⟩
  | cons u us ih => exact (ih (reg.update s u)).cons

/-- Only the updates count, neither their order nor how often each comes. -/
theorem Settled.unique {us us' : List υ} {s t t' : σ}
    (distinct : ∀ u ∈ us, ∀ v ∈ us, reg.time u = reg.time v → u = v)
    (same : ∀ u, u ∈ us' ↔ u ∈ us) (one : reg.Settled us s t) (other : reg.Settled us' s t') :
    t' = t := by
  rcases one with ⟨u, mem, later, latest, rfl⟩ | ⟨none_later, rfl⟩
  · rcases other with ⟨v, mem', later', latest', rfl⟩ | ⟨none_later', rfl⟩
    · have u_le := latest' u ((same u).mpr mem)
      have v_le := latest v ((same v).mp mem')
      rw [distinct v ((same v).mp mem') u mem (le_antisymm v_le u_le)]
    · exact absurd (none_later' u ((same u).mpr mem)) (not_le.mpr later)
  · rcases other with ⟨v, mem', later', _, rfl⟩ | ⟨_, rfl⟩
    · exact absurd (none_later v ((same v).mp mem')) (not_le.mpr later')
    · rfl

end LastWriter

end AcnSdk.Lib

/-
Programs with a state that can go wrong.

A program is a state transformer that ends with a result or with a fault: a NULL
pointer or a released cell was accessed, something was written outside its buffer, an
assertion failed, or a loop went round for ever. The lemmas run a program step by step.
-/

import Mathlib.Algebra.Group.Nat.Defs
import Mathlib.Tactic.Common

namespace AcnSdk.Lib

/-- How a program can go wrong. -/
inductive Fault where
  | nullPointer | released | overflow | assertion | endless
deriving DecidableEq, Repr

/-- Programs over a state. -/
abbrev Prog (σ : Type) := StateT σ (Except Fault)

namespace Prog

variable {σ β γ : Type}

@[simp] theorem pure_apply (b : β) (s : σ) : (pure b : Prog σ β) s = .ok (b, s) := rfl

@[simp] theorem bind_apply (m : Prog σ β) (f : β → Prog σ γ) (s : σ) :
    (m >>= f) s = (m s).bind fun r => f r.1 r.2 := rfl

theorem bind_of_ok {m : Prog σ β} {f : β → Prog σ γ} {s s' : σ} {b : β} (run : m s = .ok (b, s')) :
    (m >>= f) s = f b s' := by
  rw [bind_apply, run]
  rfl

@[simp] theorem map_apply (f : β → γ) (m : Prog σ β) (s : σ) :
    (f <$> m) s = (m s).bind fun r => .ok (f r.1, r.2) := rfl

@[simp] theorem throw_apply (e : Fault) (s : σ) : (throw e : Prog σ β) s = .error e := rfl

@[simp] theorem get_apply (s : σ) : (get : Prog σ σ) s = .ok (s, s) := rfl

@[simp] theorem set_apply (s s' : σ) : (set s' : Prog σ PUnit) s = .ok (⟨⟩, s') := rfl

@[simp] theorem modify_apply (f : σ → σ) (s : σ) :
    (modify f : Prog σ PUnit) s = .ok (⟨⟩, f s) := rfl

/-- A computation without a state. -/
def lift (x : Except Fault β) : Prog σ β := fun s => x.bind fun b => .ok (b, s)

@[simp] theorem lift_ok (b : β) (s : σ) : (lift (.ok b) : Prog σ β) s = .ok (b, s) := rfl

@[simp] theorem lift_error (e : Fault) (s : σ) : (lift (.error e) : Prog σ β) s = .error e := rfl

@[simp] theorem ok_bind (r : β) (f : β → Except Fault γ) :
    (Except.ok r : Except Fault β).bind f = f r := rfl

@[simp] theorem error_bind (e : Fault) (f : β → Except Fault γ) :
    (Except.error e : Except Fault β).bind f = .error e := rfl

theorem then_of_ok {x : Except Fault β} {f : β → Except Fault γ} {b : β} (run : x = .ok b) :
    (x >>= f) = f b := by
  rw [run]
  rfl

/-- A computation that ends without a fault has got through its first part. -/
theorem ok_of_bind {x : Except Fault β} {f : β → Except Fault γ} {c : γ} (run : x.bind f = .ok c) :
    ∃ b, x = .ok b ∧ f b = .ok c := by
  cases x with
  | error e => cases run
  | ok b => exact ⟨b, rfl, run⟩

/-- First parts that do the same, with continuations that do the same where these can end. -/
theorem bind_congr_of_ok {m m' : Prog σ β} {f g : β → Prog σ γ} {s : σ} (first : m s = m' s)
    (same : ∀ b s', m s = .ok (b, s') → f b s' = g b s') : (m >>= f) s = (m' >>= g) s := by
  rw [bind_apply, bind_apply, ← first]
  cases run : m s with
  | error e => rfl
  | ok r => exact same r.1 r.2 run

theorem run_of_bind {m : Prog σ β} {f : β → Prog σ γ} {s : σ} {r : γ × σ}
    (run : (m >>= f) s = .ok r) : ∃ b s', m s = .ok (b, s') ∧ f b s' = .ok r := by
  obtain ⟨p, first, rest⟩ := ok_of_bind run
  exact ⟨p.1, p.2, first, rest⟩

end Prog

end AcnSdk.Lib

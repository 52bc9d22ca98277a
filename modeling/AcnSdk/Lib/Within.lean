/-
What is true of a program whenever it ends.

* `Within` — its last state is related to its first. The relation is a preorder, so that it holds
  of a program if it holds of its parts.
* `Gives` — its result has a property. This depends on its last part only.
-/

import AcnSdk.Lib.Prog
import Mathlib.Order.Defs.Unbundled

namespace AcnSdk.Lib

variable {σ β γ : Type} {R : σ → σ → Prop}

/-- Whenever `x` ends, its last state is related to its first. -/
def Within (R : σ → σ → Prop) (x : Prog σ β) : Prop := ∀ s b s', x s = .ok (b, s') → R s s'

namespace Within

theorem throw (e : Fault) : Within R (throw e : Prog σ β) := fun _ _ _ run => nomatch run

theorem ite {p : Prop} [Decidable p] {x y : Prog σ β} (yes : p → Within R x)
    (no : ¬ p → Within R y) : Within R (if p then x else y) := by
  by_cases h : p
  · rw [if_pos h]
    exact yes h
  · rw [if_neg h]
    exact no h

theorem mono {R' : σ → σ → Prop} {x : Prog σ β} (within : Within R x)
    (sub : ∀ s s', R s s' → R' s s') : Within R' x :=
  fun s b s' run => sub s s' (within s b s' run)

theorem modify {f : σ → σ} (step : ∀ s, R s (f s)) : Within R (modify f : Prog σ PUnit) := by
  intro s b s' run
  cases run
  exact step s

theorem map {x : Prog σ β} (f : β → γ) (within : Within R x) : Within R (f <$> x) := by
  intro s c s' run
  rw [Prog.map_apply] at run
  cases ran : x s with
  | error e =>
      rw [ran] at run
      cases run
  | ok r =>
      rw [ran] at run
      cases run
      exact within s r.1 r.2 ran

variable [IsPreorder σ R]

theorem pure (b : β) : Within R (pure b : Prog σ β) := by
  intro s b s' run
  cases run
  exact refl_of R s

theorem get : Within R (get : Prog σ σ) := by
  intro s b s' run
  cases run
  exact refl_of R s

theorem lift (x : Except Fault β) : Within R (Prog.lift x : Prog σ β) := by
  intro s b s' run
  cases x with
  | error e => cases run
  | ok c =>
      cases run
      exact refl_of R s

theorem bind {x : Prog σ β} {f : β → Prog σ γ} (first : Within R x)
    (later : ∀ b, Within R (f b)) : Within R (x >>= f) := by
  intro s c s' run
  rw [Prog.bind_apply] at run
  cases ran : x s with
  | error e =>
      rw [ran] at run
      cases run
  | ok r =>
      rw [ran] at run
      exact trans_of R (first s r.1 r.2 ran) (later r.1 r.2 c s' run)

end Within

/-- Whenever `x` ends, its result meets `Q`. -/
def Gives (Q : β → Prop) (x : Prog σ β) : Prop := ∀ s b s', x s = .ok (b, s') → Q b

namespace Gives

variable {Q : β → Prop} {Q' : γ → Prop}

theorem pure {b : β} (q : Q b) : Gives Q (pure b : Prog σ β) := by
  intro s b' s' run
  cases run
  exact q

theorem ite {p : Prop} [Decidable p] {x y : Prog σ β} (yes : Gives Q x) (no : Gives Q y) :
    Gives Q (if p then x else y) := by
  by_cases h : p
  · rw [if_pos h]
    exact yes
  · rw [if_neg h]
    exact no

theorem bind_of {x : Prog σ β} {f : β → Prog σ γ} (first : Gives Q x)
    (later : ∀ b, Q b → Gives Q' (f b)) : Gives Q' (x >>= f) := by
  intro s c s' run
  rw [Prog.bind_apply] at run
  cases ran : x s with
  | error e =>
      rw [ran] at run
      cases run
  | ok r =>
      rw [ran] at run
      exact later r.1 (first s r.1 r.2 ran) r.2 c s' run

theorem bind {x : Prog σ β} {f : β → Prog σ γ} (later : ∀ b, Gives Q' (f b)) :
    Gives Q' (x >>= f) :=
  bind_of (Q := fun _ => True) (fun _ _ _ _ => trivial) fun b _ => later b

end Gives

end AcnSdk.Lib

/-
Simulation between two programs.

`Sim escape P x y Q`: started in states related by `P`, the programs `x` and `y` meet
the same fault, or they give the same result and end in states related by `Q`. The first
may also end early in one of the faults `escape`. The rules follow the shape of the
programs.
-/

import AcnSdk.Lib.Prog

namespace AcnSdk.Lib

variable {σ τ β γ : Type}

/-- How two programs relate that have ended. -/
inductive Ends (escape : Fault → Prop) (Q : β → σ → τ → Prop) :
    Except Fault (β × σ) → Except Fault (β × τ) → Prop where
  | early {e : Fault} (early : escape e) (y : Except Fault (β × τ)) : Ends escape Q (.error e) y
  | fault (e : Fault) : Ends escape Q (.error e) (.error e)
  | ok {b : β} {s : σ} {t : τ} (post : Q b s t) : Ends escape Q (.ok (b, s)) (.ok (b, t))

theorem Ends.weaken {escape : Fault → Prop} {Q Q' : β → σ → τ → Prop} {left : Except Fault (β × σ)}
    {right : Except Fault (β × τ)} (ends : Ends escape Q left right)
    (post : ∀ b s t, Q b s t → Q' b s t) : Ends escape Q' left right := by
  cases ends with
  | early escapes _ => exact .early escapes _
  | fault e => exact .fault e
  | ok holds => exact .ok (post _ _ _ holds)

/-- Programs that end alike do so in either order. -/
theorem Ends.flip {Q : β → σ → τ → Prop} {left : Except Fault (β × σ)}
    {right : Except Fault (β × τ)}
    (ends : Ends (fun _ => False) Q left right) (escape : Fault → Prop) :
    Ends escape (fun b t s => Q b s t) right left := by
  cases ends with
  | early impossible _ => exact impossible.elim
  | fault e => exact .fault e
  | ok holds => exact .ok holds

/-- What a program gives, without its state. -/
def result (x : Except Fault (β × σ)) : Except Fault β := x.map Prod.fst

@[simp] theorem result_ok (b : β) (s : σ) : result (.ok (b, s)) = .ok b := rfl

@[simp] theorem result_error (e : Fault) :
    result (.error e : Except Fault (β × σ)) = .error e := rfl

theorem Ends.result_eq {escape : Fault → Prop} {Q : β → σ → τ → Prop} {left : Except Fault (β × σ)}
    {right : Except Fault (β × τ)} (ends : Ends escape Q left right) :
    (∃ e, escape e ∧ result left = .error e) ∨ result left = result right := by
  cases ends with
  | early escapes _ => exact .inl ⟨_, escapes, rfl⟩
  | fault e => exact .inr rfl
  | ok _ => exact .inr rfl

def Sim (escape : Fault → Prop) (P : σ → τ → Prop) (x : Prog σ β) (y : Prog τ β)
    (Q : β → σ → τ → Prop) : Prop :=
  ∀ s t, P s t → Ends escape Q (x s) (y t)

namespace Sim

variable {escape : Fault → Prop} {P : σ → τ → Prop} {Q : β → σ → τ → Prop} {R : γ → σ → τ → Prop}
  {x : Prog σ β} {y : Prog τ β}

theorem bind {f : β → Prog σ γ} {g : β → Prog τ γ} (first : Sim escape P x y Q)
    (rest : ∀ b, Sim escape (Q b) (f b) (g b) R) : Sim escape P (x >>= f) (y >>= g) R := by
  intro s t pre
  rw [Prog.bind_apply, Prog.bind_apply]
  have ended := first s t pre
  generalize x s = left at *
  generalize y t = right at *
  cases ended with
  | early escapes _ => exact .early escapes _
  | fault e => exact .fault e
  | ok post => exact rest _ _ _ post

theorem pure {b : β} (post : ∀ s t, P s t → Q b s t) :
    Sim escape P (pure b : Prog σ β) (pure b : Prog τ β) Q :=
  fun s t pre => .ok (post s t pre)

theorem throw (e : Fault) : Sim escape P (throw e : Prog σ β) (throw e : Prog τ β) Q :=
  fun _ _ _ => .fault e

/-- A computation without a state gives the same on both sides. -/
theorem lift (a : Except Fault β) (post : ∀ b s t, P s t → Q b s t) :
    Sim escape P (Prog.lift a : Prog σ β) (Prog.lift a : Prog τ β) Q := by
  intro s t pre
  cases a with
  | ok b => exact .ok (post b s t pre)
  | error e => exact .fault e

theorem weaken {P' : σ → τ → Prop} {Q' : β → σ → τ → Prop} (sim : Sim escape P x y Q)
    (pre : ∀ s t, P' s t → P s t) (post : ∀ b s t, Q b s t → Q' b s t) : Sim escape P' x y Q' :=
  fun s t related => (sim s t (pre s t related)).weaken post

end Sim

end AcnSdk.Lib

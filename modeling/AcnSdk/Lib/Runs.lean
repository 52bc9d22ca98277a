/-
Runs of calls that change a state or go wrong.

* `Along` — something is true of every call that is made and the state before it.
* `KeepsAlong` — no call goes wrong, and something is true of every state that is reached.

A call keeps a property exactly if a condition on the call and the state before it is met. Then a
run does so exactly if the condition is met along it.

* `keepsAlong_iff` — from calls to runs.
* `forall_prefix_iff` — the same where a property of runs is kept step by step.
-/

import AcnSdk.Lib.Prog
import Mathlib.Data.List.Induction

namespace AcnSdk.Lib

open Prog

variable {α σ : Type} (run : α → Prog σ Unit)

/-- In a run `P` is true of every call and the state before it. -/
def Along (P : α → σ → Prop) : List α → σ → Prop
  | [], _ => True
  | c :: cs, s => P c s ∧ ∀ s', run c s = .ok ((), s') → Along P cs s'

/-- A run goes on to its end, and `I` is true of every state that it reaches. -/
def KeepsAlong (I : σ → Prop) : List α → σ → Prop
  | [], _ => True
  | c :: cs, s => ∃ s', run c s = .ok ((), s') ∧ I s' ∧ KeepsAlong I cs s'

variable {run} {P Q : α → σ → Prop} {I Inv : σ → Prop} {c : α} {cs : List α} {s s' : σ}

theorem along_cons (ran : run c s = .ok ((), s')) :
    Along run P (c :: cs) s ↔ P c s ∧ Along run P cs s' := by
  constructor
  · exact fun along => ⟨along.1, along.2 s' ran⟩
  · rintro ⟨first, rest⟩
    refine ⟨first, fun t ran' => ?_⟩
    cases ran.symm.trans ran'
    exact rest

theorem keepsAlong_cons (ran : run c s = .ok ((), s')) :
    KeepsAlong run I (c :: cs) s ↔ I s' ∧ KeepsAlong run I cs s' := by
  constructor
  · rintro ⟨t, ran', kept, rest⟩
    cases ran.symm.trans ran'
    exact ⟨kept, rest⟩
  · exact fun both => ⟨s', ran, both.1, both.2⟩

theorem Along.of_forall (all : ∀ c ∈ cs, ∀ s, P c s) (s : σ) : Along run P cs s := by
  induction cs generalizing s with
  | nil => trivial
  | cons c cs ih =>
      exact ⟨all c List.mem_cons_self s,
        fun s' _ => ih (fun d mem => all d (List.mem_cons_of_mem c mem)) s'⟩

/-- `Inv` leads from call to call. `Q` is what is known of the calls that are made, and `P` decides
whether a call keeps `I`. -/
theorem keepsAlong_iff
    (granted : ∀ c s, Inv s → Q c s → P c s → ∃ s', run c s = .ok ((), s') ∧ I s' ∧ Inv s')
    (refused : ∀ c s s', Inv s → Q c s → run c s = .ok ((), s') → I s' → P c s)
    (inv : Inv s) (known : Along run Q cs s) : KeepsAlong run I cs s ↔ Along run P cs s := by
  induction cs generalizing s with
  | nil => exact Iff.rfl
  | cons c cs ih =>
      obtain ⟨here, there⟩ := known
      constructor
      · rintro ⟨s', ran, kept, rest⟩
        have met := refused c s s' inv here ran kept
        obtain ⟨t, ran', -, inv'⟩ := granted c s inv here met
        cases ran.symm.trans ran'
        exact (along_cons ran).mpr ⟨met, (ih inv' (there s' ran)).mp rest⟩
      · rintro ⟨met, rest⟩
        obtain ⟨s', ran, kept, inv'⟩ := granted c s inv here met
        exact ⟨s', ran, kept, (ih inv' (there s' ran)).mpr (rest s' ran)⟩

/-! ### Every part of a run -/

section Prefixes

variable {Good : List α → Prop} {Meets : List α → α → Prop}

/-- If `Good` holds of a run without steps, and of one step more exactly if the step meets its
condition, then it holds of all prefixes of a run exactly if all steps meet theirs. -/
theorem forall_prefix_iff (nil : Good [])
    (step : ∀ front x, Good front → (Good (front ++ [x]) ↔ Meets front x)) (xs : List α) :
    (∀ front, front <+: xs → Good front) ↔
      ∀ front x, front ++ [x] <+: xs → Meets front x := by
  constructor
  · intro good front x reached
    have before := good front ((List.prefix_append front [x]).trans reached)
    exact (step front x before).mp (good (front ++ [x]) reached)
  · intro meets front
    induction front using List.reverseRecOn with
    | nil => exact fun _ => nil
    | append_singleton front x ih =>
        intro reached
        have before := ih ((List.prefix_append front [x]).trans reached)
        exact (step front x before).mpr (meets front x reached)

end Prefixes

end AcnSdk.Lib

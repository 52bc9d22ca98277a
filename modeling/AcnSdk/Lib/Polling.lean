/-
Calling again until a call gets done.

A call returns 0 to be called again. What it gets from outside comes at times that it does not
choose: some of the requests that it makes are served and some are not.

* `pollUntil_rule` — what every number of calls keeps.
* `pollUntil_done` — the calls get done if requests are served again and again, and each one that
  is served leaves less to do.
-/

import AcnSdk.Lib.Prog

namespace AcnSdk.Lib

open Prog

variable {σ : Type}

/-- At most `n` calls, until one does not return 0. -/
def pollUntil (poll : Prog σ Int) : Nat → Prog σ Int
  | 0 => return 0
  | n + 1 => do
      let rc ← poll
      if rc = 0 then pollUntil poll n else return rc

/-- The state has moved on by some requests, and has less to do if one of them was served. -/
structure Progress (requests left : σ → Nat) (served : Nat → Prop) (s s' : σ) : Prop where
  asked : requests s < requests s'
  le : left s' ≤ left s
  lt : (∃ k, requests s ≤ k ∧ k < requests s' ∧ served k) → left s' < left s

theorem Progress.trans {requests left : σ → Nat} {served : Nat → Prop} {s s' s'' : σ}
    (first : Progress requests left served s s') (next : Progress requests left served s' s'') :
    Progress requests left served s s'' where
  asked := Nat.lt_trans first.asked next.asked
  le := Nat.le_trans next.le first.le
  lt := by
    rintro ⟨k, from_s, to_s'', served⟩
    rcases Nat.lt_or_ge k (requests s') with before | behind
    · exact Nat.lt_of_le_of_lt next.le (first.lt ⟨k, from_s, before, served⟩)
    · exact Nat.lt_of_lt_of_le (next.lt ⟨k, behind, to_s'', served⟩) first.le

section Rules

variable {poll : Prog σ Int} {Pending : σ → Prop} {Done : Int → σ → Prop}

/-- What a call does: it is to be called again, or it is done. -/
def Polls (poll : Prog σ Int) (Pending : σ → Prop) (Done : Int → σ → Prop)
    (Moved : σ → σ → Prop) : Prop :=
  ∀ s, Pending s → ∃ rc s', poll s = .ok (rc, s') ∧
    ((rc = 0 ∧ Pending s' ∧ Moved s s') ∨ (rc ≠ 0 ∧ Done rc s'))

theorem pollUntil_rule {Moved : σ → σ → Prop} (polls : Polls poll Pending Done Moved) (n : Nat)
    {s : σ} (pending : Pending s) :
    ∃ rc s', pollUntil poll n s = .ok (rc, s') ∧
      ((rc = 0 ∧ Pending s') ∨ (rc ≠ 0 ∧ Done rc s')) := by
  induction n generalizing s with
  | zero => exact ⟨0, s, rfl, .inl ⟨rfl, pending⟩⟩
  | succ n ih =>
      obtain ⟨rc, s', run, ⟨rfl, pending', -⟩ | ⟨failed, done⟩⟩ := polls s pending
      · obtain ⟨rc, s'', rest, outcome⟩ := ih pending'
        refine ⟨rc, s'', ?_, outcome⟩
        rw [pollUntil, bind_of_ok run, if_pos rfl, rest]
      · refine ⟨rc, s', ?_, .inr ⟨failed, done⟩⟩
        rw [pollUntil, bind_of_ok run, if_neg failed]
        rfl

theorem pollUntil_done {requests left : σ → Nat} {served : Nat → Prop}
    (fair : ∀ k, ∃ k', k ≤ k' ∧ served k')
    (polls : Polls poll Pending Done (Progress requests left served)) {s : σ}
    (pending : Pending s) :
    ∃ n rc s', pollUntil poll n s = .ok (rc, s') ∧ rc ≠ 0 ∧ Done rc s' := by
  -- the measure is what is left to do, and then how long it takes to the next service
  induction todo : left s using Nat.strongRecOn generalizing s with
  | ind todo less =>
      obtain ⟨next, ahead, served_next⟩ := fair (requests s)
      induction wait : next - requests s using Nat.strongRecOn generalizing s with
      | ind wait sooner =>
          obtain ⟨rc, s', run, ⟨rfl, pending', moved⟩ | ⟨failed, done⟩⟩ := polls s pending
          · have rest : ∃ n rc s'', pollUntil poll n s' = .ok (rc, s'') ∧ rc ≠ 0 ∧ Done rc s'' := by
              rcases Nat.lt_or_ge next (requests s') with passed | later
              · exact less _ (todo ▸ moved.lt ⟨next, ahead, passed, served_next⟩) pending' rfl
              · rcases Nat.lt_or_ge (left s') (left s) with fewer | same
                · exact less _ (todo ▸ fewer) pending' rfl
                · have asked := moved.asked
                  exact sooner _ (by omega) pending' (by have := moved.le; omega) later rfl
            obtain ⟨n, rc, s'', ran, outcome⟩ := rest
            refine ⟨n + 1, rc, s'', ?_, outcome⟩
            rw [pollUntil, bind_of_ok run, if_pos rfl, ran]
          · refine ⟨1, rc, s', ?_, failed, done⟩
            rw [pollUntil, bind_of_ok run, if_neg failed]
            rfl

end Rules

end AcnSdk.Lib

/-
Data that is worked on in blocks of a fixed size.

What is left of the data waits until it fills a block. `update` takes as much as a block has room
for at a time.

* `update_append` — data may come in any pieces.
-/

import Mathlib.Data.List.Basic
import Mathlib.Tactic.Common

namespace AcnSdk.Lib

variable {σ α : Type} {size : Nat}

/-- A state, and data that does not fill a block yet. -/
structure Pending (σ α : Type) (size : Nat) where
  state : σ
  pending : List α
  pending_lt : pending.length < size

namespace Pending

theorem eq_of {p q : Pending σ α size} (state : p.state = q.state)
    (pending : p.pending = q.pending) : p = q := by
  cases p
  cases q
  cases state
  cases pending
  rfl

/-- More data for the block, which is absorbed if that fills it. -/
def fill (absorb : σ → List α → σ) (p : Pending σ α size) (data : List α) : Pending σ α size :=
  if room : p.pending.length + data.length < size then
    ⟨p.state, p.pending ++ data, by rw [List.length_append]; exact room⟩
  else ⟨absorb p.state (p.pending ++ data), [], Nat.zero_lt_of_lt p.pending_lt⟩

/-- The loop over the data: each turn takes what the block has room for. -/
def updateLoop (absorb : σ → List α → σ) : Nat → Pending σ α size → List α → Pending σ α size
  | 0, p, _ => p
  | fuel + 1, p, data =>
      if data.length = 0 then p
      else
        let add := min data.length (size - p.pending.length)
        updateLoop absorb fuel (p.fill absorb (data.take add)) (data.drop add)

def update (absorb : σ → List α → σ) (p : Pending σ α size) (data : List α) : Pending σ α size :=
  updateLoop absorb data.length p data

variable {absorb : σ → List α → σ}

/-- What fits into the block may come one by one. -/
theorem fill_eq_foldl (p : Pending σ α size) {data : List α} (some : data ≠ [])
    (fits : p.pending.length + data.length ≤ size) :
    p.fill absorb data = data.foldl (fun p a => p.fill absorb [a]) p := by
  induction data generalizing p with
  | nil => exact absurd rfl some
  | cons a data ih =>
      rw [List.foldl_cons]
      cases data with
      | nil => rfl
      | cons b data =>
          have room : p.pending.length + [a].length < size := by
            rw [List.length_cons, List.length_cons] at fits
            rw [List.length_singleton]
            omega
          have first : p.fill absorb [a] = ⟨p.state, p.pending ++ [a], _⟩ := dif_pos room
          have shift : (p.pending ++ [a]).length + (b :: data).length =
              p.pending.length + (a :: b :: data).length := by
            rw [List.length_append, List.length_singleton, List.length_cons, List.length_cons,
              List.length_cons]
            omega
          rw [first, ← ih _ (List.cons_ne_nil b data) (by rw [shift]; exact fits)]
          unfold fill
          dsimp only
          by_cases full : p.pending.length + (a :: b :: data).length < size
          · rw [dif_pos full, dif_pos (by rw [shift]; exact full)]
            exact eq_of rfl (by simp)
          · rw [dif_neg full, dif_neg (by rw [shift]; exact full)]
            exact eq_of (by simp) rfl

theorem updateLoop_eq_foldl {fuel : Nat} (p : Pending σ α size) {data : List α}
    (enough : data.length ≤ fuel) :
    updateLoop absorb fuel p data = data.foldl (fun p a => p.fill absorb [a]) p := by
  induction fuel generalizing p data with
  | zero =>
      rw [List.eq_nil_of_length_eq_zero (Nat.le_zero.mp enough)]
      rfl
  | succ fuel ih =>
      rw [updateLoop]
      split_ifs with done
      · rw [List.eq_nil_of_length_eq_zero done]
        rfl
      · have pending_lt := p.pending_lt
        generalize taken : min data.length (size - p.pending.length) = add
        have fits : p.pending.length + (data.take add).length ≤ size := by
          rw [List.length_take]
          omega
        have some : data.take add ≠ [] := by
          intro none
          have := congrArg List.length none
          rw [List.length_take, List.length_nil] at this
          omega
        dsimp only
        rw [ih _ (by rw [List.length_drop]; omega), fill_eq_foldl p some fits,
          ← List.foldl_append, List.take_append_drop]

theorem update_eq_foldl (p : Pending σ α size) (data : List α) :
    p.update absorb data = data.foldl (fun p a => p.fill absorb [a]) p :=
  updateLoop_eq_foldl p (Nat.le_refl _)

theorem update_append (p : Pending σ α size) (a b : List α) :
    (p.update absorb a).update absorb b = p.update absorb (a ++ b) := by
  rw [update_eq_foldl, update_eq_foldl, update_eq_foldl, List.foldl_append]

/-- Pieces one after the other do the same as all at once. -/
theorem foldl_update (p : Pending σ α size) (pieces : List (List α)) :
    pieces.foldl (fun p piece => p.update absorb piece) p = p.update absorb pieces.flatten := by
  induction pieces generalizing p with
  | nil => rfl
  | cons piece pieces ih => rw [List.foldl_cons, ih, update_append, List.flatten_cons]

end Pending

end AcnSdk.Lib

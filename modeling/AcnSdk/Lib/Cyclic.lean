/-
Cyclic storage.

A list `q` is stored in a buffer from a position on if it stands there item by item, going
on at the front after the end of the buffer.

* `Cyclic.copyFrom_round` — the stored items, read in one piece or in two.
* `Cyclic.append` — more items stored behind them.
* `Cyclic.drop` — the items that are left when the first ones are gone.
-/

import AcnSdk.Lib.Memory

namespace AcnSdk.Lib

variable {α : Type}

/-- The buffer with `s` copied to position `i`, going on at the front after its end. -/
def storeRound (l : List α) (i : Nat) (s : List α) : List α :=
  if l.length - i < s.length then store (store l i (s.take (l.length - i))) 0
    (s.drop (l.length - i))
  else store l i s

theorem length_storeRound {l s : List α} {i : Nat} (lt : i < l.length)
    (room : s.length ≤ l.length) :
    (storeRound l i s).length = l.length := by
  unfold storeRound
  split
  · have first : (store l i (s.take (l.length - i))).length = l.length :=
      length_store (by rw [List.length_take]; omega)
    rw [length_store (by rw [first, List.length_drop]; omega), first]
  · exact length_store (by omega)

/-- A copy in one piece or in two stays inside the buffer. -/
theorem copyTo_round {l s : List α} {i : Nat} (lt : i < l.length) (room : s.length ≤ l.length) :
    (if l.length - i < s.length then do
        let buffer ← copyTo l i (s.take (l.length - i))
        copyTo buffer 0 (s.drop (l.length - i))
      else copyTo l i s) = .ok (storeRound l i s) := by
  unfold storeRound
  split
  · have first : i + (s.take (l.length - i)).length ≤ l.length := by
      rw [List.length_take]
      omega
    have second : 0 + (s.drop (l.length - i)).length ≤
        (store l i (s.take (l.length - i))).length := by
      rw [length_store first, List.length_drop]
      omega
    rw [copyTo_eq first]
    exact copyTo_eq second
  · exact copyTo_eq (by omega)

/-- `q` is stored in `l` from the position `shift` on. -/
def Cyclic (l : List α) (shift : Nat) (q : List α) : Prop :=
  ∀ k < q.length, l[(shift + k) % l.length]? = q[k]?

/-- A position that goes round at most once. -/
theorem mod_of_lt_two {n m : Nat} (lt : n < 2 * m) : n % m = if n < m then n else n - m := by
  split
  · exact Nat.mod_eq_of_lt ‹_›
  · rw [Nat.mod_eq_sub_mod (by omega), Nat.mod_eq_of_lt (by omega)]

namespace Cyclic

variable {l q : List α} {shift : Nat}

theorem nil : Cyclic l shift [] := by
  intro k lt
  cases lt

theorem drop (stored : Cyclic l shift q) (n : Nat) :
    Cyclic l ((shift + n) % l.length) (q.drop n) := by
  intro k lt
  rw [List.length_drop] at lt
  rw [Nat.mod_add_mod, Nat.add_assoc, stored (n + k) (by omega), List.getElem?_drop]

/-- The first `n` items, read in one piece or in two. -/
theorem load (stored : Cyclic l shift q) {n : Nat} (le : n ≤ q.length) (small : q.length ≤ l.length)
    (shift_lt : shift < l.length) :
    (if l.length - shift < n then l.drop shift ++ l.take (n - (l.length - shift))
      else (l.drop shift).take n) = q.take n := by
  have item : ∀ k < n, q[k]? = if shift + k < l.length then l[shift + k]?
      else l[shift + k - l.length]? := by
    intro k lt
    rw [← stored k (by omega), mod_of_lt_two (by omega)]
    split <;> rfl
  apply List.ext_getElem?
  intro k
  rw [List.getElem?_take]
  by_cases lt : k < n
  · rw [if_pos lt, item k lt]
    by_cases wraps : l.length - shift < n
    · rw [if_pos wraps, List.getElem?_append, List.length_drop, List.getElem?_drop,
        List.getElem?_take]
      by_cases before : k < l.length - shift
      · rw [if_pos before, if_pos (by omega)]
      · rw [if_neg before, if_pos (by omega), if_neg (by omega)]
        congr 1
        omega
    · rw [if_neg wraps, List.getElem?_take, if_pos lt, List.getElem?_drop, if_pos (by omega)]
  · rw [if_neg lt, List.getElem?_eq_none_iff]
    split <;> simp only [List.length_append, List.length_drop, List.length_take] <;> omega

/-- Reading the first `n` items stays inside the buffer. -/
theorem copyFrom_round (stored : Cyclic l shift q) {n : Nat} (le : n ≤ q.length)
    (small : q.length ≤ l.length) (shift_lt : shift < l.length) :
    (if l.length - shift < n then do
        let first ← copyFrom l shift (l.length - shift)
        let second ← copyFrom l 0 (n - (l.length - shift))
        return first ++ second
      else copyFrom l shift n) = .ok (q.take n) := by
  rw [← stored.load le small shift_lt]
  split
  · have whole : (l.drop shift).take (l.length - shift) = l.drop shift :=
      List.take_of_length_le (Nat.le_of_eq List.length_drop)
    rw [copyFrom_eq (by omega), copyFrom_eq (by omega), whole]
    rfl
  · exact copyFrom_eq (by omega)

/-- Items stored in one piece behind the others. -/
theorem append_one (stored : Cyclic l shift q) {s : List α} (shift_lt : shift < l.length)
    (room : q.length + s.length ≤ l.length)
    (fits : (shift + q.length) % l.length + s.length ≤ l.length) :
    Cyclic (store l ((shift + q.length) % l.length) s) shift (q ++ s) := by
  intro k lt
  rw [length_store fits]
  have place := mod_of_lt_two (show shift + q.length < 2 * l.length by omega)
  rw [List.length_append] at lt
  rw [mod_of_lt_two (show shift + k < 2 * l.length by omega)]
  by_cases old : k < q.length
  · rw [List.getElem?_append_left old, ← stored k old,
      mod_of_lt_two (show shift + k < 2 * l.length by omega)]
    -- an old item is before or behind the new ones, which do not reach round to it
    by_cases before : (if shift + k < l.length then shift + k else shift + k - l.length) <
        (shift + q.length) % l.length
    · exact getElem?_store_of_lt fits before
    · refine getElem?_store_of_ge fits ?_
      split at place <;> split at before <;> split <;> omega
  · rw [List.getElem?_append_right (by omega), ← getElem?_store_add fits (by omega)]
    congr 1
    split at place <;> split <;> omega

/-- Items stored in two pieces behind the others: up to the end of the buffer and from its
front on. -/
theorem append_two (stored : Cyclic l shift q) {s t : List α} (shift_lt : shift < l.length)
    (room : q.length + (s.length + t.length) ≤ l.length)
    (fits : (shift + q.length) % l.length + s.length = l.length) :
    Cyclic (store (store l ((shift + q.length) % l.length) s) 0 t) shift (q ++ (s ++ t)) := by
  have first := stored.append_one shift_lt (by omega) (Nat.le_of_eq fits)
  have length : (store l ((shift + q.length) % l.length) s).length = l.length :=
    length_store (Nat.le_of_eq fits)
  have place := mod_of_lt_two (show shift + q.length < 2 * l.length by omega)
  have round : (shift + (q ++ s).length) % (store l ((shift + q.length) % l.length) s).length =
      0 := by
    rw [length, List.length_append]
    split at place
    · rw [show shift + (q.length + s.length) = l.length by omega, Nat.mod_self]
    · rw [show shift + (q.length + s.length) = l.length * 2 by omega, Nat.mul_mod_right]
  have second := first.append_one (s := t) (by rw [length]; exact shift_lt)
    (by rw [length, List.length_append]; omega) (by rw [round, length]; omega)
  rwa [round, List.append_assoc] at second

/-- More items behind the others. -/
theorem append (stored : Cyclic l shift q) {s : List α} (shift_lt : shift < l.length)
    (room : q.length + s.length ≤ l.length) :
    Cyclic (storeRound l ((shift + q.length) % l.length) s) shift (q ++ s) := by
  have place : (shift + q.length) % l.length < l.length := Nat.mod_lt _ (by omega)
  unfold storeRound
  split
  · have whole := stored.append_two (s := s.take (l.length - (shift + q.length) % l.length))
      (t := s.drop (l.length - (shift + q.length) % l.length)) shift_lt
      (by rw [List.length_take, List.length_drop]; omega) (by rw [List.length_take]; omega)
    rwa [List.take_append_drop] at whole
  · exact stored.append_one shift_lt room (by omega)

end Cyclic

end AcnSdk.Lib

/-
Blocks of memory.

A block is the list of its items. Copying into or out of a block is a fault if it goes
past the end of the block.
-/

import AcnSdk.Lib.Prog
import Mathlib.Data.List.Basic

namespace AcnSdk.Lib

variable {α : Type}

/-- The block with `s` at position `i`. -/
def store (l : List α) (i : Nat) (s : List α) : List α := l.take i ++ s ++ l.drop (i + s.length)

/-- `memcpy(l + i, s, |s|)`. -/
def copyTo (l : List α) (i : Nat) (s : List α) : Except Fault (List α) :=
  if i + s.length ≤ l.length then .ok (store l i s) else .error .overflow

/-- The `n` items that `memcpy(_, l + i, n)` copies. -/
def copyFrom (l : List α) (i n : Nat) : Except Fault (List α) :=
  if i + n ≤ l.length then .ok ((l.drop i).take n) else .error .overflow

theorem copyTo_eq {l s : List α} {i : Nat} (fits : i + s.length ≤ l.length) :
    copyTo l i s = .ok (store l i s) := if_pos fits

theorem copyFrom_eq {l : List α} {i n : Nat} (fits : i + n ≤ l.length) :
    copyFrom l i n = .ok ((l.drop i).take n) := if_pos fits

/-- Writing behind what is there. -/
theorem copyTo_append {pre post s : List α} {i : Nat} (here : i = pre.length)
    (fits : s.length ≤ post.length) :
    copyTo (pre ++ post) i s = .ok (pre ++ s ++ post.drop s.length) := by
  subst here
  rw [copyTo_eq (by rw [List.length_append]; omega), store, List.take_left, List.drop_append,
    List.drop_eq_nil_of_le (by omega), List.nil_append, Nat.add_sub_cancel_left]

theorem length_store {l s : List α} {i : Nat} (fits : i + s.length ≤ l.length) :
    (store l i s).length = l.length := by
  simp only [store, List.length_append, List.length_take, List.length_drop]
  omega

/-- What is before the position stays. -/
theorem take_store {l s : List α} {i : Nat} (fits : i ≤ l.length) :
    (store l i s).take i = l.take i := by
  rw [store, List.append_assoc, List.take_left' (by rw [List.length_take]; omega)]

/-- What was stored is there. -/
theorem take_drop_store {l s : List α} {i : Nat} (fits : i ≤ l.length) :
    ((store l i s).drop i).take s.length = s := by
  rw [store, List.append_assoc, List.drop_left' (by rw [List.length_take]; omega), List.take_left]

theorem getElem?_store_of_lt {l s : List α} {i j : Nat} (fits : i + s.length ≤ l.length)
    (lt : j < i) :
    (store l i s)[j]? = l[j]? := by
  rw [store, List.append_assoc, List.getElem?_append_left (by rw [List.length_take]; omega),
    List.getElem?_take_of_lt lt]

theorem getElem?_store_of_ge {l s : List α} {i j : Nat} (fits : i + s.length ≤ l.length)
    (ge : i + s.length ≤ j) : (store l i s)[j]? = l[j]? := by
  have front : (l.take i ++ s).length = i + s.length := by
    rw [List.length_append, List.length_take]
    omega
  rw [store, List.getElem?_append_right (by omega), front, List.getElem?_drop]
  congr 1
  omega

theorem getElem?_store_add {l s : List α} {i k : Nat} (fits : i + s.length ≤ l.length)
    (lt : k < s.length) : (store l i s)[i + k]? = s[k]? := by
  have front : (l.take i).length = i := by
    rw [List.length_take]
    omega
  rw [store, List.append_assoc, List.getElem?_append_right (by omega), front,
    List.getElem?_append_left (by omega)]
  congr 1
  omega

/-- The items that are apart from what is stored stay. -/
theorem take_drop_store_of_apart {l s : List α} {i j n : Nat} (fits : i + s.length ≤ l.length)
    (apart : j + n ≤ i ∨ i + s.length ≤ j) :
    ((store l i s).drop j).take n = (l.drop j).take n := by
  apply List.ext_getElem?
  intro k
  rw [List.getElem?_take, List.getElem?_take]
  split_ifs with inside
  · rw [List.getElem?_drop, List.getElem?_drop]
    rcases apart with before | behind
    · exact getElem?_store_of_lt fits (by omega)
    · exact getElem?_store_of_ge fits (by omega)
  · rfl

end AcnSdk.Lib

/-
C strings in blocks of a heap.

A cell of the heap is a block of bytes. Reading past the end of a block is a fault, and so
is writing there. What `realloc` adds to a block is `fresh`, whatever that is.
-/

import AcnSdk.Lib.Bytes
import AcnSdk.Lib.Heap
import AcnSdk.Lib.Memory

namespace AcnSdk.Lib

open Prog Heap

/-! ### The operations -/

/-- The string at the front of a block, at most `n` bytes of it. -/
def stringIn (block : Bytes) (n : Nat) : Except Fault Bytes :=
  let s := cstr (block.take n)
  if s.length < n ∧ s.length = block.length then .error .overflow else .ok s

/-- `strlen`. -/
def strlen (a : Addr) : HeapM Bytes Nat := do
  let block ← read a
  let s ← lift (stringIn block (block.length + 1))
  return s.length

/-- The string that is read at `a`. -/
def stringAt (a : Addr) : HeapM Bytes Bytes := do
  let block ← read a
  lift (stringIn block (block.length + 1))

/-- `strndup`. -/
def strndup (a : Addr) (n : Nat) : HeapM Bytes Addr := do
  let block ← read a
  let s ← lift (stringIn block n)
  alloc (s ++ [0])

/-- `strdup`. -/
def strdup (a : Addr) : HeapM Bytes Addr := do
  strndup a (← strlen a)

/-- `realloc`. -/
def realloc (fresh : Nat → Byte) (a : Addr) (n : Nat) : HeapM Bytes Addr := do
  let block ← read a
  free a
  alloc (block.take n ++ (List.range (n - block.length)).map fresh)

/-- Bytes of a block. -/
def load (a : Addr) (i n : Nat) : HeapM Bytes Bytes := do
  let block ← read a
  lift (copyFrom block i n)

/-- Writing bytes to a block. -/
def storeAt (a : Addr) (i : Nat) (s : Bytes) : HeapM Bytes Unit := do
  let block ← read a
  let block ← lift (copyTo block i s)
  write a block

/-! ### Running them -/

section

variable {h : Heap Bytes} {a : Addr} {block : Bytes}

/-- A string with its terminator. -/
theorem stringIn_terminated {s rest : Bytes} (plain : 0 ∉ s) {n : Nat} (enough : s.length < n) :
    stringIn (s ++ 0 :: rest) n = .ok s := by
  have front : cstr ((s ++ 0 :: rest).take n) = s := by
    obtain ⟨k, rfl⟩ : ∃ k, n = s.length + (k + 1) := ⟨n - s.length - 1, by omega⟩
    rw [List.take_length_add_append, List.take_succ_cons]
    exact cstr_terminated plain _
  rw [stringIn, front]
  exact if_neg (by simp)

/-- The first bytes of a block without a terminator. -/
theorem stringIn_plain {n : Nat} (plain : 0 ∉ block) (fits : n ≤ block.length) :
    stringIn block n = .ok (block.take n) := by
  have front : cstr (block.take n) = block.take n :=
    cstr_eq_self fun mem => plain (List.mem_of_mem_take mem)
  rw [stringIn, front]
  exact if_neg (by rw [List.length_take]; omega)

theorem strlen_eq {s rest : Bytes} (cell : h.cells a = some (s ++ 0 :: rest)) (plain : 0 ∉ s) :
    strlen a h = .ok (s.length, h) := by
  have string : stringIn (s ++ 0 :: rest) ((s ++ 0 :: rest).length + 1) = .ok s :=
    stringIn_terminated plain (by rw [List.length_append]; omega)
  simp only [strlen, bind_apply, read_eq cell, ok_bind, string, lift_ok, pure_apply]

theorem stringAt_eq {s rest : Bytes} (cell : h.cells a = some (s ++ 0 :: rest)) (plain : 0 ∉ s) :
    stringAt a h = .ok (s, h) := by
  have string : stringIn (s ++ 0 :: rest) ((s ++ 0 :: rest).length + 1) = .ok s :=
    stringIn_terminated plain (by rw [List.length_append]; omega)
  simp only [stringAt, bind_apply, read_eq cell, ok_bind, string, lift_ok]

/-- A string is copied with a terminator of its own. -/
theorem strdup_eq {s rest : Bytes} (cell : h.cells a = some (s ++ 0 :: rest)) (plain : 0 ∉ s) :
    strdup a h = alloc (s ++ [0]) h := by
  have front : stringIn (s ++ 0 :: rest) s.length = .ok s := by
    have string : cstr ((s ++ 0 :: rest).take s.length) = s := by
      rw [List.take_left, cstr_eq_self plain]
    rw [stringIn, string]
    exact if_neg fun short => Nat.lt_irrefl _ short.1
  simp only [strdup, bind_apply, strlen_eq cell plain, ok_bind, strndup, read_eq cell, front,
    lift_ok]

theorem strndup_eq {n : Nat} (cell : h.cells a = some block) (plain : 0 ∉ block)
    (fits : n ≤ block.length) : strndup a n h = alloc (block.take n ++ [0]) h := by
  simp only [strndup, bind_apply, read_eq cell, ok_bind, stringIn_plain plain fits, lift_ok]

/-- The heap after `realloc`. -/
def Heap.moved (fresh : Nat → Byte) (h : Heap Bytes) (a : Addr) (block : Bytes) (n : Nat) :
    Heap Bytes where
  cells b :=
    if b = h.brk then some (block.take n ++ (List.range (n - block.length)).map fresh)
    else if b = a then none else h.cells b
  brk := h.brk + 1

theorem realloc_eq (fresh : Nat → Byte) (cell : h.cells a = some block) (n : Nat) :
    realloc fresh a n h = .ok (h.brk, h.moved fresh a block n) := by
  simp only [realloc, bind_apply, read_eq cell, ok_bind, free_eq cell]
  rfl

theorem load_eq {i n : Nat} (cell : h.cells a = some block) (fits : i + n ≤ block.length) :
    load a i n h = .ok ((block.drop i).take n, h) := by
  simp only [load, bind_apply, read_eq cell, ok_bind, copyFrom_eq fits, lift_ok]

theorem storeAt_eq {i : Nat} {s : Bytes} (cell : h.cells a = some block)
    (fits : i + s.length ≤ block.length) :
    storeAt a i s h = .ok ((), h.set a (store block i s)) := by
  simp only [storeAt, bind_apply, read_eq cell, ok_bind, copyTo_eq fits, lift_ok, write_eq cell]

theorem storeAt_overflow {i : Nat} {s : Bytes} (cell : h.cells a = some block)
    (long : ¬ i + s.length ≤ block.length) : storeAt a i s h = .error .overflow := by
  simp only [storeAt, bind_apply, read_eq cell, ok_bind, copyTo, if_neg long, lift_error,
    error_bind]

end

end AcnSdk.Lib

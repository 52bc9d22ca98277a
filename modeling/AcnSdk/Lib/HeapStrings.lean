/-
Building a C string in a block of a heap.

`Holding h a s n` says that the block at `a` has `n` bytes and starts with the C string `s`.
`strcpy` and `strcat` keep the length of the block and grow the string, or go beyond the block.

* `Holding.strcat_eq`, `Holding.strcat_overflow` — when a string can be appended.
-/

import AcnSdk.Lib.CBuffer
import AcnSdk.Lib.Strings

namespace AcnSdk.Lib

open Prog Heap

/-! ### The operations -/

/-- `malloc`, with what is in the block. -/
def malloc (fresh : Nat → Byte) (n : Nat) : HeapM Bytes Addr := alloc ((List.range n).map fresh)

/-- `strcpy` to a block. -/
def strcpyTo (a : Addr) (s : Bytes) : HeapM Bytes Unit := do
  let block ← read a
  let block ← lift (strcpy block s)
  write a block

/-- `strcat` to a block. -/
def strcatTo (a : Addr) (s : Bytes) : HeapM Bytes Unit := do
  let block ← read a
  let block ← lift (strcat block s)
  write a block

/-! ### What they leave -/

theorem malloc_eq (fresh : Nat → Byte) (n : Nat) (h : Heap Bytes) :
    malloc fresh n h = .ok (h.brk, h.push ((List.range n).map fresh)) := rfl

variable {h : Heap Bytes} {a : Addr} {s t : Bytes} {n : Nat}

/-- The block at `a` has `n` bytes and starts with the string. -/
def Holding (h : Heap Bytes) (a : Addr) (s : Bytes) (n : Nat) : Prop :=
  ∃ block, h.cells a = some block ∧ block.length = n ∧ Starts block s

namespace Holding

theorem congr {h' : Heap Bytes} (holding : Holding h a s n) (same : h'.cells a = h.cells a) :
    Holding h' a s n := by
  obtain ⟨block, cell, rest⟩ := holding
  exact ⟨block, same.trans cell, rest⟩

theorem stringAt_eq (holding : Holding h a s n) : stringAt a h = .ok (s, h) := by
  obtain ⟨block, cell, -, plain, rest, rfl⟩ := holding
  exact Lib.stringAt_eq cell plain

theorem length_lt (holding : Holding h a s n) : s.length < n := by
  obtain ⟨block, -, length, starts⟩ := holding
  exact length ▸ starts.length_lt

/-- Appending a string the block has room for. -/
theorem strcat_eq (holding : Holding h a s n) (plain : 0 ∉ t) (room : s.length + t.length < n) :
    ∃ block, strcatTo a t h = .ok ((), h.set a block) ∧ Holding (h.set a block) a (s ++ t) n := by
  obtain ⟨block, cell, rfl, starts⟩ := holding
  obtain ⟨block', run, length, starts'⟩ := starts.append plain room
  refine ⟨block', ?_, block', by simp, length, starts'⟩
  simp only [strcatTo, bind_apply, read_eq cell, ok_bind, run, lift_ok, write_eq cell]

/-- Appending one it has no room for. -/
theorem strcat_overflow (holding : Holding h a s n) (full : n ≤ s.length + t.length) :
    strcatTo a t h = .error .overflow := by
  obtain ⟨block, cell, rfl, starts⟩ := holding
  simp only [strcatTo, bind_apply, read_eq cell, ok_bind, starts.append_overflow full, lift_error,
    error_bind]

end Holding

theorem strcpyTo_eq {block : Bytes} (cell : h.cells a = some block) (plain : 0 ∉ s)
    (room : s.length < block.length) :
    ∃ block', strcpyTo a s h = .ok ((), h.set a block') ∧
      Holding (h.set a block') a s block.length := by
  obtain ⟨block', run, length, starts⟩ := strcpy_eq block plain room
  refine ⟨block', ?_, block', by simp, length, starts⟩
  simp only [strcpyTo, bind_apply, read_eq cell, ok_bind, run, lift_ok, write_eq cell]

theorem strcpyTo_overflow {block : Bytes} (cell : h.cells a = some block)
    (full : block.length ≤ s.length) : strcpyTo a s h = .error .overflow := by
  have beyond : ¬ 0 + (s ++ [0]).length ≤ block.length := by
    rw [List.length_append, List.length_singleton]
    omega
  simp only [strcpyTo, bind_apply, read_eq cell, ok_bind, strcpy, copyTo, if_neg beyond, lift_error,
    error_bind]

end AcnSdk.Lib

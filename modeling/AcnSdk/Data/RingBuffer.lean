/-
The ring buffer of `src/data/ringbuffer.c` and the queue that it is.

`Holds` says which bytes a ring buffer has, first in first out; each operation is
followed by what it does to them. `ringbuf_refines` is the whole of it: any sequence of
operations answers as a queue of `total - 1` bytes does, without touching memory outside
the array.
-/

import AcnSdk.Lib.Bytes
import AcnSdk.Lib.Cyclic
import AcnSdk.Lib.Fifo

namespace AcnSdk.Data

open AcnSdk.Lib Prog

/-! ### The operations -/

/-- `ring_buffer_t`. The three numbers are of 16 bits. -/
structure RingBuffer where
  buffer : Bytes
  total : Nat
  size : Nat
  shift : Nat
deriving DecidableEq, Repr

/-- `ringbuf_init` on a block of memory of that size. -/
def ringbufInit (block : Bytes) : RingBuffer :=
  { buffer := block, total := block.length % 2 ^ 16, size := 0, shift := 0 }

/-- `ringbuf_capacity`. -/
def ringbufCapacity (buf : RingBuffer) : Nat := ((buf.total - 1 - buf.size : Int) % 2 ^ 16).toNat

/-- `ringbuf_size`. -/
def ringbufSize (buf : RingBuffer) : Nat := buf.size

/-- `ringbuf_clear`. -/
def ringbufClear : Prog RingBuffer Unit := do
  let buf ← get
  let buffer ← lift (copyTo buf.buffer 0 [0])
  set { buf with buffer := buffer, size := 0, shift := 0 }

/-- The copying of `ringbuf_push`. -/
def copyIn (buf : RingBuffer) (s : Bytes) (len : Nat) : Except Fault Bytes :=
  let wr := (buf.shift + buf.size) % buf.total
  let tillBorder := buf.total - wr
  if tillBorder < len then do
    let buffer ← copyTo buf.buffer wr (s.take tillBorder)
    copyTo buffer 0 ((s.take len).drop tillBorder)
  else copyTo buf.buffer wr (s.take len)

/-- `ringbuf_push` of `len` bytes from `s` on, or of the C string there. -/
def ringbufPush (s : Bytes) (len : Nat) : Prog RingBuffer Int := do
  let buf ← get
  let len := if len = 0 then (cstr s).length else len
  if ringbufCapacity buf < len then return -1
  else
    let buffer ← lift (copyIn buf s len)
    set { buf with buffer := buffer, size := (buf.size + len) % 2 ^ 16 }
    return 0

/-- The copying of `ringbuf_pop`. -/
def copyOut (buf : RingBuffer) (len : Nat) : Except Fault Bytes :=
  let tillBorder := buf.total - buf.shift
  if tillBorder < len then do
    let first ← copyFrom buf.buffer buf.shift tillBorder
    let second ← copyFrom buf.buffer 0 (len - tillBorder)
    return first ++ second
  else copyFrom buf.buffer buf.shift len

/-- `ringbuf_pop`, with the bytes that it copies out. -/
def ringbufPop (len : Nat) : Prog RingBuffer (Option Bytes) := do
  let buf ← get
  if ringbufSize buf < len then return none
  else
    let s ← lift (copyOut buf len)
    set { buf with shift := (buf.shift + len) % buf.total, size := buf.size - len }
    return some s

/-! ### The queue -/

/-- The buffer has the bytes of `q`, and room for at least one more. -/
structure Holds (buf : RingBuffer) (q : Bytes) : Prop where
  length_eq : buf.buffer.length = buf.total
  total_lt : buf.total < 2 ^ 16
  shift_lt : buf.shift < buf.total
  size_eq : buf.size = q.length
  size_lt : q.length < buf.total
  stored : Cyclic buf.buffer buf.shift q

variable {buf : RingBuffer} {q : Bytes}

theorem init_holds {block : Bytes} (pos : 1 ≤ block.length) (small : block.length < 2 ^ 16) :
    Holds (ringbufInit block) [] where
  length_eq := (Nat.mod_eq_of_lt small).symm
  total_lt := Nat.mod_lt _ (by decide)
  shift_lt := by
    rw [ringbufInit, Nat.mod_eq_of_lt small]
    exact pos
  size_eq := rfl
  size_lt := by
    rw [ringbufInit, Nat.mod_eq_of_lt small]
    exact pos
  stored := .nil

namespace Holds

theorem capacity_eq (holds : Holds buf q) : ringbufCapacity buf = buf.total - 1 - q.length := by
  have := holds.size_lt
  have := holds.total_lt
  rw [ringbufCapacity, holds.size_eq]
  omega

theorem clear (holds : Holds buf q) :
    ∃ buf', ringbufClear buf = .ok ((), buf') ∧ buf'.total = buf.total ∧ Holds buf' [] := by
  have shift_lt := holds.shift_lt
  have length_eq := holds.length_eq
  have fits : 0 + [(0 : Byte)].length ≤ buf.buffer.length := by
    simp only [List.length_singleton]
    omega
  refine ⟨⟨store buf.buffer 0 [0], buf.total, 0, 0⟩, by simp [ringbufClear, copyTo_eq fits],
    rfl, ?_⟩
  exact {
    length_eq := (length_store fits).trans length_eq
    total_lt := holds.total_lt
    shift_lt := Nat.lt_of_le_of_lt (Nat.zero_le _) shift_lt
    size_eq := rfl
    size_lt := Nat.lt_of_le_of_lt (Nat.zero_le _) shift_lt
    stored := .nil }

/-- Bytes that fit are appended. -/
theorem push (holds : Holds buf q) {s : Bytes} (nonempty : s ≠ [])
    (room : q.length + s.length ≤ buf.total - 1) :
    ∃ buf', ringbufPush s s.length buf = .ok (0, buf') ∧ buf'.total = buf.total ∧
      Holds buf' (q ++ s) := by
  obtain ⟨length_eq, total_lt, shift_lt, size_eq, size_lt, stored⟩ := id holds
  have len : s.length ≠ 0 := fun e => nonempty (List.length_eq_zero_iff.mp e)
  have fits : ¬ ringbufCapacity buf < s.length := by
    rw [holds.capacity_eq]
    omega
  have place : (buf.shift + q.length) % buf.total < buf.total := Nat.mod_lt _ (by omega)
  have more := stored.append (s := s) (by omega) (by omega)
  rw [length_eq] at more
  refine ⟨⟨storeRound buf.buffer ((buf.shift + q.length) % buf.total) s, buf.total,
    (buf.size + s.length) % 2 ^ 16, buf.shift⟩, ?_, rfl, ?_⟩
  · have copied : copyIn buf s s.length =
        .ok (storeRound buf.buffer ((buf.shift + q.length) % buf.total) s) := by
      have round := copyTo_round (s := s) (l := buf.buffer) (by rwa [length_eq]) (by omega)
      rw [length_eq] at round
      rw [copyIn, size_eq, List.take_length]
      exact round
    simp only [ringbufPush, bind_apply, get_apply, ok_bind, len, if_false, fits, copied, lift_ok,
      set_apply, pure_apply]
  · exact {
      length_eq := (length_storeRound (by omega) (by omega)).trans length_eq
      total_lt := total_lt
      shift_lt := shift_lt
      size_eq := by
        rw [List.length_append, size_eq]
        exact Nat.mod_eq_of_lt (by omega)
      size_lt := by rw [List.length_append]; dsimp only; omega
      stored := more }

/-- More bytes than fit are refused. -/
theorem push_full (holds : Holds buf q) {s : Bytes} (nonempty : s ≠ [])
    (full : ¬ q.length + s.length ≤ buf.total - 1) :
    ringbufPush s s.length buf = .ok (-1, buf) := by
  have len : s.length ≠ 0 := fun e => nonempty (List.length_eq_zero_iff.mp e)
  have beyond : ringbufCapacity buf < s.length := by
    rw [holds.capacity_eq]
    have := holds.size_lt
    omega
  simp only [ringbufPush, bind_apply, get_apply, ok_bind, len, if_false, beyond, if_true,
    pure_apply]

/-- The first bytes are removed. -/
theorem pop (holds : Holds buf q) {len : Nat} (le : len ≤ q.length) :
    ∃ buf', ringbufPop len buf = .ok (some (q.take len), buf') ∧ buf'.total = buf.total ∧
      Holds buf' (q.drop len) := by
  obtain ⟨length_eq, total_lt, shift_lt, size_eq, size_lt, stored⟩ := holds
  have enough : ¬ ringbufSize buf < len := by
    rw [ringbufSize, size_eq]
    omega
  refine ⟨⟨buf.buffer, buf.total, buf.size - len, (buf.shift + len) % buf.total⟩, ?_, rfl, ?_⟩
  · have copied : copyOut buf len = .ok (q.take len) := by
      have round := stored.copyFrom_round le (by omega) (by omega)
      rwa [length_eq] at round
    simp only [ringbufPop, bind_apply, get_apply, ok_bind, enough, if_false, copied, lift_ok,
      set_apply, pure_apply]
  · exact {
      length_eq := length_eq
      total_lt := total_lt
      shift_lt := Nat.mod_lt _ (by omega)
      size_eq := by rw [List.length_drop, size_eq]
      size_lt := by rw [List.length_drop]; dsimp only; omega
      stored := by
        have rest := stored.drop len
        rwa [length_eq] at rest }

/-- More bytes than there are cannot be removed. -/
theorem pop_short (holds : Holds buf q) {len : Nat} (short : ¬ len ≤ q.length) :
    ringbufPop len buf = .ok (none, buf) := by
  have beyond : ringbufSize buf < len := by
    rw [ringbufSize, holds.size_eq]
    omega
  simp only [ringbufPop, bind_apply, get_apply, ok_bind, beyond, if_true, pure_apply]

end Holds

/-! ### Whole runs -/

/-- The bytes from `shift` on, modulo `total`. -/
def RingBuffer.contents (buf : RingBuffer) : List (Option Byte) :=
  (List.range buf.size).map fun k => buf.buffer[(buf.shift + k) % buf.total]?

/-- An operation of the queue, done by the ring buffer. -/
def perform : Fifo.Op Byte → Prog RingBuffer (Option Bytes)
  | .push s => do return if (← ringbufPush s s.length) < 0 then none else some []
  | .pop len => ringbufPop len
  | .clear => do
      ringbufClear
      return some []

theorem Holds.contents_eq (holds : Holds buf q) : buf.contents = q.map some := by
  apply List.ext_getElem?
  intro k
  have stored := holds.stored k
  rw [holds.length_eq] at stored
  by_cases lt : k < q.length
  · simp [RingBuffer.contents, holds.size_eq, stored lt, lt]
  · rw [List.getElem?_eq_none (by simp [RingBuffer.contents, holds.size_eq]; omega),
      List.getElem?_eq_none (by simp; omega)]

/-- One operation. -/
theorem perform_eq {total : Nat} {op : Fifo.Op Byte} (holds : Holds buf q)
    (same : buf.total = total)
    (valid : op ≠ .push []) :
    ∃ buf', (buf'.total = total ∧ Holds buf' (Fifo.step (total - 1) q op).2) ∧
      perform op buf = .ok ((Fifo.step (total - 1) q op).1, buf') := by
  subst same
  cases op with
  | push s =>
      have nonempty : s ≠ [] := fun e => valid (by rw [e])
      by_cases room : q.length + s.length ≤ buf.total - 1
      · obtain ⟨buf', pushed, same, holds'⟩ := holds.push nonempty room
        refine ⟨buf', ?_, ?_⟩ <;> simp [Fifo.step, room, same, holds', perform, pushed]
      · refine ⟨buf, ?_, ?_⟩ <;>
          simp [Fifo.step, room, holds, perform, holds.push_full nonempty room]
  | pop len =>
      by_cases le : len ≤ q.length
      · obtain ⟨buf', popped, same, holds'⟩ := holds.pop le
        refine ⟨buf', ?_, ?_⟩ <;> simp [Fifo.step, le, same, holds', perform, popped]
      · refine ⟨buf, ?_, ?_⟩ <;> simp [Fifo.step, le, holds, perform, holds.pop_short le]
  | clear =>
      obtain ⟨buf', cleared, same, holds'⟩ := holds.clear
      refine ⟨buf', ?_, ?_⟩ <;> simp [Fifo.step, same, holds', perform, cleared]

/-- Any sequence of operations on a ring buffer of `total` bytes answers as a queue of at
most `total - 1` bytes does and leaves its contents, and accesses the array only at indices
below `total`. -/
theorem ringbuf_refines {block : Bytes} (pos : 1 ≤ block.length) (small : block.length ≤ 65535)
    (ops : List (Fifo.Op Byte)) (valid : ∀ op ∈ ops, op ≠ .push []) :
    let (answers, q) := Fifo.run (block.length - 1) [] ops
    ∃ buf, ops.mapM perform (ringbufInit block) = .ok (answers, buf) ∧
      buf.contents = q.map some ∧ ringbufSize buf = q.length ∧
      ringbufCapacity buf = block.length - 1 - q.length := by
  have start := init_holds pos (by omega)
  have total_eq : (ringbufInit block).total = block.length := Nat.mod_eq_of_lt (by omega)
  obtain ⟨buf, ⟨same, holds⟩, ran⟩ := Fifo.simulates (block.length - 1)
    (fun buf q => buf.total = block.length ∧ Holds buf q) (fun op => op ≠ .push [])
    (fun buf q op holds valid => perform_eq holds.2 holds.1 valid) ops valid ⟨total_eq, start⟩
  refine ⟨buf, ran, holds.contents_eq, holds.size_eq, ?_⟩
  rw [holds.capacity_eq, same]

/-- A buffer of four bytes goes round: three bytes, two of them out, two more in. -/
theorem ringbuf_refines_wrap :
    ([.push [1, 2, 3], .pop 2, .push [4, 5], .push [6]] : List (Fifo.Op Byte)).mapM perform
        (ringbufInit [0, 0, 0, 0]) =
      .ok ([some [], some [1, 2], some [], none], ⟨[5, 2, 3, 4], 4, 3, 2⟩) ∧
    ∃ buf, ([.push [1, 2, 3], .pop 2, .push [4, 5], .push [6]] : List (Fifo.Op Byte)).mapM perform
        (ringbufInit [0, 0, 0, 0]) = .ok ([some [], some [1, 2], some [], none], buf) ∧
      buf.contents = [some 3, some 4, some 5] ∧ ringbufSize buf = 3 ∧ ringbufCapacity buf = 0 := by
  refine ⟨rfl, ?_⟩
  exact ringbuf_refines (show 1 ≤ [(0 : Byte), 0, 0, 0].length by decide) (by decide)
    [.push [1, 2, 3], .pop 2, .push [4, 5], .push [6]] (by decide)

end AcnSdk.Data

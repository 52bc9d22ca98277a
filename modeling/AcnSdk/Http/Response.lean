/-
The payload of a response, `src/http/response.c`, with the handler that collects it.

* `accumulates_iff` — the pieces of a payload are collected exactly if there is only one,
  and its length fits into the size of a property.
-/

import AcnSdk.Data.Property

namespace AcnSdk.Http

open AcnSdk.Lib AcnSdk.Data Prog Heap

/-! ### The handler -/

/-- The members of `http_response_t` that the payload handlers use. -/
structure PayloadState where
  payload : Property
  processedPayloadChunk : Nat

/-- `http_response_init`. -/
def PayloadState.init : PayloadState := ⟨.init, 0⟩

section

variable (fresh : Nat → Byte)

/-- `default_add_payload_handler`. -/
def defaultAddPayloadHandler (res : PayloadState) (payload : Property) :
    HeapM Bytes (Int × PayloadState) :=
  if res.payload.isEmpty then do
    let (moved, _) ← propertyMove res.payload payload
    return (0, { res with payload := moved })
  else do
    let (_, longer) ← propertyConcat fresh res.payload payload
    return (0, { res with payload := longer })

/-- `http_response_add_payload` with that handler. -/
def httpResponseAddPayload (res : PayloadState) (payload : Property) :
    HeapM Bytes (Int × PayloadState) := do
  let (ret, res) ← defaultAddPayloadHandler fresh res payload
  if ret < 0 then return (-1, res)
  else return (0, { res with processedPayloadChunk := res.processedPayloadChunk + 1 })

/-- One chunk: the caller has it in a buffer. -/
def addChunk (res : PayloadState) (chunk : Bytes) : HeapM Bytes PayloadState := do
  let buf ← alloc chunk
  let (_, res) ← httpResponseAddPayload fresh res (.stackRaw buf chunk.length)
  return res

/-- The payload is the text with its terminator, in a block of exactly that size, and says how
long it is. -/
def Collected (text : Bytes) (res : PayloadState) (h : Heap Bytes) : Prop :=
  (∃ a, res.payload.value = some a ∧ h.cells a = some (text ++ [0])) ∧
    propertySize res.payload h = .ok (text.length, h)

/-- The chunks are collected, and nothing is written outside a block. -/
def Accumulates (h : Heap Bytes) (chunks : List Bytes) : Prop :=
  ∃ res h', chunks.foldlM (addChunk fresh) .init h = .ok (res, h') ∧ Collected chunks.flatten res h'

end

/-! ### What it collects -/

section

variable {fresh : Nat → Byte} {h : Heap Bytes} {chunk : Bytes}

/-- The response after the first chunk. -/
def PayloadState.first (a : Addr) (chunk : Bytes) : PayloadState :=
  ⟨⟨some a, dynamicTag, false, true, chunk.length % 2 ^ 16⟩, 1⟩

/-- The heap after the first chunk. -/
def firstHeap (h : Heap Bytes) (chunk : Bytes) : Heap Bytes where
  cells a :=
    if a = h.brk + 1 then some (chunk.take (chunk.length % 2 ^ 16) ++ [0])
    else if a = h.brk then some chunk else h.cells a
  brk := h.brk + 2

theorem firstHeap_cell : (firstHeap h chunk).cells (h.brk + 1) =
    some (chunk.take (chunk.length % 2 ^ 16) ++ [0]) := if_pos rfl

theorem addChunk_first (plain : 0 ∉ chunk) :
    addChunk fresh .init chunk h =
      .ok (PayloadState.first (h.brk + 1) chunk, firstHeap h chunk) := by
  have cell : ({ cells := fun b => if b = h.brk then some chunk else h.cells b, brk := h.brk + 1 } :
      Heap Bytes).cells h.brk = some chunk := if_pos rfl
  have moved := propertyMove_stackRaw cell plain .init
  simp only [addChunk, alloc, bind_apply, ok_bind, httpResponseAddPayload, defaultAddPayloadHandler,
    PayloadState.init, Property.isEmpty, Property.init, Option.isNone_none, if_true] at moved ⊢
  rw [moved]
  rfl

/-- The second chunk is one too many. -/
theorem addChunk_second (plain : 0 ∉ chunk) (more : Bytes) :
    addChunk fresh (PayloadState.first (h.brk + 1) chunk) more (firstHeap h chunk) =
      .error .overflow := by
  have plain' : 0 ∉ chunk.take (chunk.length % 2 ^ 16) :=
    fun mem => plain (List.mem_of_mem_take mem)
  generalize heap_eq : ({ cells := fun b => if b = (firstHeap h chunk).brk then some more
    else (firstHeap h chunk).cells b, brk := (firstHeap h chunk).brk + 1 } : Heap Bytes) = h'
  have old : h'.cells (h.brk + 1) = some (chunk.take (chunk.length % 2 ^ 16) ++ [0]) := by
    simp [← heap_eq, firstHeap]
  have cell : h'.cells (h.brk + 2) = some more := by
    simp [← heap_eq, firstHeap]
  have live : h.brk + 2 < h'.brk := by
    simp [← heap_eq, firstHeap]
  have differ : h.brk + 2 ≠ h.brk + 1 := by omega
  have beyond : dynmcConcat fresh (PayloadState.first (h.brk + 1) chunk).payload
      (.stackRaw (h.brk + 2) more.length) h' =
      .error .overflow := dynmcConcat_overflow fresh old plain' rfl rfl rfl cell differ live
  have made : (alloc more : HeapM Bytes Addr) (firstHeap h chunk) = .ok (h.brk + 2, h') := by
    rw [← heap_eq]
    rfl
  simp only [addChunk, bind_apply, made, ok_bind, httpResponseAddPayload, defaultAddPayloadHandler,
    propertyConcat, PayloadState.first, Property.isEmpty, Property.stackRaw, Option.isNone_some,
    Bool.false_eq_true, if_false] at beyond ⊢
  rw [beyond]
  rfl

end

theorem not_accumulates {fresh : Nat → Byte} {h : Heap Bytes} {chunk : Bytes} (plain : 0 ∉ chunk)
    (more : Bytes) (rest : List Bytes) : ¬ Accumulates fresh h (chunk :: more :: rest) := by
  rintro ⟨res, h', ran, -⟩
  rw [List.foldlM_cons, bind_apply, addChunk_first plain, ok_bind, List.foldlM_cons, bind_apply,
    addChunk_second plain] at ran
  cases ran

/-- Chunks are collected exactly if there is only one, and its length fits into the size of a
property. -/
theorem accumulates_iff (fresh : Nat → Byte) (h : Heap Bytes) {chunks : List Bytes}
    (nonempty : chunks ≠ []) (valid : ∀ chunk ∈ chunks, chunk ≠ [] ∧ 0 ∉ chunk) :
    Accumulates fresh h chunks ↔ ∃ chunk, chunks = [chunk] ∧ chunk.length < 2 ^ 16 := by
  obtain ⟨chunk, rest, rfl⟩ := List.exists_cons_of_ne_nil nonempty
  obtain ⟨some_bytes, plain⟩ := valid chunk List.mem_cons_self
  constructor
  · intro accumulates
    cases rest with
    | cons more rest => exact absurd accumulates (not_accumulates plain more rest)
    | nil =>
        obtain ⟨res, h', ran, ⟨a, value, cell⟩, -⟩ := accumulates
        rw [List.foldlM_cons, bind_apply, addChunk_first plain, ok_bind] at ran
        cases ran
        cases value
        have lengths := congrArg (Option.map List.length) (firstHeap_cell.symm.trans cell)
        simp only [Option.map_some, List.length_append, List.length_take, List.length_singleton,
          List.flatten_cons, List.flatten_nil, List.length_nil, Option.some.injEq] at lengths
        refine ⟨chunk, rfl, ?_⟩
        have := Nat.mod_lt chunk.length (show 0 < 2 ^ 16 by decide)
        omega
  · rintro ⟨chunk', eq, small⟩
    cases eq
    have size : chunk.length % 2 ^ 16 = chunk.length := Nat.mod_eq_of_lt small
    have pos : chunk.length ≠ 0 := fun e => some_bytes (List.length_eq_zero_iff.mp e)
    refine ⟨PayloadState.first (h.brk + 1) chunk, firstHeap h chunk, ?_, ⟨h.brk + 1, rfl, ?_⟩, ?_⟩
    · rw [List.foldlM_cons, bind_apply, addChunk_first plain, ok_bind]
      rfl
    · rw [firstHeap_cell, size, List.take_length, List.flatten_singleton]
    · rw [propertySize, PayloadState.first, List.flatten_singleton]
      simp only [size]
      rw [if_pos pos]
      rfl

/-- One chunk of two bytes. -/
theorem accumulates_one : Accumulates (fun _ => 0) ⟨fun _ => none, 0⟩ [[0x68, 0x69]] :=
  (accumulates_iff (fun _ => 0) ⟨fun _ => none, 0⟩ (by decide) (by decide)).mpr
    ⟨[0x68, 0x69], rfl, by decide⟩

/-- Two chunks of one byte each. -/
theorem not_accumulates_two : ¬ Accumulates (fun _ => 0) ⟨fun _ => none, 0⟩ [[0x68], [0x69]] :=
  not_accumulates (by decide) _ _

end AcnSdk.Http

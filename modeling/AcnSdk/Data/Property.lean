/-
Properties, `src/data/property.c` and its three types of values.

A property is a pointer to bytes, how long they are, and what may be done with them. The
bytes of a stack property go to the heap when it is moved; a dynamic one can be appended
to. That no memory can be had is left out.
-/

import AcnSdk.Lib.CString
import AcnSdk.Lib.Strings

namespace AcnSdk.Data

open AcnSdk.Lib Prog Heap

/-! ### The data -/

/-- `property_t`, with its flags one by one: the type, `is_raw` and `is_owner`. -/
structure Property where
  value : Option Addr
  tag : Nat
  isRaw : Bool
  isOwner : Bool
  size : Nat
deriving DecidableEq, Repr

/-- `PROPERTY_CONST_TAG`. -/
def constTag : Nat := 1

/-- `PROPERTY_DYNAMIC_TAG`. -/
def dynamicTag : Nat := 2

/-- `PROPERTY_STACK_TAG`. -/
def stackTag : Nat := 3

namespace Property

/-- `property_init`. -/
def init : Property := ⟨none, 0, false, false, 0⟩

/-- `p_stack_raw`. The size has 16 bits. -/
def stackRaw (value : Addr) (len : Nat) : Property :=
  ⟨some value, stackTag, true, true, len % 2 ^ 16⟩

/-- `p_stack`, with what `strlen` says of the value. -/
def stack (value : Addr) (len : Nat) : Property := ⟨some value, stackTag, false, true, len % 2 ^ 16⟩

/-- `p_const`. -/
def const (value : Addr) (len : Nat) : Property := ⟨some value, constTag, false, true, len % 2 ^ 16⟩

/-- `p_heap`. -/
def heap (value : Addr) (len : Nat) : Property :=
  ⟨some value, dynamicTag, false, true, len % 2 ^ 16⟩

/-- The buffer that `property_free` releases. -/
def owned (p : Property) : Option Addr := if p.isOwner ∧ p.tag = dynamicTag then p.value else none

/-- `IS_EMPTY`. -/
def isEmpty (p : Property) : Bool := p.value.isNone

end Property

/-! ### Dynamic, stack and constant properties -/

/-- `dynmc_copy`. -/
def dynmcCopy (src : Property) : HeapM Bytes Property :=
  if src.isOwner then do
    let from' ← deref src.value
    let value ← if src.isRaw then strndup from' src.size else strdup from'
    return ⟨some value, dynamicTag, false, true, src.size⟩
  else return ⟨src.value, src.tag, src.isRaw, src.isOwner, src.size⟩

/-- `dynmc_move`, with what becomes of the source. -/
def dynmcMove (src : Property) : HeapM Bytes (Property × Property) :=
  return (⟨src.value, dynamicTag, false, src.isOwner, src.size⟩, { src with isOwner := false })

/-- `dynmc_destroy`. -/
def dynmcDestroy (dst : Property) : HeapM Bytes Unit :=
  if dst.isOwner then do free (← deref dst.value) else return ()

/-- How many bytes `dynmc_concat` takes a property for. -/
def concatSize (p : Property) : HeapM Bytes Nat :=
  if p.isRaw then return p.size else do strlen (← deref p.value)

/-- `dynmc_concat`. -/
def dynmcConcat (fresh : Nat → Byte) (dst src : Property) : HeapM Bytes Property :=
  if dst.isOwner then do
    let sizeDst ← concatSize dst
    let sizeSrc ← concatSize src
    let value ← realloc fresh (← deref dst.value) (sizeSrc + sizeDst + 1)
    let bytes ← load (← deref src.value) 0 sizeSrc
    storeAt value sizeDst bytes
    storeAt value (sizeDst + sizeSrc + 1) [0]
    return { dst with value := some value }
  else return dst

/-- `stack_copy`, with what becomes of the source. -/
def stackCopy (src : Property) : HeapM Bytes (Property × Property) := do
  let src := { src with isOwner := true }
  return (← dynmcCopy src, src)

/-- `const_copy`. -/
def constCopy (src : Property) : Property := ⟨src.value, constTag, false, true, src.size⟩

/-! ### Properties of any type -/

/-- `property_copy`. -/
def propertyCopy (src : Property) : HeapM Bytes Property :=
  if src.tag = constTag then return constCopy src
  else if src.tag = dynamicTag then dynmcCopy src
  else if src.tag = stackTag then do return (← stackCopy src).1
  else return .init

/-- `property_free`. Only dynamic properties have something to destroy. -/
def propertyFree (dst : Property) : HeapM Bytes Property := do
  if dst.isOwner ∧ dst.tag = dynamicTag then dynmcDestroy dst
  return .init

/-- `property_move`: the new value of the destination and of the source. -/
def propertyMove (dst src : Property) : HeapM Bytes (Property × Property) := do
  if src.tag = constTag then return (constCopy src, ← propertyFree src)
  else if src.tag = dynamicTag then
    let (dst, src) ← dynmcMove src
    return (dst, ← propertyFree src)
  else if src.tag = stackTag then
    let (dst, src) ← stackCopy src
    return (dst, ← propertyFree src)
  else return (dst, src)

/-- `property_size`. -/
def propertySize (src : Property) : HeapM Bytes Nat :=
  if src.size ≠ 0 then return src.size
  else
    match src.value with
    | some value => strlen value
    | none => return 0

/-- `property_concat`, with the new value of the first property. -/
def propertyConcat (fresh : Nat → Byte) (src1 src2 : Property) : HeapM Bytes (Int × Property) :=
  if src2.isEmpty then return (-1, src1)
  else if src1.isEmpty then do return (0, ← propertyCopy src2)
  else do return (0, ← dynmcConcat fresh src1 src2)

/-- `property_cmp`. Only a raw first property is compared by its size. -/
def propertyCmp (src dst : Property) : HeapM Bytes Int :=
  if src.isRaw then
    if src.size = dst.size then do
      let s ← lift (stringIn (← read (← deref src.value)) src.size)
      let t ← lift (stringIn (← read (← deref dst.value)) src.size)
      return if strncmp s t src.size = 0 then 0 else -1
    else return -1
  else do
    let s ← stringAt (← deref src.value)
    let t ← stringAt (← deref dst.value)
    return if strcmp s t = 0 then 0 else -1

/-! ### Moving and appending -/

section

variable {h : Heap Bytes} {a : Addr} {chunk : Bytes}

theorem propertyCopy_const (n : Nat) : propertyCopy (.const a n) h = .ok (.const a n, h) := rfl

/-- A string on the heap is copied to a block of its own. -/
theorem propertyCopy_heap {s : Bytes} (cell : h.cells a = some (s ++ 0 :: chunk)) (plain : 0 ∉ s)
    (n : Nat) : propertyCopy (.heap a n) h = .ok (.heap h.brk n, h.push (s ++ [0])) := by
  have copied : strdup a h = .ok (h.brk, h.push (s ++ [0])) := strdup_eq cell plain
  simp [propertyCopy, Property.heap, constTag, dynamicTag, dynmcCopy, copied]

/-- And so is one on the stack. -/
theorem propertyCopy_stack {s : Bytes} (cell : h.cells a = some (s ++ 0 :: chunk)) (plain : 0 ∉ s)
    (n : Nat) : propertyCopy (.stack a n) h = .ok (.heap h.brk n, h.push (s ++ [0])) := by
  have copied : strdup a h = .ok (h.brk, h.push (s ++ [0])) := strdup_eq cell plain
  simp [propertyCopy, Property.stack, Property.heap, constTag, dynamicTag, stackTag, stackCopy,
    dynmcCopy, copied]

theorem propertyFree_heap (n : Nat) (cell : h.cells a = some chunk) :
    propertyFree (.heap a n) h = .ok (.init, h.eraseAll [a]) := by
  rw [← erase_eq_eraseAll]
  simp [propertyFree, Property.heap, dynmcDestroy, free_eq cell]

/-- A raw stack property goes to a block of its own, with a terminator. -/
theorem propertyMove_stackRaw (cell : h.cells a = some chunk) (plain : 0 ∉ chunk) (dst : Property) :
    (propertyMove dst (.stackRaw a chunk.length)) h =
      (alloc (chunk.take (chunk.length % 2 ^ 16) ++ [0]) h).bind fun r =>
        .ok ((⟨some r.1, dynamicTag, false, true, chunk.length % 2 ^ 16⟩, .init), r.2) := by
  have le : chunk.length % 2 ^ 16 ≤ chunk.length := Nat.mod_le _ _
  have copied : strndup a (chunk.length % 2 ^ 16) h = _ := strndup_eq cell plain le
  rw [Property.stackRaw]
  generalize chunk.length % 2 ^ 16 = size at copied
  simp [propertyMove, constTag, dynamicTag, stackTag, stackCopy, dynmcCopy, propertyFree, copied,
    alloc]

/-- A string on the stack goes to a block of its own, with a terminator. -/
theorem propertyMove_stack {s : Bytes} (cell : h.cells a = some (s ++ 0 :: chunk)) (plain : 0 ∉ s)
    (dst : Property) :
    (propertyMove dst (.stack a s.length)) h =
      (alloc (s ++ [0]) h).bind fun r =>
        .ok ((⟨some r.1, dynamicTag, false, true, s.length % 2 ^ 16⟩, .init), r.2) := by
  have copied : strdup a h = alloc (s ++ [0]) h := strdup_eq cell plain
  simp [Property.stack, propertyMove, constTag, dynamicTag, stackTag, stackCopy, dynmcCopy,
    propertyFree, copied, alloc]

/-- The terminator of the longer string goes behind its block. -/
theorem dynmcConcat_beyond {b : Addr} {s : Bytes} {dst src : Property} {size : Nat}
    (fresh : Nat → Byte) (old : h.cells b = some (s ++ [0])) (plain : 0 ∉ s)
    (value : dst.value = some b) (raw : dst.isRaw = false) (owner : dst.isOwner = true)
    (src_value : src.value = some a) (src_size : concatSize src h = .ok (size, h))
    (size_le : size ≤ chunk.length) (cell : h.cells a = some chunk) (differ : a ≠ b)
    (live : a < h.brk) : dynmcConcat fresh dst src h = .error .overflow := by
  have length : strlen b h = .ok (s.length, h) := strlen_eq old plain
  have moved := realloc_eq fresh old (size + s.length + 1)
  generalize moved_eq : h.moved fresh b (s ++ [0]) (size + s.length + 1) = h' at moved
  have kept : h'.cells a = some chunk := by
    rw [← moved_eq, Heap.moved]
    dsimp only
    rw [if_neg (Nat.ne_of_lt live), if_neg differ, cell]
  obtain ⟨block, new, block_length⟩ : ∃ block, h'.cells h.brk = some block ∧
      block.length = size + s.length + 1 := by
    rw [← moved_eq, Heap.moved]
    refine ⟨_, if_pos rfl, ?_⟩
    simp only [List.length_append, List.length_take, List.length_map, List.length_range,
      List.length_cons, List.length_nil]
    omega
  have bytes := load_eq kept (show 0 + size ≤ chunk.length by omega)
  rw [List.drop_zero] at bytes
  have bytes_length : (chunk.take size).length = size := by
    rw [List.length_take]
    omega
  have fits : s.length + (chunk.take size).length ≤ block.length := by omega
  have appended := storeAt_eq new fits
  have terminator : storeAt h.brk (s.length + size + 1) [0]
      (h'.set h.brk (store block s.length (chunk.take size))) = .error .overflow := by
    apply storeAt_overflow (if_pos rfl)
    rw [length_store fits, List.length_singleton]
    omega
  have dst_size : concatSize dst h = .ok (s.length, h) := by
    simp only [concatSize, raw, Bool.false_eq_true, if_false, value, bind_apply, deref_some,
      ok_bind, length]
  simp only [dynmcConcat, owner, if_true, dst_size, src_size, value, src_value, bind_apply,
    deref_some, ok_bind, pure_apply, moved, bytes, appended, terminator, error_bind]

theorem dynmcConcat_overflow {b : Addr} {s : Bytes} {dst : Property} (fresh : Nat → Byte)
    (old : h.cells b = some (s ++ [0])) (plain : 0 ∉ s) (value : dst.value = some b)
    (raw : dst.isRaw = false) (owner : dst.isOwner = true) (cell : h.cells a = some chunk)
    (differ : a ≠ b) (live : a < h.brk) :
    dynmcConcat fresh dst (.stackRaw a chunk.length) h = .error .overflow :=
  dynmcConcat_beyond fresh old plain value raw owner rfl rfl (Nat.mod_le _ _) cell differ live

end

end AcnSdk.Data

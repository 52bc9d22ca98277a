/-
The static pool allocator, `src/data/static_buf.c`.

A pool is a block of memory cut into sectors, and two bitmaps: `space` for the sectors that
are in use and `head` for the first sectors of blocks. A pointer is its distance from the
start of the block. With `strict`, looking at a bit outside the bitmaps is a fault; without
it, such a bit is clear.
-/

import AcnSdk.Lib.Bitmap
import AcnSdk.Lib.CString
import AcnSdk.Lib.Memory

namespace AcnSdk.Data

open AcnSdk.Lib Prog

/-- What the parameters of `CREATE_BUFFER` fix. The chunk is kept in 32 bits. -/
structure Geometry where
  size : Nat
  chunk : Nat
  chunk_pos : 0 < chunk
  chunk_lt : chunk < 2 ^ 32

namespace Geometry

variable (geo : Geometry)

/-- How many sectors there are. -/
def sectors : Nat := geo.size / geo.chunk

/-- `(int)_buf_size`: where the loops over all sectors end. -/
def bound : Nat := (toInt32 geo.sectors).toNat

end Geometry

/-- The arrays of a pool. -/
structure Pool where
  head : Bytes
  space : Bytes
  buffer : Bytes
deriving DecidableEq, Repr

/-- `CREATE_BUFFER`. -/
def createBuffer (geo : Geometry) : Pool where
  head := List.replicate (geo.sectors >>> 3) 0
  space := List.replicate (geo.sectors >>> 3) 0
  buffer := List.replicate geo.size 0

/-! ### Bits -/

section

variable (geo : Geometry) (strict : Bool)

/-- A bit of either bitmap is looked at. -/
def access (i : Nat) : Prog Pool Unit :=
  if strict ∧ ¬ (i < geo.sectors ∧ i >>> 3 < geo.sectors >>> 3) then throw .overflow else return ()

/-- `__is_in_use` on the heads. -/
def headInUse (i : Nat) : Prog Pool Bool := do
  access geo strict i
  return bitAt (← get).head i

/-- `__is_in_use` on the space. -/
def spaceInUse (i : Nat) : Prog Pool Bool := do
  access geo strict i
  return bitAt (← get).space i

/-- `__set_in_use` on the heads. -/
def setHead (i : Nat) : Prog Pool Unit := do
  access geo strict i
  modify fun pool => { pool with head := setBit pool.head i }

/-- `__set_in_use` on the space. -/
def setSpace (i : Nat) : Prog Pool Unit := do
  access geo strict i
  modify fun pool => { pool with space := setBit pool.space i }

/-- `__unset_in_use` on the heads. -/
def unsetHead (i : Nat) : Prog Pool Unit := do
  access geo strict i
  modify fun pool => { pool with head := clearBit pool.head i }

/-- `__unset_in_use` on the space. -/
def unsetSpace (i : Nat) : Prog Pool Unit := do
  access geo strict i
  modify fun pool => { pool with space := clearBit pool.space i }

/-! ### The operations -/

/-- How many sectors a block of that size takes. -/
def Geometry.need (size : Nat) : Nat := size / geo.chunk + if size % geo.chunk ≠ 0 then 1 else 0

/-- The loop of `__static_alloc` that looks for `r` free sectors in a row, with how many sectors
there are left to look at. -/
def findSectors (r : Nat) : Nat → Nat → Nat → Prog Pool (Option Nat)
  | 0, _, _ => return none
  | left + 1, i, t => do
      if ← spaceInUse geo strict i then findSectors r left (i + 1) 0
      else if t + 1 = r then return some i
      else findSectors r left (i + 1) (t + 1)

/-- The loop of `__static_alloc` that marks the sectors. -/
def markSectors : Nat → Nat → Prog Pool Unit
  | 0, _ => return ()
  | left + 1, i => do
      setSpace geo strict i
      markSectors left (i + 1)

/-- `__static_alloc`. -/
def staticAlloc (size : Int) : Prog Pool (Option Nat) :=
  if size ≤ 0 then return none
  else do
    let r := geo.need size.toNat
    match ← findSectors geo strict r geo.bound 0 0 with
    | none => return none
    | some sector =>
        setHead geo strict (sector + 1 - r)
        markSectors geo strict r (sector + 1 - r)
        return some (geo.chunk * (sector + 1 - r))

/-- The loop of `__find_max_alloc`. -/
def countFree : Nat → Nat → Nat → Prog Pool Nat
  | 0, _, sector => return sector
  | left + 1, i, sector => do
      if ← spaceInUse geo strict i then countFree left (i + 1) sector
      else countFree left (i + 1) (sector + 1)

/-- `__find_max_alloc`. -/
def findMaxAlloc : Prog Pool Int := do
  let sector ← countFree geo strict geo.bound 0 0
  return toInt32 (sector * geo.chunk : Nat)

/-- The loop of `__static_free`. A block ends before the end of the bitmaps. -/
def freeSectors : Nat → Nat → Prog Pool Unit
  | 0, _ => throw .endless
  | fuel + 1, i => do
      if ← headInUse geo strict i then return ()
      else if ← spaceInUse geo strict i then
        unsetSpace geo strict i
        freeSectors fuel (i + 1)
      else return ()

/-- More steps than a walk over the bits of a block can take. -/
def Pool.steps (pool : Pool) : Nat := 8 * pool.space.length + 1

/-- `__static_free`. -/
def staticFree (ptr : Int) : Prog Pool Unit :=
  let shift := toInt32 ptr
  if shift < 0 then return ()
  else do
    let shift := shift.toNat / geo.chunk
    if ← headInUse geo strict shift then
      unsetHead geo strict shift
      freeSectors geo strict (← get).steps shift
    else return ()

/-- Whether another block starts at `i`; at the block's own first sector this is not asked. -/
def nextHead (shift i : Nat) : Prog Pool Bool :=
  if i = shift then return false else headInUse geo strict i

/-- The loop of `__static_buf_size`. -/
def countSectors (shift : Nat) : Nat → Nat → Nat → Prog Pool Nat
  | 0, _, _ => throw .endless
  | fuel + 1, i, size => do
      if ← nextHead geo strict shift i then return size
      else if ← spaceInUse geo strict i then countSectors shift fuel (i + 1) ((size + 1) % 2 ^ 16)
      else return size

/-- `__static_buf_size`, in sectors. -/
def staticBufSize (ptr : Int) : Prog Pool Nat :=
  let shift := toInt32 ptr
  if shift < 0 then return 0
  else do
    let shift := shift.toNat / geo.chunk
    if ← headInUse geo strict shift then countSectors geo strict shift (← get).steps shift 0
    else return 0

/-- The bytes that `__static_realloc` copies. -/
def reallocSize (ptr size : Int) : Prog Pool Nat := do
  if size < toInt32 geo.chunk * (← staticBufSize geo strict ptr) then return (size % 2 ^ 32).toNat
  else return (toInt32 geo.chunk * (← staticBufSize geo strict ptr) % 2 ^ 32).toNat

/-- `__static_realloc`. -/
def staticRealloc (ptr size : Int) : Prog Pool (Option Nat) := do
  match ← staticAlloc geo strict size with
  | none => return none
  | some p =>
      let s ← reallocSize geo strict ptr size
      modify fun pool =>
        { pool with buffer := store pool.buffer p ((pool.buffer.drop ptr.toNat).take s) }
      staticFree geo strict ptr
      return some p

end

end AcnSdk.Data

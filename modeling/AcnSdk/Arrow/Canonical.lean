/-
The canonical form of the parameters of a signed event, `src/arrow/gateway_payload_sign.c`.

There are two builds. With static memory all lines stand in one buffer of 3000 bytes and are
sorted there: bubble sort exchanges neighbouring lines in place. With dynamic memory
each line has a block of its own, `qsort` sorts the pointers, and the lines are put together
afterwards. What `printf` makes of a member that is neither a string nor a boolean is a
parameter, and so are `qsort` and what is in a fresh block.
-/

import AcnSdk.Json.Node
import AcnSdk.Lib.CBuffer
import AcnSdk.Lib.CString
import AcnSdk.Lib.Memory

namespace AcnSdk.Arrow

open AcnSdk.Lib AcnSdk.Json Ascii Prog

/-- `=` -/
abbrev equals : Byte := 0x3D

/-- `MAX_PARAM_LINE`. -/
def maxParamLine : Nat := 20

/-- The size of `static_canonical_prm`. -/
def canonicalSize : Nat := 3000

variable {ν : Type} (printNumber : JsonNode ν → Bytes)

/-- What is printed for a member. -/
def memberText : JsonNode ν → Bytes
  | .scalar _ (.string s) => s
  | .scalar _ (.bool true) => [0x74, 0x72, 0x75, 0x65]
  | .scalar _ (.bool false) => [0x66, 0x61, 0x6C, 0x73, 0x65]
  | child => printNumber child

/-- `json_key` in lower case. -/
def lowerKey (child : JsonNode ν) : Bytes := (child.key.getD []).map tolower

/-- Reading `json_key`, which is NULL for an element of an array. -/
def readKey (child : JsonNode ν) : Except Fault Bytes :=
  if child.key.isSome then .ok (lowerKey child) else .error .nullPointer

/-! ### Static memory -/

/-- A character of the buffer. -/
def charAt (i : Nat) : Prog Bytes Byte := do
  match (← get)[i]? with
  | none => throw .overflow
  | some c => return c

/-- Writing to the buffer. -/
def putText (i : Nat) (s : Bytes) : Prog Bytes Unit := do
  set (← lift (copyTo (← get) i s))

/-- `str_t`, with the distance from the start of the buffer. -/
structure Str where
  start : Nat
  len : Nat
deriving DecidableEq, Repr

/-- A `char` as a number. Whether it is signed depends on the machine. -/
def charValue (signed : Bool) (c : Byte) : Int :=
  if signed ∧ 128 ≤ c.toNat then c.toNat - 256 else c.toNat

/-- The loop of `less`, with how many characters are left. -/
def lessLoop (signed : Bool) (s1 s2 : Str) : Nat → Nat → Prog Bytes Int
  | 0, _ => return 0
  | left + 1, i => do
      let c ← charAt (s1.start + i)
      let d ← charAt (s2.start + i)
      if c = d then lessLoop signed s1 s2 left (i + 1)
      else if charValue signed c < charValue signed d then return 1
      else return -1

/-- `less`. -/
def less (signed : Bool) (s1 s2 : Str) : Prog Bytes Int :=
  lessLoop signed s1 s2 (min s1.len s2.len) 0

/-- The inner loop of `swap`: the items of one cycle go on by one place. The result is the count
of all items so far. -/
def swapCycle (s1 s2 : Str) (startPos : Nat) : Nat → Nat → Byte → Nat → Prog Bytes Nat
  | 0, _, _, _ => throw .endless
  | fuel + 1, currentPos, saved, i => do
      let nextPos := if currentPos < s1.len then s2.len + currentPos else currentPos - s1.len
      let t ← charAt (s1.start + nextPos)
      putText (s1.start + nextPos) [saved]
      if startPos ≠ nextPos then swapCycle s1 s2 startPos fuel nextPos t (i + 1) else return i + 1

/-- The outer loop of `swap`. -/
def swapLoop (s1 s2 : Str) : Nat → Nat → Nat → Prog Bytes Unit
  | 0, _, _ => throw .endless
  | fuel + 1, startPos, i =>
      if i < s1.len + s2.len then do
        let saved ← charAt (s1.start + startPos)
        let i ← swapCycle s1 s2 startPos (s1.len + s2.len) startPos saved i
        swapLoop s1 s2 fuel (startPos + 1) i
      else return ()

/-- `swap`. -/
def swap (s1 s2 : Str) : Prog Bytes (Str × Str) := do
  swapLoop s1 s2 (s1.len + s2.len + 1) 0 0
  return (⟨s1.start, s2.len⟩, ⟨s1.start + s2.len, s1.len⟩)

/-- The inner loop of `bubble`. -/
def bubblePass (signed : Bool) : Str → List Str → Prog Bytes (List Str × Bool)
  | s, [] => return ([s], false)
  | s1, s2 :: rest => do
      let order ← less signed s1 s2
      if order = -1 then do
        let (s1, s2) ← swap s1 s2
        let (list, _) ← bubblePass signed s2 rest
        return (s1 :: list, true)
      else do
        let (list, doSort) ← bubblePass signed s2 rest
        return (s1 :: list, doSort)

/-- The outer loop of `bubble`. -/
def bubbleLoop (signed : Bool) : Nat → List Str → Prog Bytes (List Str)
  | 0, _ => throw .endless
  | _ + 1, [] => return []
  | fuel + 1, s :: list => do
      let (list, doSort) ← bubblePass signed s list
      if doSort then bubbleLoop signed fuel list else return list

/-- `bubble`. -/
def bubble (signed : Bool) (list : List Str) : Prog Bytes (List Str) :=
  bubbleLoop signed (list.length * list.length + 1) list

/-- `snprintf` of a text that is printed whole. -/
def snprintf (i size : Nat) (s : Bytes) : Prog Bytes Nat := do
  if size ≠ 0 then putText i (s.take (size - 1) ++ [0])
  return s.length

/-- The size that `snprintf` is told. -/
def printSize (total : Nat) (child : JsonNode ν) : Nat :=
  match child.tag with
  | .string | .bool => canonicalSize - total
  | _ => 16

/-- One line, at the end of those that are there. -/
def addLine (total : Nat) (child : JsonNode ν) : Prog Bytes Str := do
  let key ← lift (readKey child)
  let keyLen := key.length
  putText total key
  putText (total + keyLen) [equals]
  let r ← snprintf (total + (keyLen + 1)) (printSize total child) (memberText printNumber child)
  putText (total + (keyLen + 1 + r)) [lf]
  return ⟨total, keyLen + 1 + r + 1⟩

/-- All lines. -/
def addLines : List (JsonNode ν) → Nat → Nat → Prog Bytes (List Str)
  | [], _, _ => return []
  | child :: rest, total, count =>
      if count < maxParamLine then do
        let s ← addLine printNumber total child
        let list ← addLines rest (total + s.len) (count + 1)
        return s :: list
      else throw .overflow

/-- A terminator after the last line, or in place of its last character. -/
def terminate (list : List Str) (back : Nat) : Prog Bytes Unit :=
  match list.getLast? with
  | none => throw .overflow
  | some s => putText (s.start + s.len - back) [0]

/-- `form_canonical_prm` with static memory. -/
def formCanonicalPrmStatic (signed : Bool) (param : JsonNode ν) : Prog Bytes Bytes := do
  let list ← addLines printNumber param.jsonFirstChild 0 0
  terminate list 0
  let list ← bubble signed list
  terminate list 1
  return cstr (← get)

/-! ### Dynamic memory -/

variable (fresh : Nat → Byte)

/-- `malloc`. -/
def mallocBlock (n : Nat) : Bytes := (List.range n).map fresh

/-- The size of a line's block. -/
def allocLen (child : JsonNode ν) : Nat :=
  (match child with
    | .scalar _ (.string s) => s.length
    | _ => 50) + (lowerKey child).length + 10

/-- What is put behind the equals sign. -/
def putMember (block : Bytes) (i : Nat) (child : JsonNode ν) : Except Fault Bytes :=
  match child.tag with
  | .string | .bool => copyTo block i (memberText printNumber child ++ [0])
  | _ => do
      let block ← copyTo block i ((memberText printNumber child).take 49 ++ [0])
      copyTo block (i + (memberText printNumber child).length) [0]

/-- One line, as the string in its block. -/
def formLine (child : JsonNode ν) : Except Fault Bytes := do
  let key ← readKey child
  let block ← copyTo (mallocBlock fresh (allocLen child)) 0 key
  let block ← copyTo block key.length [equals]
  let block ← putMember printNumber block (key.length + 1) child
  return cstr block

/-- All lines. -/
def formLines : List (JsonNode ν) → Nat → Except Fault (List Bytes)
  | [], _ => return []
  | child :: rest, count =>
      if count < maxParamLine then do
        let s ← formLine printNumber fresh child
        let list ← formLines rest (count + 1)
        return s :: list
      else throw .overflow

/-- The lines are put together. -/
def joinLines : List Bytes → Bytes → Except Fault Bytes
  | [], block => return block
  | [s], block => strcat block s
  | s :: rest, block => do
      let block ← strcat block s
      let block ← strcat block [lf]
      joinLines rest block

/-- `form_canonical_prm` with dynamic memory. -/
def formCanonicalPrm (qsort : (Bytes → Bytes → Int) → List Bytes → List Bytes)
    (param : JsonNode ν) :
    Except Fault Bytes := do
  let list ← formLines printNumber fresh param.jsonFirstChild 0
  let block ← copyTo (mallocBlock fresh (param.jsonFirstChild.map allocLen).sum) 0 [0]
  let block ← joinLines (qsort strcmp list) block
  return cstr block

end AcnSdk.Arrow

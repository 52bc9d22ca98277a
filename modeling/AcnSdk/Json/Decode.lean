/-
The streaming decoder of `src/json/decode.c`.

The parse machines are records on a heap, linked to the machine of their children
through `node.next` and to their parent through `p`, as in the source; the machine
that the caller owns is the record at its own address. The tree a machine is
building belongs to that machine alone until it is appended to its parent, so a
`JsonNode *` is the tree itself, with the `parent` member of its root node that
the assertions of `json_append_*` look at; one that fails is a fault. Allocation
succeeds.

The assertion of `sb_finish`, that its text is a C string, is left out: a build without
assertions goes on, and the bytes after a NUL in a buffer are lost where it is handed on.
The standard build, with `__USE_STD__` and without `NDEBUG`, stops there; `run_plain` says
that it never does for a document without a NUL.
-/

import AcnSdk.Data.LinkedList
import AcnSdk.Json.Lexical

namespace AcnSdk.Json

open AcnSdk.Lib AcnSdk.Data Ascii Heap

/-! ### Machines -/

/-- The functions that `process_byte` can point to. -/
inductive JpmFn where
  | valueInit | valueEnd
  | stringBody | stringEscape | numberBody
  | boolFalseA | boolFalseL | boolFalseS | boolFalseE
  | boolTrueR | boolTrueU | boolTrueE
  | keyInit | keyBody | keyEnd
deriving DecidableEq, Repr

/-- A tree and whether its root node has a parent. -/
structure Root (ν : Type) where
  node : JsonNode ν
  hasParent : Bool

/-- A tree just made by one of the `json_mk*` functions. -/
def mk {ν : Type} (node : JsonNode ν) : Root ν := ⟨node, false⟩

/-- `json_parse_machine_t`. The buffer is `none` while its string builder is
cleared. -/
structure Jpm (ν : Type) where
  p : Option Addr
  complete : Bool
  processByte : Option JpmFn
  buffer : Option Bytes
  key : Option Bytes
  root : Option (Root ν)
  next : Option Addr

/-- The list node of a machine. -/
def jpmLink (ν : Type) : Link (Jpm ν) where
  next := Jpm.next
  setNext p m := { m with next := p }
  next_setNext _ _ := rfl

/-- `json_parse_machine_init`. -/
def jsonParseMachineInit {ν : Type} : Jpm ν :=
  { p := none, complete := false, processByte := some .valueInit, buffer := none, key := none,
    root := none, next := none }

/-- `json_parse_machine_fin`. The link to the next machine stays. -/
def jsonParseMachineFin {ν : Type} (jpm : Jpm ν) : Jpm ν :=
  { jpm with buffer := none, key := none, processByte := none, p := none, root := none }

variable {ν : Type}

/-- A program over the machines. -/
abbrev JpmM (ν : Type) := HeapM (Jpm ν)

/-- `sb_putc`. On a cleared builder `sb_grow` doubles a capacity of zero for ever. -/
def sbPutc (buffer : Option Bytes) (c : Byte) : JpmM ν (Option Bytes) :=
  match buffer with
  | some s => return some (s ++ [c])
  | none => throw .endless

/-! ### Values -/

/-- The `jpm_bool_*` functions that wait for the character `sym` inside a literal. -/
def jpmBoolStateChar (sym : Byte) (next : JpmFn) (jpm : Addr) (byte : Byte) : JpmM ν Int := do
  if byte = sym then
    update jpm fun m => { m with processByte := some next }
    return 0
  else return -1

/-- `jpm_bool_false_e` and `jpm_bool_true_e`. -/
def jpmBoolE (b : Bool) (jpm : Addr) (byte : Byte) : JpmM ν Int := do
  if byte = 0x65 then
    update jpm fun m =>
      { m with root := some (mk (.scalar none (.bool b))), processByte := some .valueEnd }
    return 0
  else return -1

/-- The character that `jpm_string_escape` stores. -/
def escapeByte (byte : Byte) : Byte :=
  if byte = 0x6E then lf else if byte = 0x74 then tab else byte

theorem escapeByte_ne_zero {e : Byte} (h : e ≠ 0) : escapeByte e ≠ 0 := by
  unfold escapeByte
  split_ifs
  · decide
  · decide
  · exact h

/-- `jpm_string_escape`. -/
def jpmStringEscape (jpm : Addr) (byte : Byte) : JpmM ν Int := do
  let m ← read jpm
  let buffer ← sbPutc m.buffer (escapeByte byte)
  write jpm { m with buffer := buffer, processByte := some .stringBody }
  return 0

/-- `jpm_string_body`. -/
def jpmStringBody (jpm : Addr) (byte : Byte) : JpmM ν Int := do
  let m ← read jpm
  if byte = bslash then
    write jpm { m with processByte := some .stringEscape }
    return 0
  else if byte = dquote then
    match m.buffer with
    | none => return -1
    | some str =>
        write jpm { m with
          root := some (mk (.scalar none (.string (cstr str)))), processByte := some .valueEnd,
          buffer := none }
        return 0
  else
    let buffer ← sbPutc m.buffer byte
    write jpm { m with buffer := buffer }
    return 0

/-- `is_array_context`: the tag of the root of the parent machine. -/
def isArrayContext (jpm : Addr) : JpmM ν Bool := do
  let m ← read jpm
  let p ← deref m.p
  let mp ← read p
  let root ← deref mp.root
  return root.node.tag == .array

/-- `json_append_element(p->root, jpm->root)`. -/
def jsonAppendElement (p jpm : Addr) : JpmM ν Unit := do
  let array ← deref (← read p).root
  let element ← deref (← read jpm).root
  check (array.node.tag == .array)
  check (!element.hasParent)
  update jpm fun m => { m with root := some { element with hasParent := true } }
  update p fun m =>
    { m with root := some { array with node := array.node.appendNode element.node } }

/-- `json_append_member(p->root, key, jpm->root)`. -/
def jsonAppendMember (p : Addr) (key : Option Bytes) (jpm : Addr) : JpmM ν Unit := do
  let object ← deref (← read p).root
  let value ← deref (← read jpm).root
  check (object.node.tag == .object)
  check (!value.hasParent)
  let member := value.node.withKey key
  update jpm fun m => { m with root := some ⟨member, true⟩ }
  update p fun m => { m with root := some { object with node := object.node.appendNode member } }

/-- `jpm_append_to_parent`. -/
def jpmAppendToParent (jpm : Addr) : JpmM ν Int := do
  let m ← read jpm
  match m.p with
  | some p =>
      if ← isArrayContext jpm then jsonAppendElement p jpm
      else jsonAppendMember p m.key jpm
      return 0
  | none => return -1

/-- `jpm_value_end`. -/
def jpmValueEnd (jpm : Addr) (byte : Byte) : JpmM ν Int := do
  if isSpace byte then return 0
  else if byte = rbrace then
    update jpm fun m => { m with complete := true }
    if (← jpmAppendToParent jpm) < 0 then return -1
    update jpm fun m => { m with key := none, buffer := none, root := none }
    return 0
  else if byte = rbrack then
    update jpm fun m => { m with complete := true }
    if (← jpmAppendToParent jpm) < 0 then return -1
    update jpm fun m => { m with root := none, key := none, buffer := none, processByte := none }
    return 0
  else if byte = comma then
    if (← jpmAppendToParent jpm) < 0 then return -1
    update jpm fun m => { jsonParseMachineInit with p := m.p }
    if ← isArrayContext jpm then
      update jpm fun m => { m with processByte := some .valueInit }
    else
      update jpm fun m => { m with processByte := some .keyInit }
    return 0
  else return -1

variable (libc : Libc ν)

/-- `jpm_number_body`. -/
def jpmNumberBody (jpm : Addr) (byte : Byte) : JpmM ν Int := do
  let m ← read jpm
  if isDigit byte || byte == dot then
    let buffer ← sbPutc m.buffer byte
    write jpm { m with buffer := buffer }
    return 0
  else
    match m.buffer with
    | none => return -1
    | some str =>
        write jpm { m with
          root := some (mk (.scalar none (.number (libc.strtod (cstr str))))),
          processByte := some .valueEnd, buffer := none }
        jpmValueEnd jpm byte

/-- The `'{'` and `'['` cases of `jpm_value_init`: a machine for the children,
which starts with `fn`, and an empty container for this one. -/
def jpmOpen (kind : Container) (fn : JpmFn) (jpm : Addr) : JpmM ν Int := do
  let nvalue ← alloc jsonParseMachineInit
  let _ ← arrowLinkedListAdd (jpmLink ν) (some jpm) nvalue
  update nvalue fun m => { m with processByte := some fn }
  update jpm fun m => { m with root := some (mk (.container none kind [])) }
  update nvalue fun m => { m with p := some jpm }
  update jpm fun m => { m with processByte := some .valueEnd }
  return 0

/-- `jpm_value_init`. -/
def jpmValueInit (jpm : Addr) (byte : Byte) : JpmM ν Int := do
  if isSpace byte then return 0
  else if byte = lbrace then jpmOpen .object .keyInit jpm
  else if byte = dquote then
    update jpm fun m => { m with buffer := some [], processByte := some .stringBody }
    return 0
  else if byte = 0x66 then
    update jpm fun m => { m with processByte := some .boolFalseA }
    return 0
  else if byte = 0x74 then
    update jpm fun m => { m with processByte := some .boolTrueR }
    return 0
  else if byte = lbrack then jpmOpen .array .valueInit jpm
  else
    update jpm fun m => { m with buffer := some [], processByte := some .numberBody }
    jpmNumberBody libc jpm byte

/-! ### Keys -/

/-- `jpm_key_init`. -/
def jpmKeyInit (jpm : Addr) (byte : Byte) : JpmM ν Int := do
  if isSpace byte then return 0
  else if byte = dquote then
    update jpm fun m => { m with buffer := some [], processByte := some .keyBody }
    return 0
  else return -1

/-- `jpm_key_end`. -/
def jpmKeyEnd (jpm : Addr) (byte : Byte) : JpmM ν Int := do
  if isSpace byte then return 0
  else if byte = colon then
    update jpm fun m => { m with processByte := some .valueInit }
    return 0
  else return -1

/-- `jpm_key_body`. A backslash is a character like any other. -/
def jpmKeyBody (jpm : Addr) (byte : Byte) : JpmM ν Int := do
  let m ← read jpm
  if byte = dquote then
    match m.buffer with
    | none => return -1
    | some str =>
        write jpm { m with key := some (cstr str), buffer := none, processByte := some .keyEnd }
        return 0
  else
    let buffer ← sbPutc m.buffer byte
    write jpm { m with buffer := buffer }
    return 0

/-! ### Processing bytes -/

/-- `jpm->process_byte(jpm, byte)`. -/
def callProcessByte (fn : JpmFn) (jpm : Addr) (byte : Byte) : JpmM ν Int :=
  match fn with
  | .valueInit => jpmValueInit libc jpm byte
  | .valueEnd => jpmValueEnd jpm byte
  | .stringBody => jpmStringBody jpm byte
  | .stringEscape => jpmStringEscape jpm byte
  | .numberBody => jpmNumberBody libc jpm byte
  | .boolFalseA => jpmBoolStateChar 0x61 .boolFalseL jpm byte
  | .boolFalseL => jpmBoolStateChar 0x6C .boolFalseS jpm byte
  | .boolFalseS => jpmBoolStateChar 0x73 .boolFalseE jpm byte
  | .boolFalseE => jpmBoolE false jpm byte
  | .boolTrueR => jpmBoolStateChar 0x72 .boolTrueU jpm byte
  | .boolTrueU => jpmBoolStateChar 0x75 .boolTrueE jpm byte
  | .boolTrueE => jpmBoolE true jpm byte
  | .keyInit => jpmKeyInit jpm byte
  | .keyBody => jpmKeyBody jpm byte
  | .keyEnd => jpmKeyEnd jpm byte

/-- `json_parse_machine_process`, over a chain of at most as many machines as there
is fuel. -/
def jsonParseMachineProcessFrom : Nat → Addr → Byte → JpmM ν Int
  | 0, _, _ => throw .endless
  | fuel + 1, jpm, byte => do
      let m ← read jpm
      match m.next with
      | some next =>
          let n ← read next
          if n.complete then
            let jpm ← deref (← arrowLinkedListDel (jpmLink ν) jpm next)
            update next jsonParseMachineFin
            free next
            jsonParseMachineProcessFrom fuel jpm byte
          else jsonParseMachineProcessFrom fuel next byte
      | none =>
          match m.processByte with
          | some fn => callProcessByte libc fn jpm byte
          | none => return -1

/-- `json_parse_machine_process`. -/
def jsonParseMachineProcess (jpm : Addr) (byte : Byte) : JpmM ν Int := do
  jsonParseMachineProcessFrom libc (← bound) jpm byte

/-- `json_decode_init` on the record at `sm`. -/
def jsonDecodeInit (sm : Addr) : JpmM ν Int := do
  write sm jsonParseMachineInit
  return 0

/-- The loop of `json_decode_part`: whether every byte was accepted. -/
def jsonDecodeBytes (sm : Addr) : Bytes → JpmM ν Bool
  | [] => return true
  | byte :: rest => do
      if (← jsonParseMachineProcess libc sm byte) < 0 then return false
      else jsonDecodeBytes sm rest

/-- `json_decode_part`. -/
def jsonDecodePart (sm : Addr) (json : Bytes) : JpmM ν Int := do
  if ← jsonDecodeBytes libc sm json then return json.length else return -1

/-- The loop of `json_decode_finish` that releases the machines from `next` on. -/
def jsonDecodeRelease : Nat → Option Addr → JpmM ν Unit
  | 0, _ => throw .endless
  | _ + 1, none => return ()
  | fuel + 1, some tmp => do
      let m ← read tmp
      update tmp jsonParseMachineFin
      free tmp
      jsonDecodeRelease fuel m.next

/-- `json_decode_finish`. -/
def jsonDecodeFinish (sm : Addr) : JpmM ν (Option (JsonNode ν)) := do
  let m ← read sm
  jsonDecodeRelease (← bound) m.next
  update sm jsonParseMachineFin
  return m.root.map Root.node

end AcnSdk.Json

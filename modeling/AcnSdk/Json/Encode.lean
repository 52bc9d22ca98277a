/-
The streaming encoder of `src/json/encode.c`.

A `json_encode_machine_t` encodes one node and its followers; the machine of a
container links to the machine of its children through `node.next`, so the
machines form a chain, here the list of the machines below the one at hand. A
call writes at most `len` bytes at `s` and returns how many: a result carries
the returned count and the bytes stored from `s` on. `jem->start` is a
`uint16_t`. Allocation succeeds.

The functions call each other through the `while` loop of `jem_encode_obj`,
which has no bound of its own, so they take fuel and give `none` when it runs
out; `encodePart` is a call of the interface that comes back.
-/

import AcnSdk.Json.Lexical
import AcnSdk.Lib.Fuel
import AcnSdk.Lib.Producer

namespace AcnSdk.Json

open AcnSdk.Lib Ascii

/-! ### Sizes -/

/-- `is_escape`. -/
def isEscape (c : Byte) : Bool := c == dquote

/-- `encoded_strlen`. -/
def encodedStrlen (str : Bytes) : Nat :=
  str.foldl (fun total c => (if isEscape c then total + 1 else total) + 1) 2

/-- `uint16_t` arithmetic. -/
def u16 (n : Nat) : Nat := n % 0x10000

/-- `property_size` of a key: keys are made by `p_const`, `p_heap`, `p_stack` or
`p_json`, whose 16-bit `size` is the `strlen` of the value. -/
def propertySize (key : Bytes) : Nat := if u16 key.length ≠ 0 then u16 key.length else key.length

/-- What `json_size` counts for a key: its two quotes and the colon. -/
def keySize : Option Bytes → Nat
  | some key => propertySize key + 3
  | none => 0

mutual

/-- `json_size`. The `JSON_NULL` case has no handler. -/
def jsonSize {ν : Type} (libc : Libc ν) : JsonNode ν → Nat
  | .scalar key value =>
      keySize key + match value with
      | .null => 0
      | .string s => encodedStrlen s
      | .number n => (emitNumber libc n).length
      | .bool b => if b then 4 else 5
  | .container key _ children =>
      keySize key + (jsonSizeList libc children + 2)

/-- The loop of `json_size` over the children: a comma after all but the last. -/
def jsonSizeList {ν : Type} (libc : Libc ν) : List (JsonNode ν) → Nat
  | [] => 0
  | c :: cs => jsonSize libc c + (if cs.isEmpty then 0 else 1) + jsonSizeList libc cs

end

/-! ### Machines -/

/-- `enum json_encode_states`. -/
inductive JemState where
  | init | key | delim | value
deriving DecidableEq, Repr

/-- `json_encode_machine_t`. `buffer` is `none` while the string builder is
cleared; `ptr` is the node to encode and its following siblings. -/
structure JsonEncodeMachine (ν : Type) where
  state : JemState
  start : Nat
  complete : Bool
  buffer : Option Bytes
  ptr : List (JsonNode ν)

/-- `json_encode_machine_init`; it also clears the link to the machines below. -/
def jsonEncodeMachineInit {ν : Type} : JsonEncodeMachine ν :=
  { state := .init, start := 0, complete := false, buffer := none, ptr := [] }

/-- A machine just initialised and pointed at the sibling list `ptr`. -/
def jemAt {ν : Type} (ptr : List (JsonNode ν)) : JsonEncodeMachine ν :=
  let jem : JsonEncodeMachine ν := jsonEncodeMachineInit
  { jem with ptr := ptr }

/-- `jem_change_state`. -/
def jemChangeState {ν : Type} (jem : JsonEncodeMachine ν) (newstate : JemState) :
    JsonEncodeMachine ν :=
  { jem with state := newstate, complete := false, start := 0 }

/-! ### String literals -/

/-- The `while` loop of `jem_encode_string`, from `s[index]` on. The first
`threash` characters of the encoded body were stored by earlier calls, so the
loop first skips them; a skip that ends inside an escape pair stores its second
half. `limit` is `encoded_strlen(s) - 1`, which is reached before the text is
used up. The result is the buffer, the offset and the room left. -/
def jemStringLoop (limit threash : Nat) :
    Bytes → Nat → Bytes → Nat → Nat → Bytes × Nat × Nat
  | [], _, buf, offset, len => (buf, offset, len)
  | c :: s, skip, buf, offset, len =>
      if len = 0 ∨ limit ≤ offset then (buf, offset, len)
      else if skip < threash then
        if isEscape c then
          if skip + 1 = threash then
            if len - 1 = 0 then (buf ++ [c], offset + 1, len - 1)
            else jemStringLoop limit threash s (skip + 2) (buf ++ [c]) (offset + 1) (len - 1)
          else jemStringLoop limit threash s (skip + 2) buf offset len
        else jemStringLoop limit threash s (skip + 1) buf offset len
      else if isEscape c then
        if len - 1 = 0 then (buf ++ [bslash], offset + 1, len - 1)
        else
          jemStringLoop limit threash s skip (buf ++ [bslash] ++ [c]) (offset + 2) (len - 1 - 1)
      else jemStringLoop limit threash s skip (buf ++ [c]) (offset + 1) (len - 1)

/-- `jem_encode_string`: the bytes it stores; their number is its result. -/
def jemEncodeString (start end_ : Byte) (s : Bytes) (offset len : Nat) : Bytes :=
  let limit := encodedStrlen s - 1
  let opened : Bytes × Nat × Nat :=
    if offset = 0 ∧ len ≠ 0 then ([start], offset + 1, len - 1) else ([], offset, len)
  let body : Bytes × Nat × Nat :=
    if 1 ≤ opened.2.1 ∧ opened.2.1 < limit ∧ opened.2.2 ≠ 0 then
      jemStringLoop limit (opened.2.1 - 1) s 0 opened.1 opened.2.1 opened.2.2
    else opened
  if limit ≤ body.2.1 ∧ body.2.2 ≠ 0 then body.1 ++ [end_] else body.1

variable {ν : Type} (libc : Libc ν)

/-- `jem_encode_value_string`, for the string `s` of the node at `jem->ptr`. -/
def jemEncodeValueString (s : Bytes) (jem : JsonEncodeMachine ν) (len : Nat) :
    JsonEncodeMachine ν × Bytes :=
  let out := jemEncodeString dquote dquote s jem.start len
  let start := u16 (jem.start + out.length)
  ({ jem with start := start, complete := jem.complete || start == encodedStrlen s }, out)

/-- The copy out of a literal text that `jem_encode_bool` and `jem_encode_number`
share. A text that exactly fills the buffer completes on the next call only. -/
def jemEncodeText (text : Bytes) (jem : JsonEncodeMachine ν) (len : Nat) :
    JsonEncodeMachine ν × Bytes :=
  let rest := text.drop jem.start
  if rest.length < len then ({ jem with complete := true }, rest)
  else ({ jem with start := u16 (jem.start + len) }, rest.take len)

/-- `jem_encode_bool`. -/
def jemEncodeBool (b : Bool) (jem : JsonEncodeMachine ν) (len : Nat) :
    JsonEncodeMachine ν × Bytes :=
  jemEncodeText (boolText b) jem len

/-- `jem_encode_number`: the text is formatted on the first call. -/
def jemEncodeNumber (n : ν) (jem : JsonEncodeMachine ν) (len : Nat) :
    JsonEncodeMachine ν × Bytes :=
  let text := jem.buffer.getD (emitNumber libc n)
  jemEncodeText text { jem with buffer := some text } len

/-- `jem_encode_key`. The caller adds to `jem->start`. -/
def jemEncodeKey (key : Bytes) (jem : JsonEncodeMachine ν) (len : Nat) :
    JsonEncodeMachine ν × Bytes :=
  let out := jemEncodeString dquote dquote key jem.start len
  ({ jem with complete := jem.complete || jem.start + out.length == encodedStrlen key }, out)

/-! ### Values and objects -/

/-- What a call leaves behind: the machine, the chain below it, the returned
count and the bytes stored from `s` on. -/
structure JemResult (ν : Type) where
  jem : JsonEncodeMachine ν
  chain : List (JsonEncodeMachine ν)
  ret : Int
  buf : Bytes

/-- `return total`, where the bytes stored so far are counted. -/
def jemReturn (jem : JsonEncodeMachine ν) (chain : List (JsonEncodeMachine ν)) (buf : Bytes) :
    JemResult ν :=
  ⟨jem, chain, buf.length, buf⟩

/-- `return -1` -/
def jemFail (jem : JsonEncodeMachine ν) (chain : List (JsonEncodeMachine ν)) (buf : Bytes) :
    JemResult ν :=
  ⟨jem, chain, -1, buf⟩

/-- The `JSON_STRING`, `JSON_BOOL` and `JSON_NUMBER` cases: an incomplete literal
returns, a complete one leaves the machine in its last state. -/
def jemScalarDone (jem : JsonEncodeMachine ν) (chain : List (JsonEncodeMachine ν)) (buf : Bytes) :
    JemResult ν :=
  jemReturn (if jem.complete then { jem with state := .value } else jem) chain buf

/-- `case 2` and `case 3` of a container: the closing bracket, then completion.
`buf` is what this call stored before. -/
def jemClose (kind : Container) (jem : JsonEncodeMachine ν) (chain : List (JsonEncodeMachine ν))
    (len : Nat) (buf : Bytes) : JemResult ν :=
  let jem := { jem with start := u16 (jem.start + 1) }
  if len - 1 = 0 then jemReturn jem chain (buf ++ [closeBracket kind])
  else
    jemReturn { jem with complete := true, state := .value } chain (buf ++ [closeBracket kind])

mutual

/-- `jem_encode_value`. A machine without a node is not called. -/
def jemEncodeValue : Nat → JsonEncodeMachine ν → List (JsonEncodeMachine ν) → Nat →
    Option (JemResult ν)
  | 0, _, _, _ => none
  | fuel + 1, jem, chain, len =>
      match jem.ptr with
      | [] => none
      | node :: _ =>
          match jem.state with
          | .init =>
              match node.key with
              | some key =>
                  let r := jemEncodeKey key jem len
                  if r.1.complete then
                    let jem := jemChangeState r.1 .key
                    if len - r.2.length = 0 then some (jemReturn jem chain r.2)
                    else if len - r.2.length - 1 = 0 then
                      some (jemReturn (jemChangeState jem .delim) chain (r.2 ++ [colon]))
                    else
                      jemEncodeDelim fuel node (jemChangeState jem .delim) chain
                        (len - r.2.length - 1) (r.2 ++ [colon])
                  else
                    some (jemReturn { r.1 with start := u16 (r.1.start + r.2.length) } chain r.2)
              | none => jemEncodeDelim fuel node (jemChangeState jem .delim) chain len []
          | .key =>
              if len - 1 = 0 then some (jemReturn (jemChangeState jem .delim) chain [colon])
              else jemEncodeDelim fuel node (jemChangeState jem .delim) chain (len - 1) [colon]
          | .delim => jemEncodeDelim fuel node jem chain len []
          | .value => some (jemReturn jem chain [])

/-- `case jem_encode_state_delim`: the value itself. `len` is the room left and
`buf` what this call stored before. -/
def jemEncodeDelim : Nat → JsonNode ν → JsonEncodeMachine ν → List (JsonEncodeMachine ν) → Nat →
    Bytes → Option (JemResult ν)
  | 0, _, _, _, _, _ => none
  | fuel + 1, node, jem, chain, len, buf =>
      match node with
      | .scalar _ .null => some (jemFail jem chain buf)
      | .scalar _ (.string s) =>
          let r := jemEncodeValueString s jem len
          some (jemScalarDone r.1 chain (buf ++ r.2))
      | .scalar _ (.bool b) =>
          let r := jemEncodeBool b jem len
          some (jemScalarDone r.1 chain (buf ++ r.2))
      | .scalar _ (.number n) =>
          let r := jemEncodeNumber libc n jem len
          some (jemScalarDone r.1 chain (buf ++ r.2))
      | .container _ kind _ =>
          match jem.start with
          | 0 =>
              if len - 1 = 0 then
                some (jemReturn { jem with start := 1 } chain (buf ++ [openBracket kind]))
              else
                jemChildren fuel kind { jem with start := 1 } chain (len - 1)
                  (buf ++ [openBracket kind])
          | 1 => jemChildren fuel kind jem chain len buf
          | 2 => some (jemClose kind jem chain len buf)
          | 3 => some (jemReturn { jem with complete := true, state := .value } chain buf)
          | _ => some (jemReturn { jem with state := .value } chain buf)

/-- `case 1` of a container: its children, then on to the closing bracket. -/
def jemChildren : Nat → Container → JsonEncodeMachine ν → List (JsonEncodeMachine ν) → Nat →
    Bytes → Option (JemResult ν)
  | 0, _, _, _, _, _ => none
  | fuel + 1, kind, jem, chain, len, buf =>
      match jemEncodeObj fuel jem chain len with
      | none => none
      | some r =>
          if r.ret < 0 then some (jemFail r.jem r.chain buf)
          else if r.jem.complete then
            let jem := { r.jem with start := u16 (r.jem.start + 1), complete := false }
            if len - r.ret.toNat = 0 then some (jemReturn jem r.chain (buf ++ r.buf))
            else some (jemClose kind jem r.chain (len - r.ret.toNat) (buf ++ r.buf))
          else some (jemReturn r.jem r.chain (buf ++ r.buf))

/-- `jem_encode_obj`: find or make the machine of the children and run it. -/
def jemEncodeObj : Nat → JsonEncodeMachine ν → List (JsonEncodeMachine ν) → Nat →
    Option (JemResult ν)
  | 0, _, _, _ => none
  | fuel + 1, jem, chain, len =>
      if len = 0 then some (jemReturn jem chain [])
      else
        let next := chain.headD jsonEncodeMachineInit
        if next.ptr.isEmpty && !next.complete then
          let children := (jem.ptr.head?.map JsonNode.jsonFirstChild).getD []
          jemObjLoop fuel jem (jemAt children) [] len 0 []
        else jemObjLoop fuel jem next chain.tail len 0 []

/-- The `while` loop of `jem_encode_obj` over `next` and the machines `rest`
below it. The check after the call looks at the running count, not at the result
of the call, so a failed child lowers the count until it is negative. -/
def jemObjLoop : Nat → JsonEncodeMachine ν → JsonEncodeMachine ν → List (JsonEncodeMachine ν) →
    Nat → Int → Bytes → Option (JemResult ν)
  | 0, _, _, _, _, _, _ => none
  | fuel + 1, jem, next, rest, len, ret, buf =>
      match next.ptr with
      | [] =>
          if next.complete then
            some ⟨{ jem with complete := true }, (next :: rest).dropLast, ret, buf⟩
          else some ⟨jem, next :: rest, ret, buf⟩
      | _ :: siblings =>
          if next.complete = true ∧ len = 0 then some ⟨jem, next :: rest, ret, buf⟩
          else
            let comma? : Bytes := if next.complete then [comma] else []
            let next := { next with complete := false }
            let len := len - comma?.length
            let ret := ret + comma?.length
            let buf := buf ++ comma?
            if len = 0 then some ⟨jem, next :: rest, ret, buf⟩
            else
              match jemEncodeValue fuel next rest len with
              | none => none
              | some r =>
                  if ret < 0 then some ⟨jem, r.jem :: r.chain, -1, buf⟩
                  else if r.jem.complete then
                    jemObjLoop fuel jem { jemAt siblings with complete := true } []
                      (len - r.ret).toNat (ret + r.ret) (buf.take ret.toNat ++ r.buf)
                  else
                    jemObjLoop fuel jem r.jem r.chain
                      (len - r.ret).toNat (ret + r.ret) (buf.take ret.toNat ++ r.buf)

end

/-! ### The interface -/

/-- A machine and the chain below it. -/
abbrev JemChain (ν : Type) := JsonEncodeMachine ν × List (JsonEncodeMachine ν)

/-- `json_encode_init`. -/
def jsonEncodeInit (node : JsonNode ν) : JemChain ν :=
  (jemAt [node], [])

/-- `json_encode_part`, with fuel. -/
def jsonEncodePart (fuel : Nat) (jem : JemChain ν) (len : Nat) :
    Option (Produced (JemChain ν) Byte) :=
  (jemEncodeValue libc fuel jem.1 jem.2 len).map fun r =>
    ⟨(r.jem, r.chain), r.ret, r.buf.take r.ret.toNat⟩

/-- A call of `json_encode_part` that comes back. -/
def encodePart : Producer (JemChain ν) Byte :=
  fun jem len p => Computes (fun fuel => jsonEncodePart libc fuel jem len) p

theorem encodePart_deterministic : Producer.Deterministic (encodePart libc) :=
  fun _ _ _ _ => Computes.unique

end AcnSdk.Json

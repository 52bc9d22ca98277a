/-
The recursive emitters of `src/json/json.c`: `emit_value`, `emit_array`, `emit_object` and
`json_encode`, and those that indent, for `json_stringify`. The string builder it writes to is the
list of the bytes put so far (allocation succeeds), so each function is the text it appends. The
assertion of `emit_string` is left out, as in `Json.Lexical`.
-/

import AcnSdk.Json.Lexical

namespace AcnSdk.Json

open AcnSdk.Lib Ascii

variable {ν : Type} (libc : Libc ν)

/-- `P_VALUE(node->key)` handed to a string function. The members of an object
have a key; the code does not guard against a missing one. -/
def keyValue (node : JsonNode ν) : Bytes := node.key.getD []

/-- The texts that are emitted at a node are in valid UTF-8: its string, or the keys of its
children. -/
def JsonNode.utf8Texts : JsonNode ν → Bool
  | .scalar key value => stringHas utf8Validate (.scalar key value)
  | .container _ _ children => children.all (keyHas utf8Validate)

mutual

/-- `emit_value`. -/
def emitValue : JsonNode ν → Bytes
  | .scalar _ .null => nullText
  | .scalar _ (.bool b) => boolText b
  | .scalar _ (.string s) => emitString s
  | .scalar _ (.number n) => emitNumber libc n
  | .container _ .array children => lbrack :: emitElements children ++ [rbrack]
  | .container _ .object children => lbrace :: emitMembers children ++ [rbrace]

/-- The loop of `emit_array`. -/
def emitElements : List (JsonNode ν) → Bytes
  | [] => []
  | element :: rest =>
      emitValue element ++ (if rest.isEmpty then [] else [comma]) ++ emitElements rest

/-- The loop of `emit_object`. -/
def emitMembers : List (JsonNode ν) → Bytes
  | [] => []
  | member :: rest =>
      emitString (keyValue member) ++ colon :: emitValue member ++
        (if rest.isEmpty then [] else [comma]) ++ emitMembers rest

end

section

variable (space : Bytes)

/-- `for (i = 0; i < indent_level; i++) sb_puts(out, space);` -/
def emitIndent (indentLevel : Nat) : Bytes := (List.replicate indentLevel space).flatten

mutual

/-- `emit_value_indented`. -/
def emitValueIndented : Nat → JsonNode ν → Bytes
  | _, .scalar _ .null => nullText
  | _, .scalar _ (.bool b) => boolText b
  | _, .scalar _ (.string s) => emitString s
  | _, .scalar _ (.number n) => emitNumber libc n
  | _, .container _ .array [] => [lbrack, rbrack]
  | indentLevel, .container _ .array children =>
      lbrack :: lf :: emitElementsIndented indentLevel children ++
        emitIndent space indentLevel ++ [rbrack]
  | _, .container _ .object [] => [lbrace, rbrace]
  | indentLevel, .container _ .object children =>
      lbrace :: lf :: emitMembersIndented indentLevel children ++
        emitIndent space indentLevel ++ [rbrace]

/-- The loop of `emit_array_indented`. -/
def emitElementsIndented : Nat → List (JsonNode ν) → Bytes
  | _, [] => []
  | indentLevel, element :: rest =>
      emitIndent space (indentLevel + 1) ++ emitValueIndented (indentLevel + 1) element ++
        (if rest.isEmpty then [lf] else [comma, lf]) ++ emitElementsIndented indentLevel rest

/-- The loop of `emit_object_indented`. -/
def emitMembersIndented : Nat → List (JsonNode ν) → Bytes
  | _, [] => []
  | indentLevel, member :: rest =>
      emitIndent space (indentLevel + 1) ++ emitString (keyValue member) ++
        [colon, Ascii.space] ++ emitValueIndented (indentLevel + 1) member ++
        (if rest.isEmpty then [lf] else [comma, lf]) ++ emitMembersIndented indentLevel rest

end

end

/-- `json_encode`. -/
def jsonEncode (node : JsonNode ν) : Bytes := emitValue libc node

/-- `json_stringify`. -/
def jsonStringify (node : JsonNode ν) (space : Option Bytes) : Bytes :=
  match space with
  | some space => emitValueIndented libc space 0 node
  | none => emitValue libc node

end AcnSdk.Json

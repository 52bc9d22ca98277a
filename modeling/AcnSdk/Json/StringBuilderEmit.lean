/-
The emitters of `src/json/json.c` on the string builder, and `json_stringify`.

No emitter looks at what the builder returns, so that each is the list of the calls that it makes.
As in `Json.Lexical`, `emit_string` goes on with a text that its assertion would stop at.

* `emitsValue`, `emitsValueIndented` — the calls put the text of the tree.
* `builder_kept_iff` — when builders stay intact, and `json_stringify` returns the text or NULL.
-/

import AcnSdk.Json.StringBuilderRuns

namespace AcnSdk.Json.Builder

open AcnSdk.Lib Ascii Prog Heap

/-! ### The emitters -/

/-- The loop of `emit_string`, with the bytes that were written since the last `sb_need`. -/
def emitStringLoop : Nat → Bytes → Bytes → List SbCall
  | 0, b, _ => [.spell (b ++ [dquote])]
  | fuel + 1, b, s =>
      if peek s = 0 then [.spell (b ++ [dquote])]
      else
        match shortEscape (peek s) with
        | some e => .spell (b ++ [bslash, e]) :: emitStringLoop fuel [] s.tail
        | none =>
            if utf8ValidateCz s = 0 then
              .spell (b ++ replacementChar) :: emitStringLoop fuel [] s.tail
            else if peek s < 0x1F ∨ (0x80 ≤ peek s ∧ escapeUnicode = true) then
              .spell (b ++ unicodeEscape (utf8ReadChar s).1) ::
                emitStringLoop fuel [] (s.drop (utf8ReadChar s).2)
            else
              .spell (b ++ s.take (utf8ValidateCz s)) ::
                emitStringLoop fuel [] (s.drop (utf8ValidateCz s))

/-- `emit_string`. -/
def emitString (str : Bytes) : List SbCall := emitStringLoop (str.length + 1) [dquote] str

variable {ν : Type} (libc : Libc ν)

mutual

/-- `emit_value`. -/
def emitValue : JsonNode ν → List SbCall
  | .scalar _ .null => [.puts nullText]
  | .scalar _ (.bool b) => [.puts (boolText b)]
  | .scalar _ (.string s) => emitString s
  | .scalar _ (.number n) => [.puts (emitNumber libc n)]
  | .container _ .array children => .putc lbrack :: emitElements children ++ [.putc rbrack]
  | .container _ .object children => .putc lbrace :: emitMembers children ++ [.putc rbrace]

/-- The loop of `emit_array`. -/
def emitElements : List (JsonNode ν) → List SbCall
  | [] => []
  | element :: rest =>
      emitValue element ++ (if rest.isEmpty then [] else [.putc comma]) ++ emitElements rest

/-- The loop of `emit_object`. -/
def emitMembers : List (JsonNode ν) → List SbCall
  | [] => []
  | member :: rest =>
      emitString (keyValue member) ++ .putc colon :: emitValue member ++
        (if rest.isEmpty then [] else [.putc comma]) ++ emitMembers rest

end

section

variable (space : Bytes)

/-- `for (i = 0; i < indent_level; i++) sb_puts(out, space);` -/
def emitIndent (indentLevel : Nat) : List SbCall := List.replicate indentLevel (.puts space)

mutual

/-- `emit_value_indented`. -/
def emitValueIndented : Nat → JsonNode ν → List SbCall
  | _, .scalar _ .null => [.puts nullText]
  | _, .scalar _ (.bool b) => [.puts (boolText b)]
  | _, .scalar _ (.string s) => emitString s
  | _, .scalar _ (.number n) => [.puts (emitNumber libc n)]
  | _, .container _ .array [] => [.puts [lbrack, rbrack]]
  | indentLevel, .container _ .array children =>
      .puts [lbrack, lf] :: emitElementsIndented indentLevel children ++
        emitIndent space indentLevel ++ [.putc rbrack]
  | _, .container _ .object [] => [.puts [lbrace, rbrace]]
  | indentLevel, .container _ .object children =>
      .puts [lbrace, lf] :: emitMembersIndented indentLevel children ++
        emitIndent space indentLevel ++ [.putc rbrace]

/-- The loop of `emit_array_indented`. -/
def emitElementsIndented : Nat → List (JsonNode ν) → List SbCall
  | _, [] => []
  | indentLevel, element :: rest =>
      emitIndent space (indentLevel + 1) ++ emitValueIndented (indentLevel + 1) element ++
        .puts (if rest.isEmpty then [lf] else [comma, lf]) :: emitElementsIndented indentLevel rest

/-- The loop of `emit_object_indented`. -/
def emitMembersIndented : Nat → List (JsonNode ν) → List SbCall
  | _, [] => []
  | indentLevel, member :: rest =>
      emitIndent space (indentLevel + 1) ++ emitString (keyValue member) ++
        .puts [colon, Ascii.space] :: emitValueIndented (indentLevel + 1) member ++
        .puts (if rest.isEmpty then [lf] else [comma, lf]) :: emitMembersIndented indentLevel rest

end

end

/-- What `json_stringify` calls between `sb_init` and `sb_finish`. -/
def emitted (node : JsonNode ν) (space : Option Bytes) : List SbCall :=
  match space with
  | some space => emitValueIndented libc space 0 node
  | none => emitValue libc node

/-- `json_stringify`. -/
def jsonStringify (bits : Nat) (grants : Nat → Bool) (fresh : Nat → Byte) (node : JsonNode ν)
    (space : Option Bytes) : SbM Ptr := do
  if (← sbInit grants fresh) < 0 then return .null
  else
    runAll bits grants fresh (emitted libc node space)
    sbFinish

/-! ### What they put -/

/-- The calls of an emitter. What `sb_puts` is given is no longer than an `int` can tell. -/
def SbCall.Emitted : SbCall → Prop
  | .putc _ => True
  | .puts str => str.length < 2 ^ 31
  | .spell bytes => bytes.length ≤ 14
  | _ => False

/-- The calls of emitters that put the text. -/
structure Emits (calls : List SbCall) (text : Bytes) : Prop where
  emitted : ∀ c ∈ calls, c.Emitted
  spelled : calls.flatMap SbCall.spelled = text

namespace Emits

variable {calls rest : List SbCall} {text tail : Bytes}

theorem nil : Emits [] [] := ⟨nofun, rfl⟩

theorem append (first : Emits calls text) (second : Emits rest tail) :
    Emits (calls ++ rest) (text ++ tail) :=
  ⟨List.forall_mem_append.mpr ⟨first.emitted, second.emitted⟩, by
    rw [List.flatMap_append, first.spelled, second.spelled]⟩

theorem cons {c : SbCall} (emitted : c.Emitted) (second : Emits rest tail) :
    Emits (c :: rest) (c.spelled ++ tail) :=
  ⟨List.forall_mem_cons.mpr ⟨emitted, second.emitted⟩, by
    rw [List.flatMap_cons, second.spelled]⟩

theorem putc (c : Byte) (second : Emits rest tail) : Emits (.putc c :: rest) (c :: tail) :=
  cons (c := .putc c) trivial second

theorem puts {str : Bytes} (short : str.length < 2 ^ 31) (second : Emits rest tail) :
    Emits (.puts str :: rest) (str ++ tail) := by
  have whole : (SbCall.puts str).spelled = str := by
    rw [SbCall.spelled, toInt_eq short, Int.toNat_natCast, List.take_length]
  have both := cons (c := .puts str) short second
  rwa [whole] at both

theorem spell {bytes : Bytes} (short : bytes.length ≤ 14) (second : Emits rest tail) :
    Emits (.spell bytes :: rest) (bytes ++ tail) :=
  cons (c := .spell bytes) short second

theorem last {str : Bytes} (short : str.length < 2 ^ 31) : Emits [.puts str] str := by
  have one := nil.puts short
  rwa [List.append_nil] at one

end Emits

theorem utf8ValidateCz_le (s : Bytes) : utf8ValidateCz s ≤ 4 := by
  cases s with
  | nil => decide
  | cons c s =>
      by_cases ascii : c ≤ 0x7F
      · rw [utf8ValidateCz_ascii s ascii]
        decide
      · by_cases valid : utf8ValidateCz (c :: s) = 0
        · rw [valid]
          decide
        · rcases utf8ValidateCz_cases ascii valid with ⟨-, -, -, len⟩ | ⟨-, -, -, -, -, -, len⟩ |
            ⟨-, -, -, -, -, -, -, len⟩ <;> omega

theorem unicodeEscape_length (unicode : Nat) : (unicodeEscape unicode).length ≤ 12 := by
  unfold unicodeEscape
  split <;> simp [writeHex16]

section

variable {b : Bytes} (short : b.length ≤ 1)

include short

theorem Emits.closed : Emits [.spell (b ++ [dquote])] (b ++ [] ++ [dquote]) := by
  have fits : (b ++ [dquote]).length ≤ 14 := by
    rw [List.length_append, List.length_singleton]
    omega
  have one := Emits.nil.spell fits
  rw [List.append_nil] at one
  rwa [List.append_nil]

theorem Emits.round {bytes tail : Bytes} {rest : List SbCall} (small : bytes.length ≤ 12)
    (others : Emits rest ([] ++ tail ++ [dquote])) :
    Emits (.spell (b ++ bytes) :: rest) (b ++ (bytes ++ tail) ++ [dquote]) := by
  have fits : (b ++ bytes).length ≤ 14 := by
    rw [List.length_append]
    omega
  have both := others.spell fits
  rwa [List.nil_append, List.append_assoc, ← List.append_assoc bytes, ← List.append_assoc] at both

/-- No round of `emit_string` writes more than it asked for. -/
theorem emitsStringLoop (fuel : Nat) (s : Bytes) :
    Emits (emitStringLoop fuel b s) (b ++ emitStringBody fuel s ++ [dquote]) := by
  induction fuel generalizing b s with
  | zero => exact Emits.closed short
  | succ fuel ih =>
      have later (s : Bytes) := ih (b := []) (Nat.zero_le 1) s
      rw [emitStringLoop, emitStringBody]
      by_cases stop : peek s = 0
      · rw [if_pos stop, if_pos stop]
        exact Emits.closed short
      · rw [if_neg stop, if_neg stop]
        cases shortEscape (peek s) with
        | some e => exact Emits.round short (Nat.le_of_ble_eq_true rfl) (later s.tail)
        | none =>
            dsimp only
            split_ifs
            · exact Emits.round short (by decide) (later s.tail)
            · exact Emits.round short (Nat.le_trans (unicodeEscape_length _) (by decide)) (later _)
            · have four := utf8ValidateCz_le s
              refine Emits.round short ?_ (later _)
              rw [List.length_take]
              omega

end

theorem emitsString (str : Bytes) : Emits (emitString str) (Json.emitString str) :=
  emitsStringLoop (b := [dquote]) (Nat.le_refl 1) (str.length + 1) str

/-! ### Trees -/

section

variable {ν : Type} (libc : Libc ν)

theorem emitsNumber (num : ν) : Emits [.puts (emitNumber libc num)] (emitNumber libc num) :=
  Emits.last (Nat.lt_trans (emitNumber_length libc num) (by decide))

theorem emitsBool (b : Bool) : Emits [.puts (boolText b)] (boolText b) :=
  Emits.last (by cases b <;> decide)

theorem emitsComma (last : Bool) :
    Emits (if last then [] else [.putc comma]) (if last then [] else [comma]) := by
  cases last with
  | true => exact Emits.nil
  | false => exact Emits.nil.putc comma

theorem emitsElements {cs : List (JsonNode ν)}
    (each : ∀ c ∈ cs, Emits (emitValue libc c) (Json.emitValue libc c)) :
    Emits (emitElements libc cs) (Json.emitElements libc cs) := by
  induction cs with
  | nil =>
      rw [emitElements, Json.emitElements]
      exact Emits.nil
  | cons c cs ih =>
      rw [emitElements, Json.emitElements]
      obtain ⟨first, others⟩ := List.forall_mem_cons.mp each
      exact (first.append (emitsComma _)).append (ih others)

theorem emitsMembers {cs : List (JsonNode ν)}
    (each : ∀ c ∈ cs, Emits (emitValue libc c) (Json.emitValue libc c)) :
    Emits (emitMembers libc cs) (Json.emitMembers libc cs) := by
  induction cs with
  | nil =>
      rw [emitMembers, Json.emitMembers]
      exact Emits.nil
  | cons c cs ih =>
      rw [emitMembers, Json.emitMembers]
      obtain ⟨first, others⟩ := List.forall_mem_cons.mp each
      exact (((emitsString _).append (first.putc colon)).append (emitsComma _)).append (ih others)

/-- `emit_value` puts the text of the tree. -/
theorem emitsValue (node : JsonNode ν) :
    Emits (emitValue libc node) (Json.emitValue libc node) := by
  induction node using JsonNode.tree_induction with
  | scalar key value =>
      cases value with
      | null =>
          rw [emitValue, Json.emitValue]
          exact Emits.last (by decide)
      | bool b =>
          rw [emitValue, Json.emitValue]
          exact emitsBool b
      | string s =>
          rw [emitValue, Json.emitValue]
          exact emitsString s
      | number n =>
          rw [emitValue, Json.emitValue]
          exact emitsNumber libc n
  | container key kind children ih =>
      cases kind with
      | array =>
          rw [emitValue, Json.emitValue]
          exact ((emitsElements libc ih).putc lbrack).append (Emits.nil.putc rbrack)
      | object =>
          rw [emitValue, Json.emitValue]
          exact ((emitsMembers libc ih).putc lbrace).append (Emits.nil.putc rbrace)

variable {space : Bytes} (short : space.length < 2 ^ 31)

include short

theorem emitsIndent (indentLevel : Nat) :
    Emits (emitIndent space indentLevel) (Json.emitIndent space indentLevel) := by
  induction indentLevel with
  | zero => exact Emits.nil
  | succ n ih => exact ih.puts short

theorem emitsElementsIndented {cs : List (JsonNode ν)} (indentLevel : Nat)
    (each : ∀ c ∈ cs, ∀ n, Emits (emitValueIndented libc space n c)
      (Json.emitValueIndented libc space n c)) :
    Emits (emitElementsIndented libc space indentLevel cs)
      (Json.emitElementsIndented libc space indentLevel cs) := by
  induction cs with
  | nil =>
      rw [emitElementsIndented, Json.emitElementsIndented]
      exact Emits.nil
  | cons c cs ih =>
      rw [emitElementsIndented, Json.emitElementsIndented, List.append_assoc _ _
        (Json.emitElementsIndented _ _ _ _)]
      obtain ⟨first, others⟩ := List.forall_mem_cons.mp each
      have line : (if cs.isEmpty then [lf] else [comma, lf]).length < 2 ^ 31 := by
        split <;> decide
      exact ((emitsIndent short _).append (first _)).append ((ih others).puts line)

theorem emitsMembersIndented {cs : List (JsonNode ν)} (indentLevel : Nat)
    (each : ∀ c ∈ cs, ∀ n, Emits (emitValueIndented libc space n c)
      (Json.emitValueIndented libc space n c)) :
    Emits (emitMembersIndented libc space indentLevel cs)
      (Json.emitMembersIndented libc space indentLevel cs) := by
  induction cs with
  | nil =>
      rw [emitMembersIndented, Json.emitMembersIndented]
      exact Emits.nil
  | cons c cs ih =>
      rw [emitMembersIndented, Json.emitMembersIndented, List.append_assoc _ _
        (Json.emitMembersIndented _ _ _ _), List.append_assoc _ [colon, Ascii.space]]
      obtain ⟨first, others⟩ := List.forall_mem_cons.mp each
      have line : (if cs.isEmpty then [lf] else [comma, lf]).length < 2 ^ 31 := by
        split <;> decide
      have name := (emitsIndent short (indentLevel + 1)).append (emitsString (keyValue c))
      have gap : [colon, Ascii.space].length < 2 ^ 31 := by decide
      have value := (first (indentLevel + 1)).puts gap
      exact (name.append value).append ((ih others).puts line)

/-- `emit_value_indented` puts the indented text of the tree. -/
theorem emitsValueIndented (indentLevel : Nat) (node : JsonNode ν) :
    Emits (emitValueIndented libc space indentLevel node)
      (Json.emitValueIndented libc space indentLevel node) := by
  induction node using JsonNode.tree_induction generalizing indentLevel with
  | scalar key value =>
      cases value with
      | null =>
          rw [emitValueIndented, Json.emitValueIndented]
          exact Emits.last (by decide)
      | bool b =>
          rw [emitValueIndented, Json.emitValueIndented]
          exact emitsBool b
      | string s =>
          rw [emitValueIndented, Json.emitValueIndented]
          exact emitsString s
      | number n =>
          rw [emitValueIndented, Json.emitValueIndented]
          exact emitsNumber libc n
  | container key kind children ih =>
      cases children with
      | nil =>
          cases kind <;> rw [emitValueIndented, Json.emitValueIndented] <;>
            exact Emits.last (by decide)
      | cons c cs =>
          have indent := emitsIndent short indentLevel
          cases kind with
          | array =>
              have opens : [lbrack, lf].length < 2 ^ 31 := by decide
              have elements := (emitsElementsIndented libc short indentLevel ih).puts opens
              rw [emitValueIndented, Json.emitValueIndented]
              · exact (elements.append indent).append (Emits.nil.putc rbrack)
              · nofun
              · nofun
          | object =>
              have opens : [lbrace, lf].length < 2 ^ 31 := by decide
              have members := (emitsMembersIndented libc short indentLevel ih).puts opens
              rw [emitValueIndented, Json.emitValueIndented]
              · exact (members.append indent).append (Emits.nil.putc rbrace)
              · nofun
              · nofun

end

theorem emitsEmitted {ν : Type} (libc : Libc ν) (node : JsonNode ν) {space : Option Bytes}
    (short : ∀ s, space = some s → s.length < 2 ^ 31) :
    Emits (emitted libc node space) (Json.jsonStringify libc node space) := by
  cases space with
  | none => exact emitsValue libc node
  | some space => exact emitsValueIndented libc (short space rfl) 0 node

/-! ### What `json_stringify` returns -/

section

variable {ν : Type} (libc : Libc ν) (bits : Nat) (grants : Nat → Bool) (fresh : Nat → Byte)
  (node : JsonNode ν) (space : Option Bytes) (w : World)

/-- The calls of `json_stringify`. -/
def stringifyCalls : List SbCall :=
  if grants w.requests then .init :: (emitted libc node space ++ [.finish]) else [.init]

/-- `json_stringify` returns the whole text, or NULL. -/
def Completes : Prop :=
  ∃ r w', jsonStringify libc bits grants fresh node space w = .ok (r, w') ∧
    (r = .null ∨ ∃ b rest, r = .into b 0 ∧
      w'.heap.cells b = some (Json.jsonStringify libc node space ++ 0 :: rest))

end

variable {bits : Nat} {grants : Nat → Bool} {fresh : Nat → Byte} {w : World} {text : Bytes}
  {b : Addr} {k : Nat}

theorem SbCall.Emitted.used {c : SbCall} (emitted : c.Emitted ∨ c = .finish)
    (valid : sbIsValid w.sb = true) : c.Used w ∧ c ≠ .init := by
  obtain emitted | rfl := emitted
  · cases c with
    | putc c => exact ⟨valid, nofun⟩
    | puts str => exact ⟨valid, nofun⟩
    | spell bytes => exact ⟨⟨valid, emitted⟩, nofun⟩
    | init => exact emitted.elim
    | put bytes => exact emitted.elim
    | need n => exact emitted.elim
    | finish => exact emitted.elim
  · exact ⟨valid, nofun⟩

section

variable (wide : 32 ≤ bits)

include wide

/-- What a call of an emitter, or `sb_finish`, leads to. -/
theorem Filled.emitCall (fresh : Nat → Byte) (filled : Filled bits w text b k) {c : SbCall}
    (emitted : c.Emitted ∨ c = .finish) :
    (c.Granted bits grants w ∧ ∃ w' b' j, c.run bits grants fresh w = .ok ((), w') ∧
      Filled bits w' (text ++ c.spelled) b' j) ∨
    (¬ c.Granted bits grants w ∧ ∀ w', c.run bits grants fresh w = .ok ((), w') → Lost w') := by
  obtain ⟨used, later⟩ := SbCall.Emitted.used emitted filled.valid
  exact filled.call wide fresh later used

/-- The calls of an emitter and `sb_finish` keep a valid builder intact exactly if it is given a
block whenever it has to grow. -/
theorem Filled.keeps_iff (filled : Filled bits w text b k) {calls : List SbCall}
    (emitted : ∀ c ∈ calls, c.Emitted ∨ c = .finish) :
    KeepsAlong (SbCall.run bits grants fresh) Intact calls w ↔
      Along (SbCall.run bits grants fresh) (SbCall.Granted bits grants) calls w := by
  have known : Along (SbCall.run bits grants fresh) (fun c _ => c.Emitted ∨ c = .finish) calls w :=
    .of_forall (fun c mem _ => emitted c mem) w
  refine keepsAlong_iff (fun c s (valid : ∃ text b k, Filled bits s text b k) emitted granted => ?_)
    (fun c s s' valid emitted run kept => ?_) ⟨text, b, k, filled⟩ known
  · obtain ⟨text, b, k, filled⟩ := valid
    obtain ⟨-, s', b', j, run, filled'⟩ | ⟨refused, -⟩ := filled.emitCall wide fresh emitted
    · exact ⟨s', run, filled'.intact, _, b', j, filled'⟩
    · exact absurd granted refused
  · obtain ⟨text, b, k, filled⟩ := valid
    obtain ⟨granted, -⟩ | ⟨-, lost⟩ := filled.emitCall wide fresh emitted
    · exact granted
    · exact absurd kept (lost s' run).not_intact

/-- An emitter that is given every block puts its text behind what there is. -/
theorem Filled.emit (filled : Filled bits w text b k) {calls rest : List SbCall}
    (emitted : ∀ c ∈ calls, c.Emitted)
    (granted : Along (SbCall.run bits grants fresh) (SbCall.Granted bits grants)
      (calls ++ rest) w) :
    ∃ w' b' j, runAll bits grants fresh calls w = .ok ((), w') ∧
      Filled bits w' (text ++ calls.flatMap SbCall.spelled) b' j := by
  induction calls generalizing w text b k with
  | nil =>
      refine ⟨w, b, k, rfl, ?_⟩
      rwa [List.flatMap_nil, List.append_nil]
  | cons c calls ih =>
      obtain ⟨first, others⟩ := List.forall_mem_cons.mp emitted
      obtain ⟨-, w₁, b₁, j₁, run₁, filled₁⟩ | ⟨refused, -⟩ :=
        filled.emitCall wide fresh (.inl first)
      · obtain ⟨w', b', j, run, filled'⟩ := ih filled₁ others (granted.2 w₁ run₁)
        refine ⟨w', b', j, ?_, ?_⟩
        · rw [runAll, bind_of_ok run₁, run]
        · rwa [List.flatMap_cons, ← List.append_assoc]
      · exact absurd granted.1 refused

theorem json_stringify_iff {ν : Type} (libc : Libc ν) (alive : w.heap.Fresh) (node : JsonNode ν)
    {space : Option Bytes} (short : ∀ s, space = some s → s.length < 2 ^ 31) :
    (KeepsAlong (SbCall.run bits grants fresh) Intact (stringifyCalls libc grants node space w) w ∧
        Completes libc bits grants fresh node space w) ↔
      Along (SbCall.run bits grants fresh) (SbCall.Granted bits grants)
        (stringifyCalls libc grants node space w) w := by
  have emits := emitsEmitted libc node short
  cases answer : grants w.requests with
  | false =>
      obtain ⟨w₁, run₁, start, made, -⟩ := sbInit_refused fresh answer
      have calls : stringifyCalls libc grants node space w = [.init] := if_neg (by simp [answer])
      have init : SbCall.init.run bits grants fresh w = .ok ((), w₁) := bind_of_ok run₁
      have intact : Intact w₁ := .inr ⟨start, by rw [made]; exact fun c mem => nomatch mem⟩
      have returns : Completes libc bits grants fresh node space w := by
        refine ⟨.null, w₁, ?_, .inl rfl⟩
        rw [jsonStringify, bind_of_ok run₁]
        rfl
      rw [calls, keepsAlong_cons init, along_cons init]
      exact iff_of_true ⟨⟨intact, trivial⟩, returns⟩ ⟨trivial, trivial⟩
  | true =>
      obtain ⟨w₁, run₁, filled₁⟩ := sbInit_granted bits fresh (by omega) alive answer
      have calls : stringifyCalls libc grants node space w =
          .init :: (emitted libc node space ++ [.finish]) := if_pos answer
      have init : SbCall.init.run bits grants fresh w = .ok ((), w₁) := bind_of_ok run₁
      have known : ∀ c ∈ emitted libc node space ++ [.finish], c.Emitted ∨ c = .finish :=
        List.forall_mem_append.mpr ⟨fun c mem => .inl (emits.emitted c mem),
          List.forall_mem_singleton.mpr (.inr rfl)⟩
      rw [calls, keepsAlong_cons init, along_cons init, filled₁.keeps_iff wide known]
      constructor
      · exact fun kept => ⟨trivial, kept.1.2⟩
      · rintro ⟨-, granted⟩
        obtain ⟨w₂, b₂, j₂, run₂, filled₂⟩ := filled₁.emit wide emits.emitted granted
        rw [List.nil_append, emits.spelled] at filled₂
        obtain ⟨w', finished, -, rest, cell⟩ := filled₂.finish
        refine ⟨⟨filled₁.intact, granted⟩, .into b₂ 0, w', ?_, .inr ⟨b₂, rest, rfl, cell⟩⟩
        rw [jsonStringify, bind_of_ok run₁, if_neg (by decide), bind_of_ok run₂, finished]

end

/-- Builders stay intact, in runs of any calls and in `json_stringify`, which then returns the whole
text or NULL, exactly if a block is given whenever one has to grow. -/
theorem builder_kept_iff (wide : 32 ≤ bits) (grants : Nat → Bool) (fresh : Nat → Byte)
    {ν : Type} (libc : Libc ν) (alive : w.heap.Fresh) :
    (∀ calls, Along (SbCall.run bits grants fresh) SbCall.Used (.init :: calls) w →
      (KeepsAlong (SbCall.run bits grants fresh) Intact (.init :: calls) w ↔
        Along (SbCall.run bits grants fresh) (SbCall.Granted bits grants) (.init :: calls) w)) ∧
    (∀ node space, (∀ s, space = some s → s.length < 2 ^ 31) →
      ((KeepsAlong (SbCall.run bits grants fresh) Intact
        (stringifyCalls libc grants node space w) w ∧
          Completes libc bits grants fresh node space w) ↔
        Along (SbCall.run bits grants fresh) (SbCall.Granted bits grants)
          (stringifyCalls libc grants node space w) w)) :=
  ⟨fun _ used => keeps_iff grants fresh wide alive used,
    fun node _ short => json_stringify_iff wide libc alive node short⟩

/-- Storage that holds NULL pointers, and an empty heap. -/
def cleared : World := ⟨⟨.null, .null, .null⟩, ⟨fun _ => none, 0⟩, 0, []⟩

theorem cleared_fresh : cleared.heap.Fresh := fun _ _ => rfl

/-- `[null,null,"\u0001"]`. -/
def nullsAndEscape : JsonNode Nat := .container none .array
  [.scalar none .null, .scalar none .null, .scalar none (.string [1])]

/-- A builder that has to grow for 17 bytes. -/
theorem builder_kept_granted :
    KeepsAlong (SbCall.run 32 (fun _ => true) fun _ => 0) Intact
      [.init, .put ⟨List.replicate 17 0x61, by decide⟩, .finish] cleared := by
  refine ((builder_kept_iff (by decide) (fun _ => true) (fun _ => 0) Libc.nat
    cleared_fresh).1 _ ?_).mpr ?_
  · refine (along_cons rfl).mpr ⟨trivial, (along_cons rfl).mpr ⟨?_, (along_cons rfl).mpr ⟨?_,
      trivial⟩⟩⟩
    · exact rfl
    · exact rfl
  · exact (along_cons rfl).mpr ⟨trivial, (along_cons rfl).mpr ⟨fun _ => ⟨by decide, rfl⟩,
      (along_cons rfl).mpr ⟨trivial, trivial⟩⟩⟩

/-- Where only the first request is granted, 17 bytes leave an invalid builder whose block is still
allocated, and `json_stringify` writes beyond a block of 17 bytes. -/
theorem not_builder_kept_refused :
    ¬ KeepsAlong (SbCall.run 32 (fun i => i == 0) fun _ => 0) Intact
      [.init, .put ⟨List.replicate 17 0x61, by decide⟩] cleared ∧
    jsonStringify Libc.nat 32 (fun i => i == 0) (fun _ => 0) nullsAndEscape none cleared =
      .error .overflow := by
  constructor
  · intro kept
    have rest := ((keepsAlong_cons rfl).mp kept).2
    have intact := ((keepsAlong_cons rfl).mp rest).1
    exact Lost.not_intact ⟨rfl, 0, List.mem_singleton_self 0, rfl⟩ intact
  · rfl

end AcnSdk.Json.Builder

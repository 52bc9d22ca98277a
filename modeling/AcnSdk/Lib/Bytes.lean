/-
Bytes and the ASCII characters that text formats are made of.

A C string is the list of the bytes before its terminator, so `strlen` is the
length of the list and reading at the end of the list reads the terminator.
`cstr` is the C string at the front of a raw buffer.
-/

import Mathlib.Algebra.Group.Int.Defs
import Mathlib.Algebra.Group.Nat.Defs
import Mathlib.Data.List.Basic
import Mathlib.Data.List.TakeWhile
import Mathlib.Tactic.Common

namespace AcnSdk.Lib

abbrev Byte := UInt8

abbrev Bytes := List Byte

namespace Ascii

abbrev tab : Byte := 0x09
abbrev lf : Byte := 0x0A
abbrev cr : Byte := 0x0D
abbrev space : Byte := 0x20
abbrev dquote : Byte := 0x22
abbrev plus : Byte := 0x2B
abbrev comma : Byte := 0x2C
abbrev minus : Byte := 0x2D
abbrev dot : Byte := 0x2E
abbrev slash : Byte := 0x2F
abbrev zero : Byte := 0x30
abbrev nine : Byte := 0x39
abbrev colon : Byte := 0x3A
abbrev lbrack : Byte := 0x5B
abbrev bslash : Byte := 0x5C
abbrev rbrack : Byte := 0x5D
abbrev lbrace : Byte := 0x7B
abbrev rbrace : Byte := 0x7D

end Ascii

open Ascii

/-- `is_digit`: the characters from `0` to `9`. -/
def isDigit (c : Byte) : Bool := zero ≤ c && c ≤ nine

/-- `is_space`: tab, newline, carriage return and blank. -/
def isSpace (c : Byte) : Bool := c == tab || c == lf || c == cr || c == space

/-- The characters that JSON is built of are no spaces. -/
@[simp] theorem isSpace_tokens : isSpace dquote = false ∧ isSpace comma = false ∧
    isSpace colon = false ∧ isSpace lbrack = false ∧ isSpace rbrack = false ∧
    isSpace lbrace = false ∧ isSpace rbrace = false := by
  decide

/-- They are told apart. -/
@[simp] theorem tokens_ne : dquote ≠ bslash ∧ dquote ≠ lbrace ∧ dquote ≠ rbrace ∧
    comma ≠ rbrack ∧ comma ≠ rbrace ∧ lbrack ≠ lbrace ∧ lbrack ≠ dquote ∧ lbrace ≠ lbrack ∧
    lbrace ≠ dquote ∧ dquote ≠ 0x75 ∧ (0 : Byte) ≠ bslash := by
  decide

/-- The byte a C pointer into a string reads: the terminator at its end. -/
def peek (s : Bytes) : Byte := s.headD 0

@[simp] theorem peek_nil : peek [] = 0 := rfl

@[simp] theorem peek_cons (c : Byte) (s : Bytes) : peek (c :: s) = c := rfl

/-- The C string a raw buffer holds: everything before the first terminator. -/
def cstr (s : Bytes) : Bytes := s.takeWhile (· != 0)

/-- A buffer without a terminator inside is the C string it holds. -/
theorem cstr_eq_self {s : Bytes} (h : 0 ∉ s) : cstr s = s := by
  apply List.takeWhile_eq_self_iff.mpr
  intro c hc
  have : c ≠ 0 := fun e => h (e ▸ hc)
  simpa using this

/-- The terminator ends the string. -/
theorem cstr_terminated {s : Bytes} (plain : 0 ∉ s) (rest : Bytes) : cstr (s ++ 0 :: rest) = s := by
  rw [cstr, List.takeWhile_append_of_pos]
  · simp
  · intro c mem
    have : c ≠ 0 := fun eq => plain (eq ▸ mem)
    simpa using this

theorem not_mem_cstr (s : Bytes) : 0 ∉ cstr s := by
  intro mem
  exact absurd (List.mem_takeWhile_imp mem) (by decide)

/-- A terminator within the buffer ends the string there at the latest. -/
theorem cstr_length_le {s : Bytes} {i : Nat} (zero : s[i]? = some 0) : (cstr s).length ≤ i := by
  induction s generalizing i with
  | nil => cases zero
  | cons c s ih =>
      rw [cstr, List.takeWhile_cons]
      split
      · next ne =>
          cases i with
          | zero =>
              cases zero
              exact absurd ne (by decide)
          | succ i => exact Nat.succ_le_succ (ih zero)
      · exact Nat.zero_le _

end AcnSdk.Lib

/-
Functions of the C library on strings and numbers in them.

`int` has 32 bits and `long` 64. `strtol` stays inside `long` on a number too large for
it, and `atoi` is `strtol` cut to an `int`.
-/

import Mathlib.Data.List.Induction
import AcnSdk.Lib.Decimal

namespace AcnSdk.Lib

open Ascii

/-! ### Search -/

/-- `strstr`: the text from the first occurrence of `pat` on. -/
def strstr (pat : Bytes) : Bytes → Option Bytes
  | [] => if pat = [] then some [] else none
  | c :: s => if pat.isPrefixOf (c :: s) then some (c :: s) else strstr pat s

/-- The first occurrence, if the pattern does not start anywhere before. -/
theorem strstr_append {pat front t : Bytes} (start : pat <+: t)
    (first : ∀ a b, front = a ++ b → b ≠ [] → ¬ pat <+: b ++ t) :
    strstr pat (front ++ t) = some t := by
  induction front with
  | nil =>
      rw [List.nil_append]
      cases t with
      | nil => rw [strstr, if_pos (List.prefix_nil.mp start)]
      | cons c t => rw [strstr, if_pos (List.isPrefixOf_iff_prefix.mpr start)]
  | cons c front ih =>
      have not_here : ¬ pat <+: c :: (front ++ t) := first [] (c :: front) rfl (by simp)
      rw [List.cons_append, strstr, if_neg (fun h => not_here (List.isPrefixOf_iff_prefix.mp h))]
      exact ih fun a b split => first (c :: a) b (by rw [split]; rfl)

theorem strstr_eq_none_iff (pat s : Bytes) : strstr pat s = none ↔ ¬ pat <:+: s := by
  induction s with
  | nil => simp [strstr]
  | cons c s ih =>
      rw [strstr, List.infix_cons_iff, not_or, ← ih, ← List.isPrefixOf_iff_prefix]
      cases List.isPrefixOf pat (c :: s) <;> simp

/-- What is found is the first occurrence. -/
theorem strstr_some {pat s t : Bytes} (found : strstr pat s = some t) :
    ∃ front, s = front ++ t ∧ pat <+: t ∧
      ∀ a b, front = a ++ b → b ≠ [] → ¬ pat <+: b ++ t := by
  induction s with
  | nil =>
      rw [strstr] at found
      split at found
      case isTrue empty =>
        cases found
        exact ⟨[], rfl, empty ▸ List.prefix_rfl, fun a b split nonempty =>
          absurd (List.append_eq_nil_iff.mp split.symm).2 nonempty⟩
      case isFalse => cases found
  | cons c s ih =>
      rw [strstr] at found
      by_cases here : List.isPrefixOf pat (c :: s) = true
      · rw [if_pos here] at found
        cases found
        exact ⟨[], rfl, List.isPrefixOf_iff_prefix.mp here, fun a b split nonempty =>
          absurd (List.append_eq_nil_iff.mp split.symm).2 nonempty⟩
      · rw [if_neg here] at found
        obtain ⟨front, rfl, start, first⟩ := ih found
        refine ⟨c :: front, rfl, start, ?_⟩
        intro a b split nonempty early
        cases a with
        | nil =>
            obtain rfl : c :: front = b := split
            exact here (List.isPrefixOf_iff_prefix.mpr early)
        | cons d a => exact first a b (List.cons.inj split).2 nonempty early

/-- A pattern does not start in a text without its first character. -/
theorem not_prefix_of_not_mem {c : Byte} {pat front t : Bytes} (apart : c ∉ front) :
    ∀ a b, front = a ++ b → b ≠ [] → ¬ c :: pat <+: b ++ t := by
  rintro a b rfl nonempty start
  obtain ⟨d, b, rfl⟩ := List.exists_cons_of_ne_nil nonempty
  obtain ⟨same, -⟩ := List.cons_prefix_cons.mp start
  exact apart (by simp [same])

/-- A single character. -/
theorem strstr_mark (mark : Byte) (s : Bytes) :
    strstr [mark] s = if mark ∈ s then some (s.dropWhile (· != mark)) else none := by
  induction s with
  | nil => rfl
  | cons c s ih =>
      have here : List.isPrefixOf [mark] (c :: s) = (mark == c) := by
        simp [List.isPrefixOf]
      rw [strstr, here, ih]
      by_cases same : mark = c
      · subst same
        simp
      · have ne : (c != mark) = true := by simpa using Ne.symm same
        simp only [beq_iff_eq, same, if_false, List.mem_cons, false_or, List.dropWhile_cons,
          ne, if_true]

/-! ### Comparison -/

/-- `tolower` in the C locale. -/
def tolower (c : Byte) : Byte := if 0x41 ≤ c ∧ c ≤ 0x5A then c + 0x20 else c

/-- `strcmp`, which compares characters as unsigned numbers. Its sign counts. -/
def strcmp : Bytes → Bytes → Int
  | [], [] => 0
  | [], _ :: _ => -1
  | _ :: _, [] => 1
  | c :: s, d :: t => if c = d then strcmp s t else c.toNat - d.toNat

/-- `strcmp` is the order of the bytes. -/
theorem strcmp_le_iff (s t : Bytes) : strcmp s t ≤ 0 ↔ s ≤ t := by
  induction s generalizing t with
  | nil => exact iff_of_true (by cases t <;> simp [strcmp]) (List.nil_le t)
  | cons c s ih =>
      cases t with
      | nil => exact iff_of_false (by simp [strcmp]) (by simp)
      | cons d t =>
          rw [strcmp, List.cons_le_cons_iff]
          by_cases same : c = d
          · rw [if_pos same, ih t,
              or_iff_right (fun lt => by rw [same] at lt; exact UInt8.lt_irrefl d lt),
              and_iff_right same]
          · rw [if_neg same, or_iff_left (fun h => same h.1), UInt8.lt_iff_toNat_lt]
            have : c.toNat ≠ d.toNat := fun eq => same (UInt8.toNat_inj.mp eq)
            omega

theorem strcmp_eq_zero_iff (s t : Bytes) : strcmp s t = 0 ↔ s = t := by
  induction s generalizing t with
  | nil => cases t <;> simp [strcmp]
  | cons c s ih =>
      cases t with
      | nil => simp [strcmp]
      | cons d t =>
          rw [strcmp]
          split_ifs with same
          · rw [ih t, List.cons.injEq, and_iff_right same]
          · have : c.toNat ≠ d.toNat := fun eq => same (UInt8.toNat_inj.mp eq)
            refine iff_of_false (by omega) ?_
            intro eq
            exact same (List.cons.inj eq).1

/-- `strncmp`. -/
def strncmp (s t : Bytes) (n : Nat) : Int := strcmp (s.take n) (t.take n)

/-- A text of length `n` compares as equal to the texts that it is the front of. -/
theorem strncmp_eq_zero_iff {s : Bytes} {n : Nat} (length : s.length = n) (t : Bytes) :
    strncmp s t n = 0 ↔ s <+: t := by
  rw [strncmp, strcmp_eq_zero_iff, List.prefix_iff_eq_take, List.take_of_length_le (by omega),
    length]

/-- The order of two texts is that of the first characters that differ. -/
theorem append_le_append_iff (p : Bytes) {c d : Byte} (differ : c ≠ d) (s t : Bytes) :
    p ++ c :: s ≤ p ++ d :: t ↔ c < d := by
  induction p with
  | nil =>
      rw [List.nil_append, List.nil_append, List.cons_le_cons_iff,
        or_iff_left (fun h => differ h.1)]
  | cons e p ih =>
      rw [List.cons_append, List.cons_append, List.cons_le_cons_iff, ih,
        or_iff_right (UInt8.lt_irrefl e), and_iff_right rfl]

/-! ### Numbers -/

/-- `isspace` in the C locale. -/
def isCSpace (c : Byte) : Bool := c == space || (tab ≤ c && c ≤ cr)

/-- The digit that a character is in bases up to 36. -/
def digitValue (c : Byte) : Option Nat :=
  if isDigit c then some (c.toNat - 0x30)
  else if 0x41 ≤ c && c ≤ 0x5A then some (c.toNat - 0x41 + 10)
  else if 0x61 ≤ c && c ≤ 0x7A then some (c.toNat - 0x61 + 10)
  else none

/-- A digit of the base. -/
def isDigitOf (base : Nat) (c : Byte) : Bool := (digitValue c).any (· < base)

/-- The number that a string of digits denotes. -/
def numeralValue (base : Nat) (s : Bytes) : Nat :=
  s.foldl (fun v c => v * base + (digitValue c).getD 0) 0

/-- The sign in front of a number, and the rest. -/
def splitSign : Bytes → Bool × Bytes
  | c :: s => if c = minus then (true, s) else if c = plus then (false, s) else (false, c :: s)
  | [] => (false, [])

/-- The prefix `0x` of a number in base 16. -/
def skipHexMark (base : Nat) : Bytes → Bytes
  | z :: x :: c :: s =>
      if base = 16 && z == zero && (x == 0x78 || x == 0x58) && isDigitOf 16 c then c :: s
      else z :: x :: c :: s
  | s => s

/-- The number at the start of a text: blanks, a sign and digits. -/
def numberAt (base : Nat) (s : Bytes) : Int :=
  let (negative, s) := splitSign (s.dropWhile isCSpace)
  let n : Int := numeralValue base ((skipHexMark base s).takeWhile (isDigitOf base))
  if negative then -n else n

/-- A number that does not fit into a `long` becomes the nearest one that does. -/
def toLong (n : Int) : Int := max (-2 ^ 63) (min n (2 ^ 63 - 1))

/-- `strtol(s, NULL, base)`. -/
def strtol (base : Nat) (s : Bytes) : Int := toLong (numberAt base s)

/-- The conversion to `int`. -/
def toInt32 (n : Int) : Int := Int.bmod n (2 ^ 32)

/-- `atoi`. -/
def atoi (s : Bytes) : Int := toInt32 (strtol 10 s)

theorem toInt32_of_lt {n : Int} (low : -2 ^ 31 ≤ n) (high : n < 2 ^ 31) : toInt32 n = n := by
  unfold toInt32
  rw [Int.bmod_eq_of_le] <;> omega

theorem toInt32_lt (n : Int) : toInt32 n < 2 ^ 31 := by
  unfold toInt32
  have := Int.bmod_lt (x := n) (m := 2 ^ 32) (by decide)
  omega

theorem toInt32_of_ge {n : Int} (low : 2 ^ 31 ≤ n) (high : n < 2 ^ 32) :
    toInt32 n = n - 2 ^ 32 := by
  unfold toInt32
  rw [Int.bmod_def]
  split <;> omega

theorem isDigitOf_ten (c : Byte) (h : isDigit c = true) : isDigitOf 10 c = true := by
  have := (isDigit_iff c).mp h
  simp only [isDigitOf, digitValue, h, if_true, Option.any_some, decide_eq_true_eq]
  omega

theorem numeralValue_ten {s : Bytes} (digits : ∀ c ∈ s, isDigit c = true) :
    numeralValue 10 s = decimalValue s := by
  unfold numeralValue decimalValue
  apply List.foldl_ext
  intro v c mem
  simp [digitValue, digits c mem]

theorem numeralValue_append (base : Nat) (s t : Bytes) :
    numeralValue base (s ++ t) =
      t.foldl (fun v c => v * base + (digitValue c).getD 0) (numeralValue base s) :=
  List.foldl_append ..

/-- A number of `k` digits. -/
theorem numeralValue_lt {base : Nat} {s : Bytes} (digits : ∀ c ∈ s, isDigitOf base c = true) :
    numeralValue base s < base ^ s.length := by
  induction s using List.reverseRecOn with
  | nil => exact Nat.one_pos
  | append_singleton s c ih =>
      have small : (digitValue c).getD 0 < base := by
        have digit := digits c (by simp)
        unfold isDigitOf at digit
        cases value : digitValue c with
        | none => simp [value] at digit
        | some d => simpa [value] using digit
      have front := ih fun d mem => digits d (by simp [mem])
      rw [numeralValue_append, List.length_append, List.length_singleton, Nat.pow_succ]
      calc numeralValue base s * base + (digitValue c).getD 0
          < numeralValue base s * base + base := Nat.add_lt_add_left small _
        _ = (numeralValue base s + 1) * base := by rw [Nat.succ_mul]
        _ ≤ base ^ s.length * base := Nat.mul_le_mul_right base front

theorem isDigitOf_bounds {base : Nat} {c : Byte} (small : base ≤ 16) (h : isDigitOf base c = true) :
    (0x30 ≤ c.toNat ∧ c.toNat ≤ 0x39) ∨ (0x41 ≤ c.toNat ∧ c.toNat ≤ 0x46) ∨
      (0x61 ≤ c.toNat ∧ c.toNat ≤ 0x66) := by
  unfold isDigitOf digitValue at h
  split at h
  · exact .inl ((isDigit_iff c).mp ‹_›)
  split at h
  · next upper =>
      simp only [Bool.and_eq_true, decide_eq_true_eq, UInt8.le_iff_toNat_le,
        UInt8.reduceToNat] at upper
      simp only [Option.any_some, decide_eq_true_eq] at h
      omega
  split at h
  · next lower =>
      simp only [Bool.and_eq_true, decide_eq_true_eq, UInt8.le_iff_toNat_le,
        UInt8.reduceToNat] at lower
      simp only [Option.any_some, decide_eq_true_eq] at h
      omega
  · cases h

/-- A digit is neither a blank nor a sign, nor the mark of base 16. -/
theorem plain_of_isDigitOf {base : Nat} {c : Byte} (small : base ≤ 16)
    (h : isDigitOf base c = true) :
    isCSpace c = false ∧ c ≠ minus ∧ c ≠ plus ∧ c ≠ 0x78 ∧ c ≠ 0x58 := by
  have bounds := isDigitOf_bounds small h
  have ne : ∀ d : Byte, c.toNat ≠ d.toNat → c ≠ d := fun d differ e => differ (by rw [e])
  refine ⟨?_, ne _ ?_, ne _ ?_, ne _ ?_, ne _ ?_⟩
  · have blank : c ≠ space := ne _ (by simp only [UInt8.reduceToNat, space]; omega)
    have control : ¬ c ≤ cr := by
      simp only [cr, UInt8.le_iff_toNat_le, UInt8.reduceToNat]
      omega
    simp [isCSpace, blank, control]
  all_goals
    simp only [UInt8.reduceToNat, minus, plus]
    omega

theorem skipHexMark_eq {base : Nat} {s t : Bytes} (small : base ≤ 16)
    (digits : ∀ c ∈ s, isDigitOf base c = true)
    (ends : ∀ c ∈ t.head?, isDigitOf base c = false ∧ c ≠ 0x78 ∧ c ≠ 0x58) :
    skipHexMark base (s ++ t) = s ++ t := by
  generalize whole : s ++ t = u
  match u with
  | [] => rfl
  | [_] => rfl
  | [_, _] => rfl
  | z :: x :: c :: u =>
      have no_mark : base = 16 → z = zero → x ≠ 0x78 ∧ x ≠ 0x58 := by
        rintro rfl rfl
        match s with
        | [] =>
            rw [List.nil_append] at whole
            exact absurd (ends zero (by simp [whole])).1 (by decide)
        | [_] =>
            rw [List.singleton_append, List.cons.injEq] at whole
            exact (ends x (by simp [whole.2])).2
        | _ :: y :: _ =>
            rw [List.cons_append, List.cons_append, List.cons.injEq, List.cons.injEq] at whole
            obtain ⟨-, -, -, lower, upper⟩ := plain_of_isDigitOf small (digits y (by simp))
            rw [← whole.2.1]
            exact ⟨lower, upper⟩
      rw [skipHexMark, if_neg]
      intro mark
      simp only [Bool.and_eq_true, decide_eq_true_eq, beq_iff_eq, Bool.or_eq_true] at mark
      obtain ⟨⟨⟨base_eq, z_eq⟩, x_eq⟩, -⟩ := mark
      obtain ⟨lower, upper⟩ := no_mark base_eq z_eq
      exact x_eq.elim lower upper

theorem toLong_of_lt {n : Int} (low : -2 ^ 63 ≤ n) (high : n < 2 ^ 63) : toLong n = n := by
  unfold toLong
  omega

/-- The number of some digits, up to something that is none. -/
theorem numberAt_digits {base : Nat} {s t : Bytes} (small : base ≤ 16)
    (digits : ∀ c ∈ s, isDigitOf base c = true) (nonempty : s ≠ [])
    (ends : ∀ c ∈ t.head?, isDigitOf base c = false ∧ c ≠ 0x78 ∧ c ≠ 0x58) :
    numberAt base (s ++ t) = numeralValue base s := by
  have no_sign : splitSign ((s ++ t).dropWhile isCSpace) = (false, s ++ t) := by
    cases s with
    | nil => exact absurd rfl nonempty
    | cons c s =>
        obtain ⟨blank, minus, plus, -, -⟩ := plain_of_isDigitOf small (digits c (by simp))
        rw [List.cons_append, List.dropWhile_cons_of_neg (by simp [blank]), splitSign, if_neg minus,
          if_neg plus]
  have all : (s ++ t).takeWhile (isDigitOf base) = s := by
    rw [List.takeWhile_append_of_pos digits]
    cases t with
    | nil => rw [List.takeWhile_nil, List.append_nil]
    | cons c t =>
        have stop := (ends c (by simp)).1
        rw [List.takeWhile_cons_of_neg (by simp [stop]), List.append_nil]
  simp only [numberAt, no_sign, skipHexMark_eq small digits ends, all, Bool.false_eq_true, if_false]

/-- Nothing but decimal digits. -/
theorem numberAt_decimal {s : Bytes} (digits : ∀ c ∈ s, isDigit c = true) (nonempty : s ≠ []) :
    numberAt 10 s = decimalValue s := by
  have number : numberAt 10 (s ++ []) = numeralValue 10 s := numberAt_digits (by decide)
    (fun c mem => isDigitOf_ten c (digits c mem)) nonempty (by simp)
  rwa [List.append_nil, numeralValue_ten digits] at number

end AcnSdk.Lib

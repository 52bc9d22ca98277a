/-
Copying up to a pattern, `copy_till` and its two variants of `src/arrow/utf8.c`.

The copy goes to a buffer of a fixed size; nothing checks that it fits.
-/

import AcnSdk.Lib.CString
import AcnSdk.Lib.Prog

namespace AcnSdk.Arrow

open AcnSdk.Lib

/-- `copy_till`: the text before the pattern, which goes with its terminator to a buffer of
`room` bytes, and the text after it. -/
def copyTill (src endPattern : Bytes) (room : Nat) : Except Fault (Option (Bytes × Bytes)) :=
  match strstr endPattern src with
  | none => .ok none
  | some strEnd =>
      let size := src.length - strEnd.length
      if room ≤ size then .error .overflow
      else .ok (some (src.take size, strEnd.drop endPattern.length))

/-- The text in front of the pattern does not fit into a buffer of `room` bytes. -/
def LongBefore (pat src : Bytes) (room : Nat) : Prop :=
  ∃ front p, strstr pat src = some p ∧ src = front ++ p ∧ room ≤ front.length

/-- `copy_till_to_int`, with the number. -/
def copyTillToInt (src endPattern : Bytes) : Except Fault (Option (Int × Bytes)) := do
  match ← copyTill src endPattern 8 with
  | none => return none
  | some (v, p) => return some (atoi v, p)

/-- `copy_till_hex_to_int`, with the number. -/
def copyTillHexToInt (src endPattern : Bytes) : Except Fault (Option (Int × Bytes)) := do
  match ← copyTill src endPattern 8 with
  | none => return none
  | some (v, p) => return some (toInt32 (strtol 16 v), p)

section

variable {front pat rest : Bytes} {room : Nat}
  (first : ∀ a b, front = a ++ b → b ≠ [] → ¬ pat <+: b ++ (pat ++ rest))

include first

/-- The text before the first occurrence of the pattern. -/
theorem copyTill_eq (fits : front.length < room) :
    copyTill (front ++ (pat ++ rest)) pat room = .ok (some (front, rest)) := by
  have found : strstr pat (front ++ (pat ++ rest)) = some (pat ++ rest) :=
    strstr_append (List.prefix_append _ _) first
  have size : (front ++ (pat ++ rest)).length - (pat ++ rest).length = front.length := by
    rw [List.length_append]
    omega
  rw [copyTill, found]
  simp only [size]
  rw [if_neg (by omega), List.take_left, List.drop_left]

/-- The text does not fit. -/
theorem copyTill_overflow (long : room ≤ front.length) :
    copyTill (front ++ (pat ++ rest)) pat room = .error .overflow := by
  have found : strstr pat (front ++ (pat ++ rest)) = some (pat ++ rest) :=
    strstr_append (List.prefix_append _ _) first
  have size : (front ++ (pat ++ rest)).length - (pat ++ rest).length = front.length := by
    rw [List.length_append]
    omega
  rw [copyTill, found]
  simp only [size]
  rw [if_pos long]

end

/-- What is copied stands in front of the pattern. -/
theorem copyTill_parts {src pat v p : Bytes} {room : Nat}
    (copied : copyTill src pat room = .ok (some (v, p))) :
    src = v ++ (pat ++ p) ∧ v.length < room := by
  rw [copyTill] at copied
  split at copied
  case h_1 => cases copied
  case h_2 t found =>
    obtain ⟨front, rfl, ⟨after, rfl⟩, -⟩ := strstr_some found
    have size : (front ++ (pat ++ after)).length - (pat ++ after).length = front.length := by
      rw [List.length_append]
      omega
    simp only [size] at copied
    split at copied
    case isTrue => cases copied
    case isFalse fits =>
      rw [List.take_left, List.drop_left] at copied
      cases copied
      exact ⟨rfl, Nat.not_le.mp fits⟩

/-- A copy is only refused for its length. -/
theorem copyTill_error_iff {src pat : Bytes} {room : Nat} {e : Fault} :
    copyTill src pat room = .error e ↔ e = .overflow ∧ LongBefore pat src room := by
  rw [copyTill]
  cases found : strstr pat src with
  | none =>
      constructor
      · intro failed
        cases failed
      · rintro ⟨-, front, p, found', -⟩
        rw [found] at found'
        cases found'
  | some p =>
      obtain ⟨front, whole, -, -⟩ := strstr_some found
      have size : src.length - p.length = front.length := by
        rw [whole, List.length_append]
        omega
      have long_iff : LongBefore pat src room ↔ room ≤ front.length := by
        constructor
        · rintro ⟨front', p', found', whole', long⟩
          rw [found] at found'
          cases found'
          rw [whole] at whole'
          rwa [List.append_cancel_right whole']
        · exact fun long => ⟨front, p, found, whole, long⟩
      rw [long_iff]
      simp only [size]
      by_cases long : room ≤ front.length
      · rw [if_pos long]
        constructor
        · intro failed
          cases failed
          exact ⟨rfl, long⟩
        · rintro ⟨rfl, -⟩
          rfl
      · rw [if_neg long]
        constructor
        · intro failed
          cases failed
        · rintro ⟨-, beyond⟩
          exact absurd beyond long

/-- Nor is a number in base 16. -/
theorem copyTillHexToInt_error_iff {src pat : Bytes} {e : Fault} :
    copyTillHexToInt src pat = .error e ↔ e = .overflow ∧ LongBefore pat src 8 := by
  rw [← copyTill_error_iff, copyTillHexToInt]
  cases copyTill src pat 8 with
  | error f =>
      constructor
      · intro failed
        cases failed
        rfl
      · intro failed
        cases failed
        rfl
  | ok copied =>
      constructor
      · intro failed
        cases copied <;> cases failed
      · intro failed
        cases failed

/-- Nor is one in base 10. -/
theorem copyTillToInt_error_iff {src pat : Bytes} {e : Fault} :
    copyTillToInt src pat = .error e ↔ e = .overflow ∧ LongBefore pat src 8 := by
  rw [← copyTill_error_iff, copyTillToInt]
  cases copyTill src pat 8 with
  | error f =>
      constructor
      · intro failed
        cases failed
        rfl
      · intro failed
        cases failed
        rfl
  | ok copied =>
      constructor
      · intro failed
        cases copied <;> cases failed
      · intro failed
        cases failed

/-- A copy is made if the pattern is found where there is room for what stands in front of it. -/
theorem copyTill_ok_iff (src pat : Bytes) {room : Nat} (pos : 0 < room) :
    (∃ v p, copyTill src pat room = .ok (some (v, p))) ↔
      pat <:+: src.take (room - 1 + pat.length) := by
  constructor
  · rintro ⟨v, p, copied⟩
    obtain ⟨rfl, fits⟩ := copyTill_parts copied
    have front : v ++ pat <+: (v ++ (pat ++ p)).take (room - 1 + pat.length) := by
      refine List.prefix_take_iff.mpr ⟨⟨p, List.append_assoc v pat p⟩, ?_⟩
      rw [List.length_append]
      omega
    exact (List.suffix_append v pat).isInfix.trans front.isInfix
  · rintro ⟨a, b, split⟩
    have whole : src = a ++ (pat ++ (b ++ src.drop (room - 1 + pat.length))) := by
      rw [← List.append_assoc, ← List.append_assoc, split, List.take_append_drop]
    have short : a.length < room := by
      have bound := congrArg List.length split
      simp only [List.length_append, List.length_take] at bound
      omega
    cases found : strstr pat src with
    | none =>
        have infix_src : pat <:+: src := ⟨a, _, by rw [List.append_assoc]; exact whole.symm⟩
        exact absurd infix_src ((strstr_eq_none_iff pat src).mp found)
    | some t =>
        obtain ⟨front, rfl, ⟨after, rfl⟩, first⟩ := strstr_some found
        -- the occurrence with room is not before the first one
        have before : front.length ≤ a.length := by
          by_contra behind
          obtain ⟨mid, rfl⟩ : a <+: front :=
            List.prefix_of_prefix_length_le ⟨_, whole.symm⟩ (List.prefix_append _ _) (by omega)
          rw [List.append_assoc, List.append_cancel_left_eq] at whole
          refine first a mid rfl ?_ (whole ▸ List.prefix_append _ _)
          rintro rfl
          exact behind (by simp)
        exact ⟨front, after, copyTill_eq first (by omega)⟩

/-- Copying up to a mark of one character. -/
theorem copyTill_mark (src : Bytes) (mark : Byte) (room : Nat) :
    copyTill src [mark] room =
      if mark ∈ src then
        if room ≤ (src.takeWhile (· != mark)).length then .error .overflow
        else .ok (some (src.takeWhile (· != mark), (src.dropWhile (· != mark)).tail))
      else .ok none := by
  rw [copyTill, strstr_mark]
  by_cases found : mark ∈ src
  · have size : src.length - (src.dropWhile (· != mark)).length =
        (src.takeWhile (· != mark)).length := by
      have whole :=
        congrArg List.length (List.takeWhile_append_dropWhile (p := (· != mark)) (l := src))
      rw [List.length_append] at whole
      omega
    have front : src.take (src.takeWhile (· != mark)).length = src.takeWhile (· != mark) :=
      (List.prefix_iff_eq_take.mp (List.takeWhile_prefix _)).symm
    simp only [if_pos found, size, front, List.length_singleton, List.drop_one]
  · rw [if_neg found, if_neg found]

end AcnSdk.Arrow

/-
C strings written to a block.

`Starts block s` says that a block has the C string `s` at its front. `strcpy`, `strcat` and
`snprintf` of a text that the block has room for leave a block that starts with what they
write, and as much behind it as was left over.
-/

import AcnSdk.Lib.Bytes
import AcnSdk.Lib.Memory

namespace AcnSdk.Lib

/-- A C string without its terminator. -/
abbrev Text := {s : Bytes // 0 ∉ s}

/-! ### The operations -/

/-- `strcpy`. -/
def strcpy (block s : Bytes) : Except Fault Bytes := copyTo block 0 (s ++ [0])

/-- `strcat`. -/
def strcat (block s : Bytes) : Except Fault Bytes := copyTo block (cstr block).length (s ++ [0])

/-- `snprintf` of a text to a block, told that it has `size` bytes. -/
def snprintf (block : Bytes) (size : Nat) (s : Bytes) : Except Fault Bytes :=
  if size = 0 then .ok block else copyTo block 0 (s.take (size - 1) ++ [0])

/-! ### What they leave -/

/-- The string at the front of the block. -/
def Starts (block s : Bytes) : Prop := 0 ∉ s ∧ ∃ rest, block = s ++ 0 :: rest

variable {block s t : Bytes}

namespace Starts

theorem cstr_eq (starts : Starts block s) : cstr block = s := by
  obtain ⟨plain, rest, rfl⟩ := starts
  exact cstr_terminated plain rest

theorem length_lt (starts : Starts block s) : s.length < block.length := by
  obtain ⟨plain, rest, rfl⟩ := starts
  simp only [List.length_append, List.length_cons]
  omega

theorem take_eq (starts : Starts block s) : block.take s.length = s := by
  obtain ⟨plain, rest, rfl⟩ := starts
  exact List.take_left

end Starts

theorem strcpy_eq (block : Bytes) (plain : 0 ∉ s) (room : s.length < block.length) :
    ∃ block', strcpy block s = .ok block' ∧ block'.length = block.length ∧ Starts block' s := by
  have fits : 0 + (s ++ [0]).length ≤ block.length := by
    rw [List.length_append, List.length_singleton]
    omega
  refine ⟨store block 0 (s ++ [0]), copyTo_eq fits, length_store fits, plain, ?_⟩
  refine ⟨block.drop (0 + (s ++ [0]).length), ?_⟩
  rw [store, List.take_zero, List.nil_append, List.append_assoc, List.singleton_append]

theorem snprintf_eq (block : Bytes) {size : Nat} (plain : 0 ∉ s) (whole : s.length < size)
    (room : s.length < block.length) :
    ∃ block', snprintf block size s = .ok block' ∧ block'.length = block.length ∧
      Starts block' s := by
  rw [snprintf, if_neg (by omega), List.take_of_length_le (by omega)]
  exact strcpy_eq block plain room

theorem snprintf_overflow (block : Bytes) {size : Nat} (whole : s.length < size)
    (full : block.length ≤ s.length) :
    snprintf block size s = .error .overflow := by
  have beyond : ¬ 0 + (s ++ [0]).length ≤ block.length := by
    rw [List.length_append, List.length_singleton]
    omega
  rw [snprintf, if_neg (by omega), List.take_of_length_le (by omega), copyTo, if_neg beyond]

/-- Told no more than its length, it stays within the block. -/
theorem snprintf_within {size : Nat} (fits : size ≤ block.length) (s : Bytes) :
    ∃ block', snprintf block size s = .ok block' ∧ block'.length = block.length := by
  unfold snprintf
  split_ifs with none
  · exact ⟨block, rfl, rfl⟩
  · have room : 0 + (s.take (size - 1) ++ [0]).length ≤ block.length := by
      rw [List.length_append, List.length_take, List.length_singleton]
      omega
    exact ⟨_, copyTo_eq room, length_store room⟩

/-- A text that is cut ends with the terminator. -/
theorem snprintf_cut {size : Nat} (pos : 0 < size) (cut : size ≤ s.length)
    (room : size ≤ block.length) :
    ∃ block', snprintf block size s = .ok block' ∧ block'.length = block.length ∧
      0 ∈ block'.take size := by
  have length_eq : (s.take (size - 1) ++ [0]).length = size := by
    rw [List.length_append, List.length_take, List.length_singleton]
    omega
  have fits : 0 + (s.take (size - 1) ++ [0]).length ≤ block.length := by omega
  refine ⟨store block 0 (s.take (size - 1) ++ [0]), ?_, length_store fits, ?_⟩
  · rw [snprintf, if_neg (by omega)]
    exact copyTo_eq fits
  · have there := take_drop_store (s := s.take (size - 1) ++ [0]) (Nat.zero_le block.length)
    rw [length_eq, List.drop_zero] at there
    rw [there]
    exact List.mem_append_right _ List.mem_cons_self

theorem strcat_length {block' : Bytes} (run : strcat block s = .ok block') :
    block'.length = block.length := by
  unfold strcat copyTo at run
  split_ifs at run with fits
  cases run
  exact length_store fits

/-- Appending to a string, with what is left over behind it. -/
theorem strcat_eq (acc rest s : Bytes) (plain : 0 ∉ acc) (room : s.length ≤ rest.length) :
    ∃ rest', strcat (acc ++ 0 :: rest) s = .ok (acc ++ s ++ 0 :: rest') ∧
      rest'.length + s.length = rest.length := by
  refine ⟨(0 :: rest).drop (s ++ [0]).length, ?_, ?_⟩
  · rw [strcat, cstr_terminated plain, copyTo_append rfl (by simpa using room)]
    simp only [List.append_assoc, List.cons_append, List.nil_append]
  · simp only [List.length_drop, List.length_append, List.length_cons, List.length_nil]
    omega

theorem Starts.append (starts : Starts block t) (plain : 0 ∉ s)
    (room : t.length + s.length < block.length) :
    ∃ block', strcat block s = .ok block' ∧ block'.length = block.length ∧
      Starts block' (t ++ s) := by
  obtain ⟨t_plain, rest, rfl⟩ := starts
  rw [List.length_append, List.length_cons] at room
  obtain ⟨rest', run, length_eq⟩ := strcat_eq t rest s t_plain (by omega)
  have whole : 0 ∉ t ++ s := by
    rw [List.mem_append]
    exact not_or.mpr ⟨t_plain, plain⟩
  exact ⟨_, run, strcat_length run, whole, rest', rfl⟩

theorem Starts.append_overflow (starts : Starts block t)
    (full : block.length ≤ t.length + s.length) : strcat block s = .error .overflow := by
  have beyond : ¬ t.length + (s ++ [0]).length ≤ block.length := by
    rw [List.length_append, List.length_singleton]
    omega
  rw [strcat, starts.cstr_eq, copyTo, if_neg beyond]

end AcnSdk.Lib

/-
Runs of the string builder, from `sb_init` on.

* `Filled.call` — a call puts its text, or the block is lost.
* `keeps_iff` — a builder stays intact exactly if it is given a block whenever it has to grow.
-/

import AcnSdk.Json.Emit
import AcnSdk.Json.StringBuilder

namespace AcnSdk.Json.Builder

open AcnSdk.Lib Ascii Prog Heap

variable {bits : Nat} {grants : Nat → Bool} {fresh : Nat → Byte} {w w' : World} {text : Bytes}
  {b : Addr} {k : Nat}

/-! ### One call -/

/-- The bytes that a call adds to the text. -/
def SbCall.spelled : SbCall → Bytes
  | .putc c => [c]
  | .put bytes => bytes.val
  | .puts str => str.take (toInt str.length).toNat
  | .spell bytes => bytes
  | .init => []
  | .need _ => []
  | .finish => []

theorem Filled.intact (filled : Filled bits w text b k) : Intact w := by
  obtain ⟨rest, cell, length⟩ := filled.cell
  refine .inl ⟨b, text.length, 2 ^ k, _, filled.sb, filled.room, cell, ?_, filled.only⟩
  rw [List.length_append, length]

theorem Filled.valid (filled : Filled bits w text b k) : sbIsValid w.sb = true := by
  rw [filled.sb]
  rfl

theorem toInt_lt (n : Nat) : toInt n < 2 ^ 31 := BitVec.toInt_lt

theorem toInt_ge (n : Nat) : -2 ^ 31 ≤ toInt n := BitVec.le_toInt _

theorem toInt_le (n : Nat) : toInt n ≤ n := by
  have value := BitVec.toInt_eq_toNat_cond (BitVec.ofNat 32 n)
  have mod := Nat.mod_le n (2 ^ 32)
  rw [BitVec.toNat_ofNat] at value
  rw [toInt, value]
  split <;> omega

theorem toInt_eq {n : Nat} (fits : n < 2 ^ 31) : toInt n = n := by
  have value := BitVec.toInt_eq_toNat_cond (BitVec.ofNat 32 n)
  rw [BitVec.toNat_ofNat, Nat.mod_eq_of_lt (by omega), if_pos (by omega)] at value
  exact value

/-- `sb_putc` asks for one byte. -/
theorem Filled.sbPutc_eq (filled : Filled bits w text b k) (c : Byte) :
    sbPutc bits grants fresh c w = (do
      let _ ← sbNeed bits grants fresh (1 : Nat)
      Builder.append bits [c] [c].length) w := by
  have passed : w.sb.cur.diff w.sb.end_ = .ok ((text.length : Int) - (2 ^ k : Nat)) := by
    rw [filled.cur_eq, filled.end_eq, Ptr.diff_into]
  rw [sbPutc, bind_of_ok (get_apply w), passed, bind_of_ok (lift_ok _ w), bind_apply _ _ w,
    filled.need_eq]
  by_cases full : 0 ≤ (text.length : Int) - (2 ^ k : Nat)
  · rw [if_pos full, if_pos (by omega)]
    rfl
  · rw [if_neg full, if_neg (by omega)]
    rfl

section

variable (wide : 32 ≤ bits)

include wide

/-- What a call to a valid builder leads to: the text grows, or the builder loses its block. -/
theorem Filled.call (fresh : Nat → Byte) (filled : Filled bits w text b k) {c : SbCall}
    (later : c ≠ .init) (used : c.Used w) :
    (c.Granted bits grants w ∧ ∃ w' b' j, c.run bits grants fresh w = .ok ((), w') ∧
      Filled bits w' (text ++ c.spelled) b' j) ∨
    (¬ c.Granted bits grants w ∧
      ∀ w', c.run bits grants fresh w = .ok ((), w') → Lost w') := by
  cases c with
  | init => exact absurd rfl later
  | putc c =>
      have one := filled.needed grants fresh wide 1 [c] (by decide) (Nat.le_refl 1)
      rw [← filled.sbPutc_eq c] at one
      exact one
  | put bytes =>
      rcases filled.put grants fresh wide bytes.val bytes.val.length bytes.property
        (Nat.le_refl _) with ⟨grows, w', b', j, run, filled'⟩ | ⟨stuck, lost⟩
      · rw [List.take_length] at filled'
        exact .inl ⟨grows, w', b', j, bind_of_ok run, filled'⟩
      · refine .inr ⟨stuck, fun w' run => ?_⟩
        obtain ⟨⟨r, w₁⟩, run, last⟩ := ok_of_bind run
        cases last
        exact lost r w' run
  | puts str =>
      have upper := toInt_lt str.length
      have lower := toInt_ge str.length
      have shorter := toInt_le str.length
      cases sign : toInt str.length with
      | ofNat n =>
          have cast : toInt str.length = n := sign
          rcases filled.put grants fresh wide str n (by omega) (by omega) with
            ⟨grows, w', b', j, run, filled'⟩ | ⟨stuck, lost⟩
          · rw [← cast] at run grows
            refine .inl ⟨⟨by omega, grows⟩, w', b', j, bind_of_ok run, ?_⟩
            rw [SbCall.spelled, cast]
            exact filled'
          · rw [← cast] at lost stuck
            refine .inr ⟨fun both => stuck both.2, fun w' run => ?_⟩
            obtain ⟨⟨r, w₁⟩, run, last⟩ := ok_of_bind run
            cases last
            exact lost r w' run
      | negSucc m =>
          have cast : toInt str.length = -((m + 1 : Nat) : Int) := sign
          refine .inr ⟨fun both => ?_, fun w' run => ?_⟩
          · have below := both.1
            omega
          · obtain ⟨⟨r, w₁⟩, run, -⟩ := ok_of_bind run
            rw [sbPuts, cast] at run
            exact absurd run (filled.put_overrun wide (Nat.succ_pos m) (by omega) r w₁)
  | need n =>
      rcases filled.need grants fresh wide n.toInt BitVec.toInt_lt with
        ⟨grows, w', b', j, run, filled', -⟩ | ⟨stuck, lost⟩
      · refine .inl ⟨grows, w', b', j, bind_of_ok run, ?_⟩
        rwa [SbCall.spelled, List.append_nil]
      · refine .inr ⟨stuck, fun w' run => ?_⟩
        obtain ⟨⟨r, w₁⟩, run, last⟩ := ok_of_bind run
        cases last
        exact (lost r w' run).2
  | finish =>
      obtain ⟨w', run, filled', -⟩ := filled.finish
      refine .inl ⟨trivial, w', b, k, bind_of_ok run, ?_⟩
      rwa [SbCall.spelled, List.append_nil]
  | spell bytes => exact filled.needed grants fresh wide 14 bytes (by decide) used.2

end

/-! ### Runs -/

/-- Calls one after the other. -/
def runAll (bits : Nat) (grants : Nat → Bool) (fresh : Nat → Byte) : List SbCall → SbM Unit
  | [] => return ()
  | c :: cs => do
      c.run bits grants fresh
      runAll bits grants fresh cs

/-- The builder is valid and holds a text, or its `sb_init` was refused. -/
def Sound (bits : Nat) (w : World) : Prop :=
  w.heap.Fresh ∧ ((∃ text b k, Filled bits w text b k) ∨ (w.sb.start = .null ∧ w.made = []))

theorem Filled.sound (filled : Filled bits w text b k) : Sound bits w :=
  ⟨filled.fresh, .inl ⟨text, b, k, filled⟩⟩

theorem Sound.intact (sound : Sound bits w) : Intact w := by
  obtain ⟨-, ⟨text, b, k, filled⟩ | ⟨start, made⟩⟩ := sound
  · exact filled.intact
  · refine .inr ⟨start, fun c mem => ?_⟩
    rw [made] at mem
    cases mem

theorem SbCall.Used.valid {c : SbCall} (used : c.Used w) (later : c ≠ .init) :
    w.sb.start ≠ .null := by
  have valid : sbIsValid w.sb = true := by
    cases c with
    | init => exact absurd rfl later
    | spell bytes => exact used.1
    | putc c => exact used
    | put bytes => exact used
    | puts str => exact used
    | need n => exact used
    | finish => exact used
  exact of_decide_eq_true valid

theorem Sound.filled (sound : Sound bits w) {c : SbCall} (used : c.Used w) (later : c ≠ .init) :
    ∃ text b k, Filled bits w text b k :=
  sound.2.resolve_right fun refused => used.valid later refused.1

section

variable (grants fresh) (wide : 32 ≤ bits)

include wide

/-- `sb_init` makes a builder of whatever is in its storage. -/
theorem init_run (alive : w.heap.Fresh) :
    ∃ w', SbCall.init.run bits grants fresh w = .ok ((), w') ∧ Sound bits w' := by
  cases answer : grants w.requests with
  | true =>
      obtain ⟨w', run, filled⟩ := sbInit_granted bits fresh (by omega) alive answer
      exact ⟨w', bind_of_ok run, filled.sound⟩
  | false =>
      obtain ⟨w', run, start, made, heap⟩ := sbInit_refused fresh answer
      exact ⟨w', bind_of_ok run, heap ▸ alive, .inr ⟨start, made⟩⟩

/-- What a call leads to: the builder stays as it is to be, or loses its block. -/
theorem Sound.call (sound : Sound bits w) {c : SbCall} (used : c.Used w) :
    (c.Granted bits grants w ∧ ∃ w', c.run bits grants fresh w = .ok ((), w') ∧ Sound bits w') ∨
    (¬ c.Granted bits grants w ∧ ∀ w', c.run bits grants fresh w = .ok ((), w') → Lost w') := by
  by_cases first : c = .init
  · subst first
    exact .inl ⟨trivial, init_run grants fresh wide sound.1⟩
  · obtain ⟨text, b, k, filled⟩ := sound.filled used first
    obtain ⟨granted, w', b', j, run, filled'⟩ | refused := filled.call wide fresh first used
    · exact .inl ⟨granted, w', run, filled'.sound⟩
    · exact .inr refused

/-- A builder stays intact exactly if it is given a block whenever it has to grow. -/
theorem keeps_iff {calls : List SbCall} (alive : w.heap.Fresh)
    (used : Along (SbCall.run bits grants fresh) SbCall.Used (.init :: calls) w) :
    KeepsAlong (SbCall.run bits grants fresh) Intact (.init :: calls) w ↔
      Along (SbCall.run bits grants fresh) (SbCall.Granted bits grants) (.init :: calls) w := by
  obtain ⟨w₁, run₁, sound₁⟩ := init_run grants fresh wide alive
  have rest : KeepsAlong (SbCall.run bits grants fresh) Intact calls w₁ ↔
      Along (SbCall.run bits grants fresh) (SbCall.Granted bits grants) calls w₁ := by
    refine keepsAlong_iff (fun c s (sound : Sound bits s) used granted => ?_)
      (fun c s s' sound used run kept => ?_) sound₁ (used.2 w₁ run₁)
    · obtain ⟨-, s', run, sound'⟩ | ⟨refused, -⟩ := sound.call grants fresh wide used
      · exact ⟨s', run, sound'.intact, sound'⟩
      · exact absurd granted refused
    · obtain ⟨granted, -⟩ | ⟨-, lost⟩ := sound.call grants fresh wide used
      · exact granted
      · exact absurd kept (lost s' run).not_intact
  rw [keepsAlong_cons run₁, along_cons run₁, rest]
  exact and_congr_left fun _ => iff_of_true sound₁.intact trivial

end

end AcnSdk.Json.Builder

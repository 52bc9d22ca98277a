/-
The fixed header that `cycle_r` reads, whatever the stream is and wherever reading fails.

* `decodePacket_eq` — how many bytes of a remaining length there were, and what they amount to.
* `cycleR_eq` — `cycle_r` ends after the header, or acts on it.
* `lengthKept_iff` — when it acts on complete remaining lengths only, and ends with an error
  otherwise.
-/

import AcnSdk.Lib.Varint
import AcnSdk.Mqtt.Sync

namespace AcnSdk.Mqtt.Client

open AcnSdk.Lib Prog

variable {τ : Type} {env : Env} {w : World τ}

/-! ### The remaining length -/

/-- What reads of one byte each bring, up to one that fails or a last digit: at most `n` bytes. -/
def lengthBytes (env : Env) : Nat → World τ → Bytes
  | 0, _ => []
  | n + 1, w =>
      if readResult env w 1 ≠ 1 then []
      else
        let d := (readBytes env w 1).headD 0
        d :: if 128 ≤ d.toNat then lengthBytes env n (w.read env 1) else []

/-- The world after these reads. -/
def afterLength (env : Env) : Nat → World τ → World τ
  | 0, w => w
  | n + 1, w =>
      if readResult env w 1 ≠ 1 then w.read env 1
      else if 128 ≤ ((readBytes env w 1).headD 0).toNat then afterLength env n (w.read env 1)
      else w.read env 1

theorem readBytes_one (read : readResult env w 1 = 1) :
    w.input = (readBytes env w 1).headD 0 :: (w.read env 1).input := by
  have pos : 0 < readResult env w 1 := by
    rw [read]
    decide
  have there := (readResult_le pos).2
  rw [readBytes, World.read, readTakes, read]
  cases input : w.input with
  | nil =>
      rw [read, input] at there
      exact absurd there (by decide)
  | cons d rest => rfl

/-- The bytes are the next ones of the stream. -/
theorem lengthBytes_prefix (env : Env) (n : Nat) (w : World τ) :
    lengthBytes env n w <+: w.input := by
  induction n generalizing w with
  | zero => exact List.nil_prefix
  | succ n ih =>
      rw [lengthBytes]
      split
      · exact List.nil_prefix
      · next read =>
          rw [readBytes_one (Decidable.not_not.mp read)]
          apply (List.prefix_cons_inj _).mpr
          split
          · exact ih _
          · exact List.nil_prefix

theorem decodeLoop_eq (env : Env) {fuel : Nat} (len : Nat) (room : len + fuel = 5) (some : 0 < fuel)
    (multiplier value : Int) (w : World τ) :
    decodeLoop env fuel len multiplier value w =
      .ok ((len + (lengthBytes env fuel w).length,
        value + digitsValue ((lengthBytes env fuel w).take (4 - len)) * multiplier),
        afterLength env fuel w) := by
  induction fuel generalizing len multiplier value w with
  | zero => exact absurd some (Nat.lt_irrefl 0)
  | succ fuel ih =>
      rw [decodeLoop, bind_of_ok (mqttread_eq 1), lengthBytes, afterLength]
      dsimp only
      by_cases fails : readResult env w 1 ≠ 1
      · rw [if_pos fails, if_pos fails, if_pos fails, List.take_nil, digitsValue]
        simp
      · rw [if_neg fails, if_neg fails, if_neg fails]
        generalize (readBytes env w 1).headD 0 = d
        by_cases fifth : len = 4
        · -- the fifth byte is counted, and adds nothing
          obtain rfl : fuel = 0 := by omega
          subst fifth
          rw [if_pos (by decide)]
          simp [lengthBytes, afterLength, digitsValue]
        · rw [if_neg (by omega)]
          obtain ⟨k, hk⟩ : ∃ k, 4 - len = k + 1 := ⟨3 - len, by omega⟩
          by_cases more : 128 ≤ d.toNat
          · have next := ih (len + 1) (by omega) (by omega) (multiplier * 128)
              (value + (d.toNat % 128 : Nat) * multiplier) (w.read env 1)
            rw [if_pos more, if_pos more, if_pos more]
            rw [← Nat.cast_succ, next, hk, List.take_succ_cons, digitsValue, List.length_cons,
              show 4 - (len + 1) = k by omega]
            push_cast
            congr 3
            · ring
            · ring
          · rw [if_neg more, if_neg more, if_neg more, hk, List.take_succ_cons, digitsValue,
              List.take_nil, digitsValue]
            simp

/-- `decodePacket` counts the bytes that it got, and the first four make the value. -/
theorem decodePacket_eq (env : Env) (w : World τ) :
    decodePacket env w = .ok (((lengthBytes env 5 w).length,
      digitsValue ((lengthBytes env 5 w).take 4)), afterLength env 5 w) := by
  have loop := decodeLoop_eq env 0 (rfl : 0 + 5 = 5) (by decide) 1 0 w
  simp only [Nat.cast_zero, Int.zero_add, Int.mul_one, Nat.sub_zero] at loop
  exact loop

/-- One to four bytes, the last of them without continuation bit. -/
def Complete (ds : Bytes) : Prop := Numeral ds ∧ ds.length ≤ 4

/-! ### The fixed header -/

/-- What `cycle_r` makes of the fixed header: it ends, or acts on a remaining length. -/
inductive Header where
  | exit (rc : Int)
  | dispatch (head : MQTTHeader) (remLen : Int)
deriving Repr

/-- The first part of `cycle_r`. -/
def cycleHeader (env : Env) : Prog (World τ) Header := do
  let (rc, s) ← mqttread env 1
  if rc ≠ 1 then return .exit failure
  else do
    let head := MQTTHeader.ofByte (s.headD 0)
    if head.type < 1 ∨ 15 ≤ head.type then return .exit failure
    else do
      let (len, remLen) ← decodePacket env
      if len ≤ 0 ∨ maxMsgLen < remLen then return .exit rc
      else return .dispatch head remLen

/-- The second part: a function is called for the packet, or its body is drained. -/
def actOn (env : Env) : Header → Prog (World τ) Int
  | .exit rc => return rc
  | .dispatch head remLen => cycleBody env head remLen

theorem cycleR_eq (env : Env) (w : World τ) :
    cycleR env w = (cycleHeader env >>= actOn env) w := by
  rw [bind_apply, cycleR, cycleHeader, bind_of_ok (mqttread_eq 1), bind_of_ok (mqttread_eq 1)]
  dsimp only
  split
  · rfl
  · split
    · rfl
    · rw [bind_of_ok (decodePacket_eq env _), bind_of_ok (decodePacket_eq env _)]
      dsimp only
      split <;> rfl

/-- The first byte of the packet. -/
def firstByte (env : Env) (w : World τ) : MQTTHeader := .ofByte ((readBytes env w 1).headD 0)

/-- A first byte is read, and `__cycle_collection` has an entry for its type. -/
def TypeRead (env : Env) (w : World τ) : Prop :=
  readResult env w 1 = 1 ∧ 1 ≤ (firstByte env w).type ∧ (firstByte env w).type < 15

instance : Decidable (TypeRead env w) := inferInstanceAs (Decidable (_ ∧ _ ∧ _))

/-- The bytes that are read for the remaining length. -/
def lengthRead (env : Env) (w : World τ) : Bytes := lengthBytes env 5 (w.read env 1)

/-- The remaining length that they make. -/
def declared (env : Env) (w : World τ) : Nat := digitsValue ((lengthRead env w).take 4)

/-- The world after the fixed header. -/
def afterHeader (env : Env) (w : World τ) : World τ := afterLength env 5 (w.read env 1)

theorem cycleHeader_noType (none : ¬ TypeRead env w) :
    cycleHeader env w = .ok (.exit failure, w.read env 1) := by
  rw [cycleHeader, bind_of_ok (mqttread_eq 1)]
  dsimp only
  by_cases fails : readResult env w 1 ≠ 1
  · rw [if_pos fails]
    rfl
  · have outside : (firstByte env w).type < 1 ∨ 15 ≤ (firstByte env w).type := by
      by_contra inside
      exact none ⟨Decidable.not_not.mp fails, by omega, by omega⟩
    rw [if_neg fails]
    exact congrFun (if_pos outside) _

theorem cycleHeader_type (there : TypeRead env w) :
    cycleHeader env w = .ok (
      if lengthRead env w = [] ∨ maxMsgLen < declared env w then .exit 1
      else .dispatch (firstByte env w) (declared env w), afterHeader env w) := by
  obtain ⟨read, low, high⟩ := there
  have inside : ¬ ((firstByte env w).type < 1 ∨ 15 ≤ (firstByte env w).type) := by omega
  rw [cycleHeader, bind_of_ok (mqttread_eq 1)]
  dsimp only
  rw [if_neg (by rw [read]; decide)]
  refine (congrFun (if_neg inside) _).trans ((bind_of_ok (decodePacket_eq env _)).trans ?_)
  have none : ((lengthRead env w).length : Int) ≤ 0 ↔ lengthRead env w = [] := by
    rw [← List.length_eq_zero_iff]
    omega
  by_cases ends : lengthRead env w = [] ∨ maxMsgLen < declared env w
  · have exits : ((lengthRead env w).length : Int) ≤ 0 ∨ (maxMsgLen : Int) < declared env w := by
      rwa [none, Nat.cast_lt]
    rw [if_pos ends]
    refine (congrFun (if_pos exits) _).trans ?_
    rw [read]
    rfl
  · have acts : ¬ (((lengthRead env w).length : Int) ≤ 0 ∨
        (maxMsgLen : Int) < declared env w) := by
      rwa [none, Nat.cast_lt]
    rw [if_neg ends]
    exact congrFun (if_neg acts) _

/-! ### Acting on complete lengths only -/

/-- `cycle_r` acts on a complete remaining length, as it was read, or it ends with an error. -/
def LengthKept (env : Env) (w : World τ) : Prop :=
  ∃ header w', cycleHeader env w = .ok (header, w') ∧
    match header with
    | .exit rc => rc < 0
    | .dispatch _ remLen => Complete (lengthRead env w) ∧ remLen = digitsValue (lengthRead env w)

theorem declared_eq (complete : Complete (lengthRead env w)) :
    declared env w = digitsValue (lengthRead env w) := by
  rw [declared, List.take_of_length_le complete.2]

/-- The remaining length is acted on only if it is complete, and there is an error otherwise, if
and only if there is no packet type, or a complete remaining length that is not larger than the
client allows. -/
theorem lengthKept_iff (env : Env) (w : World τ) :
    LengthKept env w ↔ (TypeRead env w → Complete (lengthRead env w) ∧
      digitsValue (lengthRead env w) ≤ maxMsgLen) := by
  by_cases there : TypeRead env w
  · have header := cycleHeader_type there
    constructor
    · rintro ⟨h, w', run, kept⟩ -
      rw [header] at run
      cases run
      split at kept
      · next rc exits =>
          -- it exits with the result of the first read
          split at exits
          · cases exits
            exact absurd kept (by decide)
          · cases exits
      · next remLen dispatches =>
          split at dispatches
          · cases dispatches
          · next small =>
              have := declared_eq kept.1
              exact ⟨kept.1, by omega⟩
    · intro proper
      obtain ⟨complete, small⟩ := proper there
      have same := declared_eq complete
      have acts : ¬ (lengthRead env w = [] ∨ maxMsgLen < declared env w) := by
        rintro (none | large)
        · exact absurd complete.1.length_pos (by rw [none]; decide)
        · omega
      rw [if_neg acts] at header
      exact ⟨_, _, header, complete, congrArg Nat.cast same⟩
  · refine iff_of_true ⟨_, _, cycleHeader_noType there, ?_⟩ fun type => absurd type there
    exact Int.negSucc_lt_zero 0

/-- `cycle_r` is its two parts, and keeps to the length in these cases. The bytes of the length are
the next ones of the stream. -/
theorem cycleR_length_iff (env : Env) (w : World τ) :
    cycleR env w = (cycleHeader env >>= actOn env) w ∧
      lengthRead env w <+: (w.read env 1).input ∧
      (LengthKept env w ↔ (TypeRead env w → Complete (lengthRead env w) ∧
        digitsValue (lengthRead env w) ≤ maxMsgLen)) := by
  constructor
  · exact cycleR_eq env w
  · constructor
    · exact lengthBytes_prefix env 5 _
    · exact lengthKept_iff env w

/-- A client that hears these bytes, and then nothing. -/
def hearing (input : Bytes) : World Unit := { receiving [] with input := input }

/-- A `PINGRESP` whose remaining length breaks off: what there is of it is acted on. -/
theorem not_lengthKept_cut : ¬ LengthKept calm (hearing [0xD0, 0x85]) := by
  intro kept
  have proper := (lengthKept_iff calm (hearing [0xD0, 0x85])).mp kept (by decide +kernel)
  have numeral : Numeral [0x85] := proper.1.1
  cases numeral with
  | last lt => exact absurd lt (by decide)
  | more ge rest => cases rest

end AcnSdk.Mqtt.Client

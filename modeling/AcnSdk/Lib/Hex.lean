/-
Bytes written as hexadecimal digits.

* `hexEncode_inj` — different bytes are written differently.
-/

import AcnSdk.Lib.Bytes

namespace AcnSdk.Lib

/-- A digit of `%x`. -/
def hexChar (d : Nat) : Byte := UInt8.ofNat (if d < 10 then 0x30 + d else 0x57 + d)

/-- `%02x`. -/
def hexByte (b : Byte) : Bytes := [hexChar (b.toNat / 16), hexChar (b.toNat % 16)]

/-- `hex_encode`. -/
def hexEncode (src : Bytes) : Bytes := src.flatMap hexByte

theorem hexChar_inj {d e : Nat} (hd : d < 16) (he : e < 16) (same : hexChar d = hexChar e) :
    d = e := by
  have all : ∀ d e : Fin 16, hexChar d = hexChar e → d = e := by decide
  exact congrArg Fin.val (all ⟨d, hd⟩ ⟨e, he⟩ same)

theorem hexByte_inj {b c : Byte} (same : hexByte b = hexByte c) : b = c := by
  obtain ⟨high, low⟩ : hexChar (b.toNat / 16) = hexChar (c.toNat / 16) ∧
      hexChar (b.toNat % 16) = hexChar (c.toNat % 16) := by
    simpa [hexByte] using same
  have hb := b.toNat_lt
  have hc := c.toNat_lt
  have high' := hexChar_inj (by omega) (by omega) high
  have low' := hexChar_inj (by omega) (by omega) low
  apply UInt8.toNat_inj.mp
  omega

theorem hexEncode_length (src : Bytes) : (hexEncode src).length = 2 * src.length := by
  induction src with
  | nil => rfl
  | cons b src ih =>
      rw [hexEncode, List.flatMap_cons, List.length_append, List.length_cons]
      rw [hexEncode] at ih
      rw [ih, hexByte, List.length_cons, List.length_singleton]
      omega

theorem hexEncode_inj {s t : Bytes} (same : hexEncode s = hexEncode t) : s = t := by
  induction s generalizing t with
  | nil =>
      cases t with
      | nil => rfl
      | cons c t => simp [hexEncode, hexByte] at same
  | cons b s ih =>
      cases t with
      | nil => simp [hexEncode, hexByte] at same
      | cons c t =>
          obtain ⟨first, rest⟩ : hexByte b = hexByte c ∧ hexEncode s = hexEncode t :=
            List.append_inj (by simpa [hexEncode] using same) rfl
          rw [hexByte_inj first, ih rest]

end AcnSdk.Lib

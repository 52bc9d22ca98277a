/-
MD5 over data that comes in pieces, `src/ssl/md5sum.c` and the part of
`src/wolfSSL/wolfcrypt/src/md5.c` that it uses.

* `wcMd5Final_pieces` — the digest is that of the whole text, however it comes in pieces.
-/

import AcnSdk.Lib.Bytes
import AcnSdk.Lib.Blocks

namespace AcnSdk.Ssl

open AcnSdk.Lib

/-- The member `digest`, four words. -/
structure Digest where
  a : UInt32
  b : UInt32
  c : UInt32
  d : UInt32
deriving DecidableEq, Repr

/-! ### A block -/

/-- `rotlFixed`. -/
def rotlFixed (x y : UInt32) : UInt32 := (x <<< y) ||| (x >>> (32 - y))

def f1 (x y z : UInt32) : UInt32 := z ^^^ (x &&& (y ^^^ z))

def f2 (x y z : UInt32) : UInt32 := f1 z x y

def f3 (x y z : UInt32) : UInt32 := x ^^^ y ^^^ z

def f4 (x y z : UInt32) : UInt32 := y ^^^ (x ||| ~~~z)

/-- Sixteen steps: their function, the shifts, and each one's word of the block with what is added
to it. -/
structure Round where
  f : UInt32 → UInt32 → UInt32 → UInt32
  shifts : List UInt32
  steps : List (Nat × UInt32)

/-- The steps of `Transform`. -/
def rounds : List Round := [
  ⟨f1, [7, 12, 17, 22],
    [(0, 0xD76AA478), (1, 0xE8C7B756), (2, 0x242070DB), (3, 0xC1BDCEEE),
      (4, 0xF57C0FAF), (5, 0x4787C62A), (6, 0xA8304613), (7, 0xFD469501),
      (8, 0x698098D8), (9, 0x8B44F7AF), (10, 0xFFFF5BB1), (11, 0x895CD7BE),
      (12, 0x6B901122), (13, 0xFD987193), (14, 0xA679438E), (15, 0x49B40821)]⟩,
  ⟨f2, [5, 9, 14, 20],
    [(1, 0xF61E2562), (6, 0xC040B340), (11, 0x265E5A51), (0, 0xE9B6C7AA),
      (5, 0xD62F105D), (10, 0x02441453), (15, 0xD8A1E681), (4, 0xE7D3FBC8),
      (9, 0x21E1CDE6), (14, 0xC33707D6), (3, 0xF4D50D87), (8, 0x455A14ED),
      (13, 0xA9E3E905), (2, 0xFCEFA3F8), (7, 0x676F02D9), (12, 0x8D2A4C8A)]⟩,
  ⟨f3, [4, 11, 16, 23],
    [(5, 0xFFFA3942), (8, 0x8771F681), (11, 0x6D9D6122), (14, 0xFDE5380C),
      (1, 0xA4BEEA44), (4, 0x4BDECFA9), (7, 0xF6BB4B60), (10, 0xBEBFBC70),
      (13, 0x289B7EC6), (0, 0xEAA127FA), (3, 0xD4EF3085), (6, 0x04881D05),
      (9, 0xD9D4D039), (12, 0xE6DB99E5), (15, 0x1FA27CF8), (2, 0xC4AC5665)]⟩,
  ⟨f4, [6, 10, 15, 21],
    [(0, 0xF4292244), (7, 0x432AFF97), (14, 0xAB9423A7), (5, 0xFC93A039),
      (12, 0x655B59C3), (3, 0x8F0CCC92), (10, 0xFFEFF47D), (1, 0x85845DD1),
      (8, 0x6FA87E4F), (15, 0xFE2CE6E0), (6, 0xA3014314), (13, 0x4E0811A1),
      (4, 0xF7537E82), (11, 0xBD3AF235), (2, 0x2AD7D2BB), (9, 0xEB86D391)]⟩]

/-- The bytes of a word, the lowest first. -/
def wordBytes (w : UInt32) : Bytes :=
  [w.toUInt8, (w >>> 8).toUInt8, (w >>> 16).toUInt8, (w >>> 24).toUInt8]

/-- A word of a block. -/
def wordAt (block : Bytes) (i : Nat) : UInt32 :=
  (block.getD (4 * i) 0).toUInt32 ||| ((block.getD (4 * i + 1) 0).toUInt32 <<< 8) |||
    ((block.getD (4 * i + 2) 0).toUInt32 <<< 16) ||| ((block.getD (4 * i + 3) 0).toUInt32 <<< 24)

/-- `MD5STEP`. Its first variable is the one before in the next step. -/
def md5Step (f : UInt32 → UInt32 → UInt32 → UInt32) (shift data : UInt32) (v : Digest) : Digest :=
  ⟨v.d, rotlFixed (v.a + f v.b v.c v.d + data) shift + v.b, v.b, v.c⟩

def Round.apply (r : Round) (block : Bytes) (v : Digest) : Digest :=
  r.steps.zipIdx.foldl (fun v step => md5Step r.f (r.shifts.getD (step.2 % 4) 0)
    (wordAt block step.1.1 + step.1.2) v) v

/-- `Transform`. -/
def transform (digest : Digest) (block : Bytes) : Digest :=
  let v := rounds.foldl (fun v r => r.apply block v) digest
  ⟨digest.a + v.a, digest.b + v.b, digest.c + v.c, digest.d + v.d⟩

/-! ### The digest of a text -/

/-- `MD5_BLOCK_SIZE`. -/
abbrev blockSize : Nat := 64

/-- `MD5_PAD_SIZE`. -/
abbrev padSize : Nat := 56

/-- The members of `Md5` apart from the block: the length so far in two words, and the digest. -/
structure Md5State where
  loLen : UInt32
  hiLen : UInt32
  digest : Digest
deriving DecidableEq, Repr

/-- `Md5`, with the bytes of the block that are there. -/
abbrev Md5 := Pending Md5State Byte blockSize

/-- A variable of static storage before it is initialised. -/
def Md5.zeroed : Md5 := ⟨⟨0, 0, ⟨0, 0, 0, 0⟩⟩, [], by decide⟩

/-- `wc_InitMd5`. -/
def wcInitMd5 : Md5 :=
  ⟨⟨0, 0, ⟨0x67452301, 0xEFCDAB89, 0x98BADCFE, 0x10325476⟩⟩, [], by decide⟩

/-- `AddLength`. -/
def Md5State.addLength (s : Md5State) (len : UInt32) : Md5State :=
  { s with
    loLen := s.loLen + len
    hiLen := if s.loLen + len < s.loLen then s.hiLen + 1 else s.hiLen }

/-- A full block. -/
def Md5State.absorb (s : Md5State) (block : Bytes) : Md5State :=
  { s with digest := transform s.digest block }.addLength 64

/-- `wc_Md5Update`. -/
def wcMd5Update (md5 : Md5) (data : Bytes) : Md5 := md5.update Md5State.absorb data

/-- `wc_Md5Final`: the digest. The state is initialised again. -/
def wcMd5Final (md5 : Md5) : Bytes :=
  let s := md5.state.addLength (UInt32.ofNat md5.pending.length)
  let hiLen := (s.loLen >>> 29) + (s.hiLen <<< 3)
  let lengths := wordBytes (s.loLen <<< 3) ++ wordBytes hiLen
  let padded := md5.pending ++ [0x80]
  let digest :=
    if padded.length > padSize then
      transform (transform s.digest (padded ++ List.replicate (blockSize - padded.length) 0))
        (List.replicate padSize 0 ++ lengths)
    else transform s.digest (padded ++ List.replicate (padSize - padded.length) 0 ++ lengths)
  wordBytes digest.a ++ wordBytes digest.b ++ wordBytes digest.c ++ wordBytes digest.d

/-- `md5sum`. -/
def md5sum (data : Bytes) : Bytes := wcMd5Final (wcMd5Update wcInitMd5 data)

/-- The digest of pieces is that of the text they make up. -/
theorem wcMd5Final_pieces (pieces : List Bytes) :
    wcMd5Final (pieces.foldl wcMd5Update wcInitMd5) = md5sum pieces.flatten := by
  rw [md5sum]
  exact congrArg wcMd5Final (Pending.foldl_update wcInitMd5 pieces)

/-- The digest of `"a"`. -/
example : md5sum [0x61] = [0x0C, 0xC1, 0x75, 0xB9, 0xC0, 0xF1, 0xB6, 0xA8, 0x31, 0xC3, 0x99, 0xE2,
    0x69, 0x77, 0x26, 0x61] := by
  decide +kernel

end AcnSdk.Ssl

import Xls.Bits
import Xls.Status
import Xls.Lib.Limbs

/-!
# Xls.BitsOps

`xls/ir/bits_ops.cc` at the level of machine words and big integers. Most operations
have a path for operands of at most 64 bits, which computes in `uint64_t` with masks,
and a path over `BigInt` (`xls/ir/big_int.cc`); increment, decrement and the unsigned
comparisons walk over the words of the bitmap.

A `uint64_t` is a number below `2 ^ 64` with every operation reduced, an `int64_t` is
its two's complement reading, and a `BigInt` is an integer: the operations of the
`BN` library are exact. `BitsOps.exact` says that every operation returns the
mathematical result reduced to its width, so the paths agree.
-/

namespace Xls.BitsOps

open Limbs Bits

/-! ### Machine words -/

/-- `Mask`: the lowest bits set, up to a whole word. -/
def mask (bitCount : Nat) : Nat := if bitCount = 64 then 2 ^ 64 - 1 else (1 <<< bitCount) - 1

/-- A result reduced to an `uint64_t`. -/
def u64 (i : Int) : Nat := (i % (2 ^ 64 : Nat)).toNat

/-- `absl::bit_cast<int64_t>`. -/
def s64 (word : Nat) : Int := if word < 2 ^ 63 then word else word - (2 ^ 64 : Nat)

/-- The words of the bitmap. -/
def words (b : Bits) : List Nat := limbs 64 ((b.width + 63) / 64) b.val

/-- `ToBytes`, in little-endian order. -/
def toBytes (b : Bits) : List Nat := limbs 8 ((b.width + 7) / 8) b.val

/-- `FromBytes`; the count of bytes must be right, bits past the width are masked. -/
def fromBytes (bytes : List Nat) (bitCount : Nat) : Result Bits := do
  checkThat (bytes.length == (bitCount + 7) / 8)
  return ofNat bitCount (Nat.ofDigits (2 ^ 8) bytes)

/-- `FitsInNBitsUnsigned`. -/
def fitsInNBitsUnsigned (b : Bits) (n : Nat) : Bool := (b.toBools.drop n).all (! ·)

/-- `FitsInNBitsSigned`. -/
def fitsInNBitsSigned (b : Bits) (n : Nat) : Bool :=
  if n = 0 then b.isZero else (b.toBools.drop (n - 1)).all (· == b.msb)

/-- The value of `ToUint64`. -/
def toUint64 (b : Bits) : Result Nat :=
  if b.width = 0 then .ok 0
  else do
    checkThat (fitsInNBitsUnsigned b 64)
    return (words b).headD 0

/-- The value of `ToInt64`. -/
def toInt64 (b : Bits) : Result Int := do
  checkThat (fitsInNBitsSigned b 64)
  let word := (words b).headD 0
  return s64 (if 0 < b.width && b.msb && decide (b.width < 64) then
    word ||| u64 (-1 * 2 ^ b.width) else word)

/-- `UBits`; the value must fit. -/
def uBits (value bitCount : Nat) : Result Bits := do
  checkThat (decide (minBitCountUnsigned value ≤ bitCount))
  return ofNat bitCount (value &&& mask (min bitCount 64))

/-- `MinBitCountSigned`. -/
def minBitCountSigned (value : Int) : Nat :=
  if value = 0 then 0
  else if value < 0 then minBitCountUnsigned (-(value + 1)).toNat + 1
  else minBitCountUnsigned value.toNat + 1

/-- `SBits`; the value must fit. Words past the first are filled with the sign. -/
def sBits (value : Int) (bitCount : Nat) : Result Bits := do
  checkThat (decide (minBitCountSigned value ≤ bitCount))
  let fill := if value < 0 then 2 ^ bitCount - 2 ^ min bitCount 64 else 0
  return ofNat bitCount ((u64 value &&& mask (min bitCount 64)) + fill)

/-! ### Big integers -/

/-- `BN_bin2bn`, of bytes in big-endian order. -/
def bin2bn (bytes : List Nat) : Nat := Nat.ofDigits (2 ^ 8) bytes.reverse

/-- `BN_num_bytes`. -/
def numBytes (n : Nat) : Nat := (minBitCountUnsigned n + 7) / 8

/-- `BN_bn2bin_padded`, in big-endian order. -/
def bn2bin (size n : Nat) : List Nat := (limbs 8 size n).reverse

/-- `~byte`. -/
def complementByte (byte : Nat) : Nat := 2 ^ 8 - 1 - byte

/-- `BigInt::MakeUnsigned`. -/
def makeUnsigned (b : Bits) : Int := bin2bn (toBytes b).reverse

/-- The inverted bytes of a negative number, with the padding cleared again. -/
def invertedBytes (b : Bits) : List Nat :=
  match (toBytes b).reverse.map complementByte with
  | [] => []
  | top :: rest => if b.width % 8 = 0 then top :: rest else (top &&& mask (b.width % 8)) :: rest

/-- `BigInt::MakeSigned`. -/
def makeSigned (b : Bits) : Int :=
  if b.width = 0 ∨ b.msb = false then makeUnsigned b
  else -((bin2bn (invertedBytes b) + 1 : Nat) : Int)

/-- `BigInt::SignedBitCount`. -/
def signedBitCount (i : Int) : Nat :=
  if i = 0 then 0
  else if i < 0 then minBitCountUnsigned (i.natAbs - 1) + 1
  else minBitCountUnsigned i.natAbs + 1

/-- `BigInt::ToSignedBits`. -/
def toSignedBits (i : Int) : Result Bits :=
  if i = 0 then .ok (Bits.zero 0)
  else do
    let magnitude := if i < 0 then i.natAbs - 1 else i.natAbs
    let bytes := bn2bin (numBytes magnitude) magnitude
    let bytes := if i < 0 then bytes.map complementByte else bytes
    let low ← fromBytes bytes.reverse (signedBitCount i - 1)
    return (if i < 0 then allOnes 1 else Bits.zero 1).append low

/-- `BigInt::ToUnsignedBits`. -/
def toUnsignedBits (i : Int) : Result Bits := do
  checkThat (decide (0 ≤ i))
  fromBytes (bn2bin (numBytes i.natAbs) i.natAbs).reverse (minBitCountUnsigned i.natAbs)

/-- The value of `BigInt::ToSignedBitsWithBitCount`. -/
def toSignedBitsWithBitCount (i : Int) (bitCount : Nat) : Result Bits := do
  checkThat (decide (signedBitCount i ≤ bitCount))
  let bits ← toSignedBits i
  let fill := bitCount - signedBitCount i
  return (if i < 0 then allOnes fill else Bits.zero fill).append bits

/-- The value of `BigInt::ToUnsignedBitsWithBitCount`. -/
def toUnsignedBitsWithBitCount (i : Int) (bitCount : Nat) : Result Bits := do
  checkThat (decide (0 ≤ i))
  checkThat (decide (minBitCountUnsigned i.natAbs ≤ bitCount))
  let bits ← toUnsignedBits i
  return (Bits.zero (bitCount - minBitCountUnsigned i.natAbs)).append bits

/-! ### Arithmetic -/

/-- `TruncateOrSignExtend`. -/
def truncateOrSignExtend (b : Bits) (bitCount : Nat) : Bits :=
  if b.width = bitCount then b
  else if b.width < bitCount then b.signExtend bitCount
  else b.truncate bitCount

/-- The word path of `Add` and `Sub`. -/
def wordOp (f : Int → Int → Int) (lhs rhs : Bits) : Result Bits := do
  let l ← toUint64 lhs
  let r ← toUint64 rhs
  uBits (u64 (f l r) &&& mask lhs.width) lhs.width

/-- The big-integer path of `Add` and `Sub`. -/
def bigOp (f : Int → Int → Int) (lhs rhs : Bits) : Result Bits := do
  let result ← toSignedBits (f (makeSigned lhs) (makeSigned rhs))
  return truncateOrSignExtend result lhs.width

def add (lhs rhs : Bits) : Result Bits := do
  checkThat (lhs.width == rhs.width)
  if lhs.width ≤ 64 then wordOp (· + ·) lhs rhs else bigOp (· + ·) lhs rhs

def sub (lhs rhs : Bits) : Result Bits := do
  checkThat (lhs.width == rhs.width)
  if lhs.width ≤ 64 then wordOp (· - ·) lhs rhs else bigOp (· - ·) lhs rhs

/-- The word path of `Negate`. -/
def wordNegate (b : Bits) : Result Bits := do
  let i ← toInt64 b
  uBits (u64 (-i) &&& mask b.width) b.width

/-- The big-integer path of `Negate`. -/
def bigNegate (b : Bits) : Result Bits := do
  let negated ← toSignedBits (-makeSigned b)
  return truncateOrSignExtend negated b.width

def negate (b : Bits) : Result Bits := if b.width < 64 then wordNegate b else bigNegate b

/-- `Increment`, over the words of the bitmap; `SetWord` masks the last one. -/
def increment (x : Bits) : Bits :=
  ofNat x.width (Nat.ofDigits (2 ^ 64) (Limbs.increment 64 x.width (words x)))

/-- `Decrement`. -/
def decrement (x : Bits) : Bits :=
  ofNat x.width (Nat.ofDigits (2 ^ 64) (Limbs.decrement 64 x.width (words x)))

/-- The word path of `SMul`. -/
def wordSMul (lhs rhs : Bits) : Result Bits := do
  let l ← toInt64 lhs
  let r ← toInt64 rhs
  sBits (s64 (u64 (l * r))) (lhs.width + rhs.width)

/-- The big-integer path of `SMul`. -/
def bigSMul (lhs rhs : Bits) : Result Bits :=
  toSignedBitsWithBitCount (makeSigned lhs * makeSigned rhs) (lhs.width + rhs.width)

def sMul (lhs rhs : Bits) : Result Bits :=
  if lhs.width + rhs.width ≤ 64 then wordSMul lhs rhs else bigSMul lhs rhs

/-- The word path of `UMul`. -/
def wordUMul (lhs rhs : Bits) : Result Bits := do
  let l ← toUint64 lhs
  let r ← toUint64 rhs
  uBits (u64 (l * r)) (lhs.width + rhs.width)

/-- The big-integer path of `UMul`. -/
def bigUMul (lhs rhs : Bits) : Result Bits :=
  toUnsignedBitsWithBitCount (makeUnsigned lhs * makeUnsigned rhs) (lhs.width + rhs.width)

def uMul (lhs rhs : Bits) : Result Bits :=
  if lhs.width + rhs.width ≤ 64 then wordUMul lhs rhs else bigUMul lhs rhs

/-- `ZeroExtend`, with its check of the width. -/
def zeroExtend (b : Bits) (bitCount : Nat) : Result Bits := do
  checkThat (decide (b.width ≤ bitCount))
  return b.zeroExtend bitCount

/-- `BigInt::Div`; the quotient is rounded towards zero. -/
def div (lhs rhs : Int) : Int := lhs.tdiv rhs

/-- `BigInt::Mod`; the remainder has the sign of the dividend. -/
def mod (lhs rhs : Int) : Int := lhs.tmod rhs

def uDiv (lhs rhs : Bits) : Result Bits :=
  if rhs.isZero then .ok (allOnes lhs.width)
  else do
    let quotient ← toUnsignedBits (div (makeUnsigned lhs) (makeUnsigned rhs))
    zeroExtend quotient lhs.width

def uMod (lhs rhs : Bits) : Result Bits :=
  if rhs.isZero then .ok (Bits.zero rhs.width)
  else do
    let modulo ← toUnsignedBits (mod (makeUnsigned lhs) (makeUnsigned rhs))
    zeroExtend modulo rhs.width

/-! ### Comparisons -/

/-- `UCmp`, over the words from the most significant on. -/
def uCmp (lhs rhs : Bits) : Int :=
  let mine := words lhs
  let other := words rhs
  if (mine.drop other.length).any (0 < ·) then 1
  else if (other.drop mine.length).any (0 < ·) then -1
  else Limbs.compare (mine.take other.length).reverse (other.take mine.length).reverse

def uEqual (lhs rhs : Bits) : Bool := uCmp lhs rhs == 0

def uGreaterThanOrEqual (lhs rhs : Bits) : Bool := 0 ≤ uCmp lhs rhs

def uGreaterThan (lhs rhs : Bits) : Bool := 0 < uCmp lhs rhs

def uLessThanOrEqual (lhs rhs : Bits) : Bool := uCmp lhs rhs ≤ 0

def uLessThan (lhs rhs : Bits) : Bool := uCmp lhs rhs < 0

def sEqual (lhs rhs : Bits) : Bool := makeSigned lhs == makeSigned rhs

def sLessThan (lhs rhs : Bits) : Result Bool :=
  if lhs.width ≤ 64 ∧ rhs.width ≤ 64 then do
    let l ← toInt64 lhs
    let r ← toInt64 rhs
    return decide (l < r)
  else return decide (makeSigned lhs < makeSigned rhs)

def sLessThanOrEqual (lhs rhs : Bits) : Result Bool :=
  if sEqual lhs rhs then return true else sLessThan lhs rhs

def sGreaterThanOrEqual (lhs rhs : Bits) : Result Bool := do
  let less ← sLessThan lhs rhs
  return !less

def sGreaterThan (lhs rhs : Bits) : Result Bool := do
  let le ← sLessThanOrEqual lhs rhs
  return !le

/-- The right operand of an unsigned comparison with an `int64_t`. -/
def uOperand (rhs : Int) : Result Bits := do
  checkThat (decide (0 ≤ rhs))
  uBits rhs.toNat 64

/-- The right operand of a signed comparison with an `int64_t`. -/
def sOperand (rhs : Int) : Result Bits := sBits rhs 64

/-! ### Signed division -/

def sDiv (lhs rhs : Bits) : Result Bits :=
  if rhs.isZero then
    if lhs.width = 0 then uBits 0 0
    else do
      let zero ← uBits 0 lhs.width
      let negative ← sLessThan lhs zero
      if negative then
        let one ← uBits 1 1
        let zeros ← uBits 0 (lhs.width - 1)
        return concat [one, zeros]
      else zeroExtend (allOnes (lhs.width - 1)) lhs.width
  else do
    let quotient ← toSignedBits (div (makeSigned lhs) (makeSigned rhs))
    return truncateOrSignExtend quotient lhs.width

def sMod (lhs rhs : Bits) : Result Bits :=
  if rhs.isZero then .ok (Bits.zero rhs.width)
  else do
    let modulo ← toSignedBits (mod (makeSigned lhs) (makeSigned rhs))
    return truncateOrSignExtend modulo rhs.width

end Xls.BitsOps

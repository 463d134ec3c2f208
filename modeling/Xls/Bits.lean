import Xls.Lib.BoolList

/-!
# Xls.Bits

Bit vectors of a run-time width (`xls/ir/bits.h`) and the operations of
`xls/ir/bits_ops.cc`.

A `Bits` is a width together with an unsigned value that fits in it; the bound
is a field, so a vector with stray high bits cannot be built. Signed operations
read the value in two's complement (`Bits.toInt`). Arithmetic that wraps reduces
modulo `2 ^ width`; the operations whose result width differs from the operand
widths (`umul`, `concat`, the extensions and slices) say so in their `width`
lemma.
-/

namespace Xls

open BoolList Nat

/-- `LsbOrMsb`. -/
inductive LsbOrMsb
  | lsb
  | msb
  deriving DecidableEq, Repr

/-- A bit vector: `width` bits holding the unsigned value `val`. -/
structure Bits where
  width : Nat
  val : Nat
  isLt : val < 2 ^ width
  deriving DecidableEq

namespace Bits

variable {a b : Bits} {w i : Nat}

theorem ext_iff' : a = b ↔ a.width = b.width ∧ a.val = b.val := by
  cases a
  cases b
  simp

@[ext] theorem ext (hw : a.width = b.width) (hv : a.val = b.val) : a = b :=
  ext_iff'.2 ⟨hw, hv⟩

theorem mod_two_pow_lt (n w : Nat) : n % 2 ^ w < 2 ^ w := mod_lt _ (Nat.two_pow_pos w)

theorem two_pow_sub_one_lt (w : Nat) : 2 ^ w - 1 < 2 ^ w := sub_lt (Nat.two_pow_pos w) Nat.one_pos

/-- The low `w` bits of `n`; `UBits(n, w)` whenever `n` fits. -/
def ofNat (w n : Nat) : Bits := ⟨w, n % 2 ^ w, mod_two_pow_lt n w⟩

@[simp] theorem ofNat_width (w n : Nat) : (ofNat w n).width = w := rfl
@[simp] theorem ofNat_val (w n : Nat) : (ofNat w n).val = n % 2 ^ w := rfl

theorem ofNat_val_of_lt {n : Nat} (h : n < 2 ^ w) : (ofNat w n).val = n :=
  mod_eq_of_lt h

@[simp] theorem ofNat_self (b : Bits) : ofNat b.width b.val = b :=
  ext rfl (mod_eq_of_lt b.isLt)

/-- Two's complement encoding of `i` at width `w`. -/
def ofInt (w : Nat) (i : Int) : Bits := ofNat w (i % (2 ^ w : Nat)).toNat

@[simp] theorem ofInt_width (w : Nat) (i : Int) : (ofInt w i).width = w := rfl

/-- The value as a signed number. -/
def toInt (b : Bits) : Int :=
  if 2 * b.val < 2 ^ b.width then b.val else b.val - (2 ^ b.width : Nat)

/-- `Bits(w)`: all zeroes. -/
def zero (w : Nat) : Bits := ⟨w, 0, Nat.two_pow_pos w⟩

/-- `Bits::AllOnes(w)`. -/
def allOnes (w : Nat) : Bits := ⟨w, 2 ^ w - 1, two_pow_sub_one_lt w⟩

/-- `Bits::PowerOfTwo(i, w)`. -/
def powerOfTwo (i w : Nat) : Bits := ofNat w (2 ^ i)

/-- `Bits::MinSigned(w)`: only the sign bit set. -/
def minSigned (w : Nat) : Bits := if w = 0 then zero 0 else powerOfTwo (w - 1) w

@[simp] theorem zero_width (w : Nat) : (zero w).width = w := rfl
@[simp] theorem zero_val (w : Nat) : (zero w).val = 0 := rfl
@[simp] theorem allOnes_width (w : Nat) : (allOnes w).width = w := rfl
@[simp] theorem allOnes_val (w : Nat) : (allOnes w).val = 2 ^ w - 1 := rfl
@[simp] theorem powerOfTwo_width (i w : Nat) : (powerOfTwo i w).width = w := rfl

@[simp] theorem minSigned_width (w : Nat) : (minSigned w).width = w := by
  unfold minSigned
  split <;> simp_all

theorem powerOfTwo_val (h : i < w) : (powerOfTwo i w).val = 2 ^ i :=
  mod_eq_of_lt (Nat.pow_lt_pow_right (by omega) h)

/-- Bit `i`, counted from the least significant end. -/
def get (b : Bits) (i : Nat) : Bool := b.val.testBit i

/-- `GetFromMsb(0)`; `false` for a zero-width vector. -/
def msb (b : Bits) : Bool := b.get (b.width - 1)

def isZero (b : Bits) : Bool := b.val == 0
def isOne (b : Bits) : Bool := b.val == 1
def isAllOnes (b : Bits) : Bool := b.val == 2 ^ b.width - 1

/-- The bits, least significant first. -/
def toBools (b : Bits) : List Bool := BoolList.ofNat b.width b.val

/-- The vector with the given bits, least significant first. -/
def ofBools (l : List Bool) : Bits := ⟨l.length, toNat l, toNat_lt l⟩

@[simp] theorem toBools_length (b : Bits) : b.toBools.length = b.width :=
  length_ofNat _ _

@[simp] theorem ofBools_width (l : List Bool) : (ofBools l).width = l.length := rfl
@[simp] theorem ofBools_val (l : List Bool) : (ofBools l).val = toNat l := rfl

@[simp] theorem toNat_toBools (b : Bits) : toNat b.toBools = b.val := by
  rw [toBools, toNat_ofNat, mod_eq_of_lt b.isLt]

@[simp] theorem ofBools_toBools (b : Bits) : ofBools b.toBools = b := ext (by simp) (by simp)

@[simp] theorem toBools_ofBools (l : List Bool) : (ofBools l).toBools = l :=
  ofNat_toNat l

theorem get_of_width_le (h : b.width ≤ i) : b.get i = false :=
  testBit_lt_two_pow (lt_of_lt_of_le b.isLt (Nat.pow_le_pow_right (by omega) h))

theorem toBools_getElem (h : i < b.toBools.length) : b.toBools[i] = b.get i :=
  getElem_ofNat h

theorem toBools_getElem? (h : i < b.width) : b.toBools[i]? = some (b.get i) :=
  BoolList.getElem?_ofNat h

/-- Vectors of one width agree when their bits do. -/
theorem eq_of_get (hw : a.width = b.width) (h : ∀ i, i < a.width → a.get i = b.get i) : a = b := by
  refine ext hw (eq_of_testBit_eq fun i => ?_)
  by_cases hi : i < a.width
  · exact h i hi
  · exact (get_of_width_le (by omega)).trans (get_of_width_le (b := b) (by omega)).symm

/-! ### Modular arithmetic -/

def add (a b : Bits) : Bits := ofNat a.width (a.val + b.val)

def sub (a b : Bits) : Bits := ofNat a.width (a.val + 2 ^ a.width - b.val)

def negate (a : Bits) : Bits := ofNat a.width (2 ^ a.width - a.val)

def increment (a : Bits) : Bits := ofNat a.width (a.val + 1)

def decrement (a : Bits) : Bits := ofNat a.width (a.val + 2 ^ a.width - 1)

/-- Full-width unsigned product. -/
def umul (a b : Bits) : Bits := ofNat (a.width + b.width) (a.val * b.val)

/-- Full-width signed product. -/
def smul (a b : Bits) : Bits := ofInt (a.width + b.width) (a.toInt * b.toInt)

/-- Division by zero yields all ones. -/
def udiv (a b : Bits) : Bits := if b.isZero then allOnes a.width else ofNat a.width (a.val / b.val)

def umod (a b : Bits) : Bits := if b.isZero then zero b.width else ofNat b.width (a.val % b.val)

/-- Signed division truncates towards zero; division by zero saturates towards
the sign of the dividend. -/
def sdiv (a b : Bits) : Bits :=
  if b.isZero then
    if a.width = 0 then zero 0
    else if a.toInt < 0 then minSigned a.width
    else ofNat a.width (2 ^ (a.width - 1) - 1)
  else ofInt a.width (a.toInt.tdiv b.toInt)

/-- The remainder takes the sign of the dividend. -/
def smod (a b : Bits) : Bits :=
  if b.isZero then zero b.width else ofInt b.width (a.toInt.tmod b.toInt)

@[simp] theorem add_width (a b : Bits) : (a.add b).width = a.width := rfl
@[simp] theorem sub_width (a b : Bits) : (a.sub b).width = a.width := rfl
@[simp] theorem negate_width (a : Bits) : a.negate.width = a.width := rfl
@[simp] theorem increment_width (a : Bits) : a.increment.width = a.width := rfl
@[simp] theorem decrement_width (a : Bits) : a.decrement.width = a.width := rfl
@[simp] theorem umul_width (a b : Bits) : (a.umul b).width = a.width + b.width := rfl
@[simp] theorem smul_width (a b : Bits) : (a.smul b).width = a.width + b.width := rfl

@[simp] theorem udiv_width (a b : Bits) : (a.udiv b).width = a.width := by
  unfold udiv
  split <;> rfl

@[simp] theorem umod_width (a b : Bits) : (a.umod b).width = b.width := by
  unfold umod
  split <;> rfl

@[simp] theorem sdiv_width (a b : Bits) : (a.sdiv b).width = a.width := by
  unfold sdiv
  repeat' split
  all_goals simp_all

@[simp] theorem smod_width (a b : Bits) : (a.smod b).width = b.width := by
  unfold smod
  split <;> rfl

theorem add_val (a b : Bits) : (a.add b).val = (a.val + b.val) % 2 ^ a.width := rfl

theorem umul_val (a b : Bits) : (a.umul b).val = a.val * b.val := by
  refine mod_eq_of_lt ?_
  rw [pow_add]
  exact Nat.mul_lt_mul'' a.isLt b.isLt

/-! ### Extension, slicing and concatenation -/

def zeroExtend (a : Bits) (w : Nat) : Bits := ofNat w a.val

def signExtend (a : Bits) (w : Nat) : Bits := ofInt w a.toInt

/-- Bits `start` to `start + w - 1`. -/
def slice (a : Bits) (start w : Nat) : Bits := ofNat w (a.val >>> start)

def truncate (a : Bits) (w : Nat) : Bits := a.slice 0 w

/-- Two-operand concatenation; the first operand is the most significant. -/
def append (a b : Bits) : Bits :=
  ⟨a.width + b.width, a.val * 2 ^ b.width + b.val, by
    have ha := a.isLt
    have hb := b.isLt
    calc a.val * 2 ^ b.width + b.val < a.val * 2 ^ b.width + 2 ^ b.width := by omega
      _ = (a.val + 1) * 2 ^ b.width := by ring
      _ ≤ 2 ^ a.width * 2 ^ b.width := Nat.mul_le_mul_right _ (by omega)
      _ = 2 ^ (a.width + b.width) := (pow_add _ _ _).symm⟩

/-- `bits_ops::Concat`; the first operand holds the most significant bits. -/
def concat : List Bits → Bits
  | [] => zero 0
  | b :: bs => b.append (concat bs)

@[simp] theorem zeroExtend_width (a : Bits) (w : Nat) : (a.zeroExtend w).width = w := rfl
@[simp] theorem signExtend_width (a : Bits) (w : Nat) : (a.signExtend w).width = w := rfl
@[simp] theorem slice_width (a : Bits) (s w : Nat) : (a.slice s w).width = w := rfl
@[simp] theorem truncate_width (a : Bits) (w : Nat) : (a.truncate w).width = w := rfl
@[simp] theorem append_width (a b : Bits) : (a.append b).width = a.width + b.width := rfl
@[simp] theorem append_val (a b : Bits) :
    (a.append b).val = a.val * 2 ^ b.width + b.val := rfl

@[simp] theorem concat_width (bs : List Bits) : (concat bs).width = (bs.map width).sum := by
  induction bs with
  | nil => rfl
  | cons b bs ih => simp [concat, ih]

theorem zeroExtend_val (h : a.width ≤ w) : (a.zeroExtend w).val = a.val :=
  mod_eq_of_lt (lt_of_lt_of_le a.isLt (Nat.pow_le_pow_right (by omega) h))

/-- Sign extension keeps a non-negative value and lifts a negative one. -/
theorem signExtend_val (h : a.width ≤ w) :
    (a.signExtend w).val =
      if 2 * a.val < 2 ^ a.width then a.val else a.val + (2 ^ w - 2 ^ a.width) := by
  have hpow : 2 ^ a.width ≤ 2 ^ w := Nat.pow_le_pow_right (by omega) h
  have hlt := a.isLt
  simp only [signExtend, ofInt, ofNat_val, toInt]
  split
  · rw [Int.emod_eq_of_lt (by omega) (by omega), Int.toNat_natCast, mod_eq_of_lt (by omega)]
  · have hneg : ((a.val : Int) - (2 ^ a.width : Nat)) % (2 ^ w : Nat) =
        ((a.val + (2 ^ w - 2 ^ a.width) : Nat) : Int) := by
      rw [← Int.add_emod_right, Int.emod_eq_of_lt (by omega) (by omega)]
      omega
    rw [hneg, Int.toNat_natCast, mod_eq_of_lt (by omega)]

theorem slice_val (a : Bits) (s w : Nat) : (a.slice s w).val = a.val / 2 ^ s % 2 ^ w := by
  rw [slice, ofNat_val, shiftRight_eq_div_pow]

theorem truncate_val (a : Bits) (w : Nat) : (a.truncate w).val = a.val % 2 ^ w := by
  rw [truncate, slice_val, pow_zero, Nat.div_one]

theorem get_slice (a : Bits) (s w i : Nat) :
    (a.slice s w).get i = (decide (i < w) && a.get (s + i)) := by
  simp [get, slice]

/-! ### Shifts by a number of positions -/

def shiftLeftLogical (a : Bits) (n : Nat) : Bits := ofNat a.width (a.val <<< min n a.width)

def shiftRightLogical (a : Bits) (n : Nat) : Bits := ofNat a.width (a.val >>> min n a.width)

def shiftRightArith (a : Bits) (n : Nat) : Bits :=
  let k := min n a.width
  (if a.msb then allOnes k else zero k).append (a.slice k (a.width - k))

@[simp] theorem shiftLeftLogical_width (a : Bits) (n : Nat) :
    (a.shiftLeftLogical n).width = a.width := rfl
@[simp] theorem shiftRightLogical_width (a : Bits) (n : Nat) :
    (a.shiftRightLogical n).width = a.width := rfl

@[simp] theorem shiftRightArith_width (a : Bits) (n : Nat) :
    (a.shiftRightArith n).width = a.width := by
  unfold shiftRightArith
  dsimp only
  split <;> simp

theorem shiftRightLogical_val (a : Bits) (n : Nat) :
    (a.shiftRightLogical n).val = a.val / 2 ^ n := by
  have hdiv : a.val / 2 ^ min n a.width = a.val / 2 ^ n := by
    rcases Nat.le_total n a.width with h | h
    · rw [Nat.min_eq_left h]
    · have h1 : a.val < 2 ^ n := lt_of_lt_of_le a.isLt (Nat.pow_le_pow_right (by omega) h)
      rw [Nat.min_eq_right h, div_eq_of_lt a.isLt, div_eq_of_lt h1]
  have hlt : a.val / 2 ^ n < 2 ^ a.width := lt_of_le_of_lt (Nat.div_le_self _ _) a.isLt
  rw [shiftRightLogical, ofNat_val, shiftRight_eq_div_pow, hdiv, mod_eq_of_lt hlt]

/-! ### Bitwise operations and reductions -/

def not (a : Bits) : Bits := ofNat a.width (2 ^ a.width - 1 - a.val)

def and (a b : Bits) : Bits := ofNat a.width (a.val &&& b.val)

def or (a b : Bits) : Bits := ofNat a.width (a.val ||| b.val)

def xor (a b : Bits) : Bits := ofNat a.width (a.val ^^^ b.val)

/-- A one-bit vector. -/
def ofBool (b : Bool) : Bits := ofNat 1 b.toNat

def andReduce (a : Bits) : Bits := ofBool a.isAllOnes

def orReduce (a : Bits) : Bits := ofBool (!a.isZero)

/-- The number of set bits. -/
def popCount (a : Bits) : Nat := (a.toBools.filter id).length

def xorReduce (a : Bits) : Bits := ofBool (a.popCount % 2 == 1)

def reverse (a : Bits) : Bits := ofBools a.toBools.reverse

@[simp] theorem not_width (a : Bits) : a.not.width = a.width := rfl
@[simp] theorem and_width (a b : Bits) : (a.and b).width = a.width := rfl
@[simp] theorem or_width (a b : Bits) : (a.or b).width = a.width := rfl
@[simp] theorem xor_width (a b : Bits) : (a.xor b).width = a.width := rfl
@[simp] theorem ofBool_width (b : Bool) : (ofBool b).width = 1 := rfl
@[simp] theorem andReduce_width (a : Bits) : a.andReduce.width = 1 := rfl
@[simp] theorem orReduce_width (a : Bits) : a.orReduce.width = 1 := rfl
@[simp] theorem xorReduce_width (a : Bits) : a.xorReduce.width = 1 := rfl
@[simp] theorem reverse_width (a : Bits) : a.reverse.width = a.width := by simp [reverse]

@[simp] theorem ofBool_val (b : Bool) : (ofBool b).val = b.toNat := by
  cases b <;> rfl

@[simp] theorem get_ofBool (b : Bool) : (ofBool b).get 0 = b := by
  cases b <;> rfl

theorem get_not (h : i < a.width) : a.not.get i = !a.get i := by
  have heq : 2 ^ a.width - 1 - a.val = 2 ^ a.width - (a.val + 1) := by omega
  simp only [get, not, ofNat_val, heq, testBit_mod_two_pow, h, decide_true, Bool.true_and,
    testBit_two_pow_sub_succ a.isLt]

theorem get_and (h : i < a.width) : (a.and b).get i = (a.get i && b.get i) := by
  simp [get, and, h]

theorem get_or (h : i < a.width) : (a.or b).get i = (a.get i || b.get i) := by
  simp [get, or, h]

theorem get_xor (h : i < a.width) : (a.xor b).get i = (a.get i ^^ b.get i) := by
  simp [get, xor, h]

/-! ### One-hot and binary codes -/

/-- The lowest set bit alone, with one more position for "none". -/
def oneHotLsbToMsb (a : Bits) : Bits :=
  powerOfTwo (firstSet a.toBools) (a.width + 1)

/-- The highest set bit alone, with one more position for "none". -/
def oneHotMsbToLsb (a : Bits) : Bits :=
  let skipped := firstSet a.toBools.reverse
  powerOfTwo (if skipped < a.width then a.width - 1 - skipped else a.width) (a.width + 1)

/-- The single bit whose index is the value, or no bit if it is out of range. -/
def decode (a : Bits) (w : Nat) : Bits := if a.val < w then powerOfTwo a.val w else zero w

@[simp] theorem oneHotLsbToMsb_width (a : Bits) : a.oneHotLsbToMsb.width = a.width + 1 := rfl
@[simp] theorem oneHotMsbToLsb_width (a : Bits) : a.oneHotMsbToLsb.width = a.width + 1 := rfl

@[simp] theorem decode_width (a : Bits) (w : Nat) : (a.decode w).width = w := by
  unfold decode
  split <;> rfl

theorem oneHotLsbToMsb_val (a : Bits) :
    a.oneHotLsbToMsb.val = toNat (BoolList.oneHot a.toBools) := by
  have hle := firstSet_le_length a.toBools
  rw [toBools_length] at hle
  rw [toNat_oneHot, oneHotLsbToMsb, powerOfTwo_val (by omega)]

theorem oneHotMsbToLsb_val (a : Bits) :
    a.oneHotMsbToLsb.val = toNat (oneHotMsb a.toBools) := by
  rw [toNat_oneHotMsb, toBools_length, oneHotMsbToLsb, powerOfTwo_val]
  split <;> omega

/-! ### Comparisons -/

def ult (a b : Bits) : Bool := decide (a.val < b.val)
def ule (a b : Bits) : Bool := decide (a.val ≤ b.val)
def slt (a b : Bits) : Bool := decide (a.toInt < b.toInt)
def sle (a b : Bits) : Bool := decide (a.toInt ≤ b.toInt)

theorem not_ult (a b : Bits) : (!a.ult b) = b.ule a := by
  rw [ult, ule, ← decide_not]
  exact decide_eq_decide.2 Nat.not_lt

theorem not_slt (a b : Bits) : (!a.slt b) = b.sle a := by
  rw [slt, sle, ← decide_not]
  exact decide_eq_decide.2 Int.not_lt

theorem not_sle (a b : Bits) : (!a.sle b) = b.slt a := by
  rw [← not_slt, Bool.not_not]

/-- The smallest width that can hold `n`. -/
def minBitCountUnsigned (n : Nat) : Nat := if n = 0 then 0 else n.log2 + 1

/-- `CeilOfLog2`. -/
def ceilOfLog2 (n : Nat) : Nat := if n ≤ 1 then 0 else (n - 1).log2 + 1

theorem lt_two_pow_iff_minBitCountUnsigned {n : Nat} : n < 2 ^ w ↔ minBitCountUnsigned n ≤ w := by
  unfold minBitCountUnsigned
  split
  · rename_i h
    simp [h]
  · rename_i h
    rw [succ_le_iff, log2_lt h]

end Bits

end Xls

import Xls.BitsOps.Exact
import Xls.Interpreter.ToBools

/-!
# Xls.BitsOps.Shifts

The shifts and the slice update of `xls/ir/bits_ops.cc` as the source composes them from
slices and concatenations, and the interpreter's handlers that call them with a bounded
shift amount or a start index already compared with the width.
-/

namespace Xls

open Result Int

namespace BitsOps

open Bits

/-- `ShiftLeftLogical`. -/
def shiftLeftLogical (bits : Bits) (shiftAmount : Int) : Result Bits := do
  checkThat (decide (0 ≤ shiftAmount))
  let amount := min shiftAmount.toNat bits.width
  let zeros ← uBits 0 amount
  return concat [bits.slice 0 (bits.width - amount), zeros]

/-- `ShiftRightLogical`. -/
def shiftRightLogical (bits : Bits) (shiftAmount : Int) : Result Bits := do
  checkThat (decide (0 ≤ shiftAmount))
  let amount := min shiftAmount.toNat bits.width
  let zeros ← uBits 0 amount
  return concat [zeros, bits.slice amount (bits.width - amount)]

/-- `ShiftRightArith`. -/
def shiftRightArith (bits : Bits) (shiftAmount : Int) : Result Bits := do
  checkThat (decide (0 ≤ shiftAmount))
  let amount := min shiftAmount.toNat bits.width
  let zeros ← uBits 0 amount
  return concat [if bits.msb then allOnes amount else zeros,
    bits.slice amount (bits.width - amount)]

/-- A bit vector is determined by its bits. -/
theorem eq_of_toBools {a b : Bits} (h : a.toBools = b.toBools) : a = b := by
  refine Bits.ext ?_ ?_
  · rw [← toBools_length a, h, toBools_length]
  · rw [← toNat_toBools a, h, toNat_toBools]

theorem uBits_zero (w : Nat) : uBits 0 w = .ok (zero w) := by
  rw [uBits_of_lt (Nat.two_pow_pos w) (by omega)]
  exact congrArg _ (Bits.ext rfl (Nat.zero_mod _))

theorem shiftLeftLogical_eq (a : Bits) (n : Nat) :
    shiftLeftLogical a n = .ok (a.shiftLeftLogical n) := by
  have hle : 0 + (a.width - min n a.width) ≤ a.width := by omega
  unfold shiftLeftLogical
  rw [decide_eq_true (natCast_nonneg n)]
  simp only [checkThat_true, ok_bind, toNat_natCast, uBits_zero, pure_eq_ok]
  refine congrArg _ (eq_of_toBools ?_)
  rw [toBools_shiftLeftLogical, toBools_concat]
  simp [toBools_slice hle, toBools_zero]

theorem shiftRightLogical_eq (a : Bits) (n : Nat) :
    shiftRightLogical a n = .ok (a.shiftRightLogical n) := by
  have hle : min n a.width + (a.width - min n a.width) ≤ a.width := by omega
  unfold shiftRightLogical
  rw [decide_eq_true (natCast_nonneg n)]
  simp only [checkThat_true, ok_bind, toNat_natCast, uBits_zero, pure_eq_ok]
  refine congrArg _ (eq_of_toBools ?_)
  rw [toBools_shiftRightLogical, toBools_concat]
  simp [toBools_slice hle, toBools_zero]

theorem shiftRightArith_eq (a : Bits) (n : Nat) :
    shiftRightArith a n = .ok (a.shiftRightArith n) := by
  unfold shiftRightArith
  rw [decide_eq_true (natCast_nonneg n)]
  simp only [checkThat_true, ok_bind, toNat_natCast, uBits_zero, pure_eq_ok]
  refine congrArg _ (eq_of_toBools ?_)
  rw [Bits.shiftRightArith, toBools_concat, toBools_append]
  simp

end BitsOps

namespace Interpreter

/-- `HandleShll`. -/
def handleShll (input amount : Bits) : Result Bits :=
  BitsOps.shiftLeftLogical input (amount.bounded input.width)

/-- `HandleShrl`. -/
def handleShrl (input amount : Bits) : Result Bits :=
  BitsOps.shiftRightLogical input (amount.bounded input.width)

/-- `HandleShra`. -/
def handleShra (input amount : Bits) : Result Bits :=
  BitsOps.shiftRightArith input (amount.bounded input.width)

/-- `HandleBitSliceUpdate`. -/
def handleBitSliceUpdate (toUpdate start updateValue : Bits) : Bits :=
  if toUpdate.width ≤ start.val then toUpdate
  else toUpdate.bitSliceUpdate start.val updateValue

theorem handleBitSliceUpdate_eq (toUpdate start updateValue : Bits) :
    handleBitSliceUpdate toUpdate start updateValue =
      toUpdate.bitSliceUpdate start.val updateValue := by
  unfold handleBitSliceUpdate
  split
  · rename_i hout
    rw [Bits.bitSliceUpdate, if_pos hout]
  · rfl

end Interpreter

end Xls

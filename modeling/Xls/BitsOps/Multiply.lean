import Xls.BitsOps.Narrow

/-!
# Xls.BitsOps.Multiply

The value of a product by the numbers that its operands stand for, signed or unsigned, and what
happens to it when the operands or the result change their widths.
-/

namespace Xls.Bits

open Interpreter Nat

/-- The number that an operand of a product stands for. -/
def factor (signed : Bool) (x : Bits) : Int := if signed then x.toInt else x.val

/-- The multiplication, signed or unsigned. -/
def mulOp (signed : Bool) : ArithOp := if signed then .smul else .umul

variable {x y : Bits} {k w : Nat}

theorem slice_zero_eq_ofNat (x : Bits) (w : Nat) : x.slice 0 w = ofNat w x.val := by
  refine ext rfl ?_
  rw [slice_val, pow_zero, Nat.div_one, ofNat_val]

/-- Both products of the interpreter are products of numbers. -/
theorem arithOp_mulOp (signed : Bool) (w : Nat) (x y : Bits) :
    arithOp (mulOp signed) w x y = ofInt w (factor signed x * factor signed y) := by
  cases signed with
  | false =>
    have hcast : factor false x * factor false y = ((x.umul y).val : Nat) := by
      rw [umul_val, cast_mul]
      rfl
    rw [hcast, ofInt_natCast]
    show (if w < (x.umul y).width then _ else if (x.umul y).width < w then _ else _) = _
    split
    · exact slice_zero_eq_ofNat _ _
    · split
      · rfl
      · rename_i hle hge
        obtain rfl : w = (x.umul y).width := by omega
        exact (ofNat_self _).symm
  | true =>
    have hcast : factor true x * factor true y = (x.smul y).toInt :=
      (toInt_ofInt (BitsOps.fitsSigned_mul (fitsSigned_toInt x) (fitsSigned_toInt y))).symm
    rw [hcast]
    show (if w < (x.smul y).width then _ else if (x.smul y).width < w then _ else _) = _
    split
    · rename_i hlt
      exact slice_zero_eq_ofInt _ hlt.le
    · split
      · rfl
      · rename_i hle hge
        obtain rfl : w = (x.smul y).width := by omega
        exact (ofInt_toInt _).symm

/-- Modulo a power of two the sign of the operand does not matter. -/
theorem factor_emod (signed : Bool) (h : k ≤ x.width) :
    factor signed x % (2 ^ k : Nat) = (x.val : Int) % (2 ^ k : Nat) := by
  cases signed with
  | false => rfl
  | true =>
    have hdvd : ((2 ^ k : Nat) : Int) ∣ (2 ^ x.width : Nat) := by exact_mod_cast pow_dvd_pow 2 h
    show x.toInt % _ = _
    rw [← toInt_emod, Int.emod_emod_of_dvd _ hdvd]

/-- Operands that agree modulo a power of two have products that agree. -/
theorem ofInt_mul_congr {i j i' j' : Int} (hi : i % (2 ^ w : Nat) = i' % (2 ^ w : Nat))
    (hj : j % (2 ^ w : Nat) = j' % (2 ^ w : Nat)) : ofInt w (i * j) = ofInt w (i' * j') := by
  refine ofInt_congr ?_
  rw [Int.mul_emod, hi, hj, ← Int.mul_emod]

/-- A product as wide as its operands is the same signed and unsigned. -/
theorem arithOp_agnostic (signed signed' : Bool) (hx : x.width = w) (hy : y.width = w) :
    arithOp (mulOp signed) w x y = arithOp (mulOp signed') w x y := by
  rw [arithOp_mulOp, arithOp_mulOp]
  refine ofInt_mul_congr ?_ ?_
  · rw [factor_emod signed hx.ge, factor_emod signed' hx.ge]
  · rw [factor_emod signed hy.ge, factor_emod signed' hy.ge]

/-- The low bits of an operand, as many as the product has. -/
theorem factor_slice_emod (signed : Bool) (h : w ≤ x.width) :
    factor signed (x.slice 0 w) % (2 ^ w : Nat) = factor signed x % (2 ^ w : Nat) := by
  rw [factor_emod signed (le_refl w), factor_emod signed h, slice_val, pow_zero, Nat.div_one,
    Int.natCast_mod, Int.emod_emod_of_dvd _ (dvd_refl _)]

/-- The exact product, extended. -/
theorem extend_mul (signed : Bool) :
    (if signed then
        (arithOp (mulOp signed) (x.width + y.width) x y).signExtend w
      else (arithOp (mulOp signed) (x.width + y.width) x y).zeroExtend w) =
      arithOp (mulOp signed) w x y := by
  rw [arithOp_mulOp, arithOp_mulOp]
  cases signed with
  | false =>
    have hlt : x.val * y.val < 2 ^ (x.width + y.width) := BitsOps.mul_lt x y
    show (ofInt _ ((x.val : Int) * y.val)).zeroExtend w = ofInt w ((x.val : Int) * y.val)
    rw [← cast_mul, ofInt_natCast, ofInt_natCast, zeroExtend, ofNat_val_of_lt hlt]
  | true =>
    show (ofInt _ (x.toInt * y.toInt)).signExtend w = ofInt w (x.toInt * y.toInt)
    rw [signExtend, toInt_ofInt (BitsOps.fitsSigned_mul (fitsSigned_toInt x) (fitsSigned_toInt y))]

/-- An operand without its trailing zeros. -/
theorem factor_slice_top (signed : Bool) (hk : k ≤ x.width) (h : 2 ^ k ∣ x.val) :
    factor signed (x.slice k (x.width - k)) * (2 ^ k : Nat) = factor signed x := by
  cases signed with
  | false =>
    have hlt : x.val / 2 ^ k < 2 ^ (x.width - k) := by
      rw [Nat.div_lt_iff_lt_mul (Nat.two_pow_pos k), ← pow_add, Nat.sub_add_cancel hk]
      exact x.isLt
    show ((x.slice k (x.width - k)).val : Int) * (2 ^ k : Nat) = x.val
    rw [slice_val, mod_eq_of_lt hlt]
    exact_mod_cast Nat.div_mul_cancel h
  | true =>
    show (x.slice k (x.width - k)).toInt * (2 ^ k : Nat) = x.toInt
    rcases hk.lt_or_eq with hlt | heq
    · have hdvd : ((2 ^ k : Nat) : Int) ∣ x.toInt := by
        refine Int.dvd_of_emod_eq_zero ?_
        rw [show x.toInt = factor true x from rfl, factor_emod true hk]
        exact_mod_cast mod_eq_zero_of_dvd h
      rw [toInt_slice_top x hlt, Int.ediv_mul_cancel hdvd]
    · -- the whole operand is zero
      have hzero : x.val = 0 := eq_zero_of_dvd_of_lt (heq ▸ h) x.isLt
      have hval : (x.slice k (x.width - k)).val = 0 := by
        rw [slice_val, hzero, Nat.zero_div, zero_mod]
      rw [toInt, toInt, hval, hzero]
      simp

/-- Zeros at the low end. -/
theorem ofInt_append_zero (p : Int) (hk : k ≤ w) :
    (ofInt (w - k) p).append (zero k) = ofInt w (2 ^ k * p) := by
  refine ext (Nat.sub_add_cancel hk) ?_
  have hcast : (((ofInt (w - k) p).append (zero k)).val : Int) = (ofInt w (2 ^ k * p)).val := by
    have hpow : (2 ^ w : Nat) = 2 ^ k * 2 ^ (w - k) := by rw [← pow_add, Nat.add_sub_cancel' hk]
    rw [append_val, zero_val, zero_width, Nat.add_zero, cast_mul, ofInt_val_cast,
      ofInt_val_cast, hpow]
    push_cast
    rw [Int.mul_emod_mul_of_pos _ _ (by positivity), Int.mul_comm]
  exact_mod_cast hcast

end Xls.Bits

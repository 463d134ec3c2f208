import Xls.BitsOps.Exact

/-!
# Xls.ArithSimplification.Shifts

Slices and shifts as divisions by powers of two. On the signed reading, dropping low bits
and shifting arithmetically round towards minus infinity.
-/

namespace Xls.Bits

open Int

theorem toInt_eq (x : Bits) :
    x.toInt = x.val - (if 2 ^ x.width ≤ 2 * x.val then 1 else 0 : Int) * (2 ^ x.width : Nat) := by
  unfold toInt
  by_cases h : 2 * x.val < 2 ^ x.width
  · rw [if_pos h, if_neg (by omega), zero_mul, sub_zero]
  · rw [if_neg h, if_pos (by omega), one_mul]

variable {w s : Nat}

/-- A shifted number fits the bits that are left. -/
theorem fitsSigned_ediv (hs : s < w) {i : Int} (h : FitsSigned w i) :
    FitsSigned (w - s) (i / (2 ^ s : Nat)) := by
  have hpos : (0 : Int) < (2 ^ s : Nat) := by exact_mod_cast Nat.two_pow_pos s
  have hhalf : ∀ k, 0 < k → (2 ^ k : Nat) = 2 * 2 ^ (k - 1) := fun k hk => by
    rw [← pow_succ', Nat.sub_add_cancel hk]
  have hpow : ((2 ^ (w - 1) : Nat) : Int) = (2 ^ (w - s - 1) : Nat) * (2 ^ s : Nat) := by
    rw [← Nat.cast_mul, ← pow_add, show w - s - 1 + s = w - 1 by omega]
  obtain ⟨hlow, hhigh⟩ := h
  have hw := hhalf w (by omega)
  have hws := hhalf (w - s) (by omega)
  refine ⟨?_, ?_⟩
  · have hle : -((2 ^ (w - s - 1) : Nat) : Int) ≤ i / (2 ^ s : Nat) := by
      rw [Int.le_ediv_iff_mul_le hpos, neg_mul, ← hpow]
      omega
    omega
  · have hlt : i / (2 ^ s : Nat) < ((2 ^ (w - s - 1) : Nat) : Int) := by
      rw [Int.ediv_lt_iff_lt_mul hpos, ← hpow]
      omega
    omega

/-- The bits from a position on, signed. -/
theorem slice_top (x : Bits) (hs : s ≤ x.width) :
    x.slice s (x.width - s) = ofInt (x.width - s) (x.toInt / (2 ^ s : Nat)) := by
  have hpos : (0 : Int) < (2 ^ s : Nat) := by exact_mod_cast Nat.two_pow_pos s
  have hpow : ((2 ^ x.width : Nat) : Int) = (2 ^ s : Nat) * (2 ^ (x.width - s) : Nat) := by
    rw [← Nat.cast_mul, ← pow_add, Nat.add_sub_cancel' hs]
  refine ext rfl ?_
  have hcast : ((x.slice s (x.width - s)).val : Int) =
      (ofInt (x.width - s) (x.toInt / (2 ^ s : Nat))).val := by
    rw [ofInt_val_cast, slice_val, toInt_eq, hpow, mul_left_comm, sub_mul_ediv_left _ _ hpos.ne',
      sub_mul_emod_self_right]
    push_cast
    rfl
  exact_mod_cast hcast

theorem toInt_slice_top (x : Bits) (hs : s < x.width) :
    (x.slice s (x.width - s)).toInt = x.toInt / (2 ^ s : Nat) := by
  rw [slice_top x hs.le, toInt_ofInt (fitsSigned_ediv hs (fitsSigned_toInt x))]

/-- The low bits, signed. -/
theorem slice_zero_eq_ofInt (x : Bits) (hw : w ≤ x.width) : x.slice 0 w = ofInt w x.toInt := by
  have hdvd : ((2 ^ w : Nat) : Int) ∣ (2 ^ x.width : Nat) := by exact_mod_cast pow_dvd_pow 2 hw
  refine ext rfl ?_
  have hcast : ((x.slice 0 w).val : Int) = (ofInt w x.toInt).val := by
    rw [ofInt_val_cast, slice_val, pow_zero, Nat.div_one, natCast_mod, ← toInt_emod,
      emod_emod_of_dvd _ hdvd]
  exact_mod_cast hcast

theorem ofInt_toInt (x : Bits) : ofInt x.width x.toInt = x := by
  refine ext rfl ?_
  have hcast : ((ofInt x.width x.toInt).val : Int) = x.val := by
    rw [ofInt_val_cast, toInt_emod]
  exact_mod_cast hcast

theorem ofInt_sub_toInt (x y : Bits) (h : x.width = y.width) :
    x.sub y = ofInt x.width (x.toInt - y.toInt) := by
  rw [BitsOps.ofInt_sub_toInt x y h]
  refine ext rfl ?_
  have hlt := y.isLt
  rw [← h] at hlt
  have hcast : ((x.sub y).val : Int) = (ofInt x.width (x.val - y.val)).val := by
    rw [ofInt_val_cast, sub, ofNat_val, natCast_mod, Nat.cast_sub (by omega), Nat.cast_add,
      add_sub_right_comm, add_emod_right]
  exact_mod_cast hcast

theorem negate_eq_ofInt (x : Bits) : x.negate = ofInt x.width (-x.toInt) := by
  rw [BitsOps.ofInt_neg_toInt]
  refine ext rfl ?_
  have hlt := x.isLt
  have hcast : (x.negate.val : Int) = (ofInt x.width (-x.val)).val := by
    rw [ofInt_val_cast, negate, ofNat_val, natCast_mod, Nat.cast_sub hlt.le, sub_eq_neg_add,
      add_emod_right]
  exact_mod_cast hcast

theorem eq_ofInt_of_val {z : Bits} {i c : Int} (hw : z.width = w)
    (h : (z.val : Int) = i + c * (2 ^ w : Nat)) : z = ofInt w i := by
  subst hw
  refine ext rfl ?_
  have hcast : (z.val : Int) = (ofInt z.width i).val := by
    rw [ofInt_val_cast, ← add_mul_emod_self_right i c, ← h, ← toInt_emod, emod_emod_of_dvd]
    exact dvd_refl _
  exact_mod_cast hcast

theorem msb_eq_decide (x : Bits) : x.msb = decide (2 ^ x.width ≤ 2 * x.val) := by
  have h := BitsOps.msb_eq x
  by_cases hw : x.width = 0
  · have hmsb : x.msb = false := get_of_width_le (by omega)
    rw [← h, hmsb, Bool.and_false]
  · rw [← h, decide_eq_true (Nat.pos_of_ne_zero hw), Bool.true_and]

theorem shiftRightArith_val (x : Bits) (n : Nat) : (x.shiftRightArith n).val =
    (if x.msb then 2 ^ min n x.width - 1 else 0) * 2 ^ (x.width - min n x.width) +
      x.val / 2 ^ min n x.width % 2 ^ (x.width - min n x.width) := by
  unfold shiftRightArith
  rw [append_val, slice_val, slice_width]
  cases x.msb with
  | false => rfl
  | true => rfl

/-- The arithmetic shift divides the signed number, rounding down. -/
theorem shiftRightArith_eq (x : Bits) (n : Nat) :
    x.shiftRightArith n = ofInt x.width (x.toInt / (2 ^ n : Nat)) := by
  have hlt := x.isLt
  have hpos : (0 : Int) < (2 ^ n : Nat) := by exact_mod_cast Nat.two_pow_pos n
  have hval := shiftRightArith_val x n
  have htoInt := x.toInt_eq
  rw [msb_eq_decide] at hval
  refine eq_ofInt_of_val (c := if 2 ^ x.width ≤ 2 * x.val then 1 else 0)
    (shiftRightArith_width x n) ?_
  rcases Nat.le_total n x.width with hn | hn
  · have hpow : 2 ^ x.width = 2 ^ n * 2 ^ (x.width - n) := by
      rw [← pow_add, Nat.add_sub_cancel' hn]
    have hslice : x.val / 2 ^ n % 2 ^ (x.width - n) = x.val / 2 ^ n := by
      refine Nat.mod_eq_of_lt ?_
      rwa [Nat.div_lt_iff_lt_mul (Nat.two_pow_pos n), mul_comm, ← hpow]
    rw [Nat.min_eq_left hn, hslice] at hval
    by_cases hneg : 2 ^ x.width ≤ 2 * x.val
    · rw [if_pos (decide_eq_true hneg)] at hval
      rw [if_pos hneg] at htoInt ⊢
      rw [hval, htoInt, hpow, one_mul, Nat.cast_mul, sub_mul_ediv_left _ _ hpos.ne',
        Nat.cast_add, Nat.cast_mul, Nat.cast_sub (Nat.two_pow_pos n)]
      push_cast
      ring
    · rw [if_neg (by simpa using hneg)] at hval
      rw [if_neg hneg] at htoInt ⊢
      rw [hval, htoInt]
      simp
  · have hle : x.val < 2 ^ n := lt_of_lt_of_le hlt (Nat.pow_le_pow_right (by omega) hn)
    have hpow : 2 ^ x.width ≤ 2 ^ n := Nat.pow_le_pow_right (by omega) hn
    rw [Nat.min_eq_right hn, Nat.div_eq_of_lt hlt, Nat.zero_mod, Nat.sub_self, pow_zero] at hval
    by_cases hneg : 2 ^ x.width ≤ 2 * x.val
    · rw [if_pos (decide_eq_true hneg)] at hval
      rw [if_pos hneg] at htoInt ⊢
      have hquotient : x.toInt / (2 ^ n : Nat) = -1 := by
        rw [ediv_eq_iff_of_pos hpos]
        constructor
        · omega
        · omega
      have hone := Nat.two_pow_pos x.width
      rw [hval, hquotient]
      omega
    · rw [if_neg (by simpa using hneg)] at hval
      rw [if_neg hneg] at htoInt ⊢
      rw [hval, htoInt, zero_mul, zero_mul, sub_zero,
        ediv_eq_zero_of_lt (by omega) (by exact_mod_cast hle)]
      rfl

end Xls.Bits

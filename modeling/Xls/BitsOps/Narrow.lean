import Xls.ArithSimplification.Shifts
import Xls.Interpreter

/-!
# Xls.BitsOps.Narrow

Numbers whose leading bits are known. Operands that agree in their leading and in their
trailing bits compare as the bits between them do. A number whose leading bits are copies of
its sign fits in the bits below them, and a comparison of such numbers, signed or not, is one
of their low bits.
-/

namespace Xls

namespace Bits

/-! ### Known bits as divisions -/

variable {x y : Bits} {s t n : Nat}

/-- Equal bits from a position on. -/
theorem div_eq_of_get (h : ∀ i, s ≤ i → x.get i = y.get i) : x.val / 2 ^ s = y.val / 2 ^ s := by
  refine Nat.eq_of_testBit_eq fun i => ?_
  rw [Nat.testBit_div_two_pow, Nat.testBit_div_two_pow]
  exact h _ (Nat.le_add_left s i)

/-- Equal bits below a position. -/
theorem mod_eq_of_get (h : ∀ i, i < t → x.get i = y.get i) : x.val % 2 ^ t = y.val % 2 ^ t := by
  refine Nat.eq_of_testBit_eq fun i => ?_
  rw [Nat.testBit_mod_two_pow, Nat.testBit_mod_two_pow]
  by_cases hi : i < t
  · rw [show x.val.testBit i = y.val.testBit i from h i hi]
  · rw [decide_eq_false hi, Bool.false_and, Bool.false_and]

/-- A number whose bits from a position on are zero. -/
theorem val_lt_of_get (h : ∀ i, s ≤ i → x.get i = false) : x.val < 2 ^ s :=
  Nat.lt_pow_two_of_testBit _ h

/-- A number whose bits from a position on are copies of its sign fits in one bit more. -/
theorem fitsSigned_of_get (hs : s < x.width) (h : ∀ i, s ≤ i → i < x.width → x.get i = x.msb) :
    FitsSigned (s + 1) x.toInt := by
  have hlt := x.isLt
  have hsplit : 2 ^ x.width = 2 ^ s * 2 ^ (x.width - s) := by
    rw [← pow_add, Nat.add_sub_cancel' hs.le]
  have hmsb := BitsOps.msb_eq x
  rw [decide_eq_true (Nat.zero_lt_of_lt hs), Bool.true_and] at hmsb
  unfold FitsSigned toInt
  rw [pow_succ]
  by_cases hsign : x.msb = true
  · rw [hsign] at h hmsb
    have hge : 2 ^ x.width ≤ 2 * x.val := of_decide_eq_true hmsb.symm
    -- the bits from `s` on are all ones
    have hdiv : x.val / 2 ^ s = 2 ^ (x.width - s) - 1 := by
      refine Nat.eq_of_testBit_eq fun i => ?_
      rw [Nat.testBit_div_two_pow, Nat.testBit_two_pow_sub_one]
      by_cases hi : i < x.width - s
      · rw [decide_eq_true hi]
        exact h _ (Nat.le_add_left s i) (by omega)
      · rw [decide_eq_false hi]
        exact get_of_width_le (by omega)
    have hle : 2 ^ s * (2 ^ (x.width - s) - 1) ≤ x.val := by
      rw [← hdiv]
      exact Nat.mul_div_le _ _
    rw [Nat.mul_sub_one, ← hsplit] at hle
    rw [if_neg (by omega)]
    constructor
    · omega
    · omega
  · rw [Bool.not_eq_true] at hsign
    rw [hsign] at h hmsb
    have hge : 2 * x.val < 2 ^ x.width := by
      have := of_decide_eq_false hmsb.symm
      omega
    have hval : x.val < 2 ^ s := val_lt_of_get fun i hi => by
      by_cases hiw : i < x.width
      · exact h i hi hiw
      · exact get_of_width_le (by omega)
    rw [if_pos hge]
    constructor
    · omega
    · omega

/-- A number with a leading zero is not negative. -/
theorem fitsSigned_of_val_lt {k : Nat} (hk : k < x.width) (h : x.val < 2 ^ k) :
    x.toInt = x.val ∧ FitsSigned (k + 1) x.toInt := by
  have hpow : 2 ^ (k + 1) ≤ 2 ^ x.width := Nat.pow_le_pow_right Nat.two_pos hk
  rw [pow_succ] at hpow
  have htoInt : x.toInt = x.val := by
    unfold toInt
    rw [if_pos (by omega)]
  refine ⟨htoInt, ?_⟩
  rw [htoInt]
  unfold FitsSigned
  rw [pow_succ]
  omega

theorem FitsSigned.mono {m : Nat} {i : Int} (h : FitsSigned m i) (hmn : m ≤ n) :
    FitsSigned n i := by
  have hpow : 2 ^ m ≤ 2 ^ n := Nat.pow_le_pow_right Nat.two_pos hmn
  unfold FitsSigned at h ⊢
  omega

/-- The low bits of a number that fits have its value. -/
theorem toInt_slice_zero (hn : n ≤ x.width) (h : FitsSigned n x.toInt) :
    (x.slice 0 n).toInt = x.toInt := by
  rw [slice_zero_eq_ofInt x hn, toInt_ofInt h]

/-- The low bits of a number below a power of two. -/
theorem slice_zero_val (h : x.val < 2 ^ n) : (x.slice 0 n).val = x.val := by
  rw [slice_val, pow_zero, Nat.div_one, Nat.mod_eq_of_lt h]

/-! ### The same order -/

/-- Two pairs of numbers compare in the same way. -/
def SameOrder (x y x' y' : Bits) : Prop :=
  (x.val < y.val ↔ x'.val < y'.val) ∧ (y.val < x.val ↔ y'.val < x'.val)

/-- Two pairs of signed numbers compare in the same way. -/
def SameSignedOrder (x y x' y' : Bits) : Prop :=
  (x.toInt < y.toInt ↔ x'.toInt < y'.toInt) ∧ (y.toInt < x.toInt ↔ y'.toInt < x'.toInt)

/-- The bits that are left when equal leading and equal trailing bits are dropped. -/
theorem sameOrder_slice {l : Nat} (hw : x.width = y.width) (hlt : l + t ≤ x.width)
    (hlead : x.val / 2 ^ (x.width - l) = y.val / 2 ^ (x.width - l))
    (htrail : x.val % 2 ^ t = y.val % 2 ^ t) :
    SameOrder x y (x.slice t (x.width - l - t)) (y.slice t (x.width - l - t)) := by
  have hparts : ∀ v : Nat, v = (2 ^ (x.width - l - t) * (v / 2 ^ (x.width - l)) +
      v / 2 ^ t % 2 ^ (x.width - l - t)) * 2 ^ t + v % 2 ^ t := by
    intro v
    have hpow : 2 ^ (x.width - l) = 2 ^ t * 2 ^ (x.width - l - t) := by
      rw [← pow_add]
      congr 1
      omega
    rw [hpow, ← Nat.div_div_eq_div_mul, Nat.div_add_mod, Nat.div_add_mod']
  have hx := hparts x.val
  have hy := hparts y.val
  rw [hlead, htrail] at hx
  unfold SameOrder
  rw [slice_val, slice_val]
  generalize x.val / 2 ^ t % 2 ^ (x.width - l - t) = a at hx ⊢
  generalize y.val / 2 ^ t % 2 ^ (x.width - l - t) = b at hy ⊢
  generalize y.val / 2 ^ (x.width - l) = high at hx hy
  generalize y.val % 2 ^ t = low at hx hy
  have hpos := Nat.two_pow_pos t
  rw [hx, hy]
  constructor
  · rw [Nat.add_lt_add_iff_right, Nat.mul_lt_mul_right hpos, Nat.add_lt_add_iff_left]
  · rw [Nat.add_lt_add_iff_right, Nat.mul_lt_mul_right hpos, Nat.add_lt_add_iff_left]

/-- Numbers with equal leading bits, among them the sign, compare as unsigned ones. -/
theorem toInt_lt_iff_of_div {l : Nat} (hw : x.width = y.width) (hl : 0 < l) (hlw : l ≤ x.width)
    (hlead : x.val / 2 ^ (x.width - l) = y.val / 2 ^ (x.width - l)) :
    (x.toInt < y.toInt ↔ x.val < y.val) ∧ (y.toInt < x.toInt ↔ y.val < x.val) := by
  have hhalf : ∀ v : Nat, 2 * v < 2 ^ x.width ↔ v / 2 ^ (x.width - l) < 2 ^ (l - 1) := by
    intro v
    rw [Nat.div_lt_iff_lt_mul (Nat.two_pow_pos _), ← pow_add,
      show l - 1 + (x.width - l) = x.width - 1 by omega]
    have hpow : 2 ^ x.width = 2 * 2 ^ (x.width - 1) := by
      rw [← pow_succ', Nat.sub_add_cancel (by omega)]
    omega
  have hsign : 2 * x.val < 2 ^ x.width ↔ 2 * y.val < 2 ^ x.width := by
    rw [hhalf, hhalf, hlead]
  unfold toInt
  rw [← hw]
  by_cases h : 2 * x.val < 2 ^ x.width
  · rw [if_pos h, if_pos (hsign.1 h)]
    omega
  · rw [if_neg h, if_neg (mt hsign.2 h)]
    omega

/-- The bits that are left when equal trailing bits are dropped, signed. -/
theorem sameSignedOrder_slice (hw : x.width = y.width) (ht : t < x.width)
    (htrail : x.val % 2 ^ t = y.val % 2 ^ t) :
    SameSignedOrder x y (x.slice t (x.width - t)) (y.slice t (x.width - t)) := by
  have hparts : ∀ z : Bits, t ≤ z.width →
      z.toInt = z.toInt / (2 ^ t : Nat) * (2 ^ t : Nat) + (z.val % 2 ^ t : Nat) := by
    intro z hz
    have hdvd : ((2 ^ t : Nat) : Int) ∣ (2 ^ z.width : Nat) := by exact_mod_cast pow_dvd_pow 2 hz
    have hmod : z.toInt % (2 ^ t : Nat) = (z.val % 2 ^ t : Nat) := by
      rw [Int.natCast_mod, ← toInt_emod z, Int.emod_emod_of_dvd _ hdvd]
    rw [← hmod]
    exact (Int.ediv_mul_add_emod _ _).symm
  have hx := hparts x ht.le
  have hy := hparts y (by omega)
  rw [htrail] at hx
  unfold SameSignedOrder
  rw [toInt_slice_top x ht, hw, toInt_slice_top y (by omega)]
  generalize x.toInt / (2 ^ t : Nat) = a at hx ⊢
  generalize y.toInt / (2 ^ t : Nat) = b at hy ⊢
  have hpos : (0 : Int) < (2 ^ t : Nat) := by exact_mod_cast Nat.two_pow_pos t
  rw [hx, hy]
  constructor
  · rw [add_lt_add_iff_right, mul_lt_mul_iff_left₀ hpos]
  · rw [add_lt_add_iff_right, mul_lt_mul_iff_left₀ hpos]

/-- The low bits of numbers that fit compare as the numbers do. -/
theorem sameOrders_slice_zero (hw : x.width = y.width) (hn : n ≤ x.width)
    (hx : FitsSigned n x.toInt) (hy : FitsSigned n y.toInt) :
    SameOrder x y (x.slice 0 n) (y.slice 0 n) ∧
      SameSignedOrder x y (x.slice 0 n) (y.slice 0 n) := by
  have hx' := toInt_slice_zero hn hx
  have hy' := toInt_slice_zero (hw ▸ hn) hy
  refine ⟨?_, by unfold SameSignedOrder; rw [hx', hy']; exact ⟨Iff.rfl, Iff.rfl⟩⟩
  -- the unsigned value is the signed one, lifted by the power of two where it is negative
  have hval : ∀ z : Bits, (z.val : Int) = if 0 ≤ z.toInt then z.toInt else
      z.toInt + (2 ^ z.width : Nat) := by
    intro z
    have hlt := z.isLt
    unfold toInt
    split
    · rw [if_pos (by omega)]
    · rw [if_neg (by omega)]
      omega
  have h1 := hval x
  have h2 := hval y
  have h3 := hval (x.slice 0 n)
  have h4 := hval (y.slice 0 n)
  rw [hx', slice_width] at h3
  rw [hy', slice_width] at h4
  rw [← hw] at h2
  have hpow : 2 ^ n ≤ 2 ^ x.width := Nat.pow_le_pow_right Nat.two_pos hn
  unfold FitsSigned at hx hy
  unfold SameOrder
  split at h1 <;> split at h2 <;> omega

/-! ### Comparisons -/

theorem beq_eq_of_sameOrder {x' y' : Bits} (hw : x.width = y.width) (hw' : x'.width = y'.width)
    (h : SameOrder x y x' y') : (x == y) = (x' == y') := by
  obtain ⟨hlt, hgt⟩ := h
  rw [Bool.eq_iff_iff, beq_iff_eq, beq_iff_eq, ext_iff', ext_iff']
  constructor
  · intro ⟨_, hval⟩
    exact ⟨hw', by omega⟩
  · intro ⟨_, hval⟩
    exact ⟨hw, by omega⟩

end Bits

namespace Interpreter

open Bits

theorem compareOp_leaf (op : CompareOp) (x y : Bits) :
    compareOp op (.leaf x) (.leaf y) = .ok (compareBits op x y) := by
  have hleaf : (LeafTree.leaf x = LeafTree.leaf y) = (x = y) := by simp
  cases op with
  | eq =>
    rw [compareOp, compareBits]
    simp only [hleaf]
    rfl
  | ne =>
    rw [compareOp, compareBits]
    simp only [hleaf]
    rfl
  | _ => rfl

/-- The signed ordered comparisons. -/
def IsSignedOrder (op : CompareOp) : Prop := op = .sge ∨ op = .sgt ∨ op = .sle ∨ op = .slt

/-- A comparison of numbers that compare in the same way, signed if the comparison is. -/
theorem compareBits_eq {x y x' y' : Bits} (op : CompareOp) (hw : x.width = y.width)
    (hw' : x'.width = y'.width) (h : SameOrder x y x' y')
    (hs : IsSignedOrder op → SameSignedOrder x y x' y') :
    compareBits op x y = compareBits op x' y' := by
  have hbeq := beq_eq_of_sameOrder hw hw' h
  obtain ⟨hlt, hgt⟩ := h
  cases op with
  | eq => exact hbeq
  | ne => exact congrArg (! ·) hbeq
  | sge =>
    obtain ⟨hslt, hsgt⟩ := hs (by simp [IsSignedOrder])
    exact congrArg (! ·) (decide_eq_decide.2 hslt)
  | sgt =>
    obtain ⟨hslt, hsgt⟩ := hs (by simp [IsSignedOrder])
    exact congrArg (! ·) (decide_eq_decide.2 (by omega))
  | sle =>
    obtain ⟨hslt, hsgt⟩ := hs (by simp [IsSignedOrder])
    exact decide_eq_decide.2 (by omega)
  | slt =>
    obtain ⟨hslt, hsgt⟩ := hs (by simp [IsSignedOrder])
    exact decide_eq_decide.2 hslt
  | ugt => exact decide_eq_decide.2 hgt
  | ult => exact decide_eq_decide.2 hlt
  | _ => exact decide_eq_decide.2 (by omega)

end Interpreter

end Xls

import Xls.AbstractEvaluator.Dadda
import Xls.AbstractNodeEvaluator
import Xls.BitsOps.Shifts
import Xls.Ternary

/-!
# Xls.BitEvaluator

`AbstractEvaluator` with booleans as elements. Every element stands for itself and no
primitive fails, so an operation of the evaluator returns exactly the vector its boolean
meaning prescribes: the multipliers are exact (`multipliers_exact`), and the dividers, shifts
and slice updates agree with the concrete operations of `bits_ops` and of the interpreter
(`dividers_agree` and `shifts_agree`).
-/

namespace Xls

open Interpreter Bits BitsOps Grow Int
open Evaluator (AllValid ValidVec Rep)

/-- The evaluator over booleans. -/
def bitEvaluator : Evaluator Unit Bool where
  one := true
  zero := false
  not a := pure (!a)
  and a b := pure (a && b)
  or a b := pure (a || b)
  isNotZero a := a

theorem bitEvaluator_sound : bitEvaluator.Sound () (fun e b => e = b) where
  one := rfl
  zero := rfl
  not ha hr := by rw [returns_pure hr, ha]
  and ha hb hr := by rw [returns_pure hr, ha, hb]
  or ha hb hr := by rw [returns_pure hr, ha, hb]
  isNotZero ha := ha

/-- Every boolean is valid. -/
def AnyBit (_ : Unit) (_ : Bool) : Prop := True

theorem anyBit_all (v : List Bool) : AllValid AnyBit () v := fun _ _ => trivial

theorem bitEvaluator_total : bitEvaluator.TotalOps AnyBit where
  mono _ _ := trivial
  one _ := trivial
  zero _ := trivial
  not _ := Grow.ensures_pure fun _ _ => trivial
  and _ _ := Grow.ensures_pure fun _ _ => trivial
  or _ _ := Grow.ensures_pure fun _ _ => trivial

namespace BitEvaluator

variable {b : Bits}

/-- A vector of booleans stands for the bit vector with these bits only. -/
theorem rep_iff {v : List Bool} : Rep (fun e b => e = b) v b ↔ v = b.toBools :=
  List.forall₂_eq_eq_eq ▸ Iff.rfl

theorem rep_toBools (b : Bits) : Rep (fun e b => e = b) b.toBools b := rep_iff.2 rfl

/-- An operation that returns something returns what it stands for. -/
theorem eval_eq {c : EvalM Unit (List Bool)} {P : Unit → List Bool → Prop} (h : Grow.Ensures () c P)
    (hs : ∀ r, Grow.Returns () c r → Rep (fun e b => e = b) r b) : Grow.eval c = .ok b.toBools := by
  obtain ⟨r, hr, -⟩ := h.eval
  rw [hr, rep_iff.1 (hs r (returns_of_eval hr))]

variable {a : Bits}

theorem eval_pair_eq {c : EvalM Unit (List Bool × List Bool)}
    {P : Unit → List Bool × List Bool → Prop} (h : Grow.Ensures () c P)
    (hs : ∀ r, Grow.Returns () c r → Rep (fun e b => e = b) r.1 a ∧ Rep (fun e b => e = b) r.2 b) :
    Grow.eval c = .ok (a.toBools, b.toBools) := by
  obtain ⟨r, hr, -⟩ := h.eval
  obtain ⟨h1, h2⟩ := hs r (returns_of_eval hr)
  rw [hr, ← rep_iff.1 h1, ← rep_iff.1 h2]

/-! ### Multiplication -/

theorem umul_eq (a b : Bits) :
    Grow.eval (bitEvaluator.umul a.toBools b.toBools) = .ok (a.umul b).toBools :=
  eval_eq (bitEvaluator_total.umul (anyBit_all _) (anyBit_all _))
    fun _ hr => bitEvaluator_sound.umul_rep (rep_toBools a) (rep_toBools b) hr

theorem smul_eq (ha : 0 < a.width) (hb : 0 < b.width) :
    Grow.eval (bitEvaluator.smul a.toBools b.toBools) = .ok (a.smul b).toBools :=
  eval_eq (bitEvaluator_total.smul (by simpa using ha) (by simpa using hb) (anyBit_all _)
    (anyBit_all _)) fun _ hr => bitEvaluator_sound.smul (rep_toBools a) (rep_toBools b) hr

/-- The product of two's complement numbers fits in the widths together. -/
theorem fitsSigned_mul (ha : 0 < a.width) (hb : 0 < b.width) :
    FitsSigned (a.width + b.width) (a.toInt * b.toInt) := by
  obtain ⟨m, hm⟩ : ∃ m, a.width = m + 1 := ⟨a.width - 1, by omega⟩
  obtain ⟨n, hn⟩ : ∃ n, b.width = n + 1 := ⟨b.width - 1, by omega⟩
  obtain ⟨ha1, ha2⟩ := fitsSigned_toInt a
  obtain ⟨hb1, hb2⟩ := fitsSigned_toInt b
  rw [hm, pow_succ] at ha1 ha2
  rw [hn, pow_succ] at hb1 hb2
  push_cast at ha1 ha2 hb1 hb2
  have hM : (0 : Int) < 2 ^ m := by positivity
  have hN : (0 : Int) < 2 ^ n := by positivity
  -- both factors are bounded by a power of two, and so is the product
  have habs : |a.toInt * b.toInt| ≤ 2 ^ m * 2 ^ n := by
    rw [abs_mul]
    exact mul_le_mul (abs_le.2 ⟨by linarith, by linarith⟩) (abs_le.2 ⟨by linarith, by linarith⟩)
      (abs_nonneg _) hM.le
  have hpow : ((2 ^ (a.width + b.width) : Nat) : Int) = 4 * (2 ^ m * 2 ^ n) := by
    rw [hm, hn]
    push_cast
    ring
  obtain ⟨hlo, hhi⟩ := abs_le.1 habs
  have hMN : (0 : Int) < 2 ^ m * 2 ^ n := mul_pos hM hN
  unfold FitsSigned
  rw [hpow]
  constructor
  · linarith
  · linarith

/-- `SignExtend` checks that there is a sign bit. -/
theorem smul_empty (h : a.width = 0 ∨ b.width = 0) :
    Grow.eval (bitEvaluator.smul a.toBools b.toBools) = .error .check := by
  have hnil : ∀ {c : Bits}, c.width = 0 → c.toBools = [] := fun hc =>
    List.eq_nil_of_length_eq_zero (by rw [toBools_length, hc])
  by_cases ha : a.width = 0
  · rw [hnil ha]
    rfl
  · rw [hnil (h.resolve_left ha)]
    have hext : Grow.Ensures () (Evaluator.signExtend a.toBools
        (max a.toBools.length ([] : List Bool).length * 2) : EvalM Unit (List Bool))
        fun _ _ => True :=
      (Evaluator.ensures_signExtend bitEvaluator_total.monotonic (anyBit_all _)
        (by simpa [Nat.pos_iff_ne_zero] using ha) (by simp; omega)).imp fun _ _ _ _ => trivial
    obtain ⟨v, t, hv, -⟩ := hext () (le_refl _)
    show (bindRun _ _ ()).map Prod.fst = _
    rw [bindRun, hv]
    rfl

/-- The bit-level multipliers are exact: `UMul` returns the unsigned product at any
widths and `SMul` the two's complement product of operands with a sign bit. No check
fails, so no carry is pushed past the last column. Without a sign bit `SMul` fails the
check of `SignExtend`. -/
theorem multipliers_exact (a b : Bits) :
    (∃ p : Bits, Grow.eval (bitEvaluator.umul a.toBools b.toBools) = .ok p.toBools ∧
      p.width = a.width + b.width ∧ p.val = a.val * b.val) ∧ (0 < a.width → 0 < b.width →
      ∃ p : Bits, Grow.eval (bitEvaluator.smul a.toBools b.toBools) = .ok p.toBools ∧
        p.width = a.width + b.width ∧ p.toInt = a.toInt * b.toInt) ∧ (a.width = 0 ∨ b.width = 0 →
      Grow.eval (bitEvaluator.smul a.toBools b.toBools) = .error .check) := by
  refine ⟨⟨a.umul b, umul_eq a b, rfl, umul_val a b⟩, ?_, smul_empty⟩
  intro ha hb
  exact ⟨a.smul b, smul_eq ha hb, rfl, toInt_ofInt (fitsSigned_mul ha hb)⟩

theorem multipliers_exact_example :
    (∃ p : Bits, Grow.eval (bitEvaluator.umul (Bits.ofNat 3 5).toBools (Bits.ofNat 2 3).toBools) =
      .ok p.toBools ∧ p.width = 5 ∧ p.val = (Bits.ofNat 3 5).val * (Bits.ofNat 2 3).val) ∧
    ∃ p : Bits, Grow.eval (bitEvaluator.smul (Bits.ofNat 3 5).toBools (Bits.ofNat 2 3).toBools) =
      .ok p.toBools ∧ p.width = 5 ∧ p.toInt = (Bits.ofNat 3 5).toInt * (Bits.ofNat 2 3).toInt :=
  ⟨(multipliers_exact (Bits.ofNat 3 5) (Bits.ofNat 2 3)).1,
    (multipliers_exact (Bits.ofNat 3 5) (Bits.ofNat 2 3)).2.1 (by decide) (by decide)⟩

/-- `SMul` of two empty vectors returns nothing. -/
theorem not_smul_exact_empty :
    ¬∀ a b : Bits, ∃ p : Bits, Grow.eval (bitEvaluator.smul a.toBools b.toBools) = .ok p.toBools ∧
      p.width = a.width + b.width ∧ p.toInt = a.toInt * b.toInt := by
  intro h
  obtain ⟨p, hp, -, -⟩ := h (Bits.zero 0) (Bits.zero 0)
  rw [smul_empty (Or.inl rfl)] at hp
  cases hp

/-! ### Division -/

theorem udivMod_eq (n d : Bits) :
    Grow.eval (bitEvaluator.udivMod n.toBools d.toBools) =
      .ok ((n.udiv d).toBools, (n.umod d).toBools) :=
  eval_pair_eq (bitEvaluator_total.udivMod ⟨rfl, anyBit_all _⟩ ⟨rfl, anyBit_all _⟩)
    fun _ hr => bitEvaluator_sound.udiv_rep (rep_toBools n) (rep_toBools d) hr

theorem sdivMod_eq {n d : Bits} (hn : 0 < n.width) (hd : 0 < d.width) :
    Grow.eval (bitEvaluator.sdivMod n.toBools d.toBools) =
      .ok ((n.sdiv d).toBools, (n.smod d).toBools) :=
  eval_pair_eq (bitEvaluator_total.sdivMod hn hd ⟨n.toBools_length, anyBit_all _⟩
    ⟨d.toBools_length, anyBit_all _⟩)
    fun _ hr => bitEvaluator_sound.sdivMod (rep_toBools n) (rep_toBools d) hr

theorem udiv_ok (n d : Bits) : uDiv n d = .ok (n.udiv d) := by
  rw [uDiv_eq, Bits.udiv, Bits.isZero]
  simp only [beq_iff_eq]
  congr 1
  split
  · rfl
  · rw [← natCast_ediv, ofInt_natCast]

theorem umod_ok (n d : Bits) : uMod n d = .ok (n.umod d) := by
  rw [uMod_eq, Bits.umod, Bits.isZero]
  simp only [beq_iff_eq]
  congr 1
  split
  · rfl
  · rw [← natCast_emod, ofInt_natCast]

theorem smod_ok (n d : Bits) : sMod n d = .ok (n.smod d) := by
  rw [sMod_eq, Bits.smod, Bits.isZero]
  simp only [beq_iff_eq]

/-- A signed division returns if the dividend has a bit. -/
theorem sdiv_ok {n : Bits} (hn : 0 < n.width) (d : Bits) : sDiv n d = .ok (n.sdiv d) := by
  have hpos := Nat.two_pow_pos (n.width - 1)
  have hpow : 2 ^ n.width = 2 ^ (n.width - 1) * 2 := by
    rw [← pow_succ, Nat.sub_add_cancel hn]
  rw [sDiv_eq, Bits.sdiv, Bits.isZero]
  simp only [beq_iff_eq]
  congr 1
  split
  · rw [if_neg (Nat.ne_of_gt hn)]
    split
    · rw [minSigned, if_neg (Nat.ne_of_gt hn)]
      refine ext rfl ?_
      have hval := ofInt_val_cast n.width (-(2 ^ (n.width - 1) : Nat))
      rw [← add_emod_right, emod_eq_of_lt (by omega) (by omega)] at hval
      rw [powerOfTwo_val (by omega)]
      omega
    · rw [← ofInt_natCast]
      congr 1
      omega
  · rfl

/-- The bit-level dividers agree with `bits_ops`: no check fails on operands of at least
one bit, and quotient and remainder are those of `UDiv`, `UMod`, `SDiv` and `SMod`. -/
theorem dividers_agree (n d : Bits) (hn : 0 < n.width) (hd : 0 < d.width) :
    ∃ uq ur sq sr : Bits, uDiv n d = .ok uq ∧ uMod n d = .ok ur ∧
      sDiv n d = .ok sq ∧ sMod n d = .ok sr ∧
      Grow.eval (bitEvaluator.udivMod n.toBools d.toBools) = .ok (uq.toBools, ur.toBools) ∧
      Grow.eval (bitEvaluator.sdivMod n.toBools d.toBools) = .ok (sq.toBools, sr.toBools) ∧
      (d.val = 0 → uq = allOnes n.width ∧ ur = Bits.zero d.width ∧ sr = Bits.zero d.width ∧
        sq = if n.toInt < 0 then minSigned n.width
          else Bits.ofNat n.width (2 ^ (n.width - 1) - 1)) ∧
      (n = minSigned n.width → d.toInt = -1 → sq = n ∧ sr = Bits.zero d.width) := by
  refine ⟨n.udiv d, n.umod d, n.sdiv d, n.smod d, udiv_ok n d, umod_ok n d, sdiv_ok hn d,
    smod_ok n d, udivMod_eq n d, sdivMod_eq hn hd, ?_, ?_⟩
  · intro hzero
    have hz : d.isZero = true := by simpa [Bits.isZero] using hzero
    refine ⟨if_pos hz, if_pos hz, if_pos hz, ?_⟩
    rw [Bits.sdiv, if_pos hz, if_neg (Nat.ne_of_gt hn)]
  · intro hmin hone
    have hz : ¬d.isZero = true := by
      intro h0
      have h0' : d.val = 0 := by simpa [Bits.isZero] using h0
      have hlt : 1 < 2 ^ d.width := Nat.one_lt_two_pow (Nat.ne_of_gt hd)
      rw [toInt, h0'] at hone
      split at hone <;> omega
    have hval : n.val = 2 ^ (n.width - 1) := by
      have hbits : n = powerOfTwo (n.width - 1) n.width := by
        rwa [minSigned, if_neg (Nat.ne_of_gt hn)] at hmin
      exact (congrArg Bits.val hbits).trans (powerOfTwo_val (by omega))
    have hpos := Nat.two_pow_pos (n.width - 1)
    have hpow : 2 ^ n.width = 2 ^ (n.width - 1) * 2 := by
      rw [← pow_succ, Nat.sub_add_cancel hn]
    have hint : n.toInt = -(2 ^ (n.width - 1) : Nat) := by
      rw [toInt, if_neg (by omega)]
      omega
    constructor
    · rw [Bits.sdiv, if_neg hz, hone, hint, Int.tdiv_neg, Int.tdiv_one, neg_neg]
      refine ext rfl ?_
      have hlt : 2 ^ (n.width - 1) < 2 ^ n.width := by omega
      rw [ofInt_natCast, ofNat_val_of_lt hlt, hval]
    · rw [Bits.smod, if_neg hz, hone, tmod_neg, tmod_one]
      exact ext rfl (by simp [ofInt])

theorem dividers_agree_minByMinusOne :
    ∃ uq ur sq sr : Bits, uDiv (Bits.ofNat 3 4) (Bits.ofNat 2 3) = .ok uq ∧
      uMod (Bits.ofNat 3 4) (Bits.ofNat 2 3) = .ok ur ∧
      sDiv (Bits.ofNat 3 4) (Bits.ofNat 2 3) = .ok sq ∧
      sMod (Bits.ofNat 3 4) (Bits.ofNat 2 3) = .ok sr ∧
      Grow.eval (bitEvaluator.sdivMod (Bits.ofNat 3 4).toBools (Bits.ofNat 2 3).toBools) =
        .ok (sq.toBools, sr.toBools) := by
  obtain ⟨uq, ur, sq, sr, huq, hur, hsq, hsr, -, hs, -⟩ :=
    dividers_agree (Bits.ofNat 3 4) (Bits.ofNat 2 3) (by decide) (by decide)
  exact ⟨uq, ur, sq, sr, huq, hur, hsq, hsr, hs⟩

/-! ### Shifts and slice updates -/

theorem shiftLeftLogical_eq (a amount : Bits) :
    Grow.eval (bitEvaluator.shiftLeftLogical a.toBools amount.toBools) =
      .ok (a.shiftLeftLogical (amount.bounded a.width)).toBools := by
  refine eval_eq (bitEvaluator_total.shiftLeftLogical (anyBit_all _) (anyBit_all _)) ?_
  intro r hr
  have hres := bitEvaluator_sound.shiftLeftLogical (rep_toBools a) (rep_toBools amount) hr
  rwa [toNat_toBools, toBools_length, ← Evaluator.min_bounded, ← toBools_shiftLeftLogical] at hres

theorem shiftRightLogical_eq (a amount : Bits) :
    Grow.eval (bitEvaluator.shiftRightLogical a.toBools amount.toBools) =
      .ok (a.shiftRightLogical (amount.bounded a.width)).toBools := by
  refine eval_eq (bitEvaluator_total.shiftRightLogical (anyBit_all _) (anyBit_all _)) ?_
  intro r hr
  have hres := bitEvaluator_sound.shiftRightLogical (rep_toBools a) (rep_toBools amount) hr
  rwa [toNat_toBools, toBools_length, ← Evaluator.min_bounded, ← toBools_shiftRightLogical] at hres

theorem shiftRightArith_eq (a amount : Bits) :
    Grow.eval (bitEvaluator.shiftRightArith a.toBools amount.toBools) =
      .ok (a.shiftRightArith (amount.bounded a.width)).toBools := by
  refine eval_eq (bitEvaluator_total.shiftRightArith (anyBit_all _) (anyBit_all _)) ?_
  intro r hr
  have hres := bitEvaluator_sound.shiftRightArith (rep_toBools a) (rep_toBools amount) hr
  rwa [toNat_toBools, toBools_length, ← Evaluator.min_bounded, ← toBools_shiftRightArith] at hres

theorem bitSliceUpdate_eq (a start value : Bits) :
    Grow.eval (bitEvaluator.bitSliceUpdate a.toBools start.toBools value.toBools) =
      .ok (a.bitSliceUpdate start.val value).toBools := by
  refine eval_eq (bitEvaluator_total.bitSliceUpdate (anyBit_all _) (anyBit_all _)
    (anyBit_all _)) ?_
  intro r hr
  have hres := bitEvaluator_sound.bitSliceUpdate (rep_toBools a) (rep_toBools start)
    (rep_toBools value) hr
  rwa [toBools_length, toNat_toBools, ← toBools_bitSliceUpdate] at hres

/-- The bit-level shifts and slice updates agree with the interpreter's, at any widths of
the value, the amount and the start index. An amount that reaches the width leaves zeros
or copies of the sign bit, and an update that starts past the end changes nothing. -/
theorem shifts_agree (a amount value : Bits) :
    (∃ l r s : Bits, handleShll a amount = .ok l ∧ handleShrl a amount = .ok r ∧
      handleShra a amount = .ok s ∧
      Grow.eval (bitEvaluator.shiftLeftLogical a.toBools amount.toBools) = .ok l.toBools ∧
      Grow.eval (bitEvaluator.shiftRightLogical a.toBools amount.toBools) = .ok r.toBools ∧
      Grow.eval (bitEvaluator.shiftRightArith a.toBools amount.toBools) = .ok s.toBools ∧
      (a.width ≤ amount.val → l = Bits.zero a.width ∧ r = Bits.zero a.width ∧
        s = if a.msb then allOnes a.width else Bits.zero a.width)) ∧
    Grow.eval (bitEvaluator.bitSliceUpdate a.toBools amount.toBools value.toBools) =
      .ok (handleBitSliceUpdate a amount value).toBools ∧
    (a.width ≤ amount.val → handleBitSliceUpdate a amount value = a) := by
  refine ⟨⟨_, _, _, BitsOps.shiftLeftLogical_eq _ _, BitsOps.shiftRightLogical_eq _ _,
    BitsOps.shiftRightArith_eq _ _, shiftLeftLogical_eq a amount, shiftRightLogical_eq a amount,
    shiftRightArith_eq a amount, ?_⟩, ?_, fun hout => if_pos hout⟩
  · intro hout
    have hbound : amount.bounded a.width = a.width := Nat.min_eq_right hout
    have hmin : min (amount.bounded a.width) a.width = a.width := by rw [hbound, Nat.min_self]
    refine ⟨eq_of_toBools ?_, eq_of_toBools ?_, eq_of_toBools ?_⟩
    · rw [toBools_shiftLeftLogical, hmin, toBools_zero]
      simp
    · rw [toBools_shiftRightLogical, hmin, toBools_zero]
      simp
    · rw [toBools_shiftRightArith, hmin, Bits.getLast?_toBools]
      cases a.msb with
      | false => simp [toBools_zero]
      | true => simp [toBools_allOnes]
  · rw [handleBitSliceUpdate_eq]
    exact bitSliceUpdate_eq a amount value

end BitEvaluator

end Xls

import Xls.Narrowing.Arithmetic

/-!
# Xls.Narrowing.ArithmeticSound

The handlers for negations, additions, subtractions, shifts and decodes keep every value
(`ensures_handleNeg` to `ensures_handleDecode`).
-/

namespace Xls

open Interpreter Bits Nat
open Graph (Build World getNode bitCountOrDie makeNode replaceUsesWith)
open Graph.World

namespace Narrowing

open ArithSimplification (makeLiteral makeBitSlice)
open Reassociation (makeBinOp)

variable {env : Env} {args : List Value} {w w' : World env args} {b : ℚ}
  {e : SpecializedQueryEngines} {id lhs rhs : Nat} {x y z : Bits}

/-! ### Nodes -/

theorem ensures_false : w.Ensures (pure false) fun _ _ => True :=
  ensures_pure fun _ _ => trivial

/-- The last step of a handler. -/
theorem ensures_done {new : Nat} (hid : w.Holds b id z) (hle : w ≤ w')
    (hnew : w'.Holds (w.rank id) new z) :
    w'.Ensures (replaceUsesWith id new >>= fun _ => pure true) fun _ _ => True := by
  rw [← hle.rank id hid.lt] at hnew
  refine ensures_bind (ensures_replaceUsesWith (hid.mono hle) hnew) fun _ _ _ _ => ?_
  exact ensures_pure fun _ _ => trivial

variable {i k : Nat} {op : BinOp}

theorem ensures_neg (h : w.Holds b i x) :
    w.Ensures (makeUnOp .neg i) fun w' id => w'.Holds b id x.negate :=
  ensures_unary h rfl rfl

/-- A shift, whose amount may have any width. -/
theorem ensures_shift {j : Nat} (hop : op.isShift = true) (hi : w.Holds b i x) (hj : w.Holds b j y)
    (hz : z.width = x.width) (heval : binOp op x y = .ok z) :
    w.Ensures (makeBinOp op i j) fun w' id => w'.Holds b id z := by
  refine ensures_bind (ensures_getNode hi) fun w' n hle hn => ?_
  rw [hn.2]
  refine ensures_binary (hi.mono hle) (hj.mono hle) hz ?_ ?_
  · rw [verifyNode_bin]
    simp [hop, IrType.isBits]
  · show (binOp op x y >>= fun r => .ok (LeafTree.leaf r)) = _
    rw [heval]
    rfl

theorem ensures_signExtend (h : w.Holds b i x) (hk : x.width ≤ k) (hpos : 0 < x.width) :
    w.Ensures (makeExtend .signExt k i) fun w' id => w'.Holds b id (x.signExtend k) :=
  @ensures_extend _ _ _ _ _ _ _ .signExt h hk (.inr hpos)

theorem ensures_zeroExtend (h : w.Holds b i x) (hk : x.width ≤ k) :
    w.Ensures (makeExtend .zeroExt k i) fun w' id => w'.Holds b id (x.zeroExtend k) :=
  @ensures_extend _ _ _ _ _ _ _ .zeroExt h hk (.inl rfl)

/-! ### Handlers -/

/-- Narrowing a negation keeps its value. -/
theorem ensures_handleNeg (hid : w.Holds b id x.negate) (hx : w.Holds (w.rank id) lhs x)
    (hsound : ZeroSound e w lhs (some id)) : w.Ensures (handleNeg e id lhs) fun _ _ => True := by
  refine ensures_bind (ensures_countLeadingKnownZeros hx hsound) fun w₁ k h₁ hk => ?_
  obtain ⟨hkw, hval⟩ := hk
  split
  · exact ensures_false
  refine ensures_bind (ensures_bitCountOrDie (hx.mono h₁)) fun w₂ inputWidth h₂ hwidth => ?_
  refine ensures_bind (ensures_bitCountOrDie (hid.mono (h₁.trans h₂))) fun w₃ width h₃ hwidth' => ?_
  subst hwidth
  obtain rfl : width = x.width := hwidth'
  have hle := (h₁.trans h₂).trans h₃
  dsimp only
  split
  · rename_i hone
    refine ensures_bind (ensures_makeBitSlice (hx.mono hle) (by omega)) fun w₄ narrowed h₄ hn => ?_
    refine ensures_bind (ensures_signExtend hn (show 1 ≤ x.width by omega) Nat.one_pos)
      fun w₅ replacement h₅ hr => ?_
    refine ensures_done hid ((hle.trans h₄).trans h₅) ?_
    rw [hone, pow_one] at hval
    rwa [signExtend_bit hval (by omega)] at hr
  · refine ensures_bind (ensures_makeBitSlice (hx.mono hle) (by omega)) fun w₄ narrowed h₄ hn => ?_
    refine ensures_bind (ensures_neg hn) fun w₅ negated h₅ hneg => ?_
    refine ensures_bind (ensures_signExtend hneg (show x.width - k + 1 ≤ x.width by omega)
      (succ_pos _)) fun w₆ replacement h₆ hr => ?_
    refine ensures_done hid (((hle.trans h₄).trans h₅).trans h₆) ?_
    rwa [signExtend_negate hval (by omega)] at hr

/-- Narrowing an addition keeps its value. -/
theorem ensures_handleAdd (hid : w.Holds b id (x.add y)) (hx : w.Holds (w.rank id) lhs x)
    (hy : w.Holds (w.rank id) rhs y) (hw : x.width = y.width)
    (hlhs : ZeroSound e w lhs (some id)) (hrhs : ZeroSound e w rhs (some id)) :
    w.Ensures (handleAdd e id lhs rhs) fun _ _ => True := by
  refine ensures_bind (ensures_bitCountOrDie hid) fun w₁ bitCount h₁ hbitCount => ?_
  obtain rfl : bitCount = x.width := hbitCount
  refine ensures_bind (ensures_bitCountOrDie (hx.mono h₁)) fun w₂ lhsWidth h₂ hlw => ?_
  refine ensures_bind (ensures_bitCountOrDie (hy.mono (h₁.trans h₂))) fun w₃ rhsWidth h₃ hrw => ?_
  subst hlw hrw
  rw [if_neg (not_not.mpr hw)]
  have h₀ := (h₁.trans h₂).trans h₃
  refine ensures_bind ((ensures_countLeadingKnownZeros hx hlhs).of_le h₀) fun w₄ j h₄ hj => ?_
  refine ensures_bind ((ensures_countLeadingKnownZeros hy hrhs).of_le (h₀.trans h₄))
    fun w₅ k h₅ hk => ?_
  have hle := (h₀.trans h₄).trans h₅
  dsimp only
  split
  rotate_left
  · exact ensures_false
  split
  · exact ensures_false
  rename_i hgt hne
  have hxv : x.val < 2 ^ (x.width - min j k) :=
    hj.2.trans_le (Nat.pow_le_pow_right Nat.two_pos (by omega))
  have hyv : y.val < 2 ^ (x.width - min j k) :=
    hk.2.trans_le (Nat.pow_le_pow_right Nat.two_pos (by omega))
  refine ensures_bind (ensures_makeBitSlice (hx.mono hle) (by omega)) fun w₆ nl h₆ hnl => ?_
  refine ensures_bind (ensures_makeBitSlice (hy.mono (hle.trans h₆)) (by omega))
    fun w₇ nr h₇ hnr => ?_
  refine ensures_bind (ensures_add (hnl.mono h₇) hnr rfl) fun w₈ sum h₈ hsum => ?_
  refine ensures_bind (ensures_zeroExtend hsum (show x.width - min j k + 1 ≤ x.width by omega))
    fun w₉ replacement h₉ hr => ?_
  refine ensures_done hid ((((hle.trans h₆).trans h₇).trans h₈).trans h₉) ?_
  rwa [zeroExtend_add hxv hyv (by omega)] at hr

/-- A node is narrowed by a slice, or left if it has the width. -/
theorem ensures_maybeNarrow {bitCount : Nat} (h : w.Holds b i x) (hle : bitCount ≤ x.width) :
    w.Ensures (maybeNarrow i bitCount) fun w' id => w'.Holds b id (x.slice 0 bitCount) := by
  refine ensures_bind (ensures_bitCountOrDie h) fun w₁ width h₁ hwidth => ?_
  subst hwidth
  rw [if_neg (by omega)]
  split
  · rename_i heq
    refine ensures_pure fun w₂ h₂ => ?_
    have hslice : x.slice 0 bitCount = x := by
      refine ext heq.symm ?_
      exact slice_zero_val (heq ▸ x.isLt)
    rw [hslice]
    exact h.mono (h₁.trans h₂)
  · exact ensures_makeBitSlice (h.mono h₁) (by omega)

/-- Narrowing a subtraction keeps its value. -/
theorem ensures_handleSub (hid : w.Holds b id (x.sub y)) (hx : w.Holds (w.rank id) lhs x)
    (hy : w.Holds (w.rank id) rhs y) (hw : x.width = y.width) (hsound : ZeroSound e w id none) :
    w.Ensures (handleSub e id lhs rhs) fun _ _ => True := by
  refine ensures_bind (ensures_bitCountOrDie hid) fun w₁ bitCount h₁ hbitCount => ?_
  obtain rfl : bitCount = x.width := hbitCount
  refine ensures_bind (ensures_bitCountOrDie (hx.mono h₁)) fun w₂ lhsWidth h₂ hlw => ?_
  refine ensures_bind (ensures_bitCountOrDie (hy.mono (h₁.trans h₂))) fun w₃ rhsWidth h₃ hrw => ?_
  subst hlw hrw
  rw [if_neg (not_not.mpr hw)]
  have h₀ := (h₁.trans h₂).trans h₃
  refine ensures_bind ((ensures_countLeadingKnownZeros hid hsound).of_le h₀) fun w₄ k h₄ hk => ?_
  have hones : w₄.Ensures (e.countLeadingKnownOnes id none) fun _ _ => True :=
    ensures_bind (ensures_bitCountOrDie (hid.mono (h₀.trans h₄))) fun _ _ _ _ =>
      ensures_pure fun _ _ => trivial
  refine ensures_bind hones fun w₅ ones h₅ _ => ?_
  have hle := (h₀.trans h₄).trans h₅
  split
  · exact ensures_false
  split
  · exact ensures_false
  obtain ⟨hkw, hval⟩ := hk
  rw [sub_width] at hkw hval
  refine ensures_bind (ensures_maybeNarrow (hx.mono hle) (sub_le x.width k))
    fun w₆ nl h₆ hnl => ?_
  refine ensures_bind (ensures_maybeNarrow (hy.mono (hle.trans h₆))
    (show x.width - k ≤ y.width by omega)) fun w₇ nr h₇ hnr => ?_
  refine ensures_bind (ensures_sub (hnl.mono h₇) hnr rfl) fun w₈ difference h₈ hdifference => ?_
  refine ensures_bind (ensures_zeroExtend hdifference (show x.width - k ≤ x.width by omega))
    fun w₉ replacement h₉ hr => ?_
  refine ensures_done hid ((((hle.trans h₆).trans h₇).trans h₈).trans h₉) ?_
  rwa [zeroExtend_sub hw (sub_le x.width k) hval] at hr

/-- A shift depends on its amount only through the value of the amount. -/
theorem binOp_shift (hop : op.isShift = true) {y' : Bits} (hval : y'.val = y.val) :
    binOp op x y' = binOp op x y := by
  have hbounded : y'.bounded x.width = y.bounded x.width := by
    rw [bounded, bounded, hval]
  cases op with
  | shll | shrl | shra => rw [binOp, binOp, hbounded]
  | _ => cases hop

/-- A shift by nothing. -/
theorem binOp_shift_zero (hop : op.isShift = true) (hval : y.val = 0) : binOp op x y = .ok x := by
  have hbounded : y.bounded x.width = 0 := by
    rw [bounded, hval, Nat.zero_min]
  cases op with
  | shll =>
    rw [binOp, hbounded, Bits.shiftLeftLogical, Nat.zero_min, shiftLeft_zero, ofNat_self]
  | shrl =>
    rw [binOp, hbounded, Bits.shiftRightLogical, Nat.zero_min, shiftRight_zero, ofNat_self]
  | shra =>
    rw [binOp, hbounded]
    refine congrArg Except.ok (ext (by simp) ?_)
    have hzero : (if x.msb then allOnes 0 else Bits.zero 0).val = 0 := by
      split <;> rfl
    simp only [Bits.shiftRightArith, Nat.zero_min, append_val, hzero, Nat.zero_mul,
      Nat.zero_add, Nat.sub_zero]
    exact slice_zero_val x.isLt
  | _ => cases hop

/-- Narrowing the amount of a shift keeps its value. -/
theorem ensures_maybeNarrowShiftAmount (hop : op.isShift = true) (hid : w.Holds b id z)
    (hx : w.Holds (w.rank id) lhs x) (hy : w.Holds (w.rank id) rhs y) (hz : z.width = x.width)
    (heval : binOp op x y = .ok z) (hsound : ZeroSound e w rhs (some id)) :
    w.Ensures (maybeNarrowShiftAmount e id op lhs rhs) fun _ _ => True := by
  refine ensures_bind (ensures_countLeadingKnownZeros hy hsound) fun w₁ k h₁ hk => ?_
  obtain ⟨hkw, hval⟩ := hk
  split
  · exact ensures_false
  refine ensures_bind (ensures_bitCountOrDie (hy.mono h₁)) fun w₂ amountWidth h₂ hwidth => ?_
  subst hwidth
  have hle := h₁.trans h₂
  split
  · rename_i hall
    rw [hall, Nat.sub_self, pow_zero, lt_one_iff] at hval
    rw [binOp_shift_zero hop hval] at heval
    obtain rfl := Except.ok.inj heval
    refine ensures_bind (ensures_bitCountOrDie (hid.mono hle)) fun w₃ shiftWidth h₃ hs => ?_
    refine ensures_bind (ensures_bitCountOrDie (hx.mono (hle.trans h₃))) fun w₄ ow h₄ ho => ?_
    subst hs ho
    rw [if_pos rfl]
    exact ensures_done hid ((hle.trans h₃).trans h₄) (hx.mono ((hle.trans h₃).trans h₄))
  · refine ensures_bind (ensures_makeBitSlice (hy.mono hle) (by omega)) fun w₃ amount h₃ ha => ?_
    have heval' := (binOp_shift (x := x) hop (slice_zero_val hval)).trans heval
    refine ensures_bind (ensures_shift hop (hx.mono (hle.trans h₃)) ha hz heval')
      fun w₄ replacement h₄ hr => ?_
    exact ensures_done hid ((hle.trans h₃).trans h₄) hr

theorem ensures_decode (h : w.Holds b i x) (hk : k ≤ 2 ^ x.width) :
    w.Ensures (makeNode ⟨.decode k, [i], .bits k⟩) fun w' id => w'.Holds b id (x.decode k) := by
  have hoperands : Canonicalization.Operands w b [i] [.bits x.width] [.leaf x] := .cons h.has .nil
  refine ensures_makeBits hoperands.types ?_ ?_ hoperands.values rfl hoperands.rank
  · simp [verifyNode, hk]
  · rw [decode_width]

/-- The narrowed index still has the bits that the narrowed decode needs. -/
theorem newDecodeWidth_le {m : Nat} (hsmall : k < 2 ^ 63) : newDecodeWidth k m ≤ 2 ^ m := by
  unfold newDecodeWidth kMaxFullDecodeWidth
  split
  · exact Nat.min_le_right _ _
  · exact (hsmall.trans_le (Nat.pow_le_pow_right Nat.two_pos (by omega))).le

/-- A decode of a node with at least one bit; bit counts are 64-bit integers. -/
theorem ensures_handleDecode (hid : w.Holds b id (x.decode k)) (hx : w.Holds (w.rank id) lhs x)
    (hk : 0 < k) (hsmall : k < 2 ^ 63) (hsound : ZeroSound e w lhs (some id)) :
    w.Ensures (handleDecode e id lhs) fun _ _ => True := by
  refine ensures_bind (ensures_countLeadingKnownZeros hx hsound) fun w₁ zeros h₁ hzeros => ?_
  obtain ⟨hzw, hval⟩ := hzeros
  split
  · exact ensures_false
  refine ensures_bind (ensures_bitCountOrDie (hx.mono h₁)) fun w₂ indexWidth h₂ hwidth => ?_
  refine ensures_bind (ensures_bitCountOrDie (hid.mono (h₁.trans h₂))) fun w₃ width h₃ hwidth' => ?_
  subst hwidth
  rw [decode_width] at hwidth'
  subst hwidth'
  have hle := (h₁.trans h₂).trans h₃
  dsimp only
  split
  · rename_i hall
    rw [hall, Nat.sub_self, pow_zero, lt_one_iff] at hval
    have hone : 1 < 2 ^ width := Nat.one_lt_two_pow hk.ne'
    refine ensures_lift (BitsOps.uBits_of_lt hone (by omega)) ?_
    refine ensures_bind (ensures_literal _ (w.rank id)) fun w₄ replacement h₄ hr => ?_
    refine ensures_done hid (hle.trans h₄) ?_
    have hdecode : x.decode width = Bits.ofNat width 1 := by
      refine ext (by simp) ?_
      rw [Bits.decode, hval, if_pos hk, powerOfTwo_val hk, pow_zero, ofNat_val_of_lt hone]
    rw [hdecode]
    exact hr
  · have hbits := zeroExtend_decode (w := width) hval
    refine ensures_bind (ensures_makeBitSlice (hx.mono hle) (by omega)) fun w₄ narrowed h₄ hn => ?_
    refine ensures_bind (ensures_decode hn (newDecodeWidth_le hsmall)) fun w₅ decode h₅ hd => ?_
    have hle' := (hle.trans h₄).trans h₅
    split
    · rename_i heq
      refine ensures_done hid hle' ?_
      rw [← hbits, heq]
      rw [heq] at hd
      have hself : (((x.slice 0 (x.width - zeros)).decode width).zeroExtend width) =
          (x.slice 0 (x.width - zeros)).decode width := by
        refine ext (by simp) (zeroExtend_val ?_)
        rw [decode_width]
      rw [hself]
      exact hd
    · have hwidth : newDecodeWidth width (x.width - zeros) ≤ width := by
        unfold newDecodeWidth
        split
        · exact Nat.min_le_left _ _
        · exact le_refl width
      rw [← decode_width (x.slice 0 (x.width - zeros))
        (newDecodeWidth width (x.width - zeros))] at hwidth
      refine ensures_bind (ensures_zeroExtend hd hwidth) fun w₆ replacement h₆ hr => ?_
      refine ensures_done hid (hle'.trans h₆) ?_
      rwa [hbits] at hr

end Narrowing

end Xls

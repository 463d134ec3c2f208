import Xls.Narrowing.KnownBits

/-!
# Xls.Narrowing.Arithmetic

The handlers of the narrowing pass (`xls/passes/narrowing_pass.cc`) for negations, additions,
subtractions, shifts and decodes, with their soundness. The operands lose leading zeros, and
the result is extended to the width of the node.
-/

namespace Xls

open Int
open Graph (Build World getNode bitCountOrDie makeNode replaceUsesWith)
open Graph.World

namespace Narrowing

open ArithSimplification (makeLiteral makeBitSlice)
open Reassociation (makeBinOp)

/-! ### Handlers -/

def makeExtend (op : ExtendOp) (newBitCount operand : Nat) : Build Nat :=
  makeNode ⟨.extend op newBitCount, [operand], .bits newBitCount⟩

/-- A `UnOp`; the node has the type of its operand. -/
def makeUnOp (op : UnOp) (operand : Nat) : Build Nat := do
  let n ← getNode operand
  makeNode ⟨.un op, [operand], n.type⟩

/-- `HandleNeg`. -/
def handleNeg (e : SpecializedQueryEngines) (id input : Nat) : Build Bool := do
  let leadingZero ← e.countLeadingKnownZeros input (some id)
  if leadingZero = 0 ∨ leadingZero = 1 then return false
  else
    let inputWidth ← bitCountOrDie input
    let bitCount ← bitCountOrDie id
    let unknownSegment := inputWidth - leadingZero
    if unknownSegment = 1 then
      let narrowedInput ← makeBitSlice input 0 1
      let replacement ← makeExtend .signExt bitCount narrowedInput
      replaceUsesWith id replacement
      return true
    else
      let narrowedInput ← makeBitSlice input 0 (unknownSegment + 1)
      let narrowedNeg ← makeUnOp .neg narrowedInput
      let replacement ← makeExtend .signExt bitCount narrowedNeg
      replaceUsesWith id replacement
      return true

/-- `MaybeNarrowShiftAmount`. -/
def maybeNarrowShiftAmount (e : SpecializedQueryEngines) (id : Nat) (op : BinOp)
    (operand amount : Nat) : Build Bool := do
  let leadingZeros ← e.countLeadingKnownZeros amount (some id)
  if leadingZeros = 0 then return false
  else
    let amountWidth ← bitCountOrDie amount
    if leadingZeros = amountWidth then
      let shiftWidth ← bitCountOrDie id
      let operandWidth ← bitCountOrDie operand
      if shiftWidth = operandWidth then
        replaceUsesWith id operand
        return true
      else if shiftWidth ≤ operandWidth then
        let replacement ← makeBitSlice operand 0 shiftWidth
        replaceUsesWith id replacement
        return true
      else throw (.status "XLS_RET_CHECK failure: shift->BitCountOrDie()")
    else
      let narrowedShiftAmount ← makeBitSlice amount 0 (amountWidth - leadingZeros)
      let replacement ← makeBinOp op operand narrowedShiftAmount
      replaceUsesWith id replacement
      return true

def kMaxFullDecodeWidth : Nat := 63

/-- The width of the narrowed decode. -/
def newDecodeWidth (resultWidth indexWidth : Nat) : Nat :=
  if indexWidth < kMaxFullDecodeWidth then min resultWidth (2 ^ indexWidth) else resultWidth

/-- `HandleDecode`. -/
def handleDecode (e : SpecializedQueryEngines) (id index : Nat) : Build Bool := do
  let leadingZeros ← e.countLeadingKnownZeros index (some id)
  if leadingZeros = 0 then return false
  else
    let indexWidth ← bitCountOrDie index
    let resultWidth ← bitCountOrDie id
    if leadingZeros = indexWidth then
      let one ← BitsOps.uBits 1 resultWidth
      let replacement ← makeLiteral one
      replaceUsesWith id replacement
      return true
    else
      let narrowedIndex ← makeBitSlice index 0 (indexWidth - leadingZeros)
      let newWidth := newDecodeWidth resultWidth (indexWidth - leadingZeros)
      let narrowedDecode ← makeNode ⟨.decode newWidth, [narrowedIndex], .bits newWidth⟩
      if newWidth = resultWidth then
        replaceUsesWith id narrowedDecode
        return true
      else
        let replacement ← makeExtend .zeroExt resultWidth narrowedDecode
        replaceUsesWith id replacement
        return true

/-- `MaybeNarrow`. -/
def maybeNarrow (node bitCount : Nat) : Build Nat := do
  let width ← bitCountOrDie node
  if width < bitCount then throw (.status "XLS_RET_CHECK failure: node->BitCountOrDie()")
  else if width = bitCount then return node
  else makeBitSlice node 0 bitCount

/-- `HandleSub`. -/
def handleSub (e : SpecializedQueryEngines) (id lhs rhs : Nat) : Build Bool := do
  let bitCount ← bitCountOrDie id
  let lhsWidth ← bitCountOrDie lhs
  let rhsWidth ← bitCountOrDie rhs
  if lhsWidth ≠ rhsWidth then return false
  else
    let leadingZeros ← e.countLeadingKnownZeros id none
    let leadingOnes ← e.countLeadingKnownOnes id none
    if leadingZeros = 0 ∧ leadingOnes = 0 then return false
    else if leadingOnes ≠ 0 then return false
    else
      let requiredBits := bitCount - leadingZeros
      let newLhs ← maybeNarrow lhs requiredBits
      let newRhs ← maybeNarrow rhs requiredBits
      let newSub ← makeBinOp .sub newLhs newRhs
      let replacement ← makeExtend .zeroExt bitCount newSub
      replaceUsesWith id replacement
      return true

/-- `HandleAdd`. -/
def handleAdd (e : SpecializedQueryEngines) (id lhs rhs : Nat) : Build Bool := do
  let bitCount ← bitCountOrDie id
  let lhsWidth ← bitCountOrDie lhs
  let rhsWidth ← bitCountOrDie rhs
  if lhsWidth ≠ rhsWidth then return false
  else
    let lhsZeros ← e.countLeadingKnownZeros lhs (some id)
    let rhsZeros ← e.countLeadingKnownZeros rhs (some id)
    let commonLeadingZeros := min lhsZeros rhsZeros
    if 1 < commonLeadingZeros then
      if commonLeadingZeros = bitCount then return false
      else
        let narrowedBitCount := bitCount - commonLeadingZeros + 1
        let narrowedLhs ← makeBitSlice lhs 0 narrowedBitCount
        let narrowedRhs ← makeBitSlice rhs 0 narrowedBitCount
        let narrowedAdd ← makeBinOp .add narrowedLhs narrowedRhs
        let replacement ← makeExtend .zeroExt bitCount narrowedAdd
        replaceUsesWith id replacement
        return true
    else return false

end Narrowing

/-! ### Values -/

namespace Bits

variable {x : Bits}

/-- A negation of a number with leading zeros, sign-extended from one bit more. -/
theorem signExtend_negate {u : Nat} (h : x.val < 2 ^ u) (hu : u < x.width) :
    ((x.slice 0 (u + 1)).negate).signExtend x.width = x.negate := by
  have hval : (x.slice 0 (u + 1)).val = x.val :=
    slice_zero_val (h.trans_le (Nat.pow_le_pow_right Nat.two_pos (Nat.le_succ u)))
  have hslice := (fitsSigned_of_val_lt (x := x.slice 0 (u + 1)) (k := u) (Nat.lt_succ_self u)
    (by rw [hval]; exact h)).1
  have hx := (fitsSigned_of_val_lt hu h).1
  rw [hval] at hslice
  rw [signExtend, negate_eq_ofInt, negate_eq_ofInt, hslice, hx, slice_width, toInt_ofInt]
  unfold FitsSigned
  rw [pow_succ]
  omega

/-- The sign extension of a single bit is its negation. -/
theorem signExtend_bit (h : x.val < 2) (hw : 1 < x.width) :
    (x.slice 0 1).signExtend x.width = x.negate := by
  have hval : (x.slice 0 1).val = x.val := slice_zero_val (by rw [pow_one]; exact h)
  have hx := (fitsSigned_of_val_lt hw (by rw [pow_one]; exact h)).1
  rw [signExtend, negate_eq_ofInt, hx]
  congr 1
  unfold toInt
  rw [hval, slice_width, pow_one]
  split <;> omega

variable {y : Bits}

theorem zeroExtend_add {u : Nat} (hx : x.val < 2 ^ u) (hy : y.val < 2 ^ u) (hu : u < x.width) :
    ((x.slice 0 (u + 1)).add (y.slice 0 (u + 1))).zeroExtend x.width = x.add y := by
  have hpow : 2 ^ (u + 1) ≤ 2 ^ x.width := Nat.pow_le_pow_right Nat.two_pos hu
  rw [pow_succ] at hpow
  have hxv : (x.slice 0 (u + 1)).val = x.val := slice_zero_val (by rw [pow_succ]; omega)
  have hyv : (y.slice 0 (u + 1)).val = y.val := slice_zero_val (by rw [pow_succ]; omega)
  refine ext rfl ?_
  rw [zeroExtend, ofNat_val, add_val, add_val, hxv, hyv, slice_width,
    Nat.mod_eq_of_lt (a := x.val + y.val) (b := 2 ^ (u + 1)) (by rw [pow_succ]; omega)]

theorem sub_val_cast (hw : x.width = y.width) :
    ((x.sub y).val : Int) = ((x.val : Int) - y.val) % (2 ^ x.width : Nat) := by
  have hlt := y.isLt
  rw [← hw] at hlt
  rw [sub, ofNat_val, natCast_mod, Nat.cast_sub (by omega), Nat.cast_add, add_sub_right_comm,
    add_emod_right]

/-- A difference that fits can be computed at the narrower width. -/
theorem zeroExtend_sub {r : Nat} (hw : x.width = y.width) (hr : r ≤ x.width)
    (h : (x.sub y).val < 2 ^ r) :
    ((x.slice 0 r).sub (y.slice 0 r)).zeroExtend x.width = x.sub y := by
  refine ext rfl ?_
  rw [zeroExtend_val (by exact hr)]
  have hdvd : ((2 ^ r : Nat) : Int) ∣ (2 ^ x.width : Nat) := by exact_mod_cast pow_dvd_pow 2 hr
  -- the difference is below `2 ^ r`, so it is what it is modulo `2 ^ r`
  have hcast : (((x.slice 0 r).sub (y.slice 0 r)).val : Int) = ((x.sub y).val : Nat) := by
    have hsmall : ((x.sub y).val : Int) % (2 ^ r : Nat) = (x.sub y).val :=
      emod_eq_of_lt (by omega) (by exact_mod_cast h)
    rw [← hsmall, sub_val_cast hw, sub_val_cast (by rfl), emod_emod_of_dvd _ hdvd, slice_width,
      slice_val, slice_val, pow_zero, Nat.div_one, Nat.div_one, natCast_mod, natCast_mod,
      ← sub_emod]
  exact_mod_cast hcast

/-- A decoder of the low bits decodes as many values. -/
theorem zeroExtend_decode {m w : Nat} (h : x.val < 2 ^ m) :
    ((x.slice 0 m).decode (Narrowing.newDecodeWidth w m)).zeroExtend w = x.decode w := by
  have hle : Narrowing.newDecodeWidth w m ≤ w := by
    unfold Narrowing.newDecodeWidth
    split
    · exact Nat.min_le_left _ _
    · exact le_refl w
  have hiff : x.val < Narrowing.newDecodeWidth w m ↔ x.val < w := by
    unfold Narrowing.newDecodeWidth
    split
    · exact ⟨fun hlt => hlt.trans_le (Nat.min_le_left _ _), fun hlt => lt_min hlt h⟩
    · exact Iff.rfl
  refine ext (by simp) ?_
  rw [zeroExtend_val (by rw [decode_width]; exact hle), decode, decode, slice_zero_val h]
  by_cases hx : x.val < w
  · rw [if_pos (hiff.2 hx), if_pos hx, powerOfTwo_val (hiff.2 hx), powerOfTwo_val hx]
  · rw [if_neg (mt hiff.1 hx), if_neg hx, zero_val, zero_val]

end Bits

end Xls

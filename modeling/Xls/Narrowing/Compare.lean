import Xls.Narrowing.KnownBits

/-!
# Xls.Narrowing.Compare

`MaybeNarrowCompare` of the narrowing pass (`xls/passes/narrowing_pass.cc`) and its soundness
(`maybeNarrowCompare_sound`). Leading and trailing bits that are known to be equal are
dropped, after which a signed comparison may have become an unsigned one; else leading bits
that are copies of the sign.
-/

namespace Xls

open Interpreter Bits Canonicalization
open Graph (Build World getNode bitCountOrDie makeNode replaceUsesWith)
open Graph.World

namespace Narrowing

open ArithSimplification (makeBitSlice)

/-! ### The rule -/

/-- `IsSignedCompare`. -/
def isSignedCompare : CompareOp → Bool
  | .eq | .ne | .sle | .slt | .sge | .sgt => true
  | _ => false

/-- `SignedCompareToUnsigned`. -/
def signedCompareToUnsigned : CompareOp → Result CompareOp
  | .sge => .ok .uge
  | .sgt => .ok .ugt
  | .sle => .ok .ule
  | .slt => .ok .ult
  | _ => .error (.status "Unexpected comparison op")

/-- The comparison of the bits that are left when equal bits are dropped. -/
def matchedOp (op : CompareOp) (matchedLeadingBits : Nat) : Result CompareOp :=
  if 0 < matchedLeadingBits ∧ isSignedCompare op = true ∧ op ≠ .eq ∧ op ≠ .ne then
    signedCompareToUnsigned op
  else .ok op

/-- `narrow_compare_operands`. -/
def narrowCompareOperands (id lhs rhs start bitCount : Nat) (op : CompareOp) : Build Unit := do
  let narrowedLhs ← makeBitSlice lhs start bitCount
  let narrowedRhs ← makeBitSlice rhs start bitCount
  let replacement ← makeNode ⟨.compare op, [narrowedLhs, narrowedRhs], .bits 1⟩
  replaceUsesWith id replacement

/-- `matched_leading_operand_bits`. -/
def matchedLeadingOperandBits (e : Engine) (lhs rhs bitCount : Nat) : Nat :=
  countWhile (fun i => e.knownEquals (lhs, bitCount - i - 1) (rhs, bitCount - i - 1)) bitCount

/-- `matched_trailing_operand_bits`. -/
def matchedTrailingOperandBits (e : Engine) (lhs rhs bitCount : Nat) : Nat :=
  countWhile (fun i => e.knownEquals (lhs, i) (rhs, i)) bitCount

/-- `bits_eq_to_msb`, of a node with at least one bit. -/
def bitsEqToMsb (e : Engine) (node bitCount : Nat) : Nat :=
  countWhile (fun i => e.knownEquals (node, bitCount - 1) (node, bitCount - (i + 1) - 1))
    (bitCount - 1)

/-- `sign_ext_bits`. -/
def signExtBits (node : Nat) : Build Nat := do
  let n ← getNode node
  match n.kind, n.operands with
  | .extend .signExt newBitCount, [operand] => do
    let bitCount ← bitCountOrDie operand
    return newBitCount - bitCount
  | .extend .zeroExt newBitCount, [operand] => do
    let bitCount ← bitCountOrDie operand
    return newBitCount - bitCount - 1
  | _, _ => return 0

/-- The leading bits of an operand below its sign that are copies of it. -/
def extraMsbs (e : Engine) (node bitCount : Nat) : Build Nat := do
  let bits ← signExtBits node
  return max (bitsEqToMsb e node bitCount) bits

/-- Leading bits that are copies of the sign are dropped from both operands. -/
def narrowExtraMsbs (e : Engine) (id lhs rhs operandWidth : Nat) (op : CompareOp) :
    Build Bool := do
  let lhsMsbs ← extraMsbs e lhs operandWidth
  let rhsMsbs ← extraMsbs e rhs operandWidth
  if 0 < min lhsMsbs rhsMsbs then
    narrowCompareOperands id lhs rhs 0 (operandWidth - min lhsMsbs rhsMsbs) op
    return true
  else return false

/-- `MaybeNarrowCompare`, for operands of a bits type. -/
def narrowCompare (e : Engine) (id lhs rhs operandWidth : Nat) (op : CompareOp) : Build Bool := do
  let matchedLeadingBits := matchedLeadingOperandBits e lhs rhs operandWidth
  let matchedTrailingBits := matchedTrailingOperandBits e lhs rhs operandWidth
  if matchedLeadingBits = operandWidth then return false
  else if 0 < matchedLeadingBits ∨ 0 < matchedTrailingBits then
    let newOp ← matchedOp op matchedLeadingBits
    narrowCompareOperands id lhs rhs matchedTrailingBits
      (operandWidth - matchedLeadingBits - matchedTrailingBits) newOp
    return true
  else narrowExtraMsbs e id lhs rhs operandWidth op

/-- `MaybeNarrowCompare`; the result says whether the node was replaced. -/
def maybeNarrowCompare (e : SpecializedQueryEngines) (id : Nat) : Build Bool := do
  let n ← getNode id
  match n.kind, n.operands with
  | .compare op, [lhs, rhs] => do
    let lhsNode ← getNode lhs
    match lhsNode.type with
    | .bits operandWidth => narrowCompare (e.forNode id) id lhs rhs operandWidth op
    | _ => return false
  | _, _ => return false

/-! ### Equal bits -/

/-- The bits that are known to be equal, of the operands of a node, are equal. -/
def EqualsSound {env : Env} {args : List Value} (e : Engine) (w : World env args)
    (operands : List Nat) : Prop :=
  ∀ i ∈ operands, ∀ j ∈ operands, ∀ x y : Bits, w.vals[i]? = some (.leaf x) →
    w.vals[j]? = some (.leaf y) → ∀ k l, e.knownEquals (i, k) (j, l) = true → x.get k = y.get l

variable {env : Env} {args : List Value} {w : World env args} {b : ℚ} {e : Engine}
  {id lhs rhs : Nat} {x y : Bits}

/-- Unless all bits match, some bits are left between the leading and the trailing ones. -/
theorem matched_lt {n : Nat} (h : matchedLeadingOperandBits e lhs rhs n ≠ n) :
    matchedLeadingOperandBits e lhs rhs n + matchedTrailingOperandBits e lhs rhs n < n := by
  have hlt : matchedLeadingOperandBits e lhs rhs n < n :=
    lt_of_le_of_ne (countWhile_le _ _) h
  have hstops := countWhile_stops hlt
  by_contra hge
  -- the bit at which the leading loop stops would be among the trailing ones
  have hholds := countWhile_holds (p := fun i => e.knownEquals (lhs, i) (rhs, i)) (n := n)
    (i := n - matchedLeadingOperandBits e lhs rhs n - 1) (by
      show _ < matchedTrailingOperandBits e lhs rhs n
      omega)
  have hsame : e.knownEquals (lhs, n - matchedLeadingOperandBits e lhs rhs n - 1)
      (rhs, n - matchedLeadingOperandBits e lhs rhs n - 1) = false := hstops
  rw [hsame] at hholds
  cases hholds

section

variable (hsound : EqualsSound e w [lhs, rhs]) (hx : w.vals[lhs]? = some (.leaf x))
  (hy : w.vals[rhs]? = some (.leaf y))
include hsound hx hy

theorem matchedLeading_div (hw : x.width = y.width) :
    x.val / 2 ^ (x.width - matchedLeadingOperandBits e lhs rhs x.width) =
      y.val / 2 ^ (x.width - matchedLeadingOperandBits e lhs rhs x.width) := by
  refine div_eq_of_get fun i hi => ?_
  by_cases hiw : i < x.width
  · refine hsound lhs (by simp) rhs (by simp) x y hx hy i i ?_
    have hholds := countWhile_holds
      (show x.width - 1 - i < matchedLeadingOperandBits e lhs rhs x.width by omega)
    simpa [show x.width - (x.width - 1 - i) - 1 = i by omega] using hholds
  · rw [get_of_width_le (by omega), get_of_width_le (by omega)]

theorem matchedTrailing_mod :
    x.val % 2 ^ matchedTrailingOperandBits e lhs rhs x.width =
      y.val % 2 ^ matchedTrailingOperandBits e lhs rhs x.width :=
  mod_eq_of_get fun i hi =>
    hsound lhs (by simp) rhs (by simp) x y hx hy i i (countWhile_holds hi)

end

variable {op : CompareOp}

/-- A signed comparison of numbers with the same sign is an unsigned one. -/
theorem compareBits_toUnsigned
    (hsign : (x.toInt < y.toInt ↔ x.val < y.val) ∧ (y.toInt < x.toInt ↔ y.val < x.val))
    (hop : IsSignedOrder op) :
    ∃ op', signedCompareToUnsigned op = .ok op' ∧ ¬ IsSignedOrder op' ∧
      compareBits op' x y = compareBits op x y := by
  obtain ⟨hlt, hgt⟩ := hsign
  obtain rfl | rfl | rfl | rfl := hop
  · refine ⟨.uge, rfl, by simp [IsSignedOrder], ?_⟩
    rw [compareBits, compareBits, not_slt]
    exact decide_eq_decide.2 (by omega)
  · refine ⟨.ugt, rfl, by simp [IsSignedOrder], ?_⟩
    rw [compareBits, compareBits, not_sle]
    exact decide_eq_decide.2 hgt.symm
  · exact ⟨.ule, rfl, by simp [IsSignedOrder], decide_eq_decide.2 (by omega)⟩
  · exact ⟨.ult, rfl, by simp [IsSignedOrder], decide_eq_decide.2 hlt.symm⟩

/-- The comparison of the bits that are left has the same result. -/
theorem compareBits_matched (hsound : EqualsSound e w [lhs, rhs])
    (hx : w.vals[lhs]? = some (.leaf x)) (hy : w.vals[rhs]? = some (.leaf y))
    (hw : x.width = y.width) (op : CompareOp)
    (hleft : matchedLeadingOperandBits e lhs rhs x.width ≠ x.width) :
    ∃ newOp, matchedOp op (matchedLeadingOperandBits e lhs rhs x.width) = .ok newOp ∧
      compareBits newOp (x.slice (matchedTrailingOperandBits e lhs rhs x.width)
          (x.width - matchedLeadingOperandBits e lhs rhs x.width -
            matchedTrailingOperandBits e lhs rhs x.width))
        (y.slice (matchedTrailingOperandBits e lhs rhs x.width)
          (x.width - matchedLeadingOperandBits e lhs rhs x.width -
            matchedTrailingOperandBits e lhs rhs x.width)) = compareBits op x y := by
  have hlt := matched_lt hleft
  have hlead := matchedLeading_div hsound hx hy hw
  have htrail := matchedTrailing_mod hsound hx hy
  generalize matchedLeadingOperandBits e lhs rhs x.width = l at hlt hlead ⊢
  generalize matchedTrailingOperandBits e lhs rhs x.width = t at hlt htrail ⊢
  have horder := sameOrder_slice hw hlt.le hlead htrail
  by_cases hl : 0 < l
  · have hsign := toInt_lt_iff_of_div hw hl (by omega) hlead
    have hunsigned : ∀ op' : CompareOp, ¬ IsSignedOrder op' →
        compareBits op' (x.slice t (x.width - l - t)) (y.slice t (x.width - l - t)) =
          compareBits op' x y := fun op' hop =>
      (compareBits_eq op' hw (by rfl) horder fun h => absurd h hop).symm
    by_cases hop : IsSignedOrder op
    · obtain ⟨op', hop', hne, heq⟩ := compareBits_toUnsigned hsign hop
      refine ⟨op', ?_, (hunsigned op' hne).trans heq⟩
      have hcond : isSignedCompare op = true ∧ op ≠ .eq ∧ op ≠ .ne := by
        obtain rfl | rfl | rfl | rfl := hop
        all_goals exact ⟨rfl, nofun, nofun⟩
      rw [matchedOp, if_pos ⟨hl, hcond⟩, hop']
    · refine ⟨op, ?_, hunsigned op hop⟩
      rw [matchedOp, if_neg]
      intro ⟨_, hsigned, heq, hne⟩
      cases op with
      | eq => exact heq rfl
      | ne => exact hne rfl
      | sge | sgt | sle | slt => simp [IsSignedOrder] at hop
      | uge | ugt | ule | ult => cases hsigned
  · obtain rfl : l = 0 := by omega
    refine ⟨op, by rw [matchedOp, if_neg fun h => hl h.1], ?_⟩
    rw [Nat.sub_zero] at horder ⊢
    refine (compareBits_eq op hw (by rfl) horder fun _ => ?_).symm
    exact sameSignedOrder_slice hw (by omega) htrail

/-! ### Copies of the sign -/

/-- A value with equal leading bits fits the width without them. -/
theorem bitsEqToMsb_fits (hsound : EqualsSound e w [lhs, rhs])
    (hx : w.vals[lhs]? = some (.leaf x)) (hpos : 0 < x.width) :
    bitsEqToMsb e lhs x.width < x.width ∧
      FitsSigned (x.width - bitsEqToMsb e lhs x.width) x.toInt := by
  have hle : bitsEqToMsb e lhs x.width ≤ x.width - 1 := countWhile_le _ _
  refine ⟨by omega, ?_⟩
  have hfits := fitsSigned_of_get (x := x) (s := x.width - 1 - bitsEqToMsb e lhs x.width)
    (by omega) fun i hi hiw => ?_
  · rwa [show x.width - 1 - bitsEqToMsb e lhs x.width + 1 =
      x.width - bitsEqToMsb e lhs x.width by omega] at hfits
  by_cases hmsb : i = x.width - 1
  · rw [hmsb]
    rfl
  · refine (hsound lhs (by simp) lhs (by simp) x x hx hx (x.width - 1) i ?_).symm
    have hholds := countWhile_holds (show x.width - 1 - i - 1 < bitsEqToMsb e lhs x.width by omega)
    simpa [show x.width - (x.width - 1 - i - 1 + 1) - 1 = i by omega] using hholds

/-- The operand of an extension. -/
theorem exists_extended {w' : World env args} {n : Node} {op : ExtendOp} {newBitCount operand : Nat}
    (hn : w'.graph.nodes[lhs]? = some n) (hx : w'.vals[lhs]? = some (.leaf x))
    (hkind : n.kind = .extend op newBitCount) (hoperands : n.operands = [operand]) :
    ∃ y : Bits, w'.Holds (w'.rank lhs) operand y ∧ y.width ≤ newBitCount ∧
      (op = .signExt → 0 < y.width) ∧ x = extended op newBitCount y := by
  obtain ⟨t, u, v, h, ho⟩ := exists_unary hn hoperands
  have hverify := h.verified
  have heval := h.eval
  rw [hkind] at hverify heval
  cases t with
  | bits k =>
    obtain ⟨y, rfl, rfl⟩ := has_bits ho
    simp only [verifyNode, Bool.and_eq_true, Bool.or_eq_true, beq_iff_eq,
      decide_eq_true_eq] at hverify
    obtain ⟨⟨hle, hop⟩, -⟩ := hverify
    refine ⟨y, ho.holds, hle, fun hsign => ?_, ?_⟩
    · exact hop.resolve_left (by simp [hsign])
    have hvalue := h.value.symm.trans hx
    have hextend : evalNode env args (.extend op newBitCount) n.type [.leaf y] =
        .ok (.leaf (extended op newBitCount y)) := by
      show (extendOp op newBitCount y >>= fun r => pure (LeafTree.leaf r)) = _
      unfold extendOp
      rw [decide_eq_true hle]
      cases op <;> rfl
    rw [hextend] at heval
    cases heval
    exact (LeafTree.leaf.inj (Option.some.inj hvalue)).symm
  | _ => simp [verifyNode] at hverify

/-- The bits that an extension adds. -/
theorem ensures_signExtBits (hx : w.Holds b lhs x) (hpos : 0 < x.width) :
    w.Ensures (signExtBits lhs) fun _ k =>
      k < x.width ∧ FitsSigned (x.width - k) x.toInt := by
  have hnone : ∀ w' : World env args, w'.Ensures (pure 0) fun _ k =>
      k < x.width ∧ FitsSigned (x.width - k) x.toInt :=
    fun _ => ensures_pure fun _ _ => ⟨hpos, fitsSigned_toInt x⟩
  refine ensures_bind (ensures_getNode hx) fun w' n hle hn => ?_
  obtain ⟨hn, htype⟩ := hn
  have hx' := hx.mono hle
  split
  · rename_i newBitCount operand hkind hoperands
    obtain ⟨y, hy, hle, hywidth, rfl⟩ := exists_extended hn hx'.value hkind hoperands
    refine ensures_bind (ensures_bitCountOrDie hy) fun w'' k _ hk => ?_
    subst hk
    have hfits := (fitsSigned_toInt y).mono hle
    refine ensures_pure fun _ _ => ⟨?_, ?_⟩
    · show newBitCount - y.width < newBitCount
      have hy := hywidth rfl
      omega
    · show FitsSigned (newBitCount - (newBitCount - y.width))
        (Bits.ofInt newBitCount y.toInt).toInt
      rw [toInt_ofInt hfits, Nat.sub_sub_self hle]
      exact fitsSigned_toInt y
  · rename_i newBitCount operand hkind hoperands
    obtain ⟨y, hy, hle, -, rfl⟩ := exists_extended hn hx'.value hkind hoperands
    refine ensures_bind (ensures_bitCountOrDie hy) fun w'' k _ hk => ?_
    subst hk
    refine ensures_pure fun _ _ => ⟨?_, ?_⟩
    · change 0 < newBitCount at hpos
      show newBitCount - y.width - 1 < newBitCount
      omega
    · show FitsSigned (newBitCount - (newBitCount - y.width - 1))
        (y.zeroExtend newBitCount).toInt
      by_cases hwider : y.width < newBitCount
      · rw [show newBitCount - (newBitCount - y.width - 1) = y.width + 1 by omega]
        have hval : (y.zeroExtend newBitCount).val < 2 ^ y.width := by
          rw [zeroExtend_val hle]
          exact y.isLt
        exact (fitsSigned_of_val_lt hwider hval).2
      · rw [show newBitCount - (newBitCount - y.width - 1) = newBitCount by omega]
        exact fitsSigned_toInt (y.zeroExtend newBitCount)
  · exact hnone w'

theorem ensures_extraMsbs (hsound : EqualsSound e w [lhs, rhs]) (hx : w.Holds b lhs x)
    (hpos : 0 < x.width) : w.Ensures (extraMsbs e lhs x.width) fun _ k =>
      k < x.width ∧ FitsSigned (x.width - k) x.toInt := by
  refine ensures_bind (ensures_signExtBits hx hpos) fun w' bits _ hbits => ?_
  have hmsb := bitsEqToMsb_fits hsound hx.value hpos
  refine ensures_pure fun _ _ => ?_
  rcases max_choice (bitsEqToMsb e lhs x.width) bits with h | h
  · rw [h]
    exact hmsb
  · rw [h]
    exact hbits

/-! ### The rule is sound -/

/-- Comparing slices is enough if the comparison of the slices has the same answer. -/
theorem ensures_narrowCompareOperands {op' : CompareOp} {start bitCount : Nat}
    (hx : w.Holds (w.rank id) lhs x) (hy : w.Holds (w.rank id) rhs y) (hw : x.width = y.width)
    (hid : w.Holds b id (Bits.ofNat 1 (compareBits op x y).toNat))
    (hle : start + bitCount ≤ x.width)
    (heq : compareBits op' (x.slice start bitCount) (y.slice start bitCount) = compareBits op x y) :
    w.Ensures (narrowCompareOperands id lhs rhs start bitCount op') fun _ _ => True := by
  refine ensures_bind (ensures_makeBitSlice hx hle) fun w₁ narrowedLhs h₁ hlhs => ?_
  refine ensures_bind (ensures_makeBitSlice (hy.mono h₁) (by omega))
    fun w₂ narrowedRhs h₂ hrhs => ?_
  have hcompare : w₂.Ensures (makeNode ⟨.compare op', [narrowedLhs, narrowedRhs], .bits 1⟩)
      fun w' new => w'.Holds (w.rank id) new
        (Bits.ofNat 1 (compareBits op x y).toNat) := by
    refine ensures_binary (hlhs.mono h₂) hrhs rfl (by simp [verifyNode]) ?_
    rw [← heq]
    exact evalNode_compare (compareOp_leaf op' _ _)
  refine ensures_bind hcompare fun w₃ replacement h₃ hreplacement => ?_
  have hle' := (h₁.trans h₂).trans h₃
  rw [← hle'.rank id hid.lt] at hreplacement
  exact ensures_replaceUsesWith (hid.mono hle') hreplacement

section

variable (hsound : EqualsSound e w [lhs, rhs]) (hx : w.Holds (w.rank id) lhs x)
  (hy : w.Holds (w.rank id) rhs y) (hw : x.width = y.width)
  (hid : w.Holds b id (Bits.ofNat 1 (compareBits op x y).toNat))
include hsound hx hy hw hid

/-- Cutting off equal leading bits keeps the value of the comparison. -/
theorem ensures_narrowExtraMsbs (hpos : 0 < x.width) :
    w.Ensures (narrowExtraMsbs e id lhs rhs x.width op) fun _ _ => True := by
  have hsound' : EqualsSound e w [rhs, lhs] := fun i hi j hj =>
    hsound i (by simpa [or_comm] using hi) j (by simpa [or_comm] using hj)
  refine ensures_bind (ensures_extraMsbs hsound hx hpos) fun w₁ lhsMsbs h₁ hlhs => ?_
  have hy' := ensures_extraMsbs hsound' hy (hw ▸ hpos)
  rw [← hw] at hy'
  refine ensures_bind (hy'.of_le h₁) fun w₂ rhsMsbs h₂ hrhs => ?_
  split
  · have hle := Nat.min_le_left lhsMsbs rhsMsbs
    have hle' := Nat.min_le_right lhsMsbs rhsMsbs
    obtain ⟨horder, hsigned⟩ := sameOrders_slice_zero hw
      (Nat.sub_le x.width (min lhsMsbs rhsMsbs)) (hlhs.2.mono (by omega)) (hrhs.2.mono (by omega))
    have hnarrow : w.Ensures (narrowCompareOperands id lhs rhs 0
        (x.width - min lhsMsbs rhsMsbs) op) fun _ _ => True :=
      ensures_narrowCompareOperands hx hy hw hid (by omega)
        (compareBits_eq op hw (by rfl) horder fun _ => hsigned).symm
    refine ensures_bind (hnarrow.of_le (h₁.trans h₂)) fun w₃ _ _ _ => ?_
    exact ensures_pure fun _ _ => trivial
  · exact ensures_pure fun _ _ => trivial

/-- Narrowing a comparison from both ends keeps its value. -/
theorem ensures_narrowCompare :
    w.Ensures (narrowCompare e id lhs rhs x.width op) fun _ _ => True := by
  unfold narrowCompare
  dsimp only
  split
  · exact ensures_pure fun _ _ => trivial
  rename_i hleft
  have hlt := matched_lt hleft
  split
  · obtain ⟨newOp, hop, heq⟩ := compareBits_matched hsound hx.value hy.value hw op hleft
    refine ensures_lift hop ?_
    refine ensures_bind (ensures_narrowCompareOperands hx hy hw hid (by omega) heq)
      fun w' _ _ _ => ?_
    exact ensures_pure fun _ _ => trivial
  · exact ensures_narrowExtraMsbs hsound hx hy hw hid (Nat.zero_lt_of_lt hlt)

end

/-- Comparisons are narrowed soundly: for every comparison, and known bits that are right for
the values of its operands, the rule returns, and every node and the return value keep their
values. -/
theorem maybeNarrowCompare_sound (w : World env args) {e : SpecializedQueryEngines} {n : Node}
    {op : CompareOp} (hn : w.graph.nodes[id]? = some n) (hkind : n.kind = .compare op)
    (hsound : EqualsSound (e.forNode id) w n.operands) : w.Returns (maybeNarrowCompare e id) := by
  obtain ⟨types, ops, v, h⟩ := exists_at hn
  have hverify := h.verified
  have heval := h.eval
  have hops := h.operands
  have hhas := h.has
  rw [hkind] at hverify heval
  unfold World.Returns
  rw [maybeNarrowCompare, run_getNode hn]
  obtain ⟨kind, operands, type⟩ := n
  dsimp only at hkind hops hsound hverify heval hhas ⊢
  subst hkind
  cases hops with
  | nil => simp [verifyNode] at hverify
  | @cons lhs t u _ _ _ ha hops =>
    cases hops with
    | nil => simp [verifyNode] at hverify
    | @cons rhs t' u' _ _ _ hb hops =>
      cases hops with
      | cons _ _ => simp [verifyNode] at hverify
      | nil =>
        simp only [verifyNode, Bool.and_eq_true, beq_iff_eq] at hverify
        obtain ⟨rfl, rfl⟩ := hverify
        obtain ⟨m, hm, ht⟩ := Option.map_eq_some_iff.mp ha.type
        show w.Returns (getNode lhs >>= _)
        unfold World.Returns
        rw [run_getNode hm, ht]
        cases t with
        | bits k =>
          obtain ⟨x, rfl, rfl⟩ := has_bits ha
          obtain ⟨y, rfl, hy⟩ := has_bits hb
          have hcompare := compareOp_leaf op x y
          rw [evalNode_compare hcompare] at heval
          cases heval
          exact Returns.of_ensures (ensures_narrowCompare hsound
            ha.holds ⟨by rw [hy]; exact hb.type, hb.value, hb.rank⟩
            hy.symm hhas.holds)
        | _ =>
          exact Returns.of_ensures (P := fun _ _ => True)
            (ensures_pure fun _ _ => trivial)

/-- A signed comparison of sign extensions. -/
def extendedCompare : Function where
  params := [.bits 4, .bits 4]
  nodes := [⟨.param 0, [], .bits 4⟩, ⟨.param 1, [], .bits 4⟩,
    ⟨.extend .signExt 8, [0], .bits 8⟩, ⟨.extend .signExt 8, [1], .bits 8⟩,
    ⟨.compare .slt, [2, 3], .bits 1⟩]
  returnValue := 4
  verified := by decide
  returnValue_lt := by decide

/-- Engines that know that the first and the last bits of the extensions are equal. -/
def equalEndsEngines : SpecializedQueryEngines where
  base :=
    { isZero := fun _ _ => false
      isOne := fun _ _ => false
      knownEquals := fun p q => p.2 == q.2 && (p.2 == 0 || p.2 == 7)
      knownValueAsBits := fun _ => none
      knownTree := fun _ => none }
  context := none

theorem run_extendedCompare : Interpreter.run (packageEnv []) extendedCompare
    [.leaf (Bits.ofNat 4 5), .leaf (Bits.ofNat 4 3)] = .ok [.leaf (Bits.ofNat 4 5),
      .leaf (Bits.ofNat 4 3), .leaf (Bits.ofNat 8 5), .leaf (Bits.ofNat 8 3),
      .leaf (Bits.ofNat 1 0)] := rfl

/-- The engine of the example knows equal leading and trailing bits. -/
theorem equalsSound_extendedCompare : EqualsSound (equalEndsEngines.forNode 4)
    (World.ofRun run_extendedCompare) [2, 3] := by
  intro i hi j hj x y hx hy k l hkl
  have hbits : ∀ i ∈ [2, 3], ∀ x, (World.ofRun run_extendedCompare).vals[i]? = some (.leaf x) →
      x.get 0 = true ∧ x.get 7 = false := by
    intro i hi x hx
    rcases List.mem_pair.mp hi with rfl | rfl
    · cases hx
      decide
    · cases hx
      decide
  have hk : k = l ∧ (k = 0 ∨ k = 7) := by
    simpa [equalEndsEngines, SpecializedQueryEngines.forNode] using hkl
  obtain ⟨rfl, rfl | rfl⟩ := hk
  · rw [(hbits i hi x hx).1, (hbits j hj y hy).1]
  · rw [(hbits i hi x hx).2, (hbits j hj y hy).2]

theorem maybeNarrowCompare_sound_extendedCompare :
    (World.ofRun run_extendedCompare).Returns (maybeNarrowCompare equalEndsEngines 4) :=
  maybeNarrowCompare_sound (World.ofRun run_extendedCompare)
    (n := ⟨.compare .slt, [2, 3], .bits 1⟩) rfl rfl equalsSound_extendedCompare

/-- The first and the last bit are dropped, and the comparison becomes an unsigned one. -/
example : (maybeNarrowCompare equalEndsEngines 4 extendedCompare.graph).map (fun p =>
    (p.1, p.2.nodes[5]?.map Node.type, p.2.nodes[7]?.map Node.kind, p.2.returnValue)) =
    .ok (true, some (.bits 6), some (.compare .ult), 7) := rfl

end Narrowing

end Xls

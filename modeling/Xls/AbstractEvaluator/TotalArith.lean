import Xls.AbstractEvaluator.Arith

/-!
# Xls.AbstractEvaluator.TotalArith

No check of the adder, the divider, the shifts and the slice update fails: over an evaluator
whose primitives always return, these operations return a vector of the expected width
(`TotalOps.addFrom` to `TotalOps.bitSliceUpdate`). The dividers ask for operands of at least one
bit, the others for nothing.
-/

namespace Xls.Evaluator

open List Bits

variable {S E : Type} [Preorder S]

open Grow (Ensures ensures_bind ensures_pure ensures_guardThat)

variable {ev : Evaluator S E} {V : S → E → Prop} {s : S}

/-! ### Addition and negation -/

theorem TotalOps.halfAdder (h : ev.TotalOps V) {a b : E} (ha : V s a) (hb : V s b) :
    Ensures s (ev.halfAdder a b) (PairValid V) := by
  refine ensures_bind (h.and ha hb) fun t1 carry h1 hcarry => ?_
  refine ensures_bind (h.or (h.mono h1 ha) (h.mono h1 hb)) fun t2 o h2 ho => ?_
  refine ensures_bind (h.not (h.mono h2 hcarry)) fun t3 n h3 hn => ?_
  refine ensures_bind (h.and (h.mono h3 ho) hn) fun t4 sum h4 hsum => ?_
  exact ensures_pure fun t5 h5 =>
    ⟨h.mono h5 hsum, h.mono (((h2.trans h3).trans h4).trans h5) hcarry⟩

theorem TotalOps.fullAdder (h : ev.TotalOps V) {a b c : E} (ha : V s a) (hb : V s b) (hc : V s c) :
    Ensures s (ev.fullAdder a b c) (PairValid V) := by
  refine ensures_bind (h.halfAdder ha hb) fun t1 first h1 hfirst => ?_
  refine ensures_bind (h.halfAdder hfirst.1 (h.mono h1 hc)) fun t2 second h2 hsecond => ?_
  refine ensures_bind (h.or (h.mono h2 hfirst.2) hsecond.2) fun t3 carry h3 hcarry => ?_
  exact ensures_pure fun t4 h4 => ⟨h.mono (h3.trans h4) hsecond.1, h.mono h4 hcarry⟩

variable {a b amount input : List E} {w : Nat}

/-- The adder needs the second operand to be at least as long as the first. -/
theorem TotalOps.addFrom (h : ev.TotalOps V) {carry : E} (hc : V s carry) (ha : AllValid V s a)
    (hb : AllValid V s b) (hlen : a.length ≤ b.length) :
    Ensures s (ev.addFrom carry a b) (ValidVec V a.length) := by
  induction a generalizing b carry s with
  | nil => exact ensures_pure fun _ _ => ⟨rfl, fun _ hx => absurd hx not_mem_nil⟩
  | cons x a ih =>
    cases b with
    | nil => exact absurd hlen (by simp)
    | cons y b =>
      rw [AllValid, forall_mem_cons] at ha hb
      rw [Evaluator.addFrom]
      refine ensures_bind (h.fullAdder ha.1 hb.1 hc) fun t1 r h1 hr => ?_
      refine ensures_bind (ih hr.2 (h.allMono h1 ha.2) (h.allMono h1 hb.2)
        (Nat.le_of_succ_le_succ hlen)) fun t2 rest h2 hrest => ?_
      exact ensures_pure fun t3 h3 => ⟨congrArg (· + 1) hrest.1,
        forall_mem_cons.2 ⟨h.mono (h2.trans h3) hr.1, h.allMono h3 hrest.2⟩⟩

theorem TotalOps.add (h : ev.TotalOps V) (ha : ValidVec V w s a) (hb : ValidVec V w s b) :
    Ensures s (ev.add a b) (ValidVec V w) := by
  have hlen : a.length ≤ b.length := (ha.1.trans hb.1.symm).le
  exact ha.1 ▸ h.addFrom (h.zero s) ha.2 hb.2 hlen

variable {x divisor negDivisor : List E} {acc : List E × List E} {fill : E}

/-- Negation returns the width of the operand. -/
theorem TotalOps.neg (h : ev.TotalOps V) (hx : ValidVec V w s x) :
    Ensures s (ev.neg x) (ValidVec V w) := by
  obtain ⟨rfl, hv⟩ := hx
  unfold Evaluator.neg
  split
  · exact ensures_pure fun t ht => ⟨rfl, h.allMono ht hv⟩
  · rename_i hne
    have hone : 1 < 2 ^ x.length := Nat.one_lt_two_pow hne
    refine ensures_bind (h.bitwiseNot hv) fun t1 inverted h1 hinv => ?_
    refine ensures_bind (h.constant hone) fun t2 one h2 hone => ?_
    exact h.add ⟨hinv.1, h.allMono h2 hinv.2⟩ hone

/-- A one-bit select between two vectors of one width. -/
theorem TotalOps.selectBit (h : ev.TotalOps V) {e : E} (he : V s e) (ha : ValidVec V w s a)
    (hb : ValidVec V w s b) : Ensures s (ev.select [e] [a, b] none) (ValidVec V w) := by
  refine h.select ?_ (by simp) (by simp) ?_ (fun _ hd => nomatch hd)
  · intro a ha
    rw [mem_singleton.1 ha]
    exact he
  · intro c hc
    rcases mem_pair.1 hc with rfl | rfl
    · exact ha
    · exact hb

/-- The absolute value needs a sign bit. -/
theorem TotalOps.abs (h : ev.TotalOps V) (hpos : 0 < w) (hx : ValidVec V w s x) :
    Ensures s (ev.abs x) (ValidVec V w) := by
  unfold Evaluator.abs
  split
  · rename_i hnil
    rw [getLast?_eq_none_iff.1 hnil] at hx
    exact absurd hx.1 (Nat.ne_of_lt hpos)
  · rename_i sign hsign
    refine ensures_bind (h.neg hx) fun t n ht hn => ?_
    exact h.selectBit (h.mono ht (hx.2 sign (mem_of_getLast? hsign)))
      (h.vecMono w _ _ _ ht hx) hn

/-! ### Division -/

section

variable (h : ev.TotalOps V) (hd : ValidVec V (w + 1) s divisor)
  (hn : ValidVec V (w + 1) s negDivisor)
include h hd hn

/-- A round of the divider keeps the width of the remainder and adds a quotient bit. -/
theorem TotalOps.divStep {m : Nat} (hq : ValidVec V m s acc.1) (hr : ValidVec V w s acc.2) {e : E}
    (he : V s e) :
    Ensures s (ev.divStep divisor negDivisor acc e) fun t r =>
      ValidVec V (m + 1) t r.1 ∧ ValidVec V w t r.2 := by
  have hshift : ValidVec V (w + 1) s (e :: acc.2) :=
    ⟨congrArg (· + 1) hr.1, forall_mem_cons.2 ⟨he, hr.2⟩⟩
  refine ensures_bind (h.uLessThan hshift.2 hd.2 (hshift.1.trans hd.1.symm))
    fun t1 less h1 hless => ?_
  refine ensures_bind (h.not hless) fun t2 bit h2 hbit => ?_
  have h12 := h1.trans h2
  refine ensures_bind (h.add (h.vecMono _ _ _ _ h12 hshift) (h.vecMono _ _ _ _ h12 hn))
    fun t3 difference h3 hdiff => ?_
  have h13 := h12.trans h3
  refine ensures_bind (h.selectBit (h.mono h3 hbit) (h.vecMono _ _ _ _ h13 hshift) hdiff)
    fun t4 r h4 hres => ?_
  refine ensures_pure fun t5 h5 => ⟨⟨congrArg (· + 1) hq.1, forall_mem_cons.2 ⟨?_, ?_⟩⟩, ?_⟩
  · exact h.mono ((h3.trans h4).trans h5) hbit
  · exact h.allMono ((h13.trans h4).trans h5) hq.2
  · refine ⟨by rw [length_dropLast, hres.1, Nat.add_sub_cancel], fun a ha => ?_⟩
    exact h.mono h5 (hres.2 a (mem_of_mem_dropLast ha))

theorem TotalOps.divFold {m : Nat} (hq : ValidVec V m s acc.1) (hr : ValidVec V w s acc.2)
    {bits : List E} (hbits : AllValid V s bits) :
    Ensures s (Grow.foldList (ev.divStep divisor negDivisor) acc bits) fun t r =>
      ValidVec V (m + bits.length) t r.1 ∧ ValidVec V w t r.2 := by
  induction bits generalizing acc m s with
  | nil => exact ensures_pure fun t ht => ⟨h.vecMono _ _ _ _ ht hq, h.vecMono _ _ _ _ ht hr⟩
  | cons e bits ih =>
    rw [AllValid, forall_mem_cons] at hbits
    refine ensures_bind (h.divStep hd hn hq hr hbits.1) fun t acc' ht hacc' => ?_
    have hrest := ih (h.vecMono _ _ _ _ ht hd) (h.vecMono _ _ _ _ ht hn) hacc'.1 hacc'.2
      (h.allMono ht hbits.2)
    rwa [Nat.add_assoc, Nat.add_comm 1] at hrest

end

theorem TotalOps.validConst (h : ev.TotalOps V) (w : Nat) (b : Bool) :
    ValidVec V w s (ev.constVector w b) :=
  ⟨length_replicate, h.constVector w b⟩

/-- The quotient has the width of the dividend, and the remainder that of the divisor. -/
theorem TotalOps.udivMod (h : ev.TotalOps V) {n d : List E} {v : Nat} (hn : ValidVec V v s n)
    (hd : ValidVec V w s d) :
    Ensures s (ev.udivMod n d) fun t r => ValidVec V v t r.1 ∧ ValidVec V w t r.2 := by
  refine ensures_bind (h.orReduce hd.2) fun t1 nonzero h1 hnonzero => ?_
  refine ensures_bind (h.zeroExtend (h.allMono h1 hd.2) (Nat.le_succ _))
    fun t2 divisor h2 hdiv => ?_
  rw [hd.1] at hdiv
  have hdivisor : ValidVec V (w + 1) t2 divisor := hdiv
  refine ensures_bind (h.neg hdivisor) fun t3 negDivisor h3 hneg => ?_
  have h13 := (h1.trans h2).trans h3
  have hrev : AllValid V t3 n.reverse := fun a ha => h.mono h13 (hn.2 a (mem_reverse.1 ha))
  refine ensures_bind (h.divFold (h.vecMono _ _ _ _ h3 hdivisor) hneg
    (⟨rfl, fun _ hx => absurd hx not_mem_nil⟩ : ValidVec V 0 t3 [])
    (hd.1 ▸ h.validConst d.length false) hrev) fun t4 qr h4 hqr => ?_
  rw [length_reverse, hn.1, Nat.zero_add] at hqr
  obtain ⟨q, r⟩ := qr
  have hnz := h.mono ((h2.trans h3).trans h4) hnonzero
  refine ensures_bind (P := ValidVec V v) ?_ fun t5 quotient h5 hquot => ?_
  · exact h.selectBit hnz (hqr.1.1 ▸ h.validConst q.length true) hqr.1
  refine ensures_bind (P := ValidVec V w) ?_ fun t6 remainder h6 hrem => ?_
  · exact h.selectBit (h.mono h5 hnz) (hqr.2.1 ▸ h.validConst r.length false)
      (h.vecMono _ _ _ _ h5 hqr.2)
  exact ensures_pure fun t7 h7 =>
    ⟨h.vecMono _ _ _ _ (h6.trans h7) hquot, h.vecMono _ _ _ _ h7 hrem⟩

omit [Preorder S] in
/-- The vector that is added for the sign is valid when its bits are. -/
theorem validSignVector {a b : E} (ha : V s a) (hb : V s b) :
    ValidVec V w s (signVector w a b) := by
  unfold signVector
  split
  · rename_i h0
    exact ⟨h0.symm, fun _ hx => absurd hx not_mem_nil⟩
  · rename_i hne
    refine ⟨by simp; omega, fun x hx => ?_⟩
    rcases mem_append.1 hx with hx | hx
    · rw [eq_of_mem_replicate hx]
      exact hb
    · rw [mem_singleton.1 hx]
      exact ha

theorem TotalOps.sign (h : ev.TotalOps V) (hx : AllValid V s x) :
    V s (x.getLast?.getD ev.zero) := by
  cases hl : x.getLast? with
  | none => exact h.zero s
  | some sign => exact hx sign (mem_of_getLast? hl)

/-- The signed quotient and remainder have the widths of the dividend and of the divisor. -/
theorem TotalOps.sdivMod (h : ev.TotalOps V) {n d : List E} {v : Nat} (hv : 0 < v) (hw : 0 < w)
    (hn : ValidVec V v s n) (hd : ValidVec V w s d) :
    Ensures s (ev.sdivMod n d) fun t r => ValidVec V v t r.1 ∧ ValidVec V w t r.2 := by
  have hnsign := h.sign hn.2
  have hdsign := h.sign hd.2
  refine ensures_bind (h.orReduce hd.2) fun t1 nonzero h1 hnonzero => ?_
  refine ensures_bind (h.abs hv (h.vecMono _ _ _ _ h1 hn)) fun t2 absN h2 habsN => ?_
  have h12 := h1.trans h2
  refine ensures_bind (h.abs hw (h.vecMono _ _ _ _ h12 hd)) fun t3 absD h3 habsD => ?_
  have h13 := h12.trans h3
  refine ensures_bind (h.udivMod (h.vecMono _ _ _ _ h3 habsN) habsD) fun t4 result h4 hres => ?_
  have h14 := h13.trans h4
  refine ensures_bind (h.neg hres.2) fun t5 negRemainder h5 hnegR => ?_
  have h15 := h14.trans h5
  refine ensures_bind (h.selectBit (h.mono h15 hnsign) (h.vecMono _ _ _ _ h5 hres.2) hnegR)
    fun t6 remainder h6 hrem => ?_
  have h16 := h15.trans h6
  refine ensures_bind (h.xor (h.mono h16 hnsign) (h.mono h16 hdsign)) fun t7 differ h7 hdiffer => ?_
  have h47 := (h5.trans h6).trans h7
  refine ensures_bind (h.neg (h.vecMono _ _ _ _ h47 hres.1)) fun t8 negQuotient h8 hnegQ => ?_
  have h48 := h47.trans h8
  refine ensures_bind (h.selectBit (h.mono h8 hdiffer) (h.vecMono _ _ _ _ h48 hres.1) hnegQ)
    fun t9 quotient h9 hquot => ?_
  have h19 := ((h16.trans h7).trans h8).trans h9
  refine ensures_bind (P := ValidVec V v) ?_ fun t10 quotient' h10 hquot' => ?_
  · refine h.select ?_ (by simp) (by simp) ?_ ?_
    · intro a ha
      rcases mem_pair.1 ha with rfl | rfl
      · exact h.mono h19 hnsign
      · exact h.mono ((h2.trans h3).trans ((h4.trans h48).trans h9)) hnonzero
    · rw [hquot.1]
      intro c hc
      rcases mem_pair.1 hc with rfl | rfl
      · exact validSignVector (h.zero _) (h.one _)
      · exact validSignVector (h.one _) (h.zero _)
    · rintro d' hd'
      cases hd'
      exact hquot
  refine ensures_pure fun t11 h11 => ⟨h.vecMono _ _ _ _ h11 hquot', ?_⟩
  exact h.vecMono _ _ _ _ (((h7.trans h8).trans h9).trans (h10.trans h11)) hrem

/-! ### Shifts and slice updates -/

/-- The selector of a shift is never empty. -/
theorem TotalOps.shiftSelector (h : ev.TotalOps V) (width : Nat) (ha : AllValid V s amount) :
    Ensures s (ev.shiftSelector width amount) fun t r => 0 < r.length ∧ AllValid V t r := by
  -- every amount the selector compares with can be expressed in as many bits
  have hfits : ∀ i, minBitCountUnsigned i ≤ amount.length → i < 2 ^ amount.length :=
    fun _ => lt_two_pow_iff_minBitCountUnsigned.2
  refine ensures_bind (P := fun t r => r.length = ((range width).takeWhile fun i =>
    decide (minBitCountUnsigned i ≤ amount.length)).length ∧ AllValid V t r) ?_
    fun t1 equal h1 hequal => ?_
  · refine Grow.ensures_mapList h.monotonic fun t i ht hi => ?_
    have hi' := mem_takeWhile_imp
      (p := fun i => decide (minBitCountUnsigned i ≤ amount.length)) hi
    exact h.equalsConstant (h.allMono ht ha) (hfits i (of_decide_eq_true hi'))
  · split
    · rename_i hwide
      refine ensures_bind (h.constant (hfits width hwide)) fun t2 limit h2 hlimit => ?_
      refine ensures_bind (h.uLessThan (h.allMono (h1.trans h2) ha) hlimit.2 hlimit.1.symm)
        fun t3 less h3 hless => ?_
      refine ensures_bind (h.not hless) fun t4 tooFar h4 htooFar => ?_
      refine ensures_pure fun t5 h5 => ⟨by simp, fun x hx => ?_⟩
      rcases mem_append.1 hx with hx | hx
      · exact h.mono (((h2.trans h3).trans h4).trans h5) (hequal.2 x hx)
      · rw [mem_singleton.1 hx]
        exact h.mono h5 htooFar
    · rename_i hnarrow
      refine ensures_pure fun t2 h2 => ⟨?_, h.allMono h2 hequal.2⟩
      -- an amount too narrow for the width still expresses a shift by zero
      cases width with
      | zero => exact absurd (Nat.zero_le _) hnarrow
      | succ width =>
        have hzero : decide (minBitCountUnsigned 0 ≤ amount.length) = true :=
          decide_eq_true (Nat.zero_le _)
        rw [hequal.1, range_succ_eq_map, takeWhile_cons, hzero, if_pos rfl]
        exact Nat.succ_pos _

omit [Preorder S] in
/-- A window of a vector with valid elements. -/
theorem validWindow {extended : List E} (hv : AllValid V s extended) {start width : Nat}
    (h : start + width ≤ extended.length) :
    ValidVec V width s ((extended.drop start).take width) := by
  refine ⟨?_, fun a ha => hv a (mem_of_mem_drop (mem_of_mem_take ha))⟩
  rw [length_take, length_drop]
  omega

omit [Preorder S] in
theorem allValid_extended (hi : AllValid V s input) (hf : V s fill) (n : Nat) :
    AllValid V s (input ++ replicate n fill) ∧ AllValid V s (replicate n fill ++ input) := by
  have hrep : AllValid V s (replicate n fill) := by
    intro a ha
    rw [eq_of_mem_replicate ha]
    exact hf
  exact ⟨fun a ha => (mem_append.1 ha).elim (hi a) (hrep a),
    fun a ha => (mem_append.1 ha).elim (hrep a) (hi a)⟩

omit [Preorder S] in
theorem validRightCases (hi : AllValid V s input) (hf : V s fill) (n : Nat) :
    ∀ c ∈ rightCases input fill n, ValidVec V input.length s c := by
  intro c hc
  obtain ⟨i, hin, rfl⟩ := mem_map.1 hc
  rw [mem_range] at hin
  refine validWindow (allValid_extended hi hf (n - 1)).1 ?_
  rw [length_append, length_replicate]
  omega

omit [Preorder S] in
theorem validLeftCases (hi : AllValid V s input) (hf : V s fill) (n : Nat) :
    ∀ c ∈ leftCases input fill n, ValidVec V input.length s c := by
  intro c hc
  obtain ⟨i, hin, rfl⟩ := mem_map.1 hc
  rw [mem_range] at hin
  refine validWindow (allValid_extended hi hf (n - 1)).2 ?_
  rw [length_append, length_replicate]
  omega

section

variable (h : ev.TotalOps V)
include h

/-- The select of a shift is accepted. -/
theorem TotalOps.shiftSelect (ha : AllValid V s amount) {cases : Nat → List (List E)}
    (hlen : ∀ n, (cases n).length = n) (hc : ∀ n, ∀ c ∈ cases n, ValidVec V input.length s c) :
    Ensures s (do
      let selector ← ev.shiftSelector input.length amount
      ev.oneHotSelect selector (cases selector.length) false) (ValidVec V input.length) := by
  refine ensures_bind (h.shiftSelector input.length ha) fun t selector ht hsel => ?_
  exact h.oneHotSelect ⟨(hlen _).symm, hsel.1, hsel.2,
    fun c hcm => h.vecMono _ _ _ _ ht (hc _ c hcm)⟩ false

section

variable (hi : AllValid V s input) (ha : AllValid V s amount)
include hi ha

theorem TotalOps.shiftRightLogical :
    Ensures s (ev.shiftRightLogical input amount) (ValidVec V input.length) :=
  h.shiftSelect ha (fun n => by simp [rightCases]) (validRightCases hi (h.zero s))

theorem TotalOps.shiftRightArith :
    Ensures s (ev.shiftRightArith input amount) (ValidVec V input.length) :=
  h.shiftSelect ha (fun n => by simp [rightCases]) (validRightCases hi (h.sign hi))

theorem TotalOps.shiftLeftLogical :
    Ensures s (ev.shiftLeftLogical input amount) (ValidVec V input.length) :=
  h.shiftSelect ha (fun n => by simp [leftCases]) (validLeftCases hi (h.zero s))

end

theorem TotalOps.adjustWidth {value : List E} (hv : AllValid V s value) (width : Nat) :
    Ensures s (ev.adjustWidth value width) (ValidVec V width) := by
  unfold Evaluator.adjustWidth
  split
  · exact ensures_bitSlice h.monotonic hv (by omega)
  · exact h.zeroExtend hv (by omega)

/-- An operation on two vectors of one width. -/
theorem TotalOps.naryPair {f : E → E → EvalM S E} (hf : TotalBinary V s f) (ha : ValidVec V w s a)
    (hb : ValidVec V w s b) : Ensures s (naryOp f [a, b]) (ValidVec V w) := by
  refine ensures_naryOp h.monotonic hf (cons_ne_nil _ _) ?_ ?_
  · intro v hv
    rcases mem_pair.1 hv with rfl | rfl
    · exact ha.2
    · exact hb.2
  · intro v hv
    rcases mem_pair.1 hv with rfl | rfl
    · exact ha.1
    · exact hb.1

/-- An update returns a vector of the width of the vector that is updated. -/
theorem TotalOps.bitSliceUpdate {start value : List E} (hi : AllValid V s input)
    (hs : AllValid V s start) (hv : AllValid V s value) :
    Ensures s (ev.bitSliceUpdate input start value) (ValidVec V input.length) := by
  unfold Evaluator.bitSliceUpdate
  have hones : (ev.bitsToVector ((allOnes (min input.length value.length)).zeroExtend
      input.length)).length = input.length := by
    rw [length_bitsToVector, zeroExtend_width]
  refine ensures_bind (h.shiftLeftLogical (h.bitsToVector _) hs) fun t1 shifted h1 hshift => ?_
  rw [hones] at hshift
  refine ensures_bind (h.bitwiseNot hshift.2) fun t2 mask h2 hmask => ?_
  have h12 := h1.trans h2
  refine ensures_bind (h.adjustWidth (h.allMono h12 hv) input.length) fun t3 adjusted h3 hadj => ?_
  have h13 := h12.trans h3
  refine ensures_bind (h.naryPair (fun _ _ _ _ => h.and)
    (⟨hmask.1.trans hshift.1, h.allMono h3 hmask.2⟩ : ValidVec V input.length t3 mask)
    ⟨rfl, h.allMono h13 hi⟩) fun t4 kept h4 hkept => ?_
  refine ensures_bind (h.shiftLeftLogical (h.allMono h4 hadj.2) (h.allMono (h13.trans h4) hs))
    fun t5 placed h5 hplaced => ?_
  rw [hadj.1] at hplaced
  exact h.naryPair (fun _ _ _ _ => h.or) (h.vecMono _ _ _ _ h5 hkept) hplaced

end

end Xls.Evaluator

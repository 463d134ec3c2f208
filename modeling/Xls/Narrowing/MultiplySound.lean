import Xls.Narrowing.Multiply

/-!
# Xls.Narrowing.MultiplySound

When the narrowing of a multiply or of a partial multiply keeps the meaning of the graph
(`narrowMultiply_returns`). It does unless it sign-extends a product of no bits, or takes
more trailing zeros off the operands than the product has bits.
-/

namespace Xls

open Interpreter Bits List
open Graph (Build World getNode bitCountOrDie makeNode replaceUsesWith)
open Graph.World

namespace Graph.World

variable {env : Env} {args : List Value} {w : World env args} {b : ℚ} {α β : Type}

/-! ### Failing rewrites -/

/-- The rewrite fails from every later world on. -/
def Fails (w : World env args) (c : Build α) : Prop := ∀ w₁, w ≤ w₁ → ∃ f, c w₁.graph = .error f

variable {c : Build α} {f : α → Build β} {P : World env args → α → Prop}

theorem fails_bind (hc : w.Ensures c P) (hf : ∀ w' a, w ≤ w' → P w' a → w'.Fails (f a)) :
    w.Fails (c >>= f) := by
  intro w₁ h₁
  obtain ⟨a, w₂, hrun, h₂, ha⟩ := hc w₁ h₁
  obtain ⟨err, herr⟩ := hf w₂ a (h₁.trans h₂) ha w₂ (le_refl w₂)
  exact ⟨err, (run_bind_of_ok hrun).trans herr⟩

theorem fails_bind_of_fails (hc : w.Fails c) : w.Fails (c >>= f) := by
  intro w₁ h₁
  obtain ⟨err, herr⟩ := hc w₁ h₁
  exact ⟨err, run_bind_of_error herr⟩

theorem fails_lift {c : Result α} {err : Failure} {f : α → Build β} (hc : c = .error err) :
    w.Fails (liftM c >>= f) := by
  subst hc
  exact fun w₁ _ => ⟨err, rfl⟩

theorem Fails.of_le {w' : World env args} (h : w.Fails c) (hle : w ≤ w') : w'.Fails c :=
  fun w₁ h₁ => h w₁ (hle.trans h₁)

theorem Fails.not_returns (h : w.Fails c) : ¬ w.Returns c := by
  obtain ⟨err, herr⟩ := h w (le_refl w)
  exact not_returns_of_error herr

/-- What is known of the result alone may be added. -/
theorem Ensures.and_const {Q : α → Prop} (h : w.Ensures c P) (hq : w.Ensures c fun _ a => Q a) :
    w.Ensures c fun w' a => P w' a ∧ Q a := by
  intro w₁ h₁
  obtain ⟨a, w₂, hrun, h₂, ha⟩ := h w₁ h₁
  obtain ⟨a', w₂', hrun', -, ha'⟩ := hq w₁ h₁
  rw [hrun] at hrun'
  obtain rfl : a = a' := (Prod.mk.inj (Except.ok.inj hrun')).1
  exact ⟨a, w₂, hrun, h₂, ha, ha'⟩

end Graph.World

namespace Narrowing

open ArithSimplification (makeLiteral makeBitSlice)
open Reassociation (makeBinOp)
open Bits (mulOp factor)

variable {env : Env} {args : List Value} {w : World env args} {b : ℚ}
  {e : SpecializedQueryEngines} {id user width : Nat} {lhs rhs o : Operand} {x y : Bits}

/-! ### What is known of the operands -/

/-- `CountLeadingKnownZeros` of an operand. -/
def leadingKnownZeros (e : SpecializedQueryEngines) (user : Nat) (o : Operand) : Nat :=
  countWhile (fun i => e.isZero o.id (some user) (o.bitCount - 1 - i)) o.bitCount

/-- `CountTrailingKnownZeros` of an operand. -/
def trailingKnownZeros (e : SpecializedQueryEngines) (user : Nat) (o : Operand) : Nat :=
  countWhile (fun i => e.isZero o.id (some user) i) o.bitCount

/-- An operand that holds bits; a sign extension has the number of what it extends. -/
structure OperandAt (w : World env args) (b : ℚ) (o : Operand) (x : Bits) : Prop where
  holds : w.Holds b o.id x
  bitCount : o.bitCount = x.width
  extended : ∀ value, signExtended o.node = some value →
    ∃ y : Bits, w.Holds b value y ∧ y.toInt = x.toInt

variable {w' : World env args}

theorem OperandAt.mono (h : OperandAt w b o x) (hle : w ≤ w') : OperandAt w' b o x where
  holds := h.holds.mono hle
  bitCount := h.bitCount
  extended := fun value hvalue => by
    obtain ⟨y, hy, htoInt⟩ := h.extended value hvalue
    exact ⟨y, hy.mono hle, htoInt⟩

theorem signExtended_eq {n : Node} {value : Nat} (h : signExtended n = some value) :
    ∃ k, n.kind = .extend .signExt k ∧ n.operands = [value] := by
  unfold signExtended at h
  split at h
  · rename_i k _ hkind hoperands
    cases h
    exact ⟨k, hkind, hoperands⟩
  · cases h

variable {i : Nat}

/-- An operand as it is read from the graph. -/
theorem operandAt_of_holds {n : Node} (hx : w.Holds b i x) (hn : w.graph.nodes[i]? = some n) :
    OperandAt w b ⟨i, n, x.width⟩ x where
  holds := hx
  bitCount := rfl
  extended := fun value hvalue => by
    obtain ⟨k, hkind, hoperands⟩ := signExtended_eq hvalue
    obtain ⟨y, hy, hle, -, rfl⟩ := exists_extended hn hx.value hkind hoperands
    refine ⟨y, hy.weaken hx.rank.le, ?_⟩
    exact (toInt_ofInt ((fitsSigned_toInt y).mono hle)).symm

theorem ensures_leadingKnownZeros (h : OperandAt w b o x) (hzero : ZeroSound e w o.id (some user)) :
    w.Ensures (e.countLeadingKnownZeros o.id (some user)) fun _ k =>
      (k ≤ x.width ∧ x.val < 2 ^ (x.width - k)) ∧ k = leadingKnownZeros e user o := by
  refine (ensures_countLeadingKnownZeros h.holds hzero).and_const ?_
  refine ensures_bind (ensures_bitCountOrDie h.holds) fun w₁ k _ hk => ensures_pure fun _ _ => ?_
  rw [leadingKnownZeros, h.bitCount, hk]

theorem ensures_trailingKnownZeros (h : OperandAt w b o x)
    (hzero : ZeroSound e w o.id (some user)) :
    w.Ensures (e.countTrailingKnownZeros o.id (some user)) fun _ k =>
      (k ≤ x.width ∧ 2 ^ k ∣ x.val) ∧ k = trailingKnownZeros e user o := by
  refine (ensures_countTrailingKnownZeros h.holds hzero).and_const ?_
  refine ensures_bind (ensures_bitCountOrDie h.holds) fun w₁ k _ hk => ensures_pure fun _ _ => ?_
  rw [trailingKnownZeros, h.bitCount, hk]

/-! ### Narrowed operands -/

/-- No rule narrows the operand of a product of the given sign. -/
def Kept (e : SpecializedQueryEngines) (user : Nat) (signed : Bool) (o : Operand) : Prop :=
  if signed then signExtended o.node = none ∧ leadingKnownZeros e user o ≤ 1
  else leadingKnownZeros e user o = 0

/-- The operand or a narrower one that stands for the same number. -/
def Narrowed (w : World env args) (b : ℚ) (signed : Bool) (o : Operand) (x : Bits)
    (r : Option Nat) : Prop :=
  ∃ x', w.Holds b (r.getD o.id) x' ∧ factor signed x' = factor signed x

/-- The operand of an unsigned multiply, without its leading zeros. -/
theorem ensures_maybeNarrowUnsignedOperand (h : OperandAt w b o x)
    (hzero : ZeroSound e w o.id (some user)) :
    w.Ensures (maybeNarrowUnsignedOperand e user o) fun w' r =>
      (r = none ↔ Kept e user false o) ∧ Narrowed w' b false o x r := by
  refine ensures_bind (ensures_leadingKnownZeros h hzero) fun w₁ k h₁ hk => ?_
  obtain ⟨⟨hle, hval⟩, rfl⟩ := hk
  split
  · rename_i hnone
    exact ensures_pure fun w₂ h₂ => ⟨iff_of_true rfl hnone, x, h.holds.mono (h₁.trans h₂), rfl⟩
  · rename_i hsome
    rw [h.bitCount]
    refine ensures_bind (ensures_makeBitSlice (h.holds.mono h₁) (by omega))
      fun w₂ narrowed h₂ hn => ?_
    refine ensures_pure fun w₃ h₃ => ⟨iff_of_false nofun hsome, _, hn.mono h₃, ?_⟩
    show ((x.slice 0 _).val : Int) = x.val
    rw [slice_zero_val hval]

/-- The operand of a signed multiply, with one sign bit left. -/
theorem ensures_maybeNarrowSignedOperand (h : OperandAt w b o x)
    (hzero : ZeroSound e w o.id (some user)) :
    w.Ensures (maybeNarrowSignedOperand e user o) fun w' r =>
      (r = none ↔ Kept e user true o) ∧ Narrowed w' b true o x r := by
  unfold maybeNarrowSignedOperand
  split
  · rename_i value hvalue
    obtain ⟨y, hy, htoInt⟩ := h.extended value hvalue
    refine ensures_pure fun w₁ h₁ => ⟨iff_of_false nofun ?_, y, hy.mono h₁, htoInt⟩
    intro ⟨hnone, _⟩
    rw [hvalue] at hnone
    cases hnone
  · rename_i hvalue
    refine ensures_bind (ensures_leadingKnownZeros h hzero) fun w₁ k h₁ hk => ?_
    obtain ⟨⟨hle, hval⟩, rfl⟩ := hk
    split
    · rename_i hlt
      rw [h.bitCount]
      refine ensures_bind (ensures_maybeNarrow (h.holds.mono h₁) (by omega))
        fun w₂ narrowed h₂ hn => ?_
      refine ensures_pure fun w₃ h₃ => ⟨iff_of_false nofun ?_, _, hn.mono h₃, ?_⟩
      · exact fun hkept => absurd hkept.2 (Nat.not_le.mpr hlt)
      · have hfits := (fitsSigned_of_val_lt (by omega) hval).2
        exact toInt_slice_zero (by omega) hfits
    · rename_i hle'
      refine ensures_pure fun w₂ h₂ => ⟨iff_of_true rfl ⟨hvalue, Nat.le_of_not_lt hle'⟩, x,
        h.holds.mono (h₁.trans h₂), rfl⟩

/-! ### Products -/

/-- The product that `make` builds, of a type and with a value that depends on the product. -/
def Makes (w : World env args) (b : ℚ) (make : Bool → Nat → Nat → Build Nat) (width : Nat)
    (t : IrType) (f : Bits → Value) : Prop :=
  ∀ w', w ≤ w' → ∀ (signed : Bool) i j (x y : Bits), w'.Holds b i x → w'.Holds b j y →
    w'.Ensures (make signed i j) fun w'' id =>
      w''.Has b id t (f (arithOp (mulOp signed) width x y))

section Rules

variable {make : Bool → Nat → Nat → Build Nat} {t : IrType} {f : Bits → Value}

/-- The multiply of the narrowed operands, if one of them was narrowed. -/
theorem ensures_narrowWith {signed : Bool} {narrow : Operand → Build (Option Nat)}
    (hmake : Makes w b make width t f) (hl : w.Ensures (narrow lhs) fun w' r =>
      (r = none ↔ Kept e user signed lhs) ∧ Narrowed w' b signed lhs x r)
    (hr : w.Ensures (narrow rhs) fun w' r =>
      (r = none ↔ Kept e user signed rhs) ∧ Narrowed w' b signed rhs y r) :
    w.Ensures (narrowWith narrow (make signed) lhs rhs) fun w' r =>
      (r = none ↔ Kept e user signed lhs ∧ Kept e user signed rhs) ∧
        ∀ i, r = some i → w'.Has b i t (f (arithOp (mulOp signed) width x y)) := by
  refine ensures_bind hl fun w₁ operand0 h₁ hl => ?_
  refine ensures_bind (hr.of_le h₁) fun w₂ operand1 h₂ hr => ?_
  obtain ⟨hkept, x', hx', hx⟩ := hl
  obtain ⟨hkept', y', hy', hy⟩ := hr
  rw [← hkept, ← hkept']
  split
  · rename_i hsome
    refine ensures_bind (hmake w₂ (h₁.trans h₂) signed _ _ x' y' (hx'.mono h₂) hy')
      fun w₃ product h₃ hp => ?_
    rw [arithOp_mulOp, hx, hy, ← arithOp_mulOp] at hp
    refine ensures_pure fun w₄ h₄ => ⟨iff_of_false nofun ?_, fun i hi => ?_⟩
    · rintro ⟨rfl, rfl⟩
      cases hsome
    · cases hi
      exact hp.mono h₄
  · rename_i hnone
    refine ensures_pure fun w₃ h₃ => ⟨iff_of_true rfl ?_, nofun⟩
    cases operand0 with
    | some _ => exact absurd rfl hnone
    | none =>
      cases operand1 with
      | some _ => exact absurd rfl hnone
      | none => exact ⟨rfl, rfl⟩

/-- No rule for the operands applies. -/
def Untouched (e : SpecializedQueryEngines) (signed : Bool) (id width : Nat)
    (lhs rhs : Operand) : Prop :=
  lhs.bitCount ≤ width ∧ rhs.bitCount ≤ width ∧
    ((!signed || isSignAgnostic width lhs rhs) = true →
      Kept e id false lhs ∧ Kept e id false rhs) ∧
    ((signed || isSignAgnostic width lhs rhs) = true → Kept e id true lhs ∧ Kept e id true rhs)

theorem ensures_narrowIf {cond : Bool} {c : Build (Option Nat)} {N : Prop}
    {P : World env args → Nat → Prop}
    (h : cond = true → w.Ensures c fun w' r => (r = none ↔ N) ∧ ∀ i, r = some i → P w' i) :
    w.Ensures (narrowIf cond c) fun w' r =>
      (r = none ↔ (cond = true → N)) ∧ ∀ i, r = some i → P w' i := by
  unfold narrowIf
  split
  · rename_i hcond
    refine (h hcond).imp fun w' r _ hr => ⟨hr.1.trans ?_, hr.2⟩
    exact ⟨fun hn _ => hn, fun hn => hn hcond⟩
  · rename_i hcond
    exact ensures_pure fun w' _ => ⟨iff_of_true rfl fun h => absurd h hcond, nofun⟩

/-- An operand that is wider than the result loses its high bits. -/
theorem ensures_narrowToResult (signed : Bool) (h : OperandAt w b o x) :
    w.Ensures (narrowToResult width o) fun w' i => ∃ x', w'.Holds b i x' ∧
      factor signed x' % (2 ^ width : Nat) = factor signed x % (2 ^ width : Nat) := by
  unfold narrowToResult
  split
  · rename_i hlt
    rw [h.bitCount] at hlt
    refine (ensures_maybeNarrow h.holds hlt.le).imp fun w' i _ hi => ⟨_, hi, ?_⟩
    exact factor_slice_emod signed hlt.le
  · exact ensures_pure fun w' hle => ⟨x, h.holds.mono hle, rfl⟩

/-- A product as wide as its operands may take either sign. -/
theorem arithOp_of_agnostic {signed signed' : Bool} (hl : OperandAt w b lhs x)
    (hr : OperandAt w b rhs y) (h : signed = signed' ∨ isSignAgnostic width lhs rhs = true) :
    arithOp (mulOp signed') width x y = arithOp (mulOp signed) width x y := by
  rcases h with rfl | h
  · rfl
  · rw [isSignAgnostic, Bool.and_eq_true, beq_iff_eq, beq_iff_eq, hl.bitCount, hr.bitCount] at h
    exact arithOp_agnostic signed' signed h.1.symm h.2.symm

/-- Narrowing both operands keeps the product, or leaves the multiply as it is. -/
theorem ensures_narrowOperands (signed : Bool) (hmake : Makes w b make width t f)
    (hl : OperandAt w b lhs x) (hr : OperandAt w b rhs y)
    (hlzero : ZeroSound e w lhs.id (some id)) (hrzero : ZeroSound e w rhs.id (some id)) :
    w.Ensures (narrowOperands e make signed id width lhs rhs) fun w' r =>
      (r = none ↔ Untouched e signed id width lhs rhs) ∧
        ∀ i, r = some i → w'.Has b i t (f (arithOp (mulOp signed) width x y)) := by
  unfold narrowOperands
  split
  · rename_i hwide
    refine ensures_bind (ensures_narrowToResult signed hl) fun w₁ i h₁ hi => ?_
    refine ensures_bind (ensures_narrowToResult signed (hr.mono h₁)) fun w₂ j h₂ hj => ?_
    obtain ⟨x', hx', hx⟩ := hi
    obtain ⟨y', hy', hy⟩ := hj
    refine ensures_bind (hmake w₂ (h₁.trans h₂) signed i j x' y' (hx'.mono h₂) hy')
      fun w₃ product h₃ hp => ?_
    rw [arithOp_mulOp, ofInt_mul_congr hx hy, ← arithOp_mulOp] at hp
    refine ensures_pure fun w₄ h₄ => ⟨iff_of_false nofun fun h => ?_, fun i hi => ?_⟩
    · obtain ⟨hlw, hrw, -⟩ := h
      omega
    · cases hi
      exact hp.mono h₄
  · rename_i hnarrow
    rw [not_or, Nat.not_lt, Nat.not_lt] at hnarrow
    have hunsigned := @ensures_narrowIf _ _ w (!signed || isSignAgnostic width lhs rhs) _ _ _
      fun hcond => by
        have h := @ensures_narrowWith _ _ _ _ _ _ _ _ _ _ _ _ _ _ false _ hmake
          (ensures_maybeNarrowUnsignedOperand hl hlzero)
          (ensures_maybeNarrowUnsignedOperand hr hrzero)
        rwa [@arithOp_of_agnostic _ _ _ _ _ _ _ _ _ signed _ hl hr (by simpa using hcond)] at h
    have hsigned := @ensures_narrowIf _ _ w (signed || isSignAgnostic width lhs rhs) _ _ _
      fun hcond => by
        have h := @ensures_narrowWith _ _ _ _ _ _ _ _ _ _ _ _ _ _ true _ hmake
          (ensures_maybeNarrowSignedOperand hl hlzero) (ensures_maybeNarrowSignedOperand hr hrzero)
        rwa [@arithOp_of_agnostic _ _ _ _ _ _ _ _ _ signed _ hl hr (by simpa using hcond)] at h
    refine ensures_bind hunsigned fun w₁ r h₁ hr => ?_
    obtain ⟨hnone, hproduct⟩ := hr
    cases r with
    | some product =>
      refine ensures_pure fun w₂ h₂ => ⟨iff_of_false nofun fun h => ?_, fun i hi => ?_⟩
      · exact absurd (hnone.2 h.2.2.1) nofun
      · exact (hproduct i hi).mono h₂
    | none =>
      refine (hsigned.of_le h₁).imp fun w₂ r _ hr => ⟨hr.1.trans ?_, hr.2⟩
      exact ⟨fun h => ⟨hnarrow.1, hnarrow.2, hnone.1 rfl, h⟩, fun h => h.2.2.2⟩

end Rules

theorem mulOp_beq (op : ArithOp) : mulOp (op == .smul) = op := by
  cases op <;> rfl

theorem arithOp_width (op : ArithOp) (width : Nat) (x y : Bits) :
    (arithOp op width x y).width = width := by
  rw [← mulOp_beq op, arithOp_mulOp, ofInt_width]

theorem ensures_makeArithOp (op : ArithOp) (width : Nat) {j : Nat} (hx : w.Holds b i x)
    (hy : w.Holds b j y) : w.Ensures (makeArithOp op width i j) fun w' id =>
      w'.Holds b id (arithOp op width x y) := by
  have hoperands : Canonicalization.Operands w b [i, j] [.bits x.width, .bits y.width]
      [.leaf x, .leaf y] := .cons hx.has (.cons hy.has .nil)
  exact ensures_makeBits (n := ⟨.arith op, [i, j], .bits width⟩) hoperands.types
    (by simp [verifyNode, IrType.isBits]) (by rw [arithOp_width]) hoperands.values rfl
    hoperands.rank

theorem makes_makeArithOp (w : World env args) (b : ℚ) (width : Nat) :
    Makes w b (fun signed => makeArithOp (mulOp signed) width) width (.bits width) .leaf := by
  intro w' _ signed i j x y hx hy
  refine (ensures_makeArithOp (mulOp signed) width hx hy).imp fun w'' id _ hid => ?_
  have hhas := hid.has
  rwa [arithOp_width] at hhas

theorem mulpOffset_width (resultSize shiftSize : Nat) :
    (mulpOffset resultSize shiftSize).width = resultSize := by
  unfold mulpOffset
  dsimp only
  split
  · simp only [concat_width, map_cons, map_nil, sum_cons, sum_nil,
      ofNat_width, shiftRightLogical_width, allOnes_width]
    omega
  · rw [shiftRightLogical_width, allOnes_width]
    omega

/-- The parts of a partial product add up to the product. -/
theorem makes_makePartialProductOp (w : World env args) (b : ℚ) (width : Nat) :
    Makes w b (fun signed => makePartialProductOp (mulpOp signed) width) width
      (.tuple [.bits width, .bits width]) fun product =>
        .node [.leaf (mulpOffset width 2), .leaf (product.sub (mulpOffset width 2))] := by
  intro w' _ signed i j x y hx hy
  have hoperands : Canonicalization.Operands w' b [i, j] [.bits x.width, .bits y.width]
      [.leaf x, .leaf y] := .cons hx.has (.cons hy.has .nil)
  refine ensures_node (n := ⟨.partialProduct (mulpOp signed) width, [i, j], _⟩) hoperands
    (by simp [verifyNode, IrType.isBits]) (by cases signed <;> rfl) ?_
  unfold Value.Conforms
  rw [IrType.shape, LeafTree.rel_node]
  refine .cons (Value.conforms_leaf_bits.2 ?_) (.cons (Value.conforms_leaf_bits.2 ?_) .nil)
  · exact mulpOffset_width width 2
  · rw [sub_width, arithOp_mulOp, ofInt_width]

/-! ### Trailing zeros -/

/-- The upper bits of a node as a slice. -/
theorem ensures_extractMostSignificantBits {k : Nat} (h : w.Holds b i x) (hk : k ≤ x.width) :
    w.Ensures (extractMostSignificantBits i (x.width - k)) fun w' id =>
      w'.Holds b id (x.slice k (x.width - k)) := by
  refine ensures_bind (ensures_bitCountOrDie h) fun w₁ n h₁ hn => ?_
  subst hn
  rw [if_neg (by omega)]
  split
  · rename_i heq
    obtain rfl : k = 0 := by omega
    have hslice : x.slice 0 (x.width - 0) = x := Bits.ext rfl (slice_zero_val x.isLt)
    rw [hslice]
    exact ensures_pure fun w₂ h₂ => h.mono (h₁.trans h₂)
  · have hslice := ensures_makeBitSlice (h.mono h₁) (show k + (x.width - k) ≤ x.width by omega)
    rwa [show x.width - (x.width - k) = k by omega]

section

variable (signed : Bool) (hl : OperandAt w b lhs x) (hr : OperandAt w b rhs y)
  (hlzero : ZeroSound e w lhs.id (some id)) (hrzero : ZeroSound e w rhs.id (some id))
include signed hl hr hlzero hrzero

/-- Trailing zeros are cut off and put back behind the product. -/
theorem ensures_narrowTrailingZeros
    (hfits : trailingKnownZeros e id lhs + trailingKnownZeros e id rhs ≤ width) :
    w.Ensures (narrowTrailingZeros e signed id width lhs rhs) fun w' r => ∀ i, r = some i →
      w'.Has b i (.bits width) (.leaf (arithOp (mulOp signed) width x y)) := by
  refine ensures_bind (ensures_trailingKnownZeros hl hlzero) fun w₁ k h₁ hk => ?_
  refine ensures_bind ((ensures_trailingKnownZeros hr hrzero).of_le h₁) fun w₂ m h₂ hm => ?_
  obtain ⟨⟨hkw, hkdvd⟩, rfl⟩ := hk
  obtain ⟨⟨hmw, hmdvd⟩, rfl⟩ := hm
  generalize trailingKnownZeros e id lhs = k at *
  generalize trailingKnownZeros e id rhs = m at *
  split
  · rw [hl.bitCount, hr.bitCount]
    refine ensures_bind (ensures_extractMostSignificantBits
      (hl.holds.mono (h₁.trans h₂)) hkw) fun w₃ newLeft h₃ hleft => ?_
    refine ensures_bind (ensures_extractMostSignificantBits
      (hr.holds.mono ((h₁.trans h₂).trans h₃)) hmw) fun w₄ newRight h₄ hright => ?_
    have hwidth : bitsTypeWidth ((width : Int) - (k + m : Nat)) = .ok (width - (k + m)) := by
      rw [bitsTypeWidth, decide_eq_true (by omega)]
      show Except.ok _ = _
      rw [show ((width : Int) - (k + m : Nat)).toNat = width - (k + m) by omega]
    refine ensures_lift hwidth ?_
    refine ensures_bind (makes_makeArithOp w₄ b _ w₄ (le_refl w₄) signed newLeft newRight _ _
      (hleft.mono h₄) hright) fun w₅ newMul h₅ hmul => ?_
    refine ensures_bind (ensures_literal (Bits.zero (k + m)) b) fun w₆ zeros h₆ hzeros => ?_
    have hproduct : w₅.Holds b newMul (Bits.ofInt (width - (k + m))
        (factor signed (x.slice k (x.width - k)) * factor signed (y.slice m (y.width - m)))) := by
      rw [arithOp_mulOp] at hmul
      exact hmul.holds
    refine ensures_bind (emits_makeConcat (.cons (hproduct.mono h₆) (.cons hzeros .nil))).ensures
      fun w₇ concat h₇ hconcat => ?_
    -- the zeros that were taken off the operands come back at the low end
    have hvalue : Bits.concat [Bits.ofInt (width - (k + m))
        (factor signed (x.slice k (x.width - k)) * factor signed (y.slice m (y.width - m))),
        Bits.zero (k + m)] = arithOp (mulOp signed) width x y := by
      have hfactors : (2 ^ (k + m) : Int) * (factor signed (x.slice k (x.width - k)) *
          factor signed (y.slice m (y.width - m))) = factor signed x * factor signed y := by
        rw [← factor_slice_top signed hkw hkdvd, ← factor_slice_top signed hmw hmdvd]
        push_cast
        ring
      rw [arithOp_mulOp, ← hfactors, ← ofInt_append_zero _ hfits]
      exact Bits.ext rfl (by simp [Bits.concat])
    rw [hvalue] at hconcat
    refine ensures_pure fun w₈ h₈ i hi => ?_
    cases hi
    have hhas := (hconcat.mono h₈).has
    rwa [arithOp_mulOp, ofInt_width, ← arithOp_mulOp] at hhas
  · exact ensures_pure fun _ _ _ hi => by cases hi

/-- More trailing zeros than the product has bits make the width of a slice negative. -/
theorem fails_narrowTrailingZeros
    (hbad : width < trailingKnownZeros e id lhs + trailingKnownZeros e id rhs) :
    w.Fails (narrowTrailingZeros e signed id width lhs rhs) := by
  refine fails_bind (ensures_trailingKnownZeros hl hlzero) fun w₁ k h₁ hk => ?_
  refine fails_bind ((ensures_trailingKnownZeros hr hrzero).of_le h₁) fun w₂ m h₂ hm => ?_
  obtain ⟨⟨hkw, -⟩, rfl⟩ := hk
  obtain ⟨⟨hmw, -⟩, rfl⟩ := hm
  rw [if_pos (by omega), hl.bitCount, hr.bitCount]
  refine fails_bind (ensures_extractMostSignificantBits
    (hl.holds.mono (h₁.trans h₂)) hkw) fun w₃ newLeft h₃ _ => ?_
  refine fails_bind (ensures_extractMostSignificantBits
    (hr.holds.mono ((h₁.trans h₂).trans h₃)) hmw) fun w₄ newRight h₄ _ => ?_
  refine @fails_lift _ _ _ _ _ _ .check _ ?_
  rw [bitsTypeWidth, decide_eq_false (by omega)]
  rfl

end

/-! ### A sign extension of no bits -/

/-- Nothing can be sign-extended that has no bits, so the verifier rejects the graph. -/
theorem not_returns_signExtend {c : Build Bool} {w₁ : World env args} {node old : Nat}
    (hrun : c w.graph = (makeExtend .signExt width node >>= fun replacement =>
      replaceUsesWith old replacement >>= fun _ => pure true) w₁.graph)
    (hnode : w₁.graph.nodes[node]?.map Node.type = some (.bits 0))
    (hold : w₁.graph.nodes[old]?.map Node.type = some (.bits width)) (hpos : 0 < width) :
    ¬ w.Returns c := by
  intro ⟨a, w', hrun', hle⟩
  have hlt : ∀ {i : Nat} {t : IrType}, w₁.graph.nodes[i]?.map Node.type = some t →
      i < w₁.graph.nodes.length := by
    intro i t hi
    obtain ⟨n, hn, -⟩ := Option.map_eq_some_iff.mp hi
    exact (List.getElem?_eq_some_iff.1 hn).1
  have hne : node ≠ old := by
    rintro rfl
    rw [hnode] at hold
    cases hold
    exact lt_irrefl _ hpos
  -- the graph after the two steps
  let g : Graph := { w₁.graph with
    nodes := w₁.graph.nodes ++ [⟨.extend .signExt width, [node], .bits width⟩] }
  have htypes : g.nodes[old]?.map Node.type =
      g.nodes[w₁.graph.nodes.length]?.map Node.type := by
    show (w₁.graph.nodes ++ _)[old]?.map Node.type = (w₁.graph.nodes ++ _)[_]?.map Node.type
    rw [getElem?_append_left (hlt hold), hold, getElem?_concat_length]
    rfl
  have hreplace : replaceUsesWith old w₁.graph.nodes.length g = .ok ((),
      ⟨g.nodes.map (Graph.redirect old w₁.graph.nodes.length),
        if g.returnValue = old then w₁.graph.nodes.length else g.returnValue⟩) := by
    rw [replaceUsesWith, if_pos htypes]
  have hgraph : (makeExtend .signExt width node >>= fun replacement =>
      replaceUsesWith old replacement >>= fun _ => pure true : Build Bool) w₁.graph =
        .ok (true, ⟨g.nodes.map (Graph.redirect old w₁.graph.nodes.length),
          if g.returnValue = old then w₁.graph.nodes.length else g.returnValue⟩) := by
    have hmake : makeExtend .signExt width node w₁.graph = .ok (w₁.graph.nodes.length, g) := rfl
    rw [run_bind_of_ok hmake, run_bind_of_ok hreplace]
    rfl
  rw [hrun', hgraph] at hrun
  have hnodes := congrArg Graph.nodes (Prod.mk.inj (Except.ok.inj hrun)).2
  dsimp only at hnodes
  have hextend : w'.graph.nodes[w₁.graph.nodes.length]? =
      some ⟨.extend .signExt width, [node], .bits width⟩ := by
    rw [hnodes, getElem?_map, getElem?_concat_length]
    simp [Graph.redirect, hne]
  have hoperand : w'.graph.nodes[node]?.map Node.type = some (.bits 0) := by
    rw [hnodes, getElem?_map, getElem?_append_left (hlt hnode), Option.map_map]
    exact hnode
  obtain ⟨types, hoperands, hverify⟩ := w'.verified _ _ hextend
  unfold operandTypes at hoperands
  rw [LeafTree.collect, hoperand] at hoperands
  cases hoperands
  simp [verifyNode] at hverify

/-- A product of no bits is signed and extended. -/
def ExtendsEmpty (signed : Bool) (width : Nat) (lhs rhs : Operand) : Prop :=
  signed = true ∧ lhs.bitCount + rhs.bitCount = 0 ∧ 0 < width

theorem ensures_maybeExtend (signed : Bool) (h : w.Holds b i x) (hlt : x.width < width)
    (hpos : signed = true → 0 < x.width) :
    w.Ensures (maybeExtend i width signed) fun w' id => w'.Holds b id
      (if signed then x.signExtend width else x.zeroExtend width) := by
  refine ensures_bind (ensures_bitCountOrDie h) fun w₁ k h₁ hk => ?_
  subst hk
  rw [if_neg (by omega), if_neg (by omega)]
  cases signed with
  | false => exact ensures_zeroExtend (h.mono h₁) hlt.le
  | true => exact ensures_signExtend (h.mono h₁) hlt.le (hpos rfl)

theorem run_maybeExtend_empty {α : Type} {g : Graph} {f : Nat → Build α}
    (h : g.nodes[i]?.map Node.type = some (.bits 0)) (hpos : 0 < width) :
    (maybeExtend i width true >>= f) g = (makeExtend .signExt width i >>= f) g := by
  have hrun : maybeExtend i width true g = makeExtend .signExt width i g := by
    unfold maybeExtend
    rw [run_bind_of_ok (run_bitCountOrDie h), if_neg (by omega), if_neg (by omega), if_pos rfl]
  show (maybeExtend i width true g >>= fun p => f p.1 p.2) = _
  rw [hrun]
  rfl

/-! ### Multiplies -/

/-- More trailing zeros are taken off the operands than the product has bits. -/
def RemovesTooMany (e : SpecializedQueryEngines) (signed : Bool) (id width : Nat)
    (lhs rhs : Operand) : Prop :=
  width ≤ lhs.bitCount + rhs.bitCount ∧ Untouched e signed id width lhs rhs ∧
    width < trailingKnownZeros e id lhs + trailingKnownZeros e id rhs

section Multiply

variable {op : ArithOp}

theorem ensures_replaceBy {t : IrType} {v : Value} {bound : ℚ} {r : Option Nat}
    (hid : w.Has bound id t v) (hr : ∀ i, r = some i → w.Has (w.rank id) i t v) :
    w.Ensures (replaceBy id r) fun _ _ => True := by
  cases r with
  | none => exact ensures_false
  | some i =>
    refine ensures_bind (ensures_replaceUsesWith_of_has hid (hr i rfl)) fun _ _ _ _ => ?_
    exact ensures_pure fun _ _ => trivial

/-- Narrowing returns unless the signed multiply extends an operand without bits. -/
theorem narrowMultiply_returns (hid : w.Has (w.rank id + 1) id (.bits width)
      (.leaf (arithOp op width x y)))
    (hl : OperandAt w (w.rank id) lhs x) (hr : OperandAt w (w.rank id) rhs y)
    (hlzero : ZeroSound e w lhs.id (some id)) (hrzero : ZeroSound e w rhs.id (some id)) :
    w.Returns (narrowMultiply e id op width lhs rhs) ↔ ¬ ExtendsEmpty (op == .smul) width lhs rhs ∧
        ¬ RemovesTooMany e (op == .smul) id width lhs rhs := by
  by_cases hwide : lhs.bitCount + rhs.bitCount < width
  · have hkeep : ¬ RemovesTooMany e (op == .smul) id width lhs rhs :=
      fun h => absurd h.1 (Nat.not_le.mpr hwide)
    have hmul := ensures_makeArithOp op (lhs.bitCount + rhs.bitCount) hl.holds hr.holds
    rw [and_iff_left hkeep, narrowMultiply, if_pos hwide]
    constructor
    · intro hreturns ⟨hsigned, hempty, hpos⟩
      obtain ⟨narrowedMul, w₁, hrun, h₁, hmul⟩ := hmul w (le_refl w)
      have htype := hmul.type
      rw [arithOp_width, hempty] at htype
      refine @not_returns_signExtend _ _ w _ _ w₁ _ _ ?_ htype (hid.mono h₁).type hpos hreturns
      rw [run_bind_of_ok hrun, hsigned, run_maybeExtend_empty htype hpos]
    · intro hnonempty
      refine Returns.of_ensures (P := fun _ _ => True) ?_
      refine ensures_bind hmul fun w₁ narrowedMul h₁ hm => ?_
      refine ensures_bind (ensures_maybeExtend (op == .smul) hm (by rwa [arithOp_width])
        fun hsigned => ?_) fun w₂ replacement h₂ hrep => ?_
      · rw [arithOp_width]
        exact Nat.pos_of_ne_zero fun hzero => hnonempty ⟨hsigned, hzero, by omega⟩
      · have hextend := extend_mul (w := width) (x := x) (y := y) (op == .smul)
        rw [mulOp_beq, ← hl.bitCount, ← hr.bitCount] at hextend
        rw [hextend] at hrep
        have hle := h₁.trans h₂
        have hhas := hrep.has
        rw [arithOp_width, ← hle.rank id hid.lt] at hhas
        refine ensures_bind (ensures_replaceUsesWith_of_has (hid.mono hle) hhas)
          fun _ _ _ _ => ?_
        exact ensures_pure fun _ _ => trivial
  · have hkeep : ¬ ExtendsEmpty (op == .smul) width lhs rhs := by
      intro ⟨_, hempty, hpos⟩
      omega
    have hoperands := ensures_narrowOperands (op == .smul) (makes_makeArithOp w (w.rank id) width)
      hl hr hlzero hrzero
    rw [mulOp_beq] at hoperands
    rw [and_iff_right hkeep, narrowMultiply, if_neg hwide]
    constructor
    · intro hreturns ⟨_, huntouched, hbad⟩
      refine Fails.not_returns ?_ hreturns
      refine fails_bind hoperands fun w₁ r h₁ hr' => ?_
      rw [hr'.1.2 huntouched]
      exact fails_bind_of_fails ((fails_narrowTrailingZeros _ hl hr hlzero hrzero hbad).of_le h₁)
    · intro hfits
      refine Returns.of_ensures (P := fun _ _ => True) ?_
      refine ensures_bind hoperands fun w₁ r h₁ hr' => ?_
      obtain ⟨hnone, hsome⟩ := hr'
      cases r with
      | some product =>
        refine ensures_replaceBy (hid.mono h₁) fun i hi => ?_
        rw [h₁.rank id hid.lt]
        exact hsome i hi
      | none =>
        have hle : trailingKnownZeros e id lhs + trailingKnownZeros e id rhs ≤ width :=
          Nat.le_of_not_lt fun hlt => hfits ⟨Nat.le_of_not_lt hwide, hnone.1 rfl, hlt⟩
        have htrailing := ensures_narrowTrailingZeros (op == .smul) hl hr hlzero hrzero hle
        rw [mulOp_beq] at htrailing
        refine ensures_bind (htrailing.of_le h₁) fun w₂ r h₂ hr' => ?_
        refine ensures_replaceBy (hid.mono (h₁.trans h₂)) fun i hi => ?_
        rw [(h₁.trans h₂).rank id hid.lt]
        exact hr' i hi

end Multiply

end Narrowing

end Xls

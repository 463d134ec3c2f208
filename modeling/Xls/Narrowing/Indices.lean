import Xls.Narrowing.ArithmeticSound
import Xls.Narrowing.ArrayIndex

/-!
# Xls.Narrowing.Indices

The narrowing of the indices of an `array_index` in `HandleArrayIndex`
(`xls/passes/narrowing_pass.cc`), and the visit of a node by the narrowing pass: a node of
which every bit is known is replaced by a literal, any other goes to its handler
(`visitNode_sound`). The visit is modelled for the nodes whose handlers are modelled here and
in `Xls.Narrowing.Arithmetic`.
-/

namespace Xls

open Interpreter Bits List Bool
open Graph (Build World getNode bitCountOrDie makeNode replaceUsesWith)
open Graph.World

namespace Narrowing

open ArithSimplification (makeLiteral makeBitSlice)

/-! ### Indices -/

/-- `min_index_width`. -/
def minIndexWidth (arraySize : Nat) : Nat := max 1 (minBitCountUnsigned (arraySize - 1))

/-- `UBits` of an array size or of an index below one, which are 64-bit integers. -/
def indexBits (value bitCount : Nat) : Result Bits := do
  checkThat (decide (minBitCountUnsigned value ≤ bitCount))
  return Bits.ofNat bitCount value

/-- `new_bits_index`, for an index with a known value. -/
def newBitsIndex (bitsIndex : Bits) (arraySize : Nat) : Result Bits :=
  if arraySize ≤ bitsIndex.val then
    -- the first out-of-bounds element
    indexBits arraySize (minBitCountUnsigned arraySize)
  else if minIndexWidth arraySize < bitsIndex.width then
    indexBits bitsIndex.val (minIndexWidth arraySize)
  else .ok bitsIndex

/-- One index, and whether it changed. -/
def narrowIndex (e : SpecializedQueryEngines) (id arraySize index : Nat) :
    Build (Nat × Bool) := do
  match (e.forNode index).knownValueAsBits index with
  | some bitsIndex => do
    let newBits ← newBitsIndex bitsIndex arraySize
    if bitsIndex ≠ newBits then
      let literal ← makeLiteral newBits
      return (literal, true)
    else return (index, false)
  | none => do
    let indexWidth ← bitCountOrDie index
    let leadingZeros ← e.countLeadingKnownZeros index (some id)
    if leadingZeros = indexWidth then
      let zero ← makeLiteral (Bits.zero (minIndexWidth arraySize))
      return (zero, true)
    else if 0 < leadingZeros then
      let narrowedIndex ← makeBitSlice index 0 (indexWidth - leadingZeros)
      return (narrowedIndex, true)
    else return (index, false)

/-- The indices with the sizes of the arrays that they index into, and whether one changed. -/
def narrowIndices (e : SpecializedQueryEngines) (id : Nat) :
    IrType → List Nat → Build (List Nat × Bool)
  | _, [] => return ([], false)
  | .array size element, index :: indices => do
    let (newIndex, changed) ← narrowIndex e id size index
    let (newIndices, changed') ← narrowIndices e id element indices
    return (newIndex :: newIndices, changed || changed')
  | _, _ :: _ => throw .check

/-- `HandleArrayIndex`, without the conversion to selects. -/
def handleArrayIndex (e : SpecializedQueryEngines) (id array : Nat) (indices : List Nat) :
    Build Bool := do
  let arrayNode ← getNode array
  let (newIndices, changed) ← narrowIndices e id arrayNode.type indices
  if changed then
    let type ← derefOption (arrayNode.type.indexedElementType newIndices.length)
    let replacement ← makeNode ⟨.arrayIndex, array :: newIndices, type⟩
    replaceUsesWith id replacement
    return true
  else return false

/-! ### Visits -/

/-- The value of a node of which every bit is known. -/
def preciseValue (e : Engine) (id : Nat) : IrType → Option Value
  | .bits width =>
    if (List.range width).all (fun i => e.isZero id i || e.isOne id i) then
      some (.leaf (ofBools ((List.range width).map (e.isOne id))))
    else none
  | _ => e.knownTree id

/-- `MaybeReplacePreciseWithLiteral`, where the value is known. -/
def replaceWithLiteral (id : Nat) (type : IrType) (value : Value) : Build Unit := do
  let literal ← makeNode ⟨.literal value, [], type⟩
  replaceUsesWith id literal

/-- The handler of a node. -/
def handleNode (e : SpecializedQueryEngines) (id : Nat) (n : Node) : Build Bool :=
  match n.kind, n.operands with
  | .un .neg, [input] => handleNeg e id input
  | .bin .add, [lhs, rhs] => handleAdd e id lhs rhs
  | .bin .sub, [lhs, rhs] => handleSub e id lhs rhs
  | .bin .shll, [operand, amount] => maybeNarrowShiftAmount e id .shll operand amount
  | .bin .shra, [operand, amount] => maybeNarrowShiftAmount e id .shra operand amount
  | .bin .shrl, [operand, amount] => maybeNarrowShiftAmount e id .shrl operand amount
  | .decode _, [index] => handleDecode e id index
  | .arrayIndex, array :: indices => handleArrayIndex e id array indices
  | _, _ => return false

/-- The visit of a node; the result says whether the node was replaced. -/
def visitNode (e : SpecializedQueryEngines) (id : Nat) : Build Bool := do
  let n ← getNode id
  match preciseValue (e.forNode id) id n.type with
  | some value => do
    replaceWithLiteral id n.type value
    return true
  | none => handleNode e id n

/-! ### Clamped indices -/

/-- Indices into arrays of given sizes that are clamped to the same elements. -/
inductive SameClamped : List Nat → List Bits → List Bits → Prop
  | nil (dims : List Nat) : SameClamped dims [] []
  | cons {d : Nat} {dims : List Nat} {x x' : Bits} {xs xs' : List Bits}
      (h : x'.bounded (d - 1) = x.bounded (d - 1)) (hs : SameClamped dims xs xs') :
      SameClamped (d :: dims) (x :: xs) (x' :: xs')

variable {dims : List Nat} {xs : List Bits}
  {t element : IrType} {xs' : List Bits} {indices : List Nat}

/-- Indices that are clamped to the same places select the same element. -/
theorem arrayIndex_sameClamped (h : Shaped t dims element) {a : Value} (ha : a.Conforms t)
    (hsame : SameClamped dims xs xs') : arrayIndex a xs' = arrayIndex a xs := by
  induction hsame generalizing t a with
  | nil => rfl
  | @cons d dims x x' xs xs' hx _ ih =>
    cases h with
    | @cons t _ _ _ h =>
      obtain ⟨hsize, hconforms⟩ := conforms_array ha
      rw [arrayIndex, arrayIndex, foldlM_cons, foldlM_cons, arrayElement, arrayElement, hsize, hx]
      cases he : a.children[x.bounded (d - 1)]? with
      | none => rfl
      | some u => exact ih h (hconforms u (mem_of_getElem? he))

theorem SameClamped.length (h : SameClamped dims xs xs') : xs'.length = xs.length := by
  induction h with
  | nil => rfl
  | cons _ _ ih => rw [length_cons, length_cons, ih]

/-- A known index is replaced by one that is clamped to the same element. -/
theorem newBitsIndex_clamped {x : Bits} {d : Nat} (hd : 0 < d) :
    ∃ x', newBitsIndex x d = .ok x' ∧ x'.bounded (d - 1) = x.bounded (d - 1) := by
  have hbits : ∀ {v k : Nat}, minBitCountUnsigned v ≤ k →
      indexBits v k = .ok (Bits.ofNat k v) ∧ (Bits.ofNat k v).val = v := by
    intro v k h
    refine ⟨?_, ofNat_val_of_lt (lt_two_pow_iff_minBitCountUnsigned.2 h)⟩
    rw [indexBits, decide_eq_true h]
    rfl
  unfold newBitsIndex
  split
  · rename_i hout
    obtain ⟨hok, hval⟩ := hbits (le_refl (minBitCountUnsigned d))
    refine ⟨_, hok, ?_⟩
    rw [bounded, bounded, hval, Nat.min_eq_right (by omega), Nat.min_eq_right (by omega)]
  · rename_i hin
    split
    · have hle : x.val ≤ d - 1 := by omega
      have hlt : x.val < 2 ^ minIndexWidth d :=
        hle.trans_lt ((lt_two_pow_iff_minBitCountUnsigned.2 (le_refl _)).trans_le
          (Nat.pow_le_pow_right Nat.two_pos (Nat.le_max_right _ _)))
      obtain ⟨hok, hval⟩ := hbits (lt_two_pow_iff_minBitCountUnsigned.1 hlt)
      exact ⟨_, hok, by rw [bounded, bounded, hval]⟩
    · exact ⟨x, rfl, rfl⟩

/-! ### Soundness -/

variable {env : Env} {args : List Value} {w : World env args} {b : ℚ}
  {e : SpecializedQueryEngines} {id : Nat} {n : Node}

/-- What the engines know about a node and its operands is right. -/
structure SoundAt (e : SpecializedQueryEngines) (w : World env args) (id : Nat) (n : Node) :
    Prop where
  zero : ZeroSound e w id none
  one : ∀ x : Bits, w.vals[id]? = some (.leaf x) → ∀ i, (e.forNode id).isOne id i = true →
    x.get i = true
  tree : ∀ v, w.vals[id]? = some v → ∀ v', (e.forNode id).knownTree id = some v' → v' = v
  operandZero : ∀ o ∈ n.operands, ZeroSound e w o (some id)
  operandValue : ∀ o ∈ n.operands, ∀ v, w.vals[o]? = some v → ∀ x,
    (e.forNode o).knownValueAsBits o = some x → v = .leaf x

/-- An index is narrowed to the width of its dimension, or replaced by its known value. -/
theorem ensures_narrowIndex {index d : Nat} {x : Bits} (hd : 0 < d) (hx : w.Holds b index x)
    (hzero : ZeroSound e w index (some id)) (hknown : ∀ v, w.vals[index]? = some v → ∀ x,
      (e.forNode index).knownValueAsBits index = some x → v = .leaf x) :
    w.Ensures (narrowIndex e id d index) fun w' r => ∃ x' : Bits, w'.Holds b r.1 x' ∧
      x'.bounded (d - 1) = x.bounded (d - 1) := by
  unfold narrowIndex
  split
  · rename_i bitsIndex heq
    obtain rfl : x = bitsIndex := LeafTree.leaf.inj (hknown _ hx.value _ heq)
    obtain ⟨x', hok, hclamped⟩ := newBitsIndex_clamped (x := x) hd
    refine ensures_lift hok ?_
    split
    · refine ensures_bind (ensures_literal x' b) fun w₁ literal h₁ hl => ?_
      exact ensures_pure fun w₂ h₂ => ⟨x', hl.mono h₂, hclamped⟩
    · exact ensures_pure fun w₂ h₂ => ⟨x, hx.mono h₂, rfl⟩
  · refine ensures_bind (ensures_bitCountOrDie hx) fun w₁ width h₁ hwidth => ?_
    subst hwidth
    refine ensures_bind ((ensures_countLeadingKnownZeros hx hzero).of_le h₁) fun w₂ k h₂ hk => ?_
    obtain ⟨hkw, hval⟩ := hk
    split
    · rename_i hall
      rw [hall, Nat.sub_self, pow_zero, Nat.lt_one_iff] at hval
      refine ensures_bind (ensures_literal (Bits.zero (minIndexWidth d)) b)
        fun w₃ zero h₃ hz => ?_
      refine ensures_pure fun w₄ h₄ => ⟨_, hz.mono h₄, ?_⟩
      rw [bounded, bounded, zero_val, hval]
    · split
      · refine ensures_bind (ensures_makeBitSlice (hx.mono (h₁.trans h₂)) (by omega))
          fun w₃ narrowed h₃ hn => ?_
        refine ensures_pure fun w₄ h₄ => ⟨_, hn.mono h₄, ?_⟩
        rw [bounded, bounded, slice_zero_val hval]
      · exact ensures_pure fun w₃ h₃ => ⟨x, hx.mono ((h₁.trans h₂).trans h₃), rfl⟩

/-- Narrowing all indices keeps the element they select. -/
theorem ensures_narrowIndices (h : Shaped t dims element) (hpos : ∀ d ∈ dims, 0 < d)
    (hindices : HoldsAll w b indices xs) (hlength : xs.length = dims.length)
    (hzero : ∀ o ∈ indices, ZeroSound e w o (some id))
    (hknown : ∀ o ∈ indices, ∀ v, w.vals[o]? = some v → ∀ x,
      (e.forNode o).knownValueAsBits o = some x → v = .leaf x) :
    w.Ensures (narrowIndices e id t indices) fun w' r => ∃ xs', HoldsAll w' b r.1 xs' ∧
      SameClamped dims xs xs' := by
  induction h generalizing indices xs with
  | nil t =>
    obtain rfl := length_eq_zero_iff.mp hlength
    cases hindices
    unfold narrowIndices
    exact ensures_pure fun _ _ => ⟨[], .nil, .nil []⟩
  | @cons t element d dims h ih =>
    cases hindices with
    | nil => cases hlength
    | @cons index x indices xs hx hindices =>
      obtain ⟨hd, hdims⟩ := forall_mem_cons.mp hpos
      obtain ⟨hz, hzs⟩ := forall_mem_cons.mp hzero
      obtain ⟨hk, hks⟩ := forall_mem_cons.mp hknown
      have hrest := ih hdims hindices (Nat.succ.inj hlength) hzs hks
      rw [narrowIndices]
      refine ensures_bind (ensures_narrowIndex hd hx hz hk) fun w₁ r h₁ hr => ?_
      obtain ⟨x', hx', hclamped⟩ := hr
      refine ensures_bind (hrest.of_le h₁) fun w₂ rs h₂ hrs => ?_
      obtain ⟨xs', hxs', hsame⟩ := hrs
      exact ensures_pure fun w₃ h₃ =>
        ⟨x' :: xs', .cons (hx'.mono (h₂.trans h₃)) (hxs'.mono h₃), .cons hclamped hsame⟩

/-- The array index with the new indices has the same value. -/
theorem ensures_handleArrayIndex {types : List IrType} {ops : List Value} {v : Value} {array : Nat}
    (h : Canonicalization.At w id n types ops v) (hkind : n.kind = .arrayIndex)
    (hoperands : n.operands = array :: indices) (hsound : SoundAt e w id n) :
    w.Ensures (handleArrayIndex e id array indices) fun _ _ => True := by
  have hverify := h.verified
  have heval := h.eval
  have hops := h.operands
  rw [hkind] at hverify heval
  rw [hoperands] at hops
  cases hops with
  | @cons _ t a _ ts us ha hindices =>
    simp only [verifyNode, and_eq_true, all_eq_true, beq_iff_eq] at hverify
    obtain ⟨hbits, htype⟩ := hverify
    obtain ⟨xs, hxs, rfl, rfl⟩ := holdsAll_of_operands hindices hbits
    rw [length_map] at htype
    change (Interpreter.bitsVector (xs.map LeafTree.leaf) >>= fun is =>
      arrayIndex a is) = .ok v at heval
    rw [bitsVector_leaves, Result.ok_bind] at heval
    obtain ⟨dims, -, hlength, hshaped⟩ := shaped_of_indexedElementType htype
    have hpos := hshaped.pos ha.conforms hlength.symm heval
    have hsub : ∀ o ∈ indices, o ∈ n.operands := fun o ho => by
      rw [hoperands]
      exact mem_cons_of_mem _ ho
    refine ensures_bind (ensures_getNode_of_has ha) fun w₁ m h₁ hm => ?_
    rw [hm.2]
    refine ensures_bind ((ensures_narrowIndices hshaped hpos hxs hlength.symm
      (fun o ho => hsound.operandZero o (hsub o ho))
      (fun o ho => hsound.operandValue o (hsub o ho))).of_le h₁) fun w₂ r h₂ hr => ?_
    obtain ⟨newIndices, changed⟩ := r
    obtain ⟨xs', hxs', hsame⟩ := hr
    have hle := h₁.trans h₂
    dsimp only
    split
    rotate_left
    · exact ensures_false
    have hlength' : newIndices.length = xs.length :=
      hxs'.length_eq.trans hsame.length
    rw [← hlength'] at htype
    refine ensures_lift (derefOption_eq_ok.2 htype) ?_
    have hverify' : verifyNode w₂.params .arrayIndex (t :: xs'.map fun x => .bits x.width)
        n.type = true := by
      have hlen : xs'.length = newIndices.length := hxs'.length_eq.symm
      simp [verifyNode, IrType.isBits, hlen, htype]
    have heval' : evalNode env args .arrayIndex n.type (a :: xs'.map .leaf) =
        .ok v := by
      show (Interpreter.bitsVector _ >>= fun is => arrayIndex a is) = _
      rw [bitsVector_leaves, Result.ok_bind, arrayIndex_sameClamped hshaped ha.conforms hsame]
      exact heval
    refine ensures_bind (ensures_node (n := ⟨.arrayIndex, array :: newIndices, n.type⟩)
      (.cons (ha.mono hle) hxs'.operands) hverify' heval' h.conforms)
      fun w₃ replacement h₃ hr => ?_
    have hle' := hle.trans h₃
    rw [← hle'.rank id h.has.lt] at hr
    refine ensures_bind (ensures_replaceUsesWith_of_has (h.has.mono hle') hr)
      fun _ _ _ _ => ?_
    exact ensures_pure fun _ _ => trivial

/-! ### Visits -/

/-- The bits of a number, each read as one if it is known to be. -/
theorem preciseValue_sound {v value : Value} (hv : w.vals[id]? = some v) (hconf : v.Conforms t)
    (hsound : SoundAt e w id n) (hvalue : preciseValue (e.forNode id) id t = some value) :
    value = v := by
  cases t with
  | bits k =>
    obtain ⟨x, rfl, rfl⟩ := Value.conforms_bits hconf
    rw [preciseValue] at hvalue
    split at hvalue
    rotate_left
    · cases hvalue
    rename_i hall
    rw [all_eq_true] at hall
    cases hvalue
    congr 1
    rw [← ofBools_toBools x]
    congr 1
    refine ext_getElem (by simp) fun i hi hi' => ?_
    rw [getElem_map, getElem_range, toBools_getElem]
    have hknown := hall i (mem_range.mpr (by simpa using hi'))
    cases hone : (e.forNode id).isOne id i with
    | true => exact (hsound.one x hv i hone).symm
    | false =>
      rw [hone, Bool.or_false] at hknown
      refine (hsound.zero x hv i ?_).symm
      simp only [SpecializedQueryEngines.isZero, hknown, Bool.true_or]
  | _ => exact hsound.tree v hv value hvalue

/-- The kinds of the nodes whose handlers are modelled. -/
def IsNarrowed (kind : NodeKind) : Prop :=
  kind = .un .neg ∨ kind = .bin .add ∨ kind = .bin .sub ∨
    (∃ op : BinOp, op.isShift = true ∧ kind = .bin op) ∨ (∃ k, kind = .decode k) ∨
    kind = .arrayIndex

section HandleNode

variable {types : List IrType} {ops : List Value} {v : Value}

theorem holds_of_has {k i : Nat} {u : Value} (h : w.Has b i (.bits k) u) :
    ∃ x : Bits, u = .leaf x ∧ x.width = k ∧ w.Holds b i x := by
  obtain ⟨x, rfl, rfl⟩ := Canonicalization.has_bits h
  exact ⟨x, rfl, rfl, h.type, h.value, h.rank⟩

/-- The operands of a node with two operands of bits types. -/
theorem exists_two_operands (h : Canonicalization.At w id n types ops v) {op : BinOp}
    (hkind : n.kind = .bin op) :
    ∃ lhs rhs, n.operands = [lhs, rhs] ∧ ∃ x y : Bits, w.Holds (w.rank id) lhs x ∧
      w.Holds (w.rank id) rhs y ∧ n.type = .bits x.width ∧ (op.isShift = true ∨ y.width = x.width) ∧
      ∃ z, v = .leaf z ∧ z.width = x.width ∧ w.Holds (w.rank id + 1) id z ∧
        binOp op x y = .ok z := by
  have hverify := h.verified
  have heval := h.eval
  have hops := h.operands
  rw [hkind] at hverify heval
  cases hno : n.operands with
  | nil =>
    rw [hno] at hops
    cases hops
    simp [verifyNode] at hverify
  | cons lhs rest =>
    rw [hno] at hops
    cases hops with
    | @cons _ t u _ _ _ ha hops =>
      cases hops with
      | nil => simp [verifyNode] at hverify
      | @cons rhs t' u' _ _ _ hb hops =>
        cases hops with
        | cons _ _ => simp [verifyNode] at hverify
        | nil =>
          rw [verifyNode_bin, and_eq_true, and_eq_true, beq_iff_eq] at hverify
          obtain ⟨⟨hbits, rfl⟩, hother⟩ := hverify
          obtain ⟨k, hk⟩ := IrType.eq_bits_of_isBits hbits
          have hb' : ∃ k', t' = .bits k' ∧ (op.isShift = true ∨ k' = k) := by
            split at hother
            · rename_i hop
              obtain ⟨k', rfl⟩ := IrType.eq_bits_of_isBits hother
              exact ⟨k', rfl, .inl hop⟩
            · rw [beq_iff_eq] at hother
              exact ⟨k, hother.trans hk, .inr rfl⟩
          obtain ⟨k', rfl, hwidths⟩ := hb'
          have hhas := h.has
          rw [hk] at ha hhas
          obtain ⟨x, rfl, rfl, hx⟩ := holds_of_has ha
          obtain ⟨y, rfl, rfl, hy⟩ := holds_of_has hb
          obtain ⟨z, rfl, hz, hid⟩ := holds_of_has hhas
          obtain ⟨r, hr, heval⟩ := Result.bind_eq_ok.1 (show
            (binOp op x y >>= fun r => .ok (LeafTree.leaf r)) =
              .ok (LeafTree.leaf z) from heval)
          cases heval
          exact ⟨lhs, rhs, rfl, x, y, hx, hy, hk, hwidths, z, rfl, hz, hid, hr⟩

/-- The operand of a node with one operand of a bits type. -/
theorem exists_one_operand (h : Canonicalization.At w id n types ops v)
    (hverify : ∀ ts t, verifyNode w.params n.kind ts t = true → ∃ k, ts = [.bits k]) :
    ∃ o, n.operands = [o] ∧ ∃ x : Bits, types = [.bits x.width] ∧ ops = [.leaf x] ∧
      w.Holds (w.rank id) o x := by
  obtain ⟨k, rfl⟩ := hverify _ _ h.verified
  have hops := h.operands
  cases hno : n.operands with
  | nil =>
    rw [hno] at hops
    cases hops
  | cons o rest =>
    rw [hno] at hops
    cases hops with
    | cons ha hnil =>
      cases hnil
      obtain ⟨x, rfl, rfl, hx⟩ := holds_of_has ha
      exact ⟨o, rfl, x, rfl, rfl, hx⟩

variable {params ts : List IrType}

theorem verifyNode_neg {t : IrType} (h : verifyNode params (.un .neg) ts t = true) :
    ∃ k, ts = [.bits k] := by
  match ts with
  | [a] =>
    simp only [verifyNode, and_eq_true, beq_iff_eq] at h
    obtain ⟨rfl, hbits⟩ := h
    obtain ⟨k, rfl⟩ := IrType.eq_bits_of_isBits (by simpa using hbits)
    exact ⟨k, rfl⟩
  | [] => simp [verifyNode] at h
  | _ :: _ :: _ => simp [verifyNode] at h

theorem verifyNode_decode {t : IrType} {k : Nat} (h : verifyNode params (.decode k) ts t = true) :
    ∃ k, ts = [.bits k] := by
  match ts with
  | [.bits k] => exact ⟨k, rfl⟩
  | [.tuple _] => simp [verifyNode] at h
  | [.array _ _] => simp [verifyNode] at h
  | [.token] => simp [verifyNode] at h
  | [] => simp [verifyNode] at h
  | _ :: _ :: _ => simp [verifyNode] at h

/-- The handler of a narrowed operation keeps the value of the node. -/
theorem ensures_handleNode (h : Canonicalization.At w id n types ops v)
    (hkind : IsNarrowed n.kind) (hsound : SoundAt e w id n)
    (hprecise : preciseValue (e.forNode id) id n.type = none)
    (hwidth : ∀ k, n.kind = .decode k → k < 2 ^ 63) :
    w.Ensures (handleNode e id n) fun _ _ => True := by
  have hhas := h.has
  have heval := h.eval
  have hverify := h.verified
  unfold handleNode
  rcases hkind with hkind | hkind | hkind | ⟨op, hop, hkind⟩ | ⟨k, hkind⟩ | hkind
  · obtain ⟨o, ho, x, rfl, rfl, hx⟩ := exists_one_operand h (by
      rw [hkind]
      exact fun ts t => verifyNode_neg)
    rw [hkind] at heval hverify
    simp only [verifyNode, and_eq_true, beq_iff_eq] at hverify
    rw [← hverify.1] at hhas
    cases heval
    simp only [hkind, ho]
    exact ensures_handleNeg hhas.holds hx
      (hsound.operandZero o (by simp [ho]))
  · obtain ⟨lhs, rhs, ho, x, y, hx, hy, ht, hw, z, rfl, hz, hid, hr⟩ := exists_two_operands h hkind
    obtain ⟨_, hcheck, hr⟩ := Result.bind_eq_ok.1 hr
    cases hr
    simp only [hkind, ho]
    exact ensures_handleAdd hid hx hy (beq_iff_eq.1 (checkThat_eq_ok.1 hcheck))
      (hsound.operandZero lhs (by simp [ho])) (hsound.operandZero rhs (by simp [ho]))
  · obtain ⟨lhs, rhs, ho, x, y, hx, hy, ht, hw, z, rfl, hz, hid, hr⟩ := exists_two_operands h hkind
    obtain ⟨_, hcheck, hr⟩ := Result.bind_eq_ok.1 hr
    cases hr
    simp only [hkind, ho]
    exact ensures_handleSub hid hx hy (beq_iff_eq.1 (checkThat_eq_ok.1 hcheck)) hsound.zero
  · obtain ⟨lhs, rhs, ho, x, y, hx, hy, ht, hw, z, rfl, hz, hid, hr⟩ := exists_two_operands h hkind
    have hnarrow := ensures_maybeNarrowShiftAmount hop hid hx hy hz hr
      (hsound.operandZero rhs (by simp [ho]))
    cases op with
    | shll | shrl | shra =>
      simp only [hkind, ho]
      exact hnarrow
    | _ => cases hop
  · obtain ⟨o, ho, x, rfl, rfl, hx⟩ := exists_one_operand h (by
      rw [hkind]
      exact fun ts t => verifyNode_decode)
    rw [hkind] at heval hverify
    simp only [verifyNode, and_eq_true, beq_iff_eq] at hverify
    obtain ⟨-, ht⟩ := hverify
    rw [ht] at heval hhas hprecise
    cases heval
    simp only [hkind, ho]
    refine ensures_handleDecode (k := k) ⟨?_, hhas.value, hhas.rank⟩ hx ?_ (hwidth k hkind)
      (hsound.operandZero o (by simp [ho]))
    · rw [decode_width]
      exact hhas.type
    · -- every bit of an empty node is known, so it was replaced by a literal
      refine Nat.pos_of_ne_zero fun hk => ?_
      subst hk
      simp [preciseValue] at hprecise
  · cases hno : n.operands with
    | nil =>
      have hops := h.operands
      rw [hno] at hops
      cases hops
      rw [hkind] at hverify
      simp [verifyNode] at hverify
    | cons array indices =>
      simp only [hkind]
      exact ensures_handleArrayIndex h hkind hno hsound

end HandleNode

/-- Negations, additions, subtractions, shifts, decodes and array indices are narrowed soundly:
the visit of such a node returns, and every node and the return value keep their values. What
the engines know has to be right for the values at hand; the width of a decode is a 64-bit
integer. -/
theorem visitNode_sound (w : World env args) (hn : w.graph.nodes[id]? = some n)
    (hkind : IsNarrowed n.kind) (hsound : SoundAt e w id n)
    (hwidth : ∀ k, n.kind = .decode k → k < 2 ^ 63) : w.Returns (visitNode e id) := by
  obtain ⟨types, ops, v, h⟩ := Canonicalization.exists_at hn
  unfold World.Returns
  rw [visitNode, run_getNode hn]
  cases hvalue : preciseValue (e.forNode id) id n.type with
  | some value =>
    obtain rfl := preciseValue_sound h.value h.conforms hsound hvalue
    have hliteral : w.Ensures (makeNode ⟨.literal value, [], n.type⟩) fun w' new =>
        w'.Has (w.rank id) new n.type value :=
      ensures_node (n := ⟨.literal value, [], n.type⟩) .nil (decide_eq_true h.conforms) rfl
        h.conforms
    have hreplace : w.Ensures (replaceWithLiteral id n.type value) fun _ _ => True := by
      refine ensures_bind hliteral fun w₁ literal h₁ hl => ?_
      rw [← h₁.rank id h.has.lt] at hl
      exact ensures_replaceUsesWith_of_has (h.has.mono h₁) hl
    exact Returns.of_ensures (P := fun _ _ => True) (ensures_bind hreplace fun _ _ _ _ =>
      ensures_pure fun _ _ => trivial)
  | none => exact Returns.of_ensures (ensures_handleNode h hkind hsound hvalue hwidth)

/-- An addition of zero-extended numbers. -/
def extendedAdd : Function where
  params := [.bits 4, .bits 4]
  nodes := [⟨.param 0, [], .bits 4⟩, ⟨.param 1, [], .bits 4⟩,
    ⟨.extend .zeroExt 8, [0], .bits 8⟩, ⟨.extend .zeroExt 8, [1], .bits 8⟩,
    ⟨.bin .add, [2, 3], .bits 8⟩]
  returnValue := 4
  verified := by decide
  returnValue_lt := by decide

/-- An engine that knows the zeros of the extensions. -/
def extensionEngines : SpecializedQueryEngines :=
  ⟨⟨fun node bit => (node == 2 || node == 3) && decide (4 ≤ bit), fun _ _ => false,
    fun _ _ => false, fun _ => none, fun _ => none⟩, none⟩

theorem run_extendedAdd : Interpreter.run (packageEnv []) extendedAdd
    [.leaf (Bits.ofNat 4 9), .leaf (Bits.ofNat 4 13)] = .ok [.leaf (Bits.ofNat 4 9),
      .leaf (Bits.ofNat 4 13), .leaf (Bits.ofNat 8 9), .leaf (Bits.ofNat 8 13),
      .leaf (Bits.ofNat 8 22)] := rfl

/-- A number below sixteen has only zeros from bit four on. -/
theorem get_ofNat_eight {m i : Nat} (hm : m < 16) (hi : 4 ≤ i) :
    (Bits.ofNat 8 m).get i = false := by
  refine Nat.testBit_lt_two_pow ?_
  rw [ofNat_val_of_lt (by omega)]
  exact hm.trans_le (Nat.pow_le_pow_right Nat.two_pos hi)

/-- The engine of the example knows the zeros of the extensions. -/
theorem soundAt_extensionEngines :
    SoundAt extensionEngines (World.ofRun run_extendedAdd) 4 ⟨.bin .add, [2, 3], .bits 8⟩ where
  zero := fun x hx i hi => by simp [extensionEngines, SpecializedQueryEngines.isZero,
    SpecializedQueryEngines.forNode] at hi
  one := fun x hx i hi => nomatch hi
  tree := fun v hv v' hv' => nomatch hv'
  operandZero := by
    intro o ho x hx i hi
    simp [extensionEngines, SpecializedQueryEngines.isZero, SpecializedQueryEngines.forNode] at hi
    rcases mem_pair.1 ho with rfl | rfl
    · cases hx
      exact get_ofNat_eight (by decide) hi.2
    · cases hx
      exact get_ofNat_eight (by decide) hi.2
  operandValue := fun o ho v hv x hx => nomatch hx

theorem visitNode_sound_extendedAdd :
    (World.ofRun run_extendedAdd).Returns (visitNode extensionEngines 4) :=
  visitNode_sound (World.ofRun run_extendedAdd) (n := ⟨.bin .add, [2, 3], .bits 8⟩) rfl
    (.inr (.inl rfl)) soundAt_extensionEngines (fun _ h => nomatch h)

/-- The sum is computed in five bits. -/
example : (visitNode extensionEngines 4 extendedAdd.graph).map (fun p =>
    (p.1, p.2.nodes[7]?.map Node.type, p.2.returnValue)) = .ok (true, some (.bits 5), 8) := rfl

end Narrowing

end Xls

import Xls.AbstractNodeEvaluator

/-!
# Xls.AbstractNodeEvaluator.Node

Soundness of `AbstractNodeEvaluator`, one node at a time: each operation is compared
with the handler of the interpreter, and `Sound.abstractNode` puts the cases
together.
-/

namespace Xls.Evaluator

open Result Interpreter Bits LeafTree BoolList List

variable {S E : Type} [Preorder S]

section Sound

open Grow (Returns returns_bind returns_pure)

variable {ev : Evaluator S E} {F : S} {R : E → Bool → Prop}

/-! ### Soundness of nodes -/

/-- The value of a one-bit result. -/
theorem rep_oneBit {e : E} {b : Bool} {type : IrType} {v : Value} (he : R e b)
    (hv : (do
      let width ← type.bitCountOrDie
      return LeafTree.leaf (Bits.ofNat width b.toNat)) = Except.ok v)
    (htype : type = .bits 1) : TreeRep R (.leaf [e]) v := by
  subst htype
  cases hv
  refine rel_leaf.2 ?_
  rw [Rep, toBools_one_eq]
  exact vec_singleton he

section Node

variable {env : Env} {args : List Value} {params : List IrType} {n : Node}
  {default : EvalM S (CompoundValue E)} {ops : List (Operand E)} {vals : List Value}
  {t : CompoundValue E} {v : Value}

/-- Comparisons of bits and of compound values represent the answer of the interpreter. -/
theorem Sound.handleCompare (h : ev.Sound F R) {op : CompareOp} {a b : Operand E} {x y : Value}
    (ha : OperandRep R a x) (hb : OperandRep R b y) {r : E}
    (hr : Returns F (ev.handleCompare op a b) r) {c : Bool}
    (hc : compareOp op x y = .ok c) : R r c := by
  have hordered : ∀ {r : E}, Returns F (do
      let lhs ← Evaluator.getValue a
      let rhs ← Evaluator.getValue b
      ev.handleOrdered op lhs rhs) r → (do
      let x ← x.bits
      let y ← y.bits
      return compareBits op x y) = Except.ok c → R r c := by
    intro r hr hc
    obtain ⟨u, hu, hc⟩ := bind_eq_ok.1 hc
    obtain ⟨w, hw, hc⟩ := bind_eq_ok.1 hc
    cases hc
    obtain ⟨lhs, hlhs, hr⟩ := returns_bind hr
    obtain ⟨rhs, hrhs, hr⟩ := returns_bind hr
    exact h.handleOrdered (ha.bits hlhs hu) (hb.bits hrhs hw) hr
  cases op with
  | eq =>
    cases hc
    obtain ⟨u, hu, hr⟩ := returns_bind hr
    have htype := of_decide_eq_true (Grow.returns_guardThat hu)
    exact h.leavesEqual ha.rep hb.rep ha.conforms (htype ▸ hb.conforms) hr
  | ne =>
    cases hc
    obtain ⟨u, hu, hr⟩ := returns_bind hr
    have htype := of_decide_eq_true (Grow.returns_guardThat hu)
    obtain ⟨e, he, hr⟩ := returns_bind hr
    exact h.not (h.leavesEqual ha.rep hb.rep ha.conforms (htype ▸ hb.conforms) he) hr
  | _ => exact hordered hr hc

/-- Shifting a one to a position gives the power of two. -/
theorem one_shiftLeft {w i : Nat} (hi : i < w) :
    (Bits.ofNat w 1).shiftLeftLogical i = powerOfTwo i w := by
  have hone : 1 < 2 ^ w := Nat.one_lt_two_pow (by omega)
  refine Bits.ext rfl ?_
  rw [Bits.shiftLeftLogical, ofNat_width, Nat.min_eq_left hi.le, ofNat_val_of_lt hone,
    Nat.one_shiftLeft]
  rfl

variable {p : LsbOrMsb} {c : Bits}

/-- The one-hot operation by the priority of its bits. -/
theorem oneHotOp_eq {x : Bits} (h : oneHotOp p (x.width + 1) x = .ok c) :
    c = match p with | .lsb => x.oneHotLsbToMsb | .msb => x.oneHotMsbToLsb := by
  obtain ⟨u, -, h⟩ := bind_eq_ok.1 h
  cases h
  cases p with
  | lsb =>
    have hle := firstSet_le_length x.toBools
    rw [toBools_length] at hle
    dsimp only
    split
    · rw [one_shiftLeft (by omega)]
      rfl
    · have heq : firstSet x.toBools = x.width := by omega
      rw [one_shiftLeft (by omega), Nat.add_sub_cancel, Bits.oneHotLsbToMsb, heq]
  | msb =>
    rw [Bits.oneHotMsbToLsb]
    dsimp only
    split
    · rename_i hlt
      rw [one_shiftLeft (by omega), Nat.sub_right_comm]
    · rw [one_shiftLeft (by omega), Nat.add_sub_cancel]

/-- A one-hot result is never zero. -/
theorem oneHotOp_ne_zero {x : Bits} (h : oneHotOp p (x.width + 1) x = .ok c) : c.val ≠ 0 := by
  rw [oneHotOp_eq h]
  cases p with
  | lsb =>
    dsimp only
    rw [oneHotLsbToMsb_val, toNat_oneHot]
    exact (Nat.two_pow_pos _).ne'
  | msb =>
    dsimp only
    rw [oneHotMsbToLsb_val, toNat_oneHotMsb]
    exact (Nat.two_pow_pos _).ne'

theorem forall₂_value (hops : Forall₂ (OperandRep R) ops vals) :
    Forall₂ (TreeRep R) (ops.map Operand.value) vals :=
  forall₂_map_left_iff.2 (hops.imp fun _ _ h => h.rep)

/-- A selector from a one-hot node is not zero. -/
theorem OperandRep.selector {o : Operand E} (h : OperandRep R o (.leaf c))
    (hz : selectorCanBeZero o = false) : c.val ≠ 0 := by
  unfold selectorCanBeZero at hz
  split at hz
  · rename_i p hp
    exact h.oneHot p hp c rfl
  · cases hz

section Operations

variable (h : ev.Sound F R) (hops : Forall₂ (OperandRep R) ops vals)
  (hr : Returns F (ev.abstractNode default n ops) t)
  (hv : evalNode env args n.kind n.type vals = .ok v)
include h hops hr hv

theorem Sound.node_bin {op : BinOp} (hk : n.kind = .bin op) : TreeRep R t v := by
  unfold Evaluator.abstractNode at hr
  rw [hk] at hv hr
  rcases hops with _ | ⟨ha, _ | ⟨hb, _ | _⟩⟩
  · cases hv
  · cases hv
  · obtain ⟨x, hx, hv⟩ := bind_eq_ok.1 hv
    obtain ⟨y, hy, hv⟩ := bind_eq_ok.1 hv
    obtain ⟨c, hc, hv⟩ := bind_eq_ok.1 hv
    cases hv
    obtain ⟨lhs, hlhs, hr⟩ := returns_bind hr
    obtain ⟨rhs, hrhs, hr⟩ := returns_bind hr
    obtain ⟨r, hres, hr⟩ := returns_bind hr
    exact setValue_rep (h.handleBin (ha.bits hlhs hx) (hb.bits hrhs hy) hres hc) hr
  · cases hv

theorem Sound.node_arith {op : ArithOp} (hk : n.kind = .arith op) : TreeRep R t v := by
  unfold Evaluator.abstractNode at hr
  rw [hk] at hv hr
  rcases hops with _ | ⟨ha, _ | ⟨hb, _ | _⟩⟩
  · cases hv
  · cases hv
  · obtain ⟨x, hx, hv⟩ := bind_eq_ok.1 hv
    obtain ⟨y, hy, hv⟩ := bind_eq_ok.1 hv
    obtain ⟨width, hwidth, hv⟩ := bind_eq_ok.1 hv
    cases hv
    obtain ⟨lhs, hlhs, hr⟩ := returns_bind hr
    obtain ⟨rhs, hrhs, hr⟩ := returns_bind hr
    cases htype : n.type with
    | bits w =>
      rw [htype] at hwidth hr
      cases hwidth
      obtain ⟨r, hres, hr⟩ := returns_bind hr
      exact setValue_rep (h.handleArith (ha.bits hlhs hx) (hb.bits hrhs hy) hres) hr
    | _ =>
      rw [htype] at hwidth
      cases hwidth
  · cases hv

theorem Sound.node_un {op : UnOp} (hk : n.kind = .un op) : TreeRep R t v := by
  unfold Evaluator.abstractNode at hr
  rw [hk] at hv hr
  rcases hops with _ | ⟨ha, _ | _⟩
  · cases op <;> cases hv
  · cases op with
    | identity =>
      cases hv
      rw [returns_pure hr]
      exact ha.rep
    | neg =>
      obtain ⟨x, hx, hv⟩ := bind_eq_ok.1 hv
      cases hv
      obtain ⟨vec, hvec, hr⟩ := returns_bind hr
      obtain ⟨r, hres, hr⟩ := returns_bind hr
      exact setValue_rep (h.neg_rep (ha.bits hvec hx) hres) hr
    | not =>
      obtain ⟨x, hx, hv⟩ := bind_eq_ok.1 hv
      cases hv
      obtain ⟨vec, hvec, hr⟩ := returns_bind hr
      obtain ⟨r, hres, hr⟩ := returns_bind hr
      refine setValue_rep ?_ hr
      rw [Rep, toBools_not]
      exact h.bitwiseNot (ha.bits hvec hx) hres
    | reverse =>
      obtain ⟨x, hx, hv⟩ := bind_eq_ok.1 hv
      cases hv
      obtain ⟨vec, hvec, hr⟩ := returns_bind hr
      refine setValue_rep ?_ hr
      rw [Rep, toBools_reverse]
      exact rel_reverse (ha.bits hvec hx)
  · cases op <;> cases hv

theorem Sound.node_nary {op : NaryOp} (hk : n.kind = .nary op) : TreeRep R t v := by
  unfold Evaluator.abstractNode at hr
  rw [hk] at hv hr
  obtain ⟨xs, hxs, hv⟩ := bind_eq_ok.1 hv
  obtain ⟨c, hc, hv⟩ := bind_eq_ok.1 hv
  cases hv
  obtain ⟨vecs, hvecs, hr⟩ := returns_bind hr
  obtain ⟨r, hres, hr⟩ := returns_bind hr
  exact setValue_rep (h.handleNary (OperandRep.bitsVector hops hvecs hxs) hres hc) hr

theorem Sound.node_compare {op : CompareOp} (hk : n.kind = .compare op)
    (htype : n.type = .bits 1) : TreeRep R t v := by
  unfold Evaluator.abstractNode at hr
  rw [hk] at hv hr
  rcases hops with _ | ⟨ha, _ | ⟨hb, _ | _⟩⟩
  · cases hv
  · cases hv
  · obtain ⟨c, hc, hv⟩ := bind_eq_ok.1 hv
    obtain ⟨r, hres, hr⟩ := returns_bind hr
    rw [(returns_setValue hr).2]
    exact rep_oneBit (h.handleCompare ha hb hres hc) hv htype
  · cases hv

theorem Sound.node_reduce {op : BitwiseReductionOp} (hk : n.kind = .reduce op) : TreeRep R t v := by
  unfold Evaluator.abstractNode at hr
  rw [hk] at hv hr
  rcases hops with _ | ⟨ha, _ | _⟩
  · cases hv
  · obtain ⟨x, hx, hv⟩ := bind_eq_ok.1 hv
    cases hv
    obtain ⟨vec, hvec, hr⟩ := returns_bind hr
    obtain ⟨r, hres, hr⟩ := returns_bind hr
    exact setValue_rep (h.handleReduce (ha.bits hvec hx) hres) hr
  · cases hv

variable {w : Nat}

theorem Sound.node_extend {op : ExtendOp} (hk : n.kind = .extend op w) : TreeRep R t v := by
  unfold Evaluator.abstractNode at hr
  rw [hk] at hv hr
  rcases hops with _ | ⟨ha, _ | _⟩
  · cases op <;> cases hv
  · obtain ⟨x, hx, hv⟩ := bind_eq_ok.1 hv
    obtain ⟨c, hc, hv⟩ := bind_eq_ok.1 hv
    cases hv
    obtain ⟨u, -, hc⟩ := bind_eq_ok.1 hc
    cases op with
    | signExt =>
      cases hc
      obtain ⟨vec, hvec, hr⟩ := returns_bind hr
      obtain ⟨r, hres, hr⟩ := returns_bind hr
      exact setValue_rep (signExtend_rep (ha.bits hvec hx) hres).2 hr
    | zeroExt =>
      cases hc
      obtain ⟨vec, hvec, hr⟩ := returns_bind hr
      obtain ⟨r, hres, hr⟩ := returns_bind hr
      exact setValue_rep (h.zeroExtend_rep (ha.bits hvec hx) hres) hr
  · cases op <;> cases hv

omit h in
/-- Slices are moved as they are. -/
theorem node_bitSlice {start : Nat} (hk : n.kind = .bitSlice start w) : TreeRep R t v := by
  unfold Evaluator.abstractNode at hr
  rw [hk] at hv hr
  rcases hops with _ | ⟨ha, _ | _⟩
  · cases hv
  · obtain ⟨x, hx, hv⟩ := bind_eq_ok.1 hv
    obtain ⟨u, -, hv⟩ := bind_eq_ok.1 hv
    cases hv
    obtain ⟨vec, hvec, hr⟩ := returns_bind hr
    obtain ⟨r, hres, hr⟩ := returns_bind hr
    exact setValue_rep (bitSlice_rep (ha.bits hvec hx) hres) hr
  · cases hv

/-- Updates of a slice. -/
theorem Sound.node_bitSliceUpdate (hk : n.kind = .bitSliceUpdate) : TreeRep R t v := by
  unfold Evaluator.abstractNode at hr
  rw [hk] at hv hr
  rcases hops with _ | ⟨ha, _ | ⟨hb, _ | ⟨hc, _ | _⟩⟩⟩
  · cases hv
  · cases hv
  · cases hv
  · obtain ⟨x, hx, hv⟩ := bind_eq_ok.1 hv
    obtain ⟨s, hs, hv⟩ := bind_eq_ok.1 hv
    obtain ⟨u, hu, hv⟩ := bind_eq_ok.1 hv
    cases hv
    obtain ⟨toUpdate, htoUpdate, hr⟩ := returns_bind hr
    obtain ⟨updateValue, hupdateValue, hr⟩ := returns_bind hr
    obtain ⟨start, hstart, hr⟩ := returns_bind hr
    obtain ⟨r, hres, hr⟩ := returns_bind hr
    refine setValue_rep ?_ hr
    rw [Rep, toBools_bitSliceUpdate]
    have hrep := h.bitSliceUpdate (ha.bits htoUpdate hx) (hb.bits hstart hs)
      (hc.bits hupdateValue hu) hres
    rwa [toBools_length, toNat_toBools] at hrep
  · cases hv

omit h in
theorem node_concat (hk : n.kind = .concat) : TreeRep R t v := by
  unfold Evaluator.abstractNode at hr
  rw [hk] at hv hr
  obtain ⟨xs, hxs, hv⟩ := bind_eq_ok.1 hv
  cases hv
  obtain ⟨vecs, hvecs, hr⟩ := returns_bind hr
  refine setValue_rep ?_ hr
  rw [Rep, toBools_concat]
  exact concat_sound (forall₂_toBools (OperandRep.bitsVector hops hvecs hxs))

/-- Decoders, whose result has the width of the node. -/
theorem Sound.node_decode (hk : n.kind = .decode w) (htype : n.type = .bits w) : TreeRep R t v := by
  unfold Evaluator.abstractNode at hr
  rw [hk] at hv hr
  rcases hops with _ | ⟨ha, _ | _⟩
  · cases hv
  · obtain ⟨x, hx, hv⟩ := bind_eq_ok.1 hv
    rw [htype] at hv
    cases hv
    obtain ⟨vec, hvec, hr⟩ := returns_bind hr
    obtain ⟨r, hres, hr⟩ := returns_bind hr
    refine setValue_rep ?_ hr
    have hrep := h.decode (ha.bits hvec hx) hres
    rwa [toNat_toBools, ← toBools_decode] at hrep
  · cases hv

/-- Encoders, whose type follows from the operand. -/
theorem Sound.node_encode (hk : n.kind = .encode)
    (htype : ∀ b, vals = [.leaf b] → n.type = .bits (ceilOfLog2 b.width)) : TreeRep R t v := by
  unfold Evaluator.abstractNode at hr
  rw [hk] at hv hr
  rcases hops with _ | ⟨ha, _ | _⟩
  · cases hv
  · obtain ⟨x, hx, hv⟩ := bind_eq_ok.1 hv
    obtain ⟨vec, hvec, hr⟩ := returns_bind hr
    obtain ⟨r, hres, hr⟩ := returns_bind hr
    have hrep := h.encode (ha.bits hvec hx) hres
    rw [toBools_length] at hrep
    rw [htype x (by rw [bits_eq_ok hx])] at hv
    cases hv
    refine setValue_rep ?_ hr
    rwa [Rep, encode_eq, toBools_ofNat]
  · cases hv

/-- One-hot nodes, a bit wider than the operand. -/
theorem Sound.node_oneHot {p : LsbOrMsb} (hk : n.kind = .oneHot p)
    (htype : ∀ b, vals = [.leaf b] → n.type = .bits (b.width + 1)) : TreeRep R t v := by
  unfold Evaluator.abstractNode at hr
  rw [hk] at hv hr
  rcases hops with _ | ⟨ha, _ | _⟩
  · cases p <;> cases hv
  · obtain ⟨x, hx, hv⟩ := bind_eq_ok.1 hv
    rw [htype x (by rw [bits_eq_ok hx])] at hv
    obtain ⟨width, hwidth, hv⟩ := bind_eq_ok.1 hv
    cases hwidth
    obtain ⟨c, hc, hv⟩ := bind_eq_ok.1 hv
    cases hv
    rw [oneHotOp_eq hc]
    cases p with
    | lsb =>
      obtain ⟨vec, hvec, hr⟩ := returns_bind hr
      obtain ⟨r, hres, hr⟩ := returns_bind hr
      refine setValue_rep ?_ hr
      rw [Rep, toBools_oneHotLsbToMsb]
      exact h.oneHotLsbToMsb (ha.bits hvec hx) hres
    | msb =>
      obtain ⟨vec, hvec, hr⟩ := returns_bind hr
      obtain ⟨r, hres, hr⟩ := returns_bind hr
      refine setValue_rep ?_ hr
      rw [Rep, toBools_oneHotMsbToLsb]
      exact h.oneHotMsbToLsb (ha.bits hvec hx) hres
  · cases p <;> cases hv

omit hops in
theorem Sound.node_literal {value : Value} (hk : n.kind = .literal value) : TreeRep R t v := by
  unfold Evaluator.abstractNode at hr
  rw [hk] at hv hr
  cases hv
  obtain ⟨u, -, hr⟩ := returns_bind hr
  rw [returns_pure hr]
  refine rel_map_left.2 (Rel.refl ?_ v)
  exact h.bitsToVector

omit h in
theorem node_array (hk : n.kind = .array) : TreeRep R t v := by
  unfold Evaluator.abstractNode at hr
  rw [hk] at hv hr
  rw [returns_pure hr]
  cases vals with
  | nil => cases hv
  | cons x xs =>
    cases hv
    exact rel_node.2 (forall₂_value hops)

omit h in
/-- Concatenations of arrays, which are moved as they are. -/
theorem node_arrayConcat (hk : n.kind = .arrayConcat) : TreeRep R t v := by
  unfold Evaluator.abstractNode at hr
  rw [hk] at hv hr
  rw [returns_pure hr]
  have hchildren : Forall₂ (TreeRep R) (ops.flatMap fun o => o.value.children)
      (vals.flatMap children) :=
    forall₂_flatMap hops fun o _ x hox => hox.rep.children
  change Value.array (vals.flatMap children) = .ok v at hv
  generalize vals.flatMap children = xs at hv hchildren
  cases xs with
  | nil => cases hv
  | cons x xs =>
    cases hv
    exact rel_node.2 hchildren

omit h in
theorem node_tuple (hk : n.kind = .tuple) : TreeRep R t v := by
  unfold Evaluator.abstractNode at hr
  rw [hk] at hv hr
  rw [returns_pure hr]
  cases hv
  exact rel_node.2 (forall₂_value hops)

omit h in
/-- Members of tuples, which are moved as they are. -/
theorem node_tupleIndex {i : Nat} (hk : n.kind = .tupleIndex i) : TreeRep R t v := by
  unfold Evaluator.abstractNode at hr
  rw [hk] at hv hr
  rcases hops with _ | ⟨ha, _ | _⟩
  · cases hv
  · have hget := derefOption_eq_ok.1 hv
    dsimp only at hr
    split at hr
    · rename_i u hu
      rw [returns_pure hr]
      exact LeafTree.rel_getElem? ha.rep.children hu hget
    · exact (Grow.not_returns_fail hr).elim
  · cases hv

theorem Sound.node_gate (hk : n.kind = .gate)
    (hconf : ∀ x ∈ vals.drop 1, Value.Conforms x n.type) : TreeRep R t v := by
  unfold Evaluator.abstractNode at hr
  rw [hk] at hv hr
  rcases hops with _ | ⟨ha, _ | ⟨hb, _ | _⟩⟩
  · cases hv
  · cases hv
  · obtain ⟨c, hc, hv⟩ := bind_eq_ok.1 hv
    cases hv
    obtain ⟨cond, hcond, hr⟩ := returns_bind hr
    have hrep := ha.bits hcond hc
    split at hr
    · refine selectBy_rep ?_ (Forall₂.cons hb Forall₂.nil) hr
        (zipAll_gateLeaf (hconf _ mem_cons_self))
      intro w vs bs r d hvs hret hd
      exact h.gateLeaf hrep hvs hret hd
    · exact (Grow.not_returns_fail hr).elim
  · cases hv

theorem Sound.node_oneHotSel (hk : n.kind = .oneHotSel)
    (hconf : ∀ x ∈ vals.drop 1, Value.Conforms x n.type) : TreeRep R t v := by
  unfold Evaluator.abstractNode at hr
  rw [hk] at hv hr
  rcases hops with _ | ⟨ha, hcases⟩
  · cases hv
  · obtain ⟨c, hc, hv⟩ := bind_eq_ok.1 hv
    obtain ⟨s, hs, hr⟩ := returns_bind hr
    have hrep := ha.bits hs hc
    rw [bits_eq_ok hc] at ha
    refine selectBy_rep ?_ hcases hr (zipAll_oneHotLeaf hconf hv)
    intro w vs bs r d hvs hret hd
    exact h.oneHotLeaf hrep ha.selector hvs hret hd

theorem Sound.node_prioritySel (hk : n.kind = .prioritySel)
    (hconf : ∀ x ∈ vals.drop 1, Value.Conforms x n.type) : TreeRep R t v := by
  unfold Evaluator.abstractNode at hr
  rw [hk] at hv hr
  rcases hops with _ | ⟨ha, hcases⟩
  · cases hv
  · obtain ⟨c, hc, hv⟩ := bind_eq_ok.1 hv
    obtain ⟨s, hs, hr⟩ := returns_bind hr
    have hrep := ha.bits hs hc
    rw [bits_eq_ok hc] at ha
    refine selectBy_rep ?_ hcases hr (zipAll_priorityLeaf hconf hv)
    intro w vs bs r d hvs hret hd
    exact h.priorityLeaf hrep ha.selector hvs hret hd

theorem Sound.node_sel {hasDefault : Bool} (hk : n.kind = .sel hasDefault)
    (hconf : ∀ x ∈ vals.drop 1, Value.Conforms x n.type) : TreeRep R t v := by
  unfold Evaluator.abstractNode at hr
  rw [hk] at hv hr
  rcases hops with _ | ⟨ha, hcases⟩
  · cases hv
  · obtain ⟨c, hc, hv⟩ := bind_eq_ok.1 hv
    obtain ⟨s, hs, hr⟩ := returns_bind hr
    refine selectBy_rep ?_ hcases hr (zipAll_selLeaf hconf hv)
    intro w vs bs r d hvs hret hd
    exact h.selLeaf (ha.bits hs hc) hvs hret hd

end Operations

/-! ### What the verifier says of operands -/

theorem conforms_types (hops : Forall₂ (OperandRep R) ops vals) :
    Forall₂ Value.Conforms vals (ops.map fun o => o.node.type) := by
  rw [forall₂_map_right_iff]
  exact (hops.imp fun _ _ h => h.conforms).flip

variable {types : List IrType} {type : IrType}

theorem verify_compare {op : CompareOp} (h : verifyNode params (.compare op) types type = true) :
    type = .bits 1 := by
  unfold verifyNode at h
  split at h <;> simp_all

theorem verify_decode {w : Nat} (h : verifyNode params (.decode w) types type = true) :
    type = .bits w := by
  unfold verifyNode at h
  split at h <;> simp_all

theorem verify_encode (h : verifyNode params .encode types type = true)
    (hvals : Forall₂ Value.Conforms vals types) :
    ∀ b, vals = [.leaf b] → type = .bits (ceilOfLog2 b.width) := by
  rintro b rfl
  unfold verifyNode at h
  split at h <;> simp_all

theorem verify_oneHot (h : verifyNode params (.oneHot p) types type = true)
    (hvals : Forall₂ Value.Conforms vals types) :
    ∀ b, vals = [.leaf b] → type = .bits (b.width + 1) := by
  rintro b rfl
  unfold verifyNode at h
  split at h <;> simp_all

theorem conforms_cases (hvals : Forall₂ Value.Conforms vals types)
    (h : ∀ t ∈ types.drop 1, t = type) : ∀ x ∈ vals.drop 1, Value.Conforms x type := by
  intro x hx
  obtain ⟨i, hi, rfl⟩ := getElem_of_mem hx
  have hdrop := forall₂_drop 1 hvals
  have hi' : i < (types.drop 1).length := by rwa [← hdrop.length_eq]
  have hget := Forall₂.get hdrop hi hi'
  rwa [get_eq_getElem, get_eq_getElem, h _ (getElem_mem hi')] at hget

theorem verify_gate (h : verifyNode params .gate types type = true) :
    ∀ t ∈ types.drop 1, t = type := by
  unfold verifyNode at h
  split at h <;> simp_all

theorem verify_select {kind : NodeKind}
    (hk : kind = .oneHotSel ∨ kind = .prioritySel ∨ ∃ d, kind = .sel d)
    (h : verifyNode params kind types type = true) : ∀ t ∈ types.drop 1, t = type := by
  unfold verifyNode at h
  rcases hk with rfl | rfl | ⟨d, rfl⟩
  all_goals
    split at h <;> simp_all
    exact h.2

/-- A node evaluated on operands that stand for the concrete ones stands for the
value of the interpreter. The operations left to the derived class need a default
that stands for every value of the type. -/
theorem Sound.abstractNode (h : ev.Sound F R)
    (hdefault : ∀ {t v}, Returns F default t → Value.Conforms v n.type → TreeRep R t v)
    (hops : Forall₂ (OperandRep R) ops vals)
    (hver : verifyNode params n.kind (ops.map fun o => o.node.type) n.type = true)
    (hr : Returns F (ev.abstractNode default n ops) t)
    (hv : interpretNode env args n vals = .ok v) : TreeRep R t v := by
  obtain ⟨v', hv, hconf⟩ := bind_eq_ok.1 hv
  split at hconf
  rotate_left
  · cases hconf
  rename_i hvconf
  cases hconf
  have hother : ev.abstractNode default n ops = default → TreeRep R t v := by
    intro heq
    rw [heq] at hr
    exact hdefault hr hvconf
  have htypes := conforms_types hops
  cases hk : n.kind with
  | literal value => exact h.node_literal hr hv hk
  | bin op => exact h.node_bin hops hr hv hk
  | arith op => exact h.node_arith hops hr hv hk
  | un op => exact h.node_un hops hr hv hk
  | nary op => exact h.node_nary hops hr hv hk
  | compare op => exact h.node_compare hops hr hv hk (verify_compare (hk ▸ hver))
  | reduce op => exact h.node_reduce hops hr hv hk
  | extend op w => exact h.node_extend hops hr hv hk
  | array => exact node_array hops hr hv hk
  | arrayConcat => exact node_arrayConcat hops hr hv hk
  | bitSlice start w => exact node_bitSlice hops hr hv hk
  | bitSliceUpdate => exact h.node_bitSliceUpdate hops hr hv hk
  | concat => exact node_concat hops hr hv hk
  | decode w => exact h.node_decode hops hr hv hk (verify_decode (hk ▸ hver))
  | encode => exact h.node_encode hops hr hv hk (verify_encode (hk ▸ hver) htypes)
  | gate => exact h.node_gate hops hr hv hk (conforms_cases htypes (verify_gate (hk ▸ hver)))
  | oneHot p => exact h.node_oneHot hops hr hv hk (verify_oneHot (hk ▸ hver) htypes)
  | oneHotSel =>
    exact h.node_oneHotSel hops hr hv hk
      (conforms_cases htypes (verify_select (.inl hk) hver))
  | prioritySel =>
    exact h.node_prioritySel hops hr hv hk
      (conforms_cases htypes (verify_select (.inr (.inl hk)) hver))
  | sel d =>
    exact h.node_sel hops hr hv hk
      (conforms_cases htypes (verify_select (.inr (.inr ⟨d, hk⟩)) hver))
  | tuple => exact node_tuple hops hr hv hk
  | tupleIndex i => exact node_tupleIndex hops hr hv hk
  | _ => exact hother (by unfold Evaluator.abstractNode; rw [hk])

end Node

end Sound

/-- What is known of an operand also holds of a node that has just been visited. -/
theorem OperandRep.of_interpretNode {E : Type} {R : E → Bool → Prop} {env : Env}
    {args vals : List Value} {params types : List IrType} {n : Node} {t : CompoundValue E}
    {v : Value}
    (hrep : TreeRep R t v) (hver : verifyNode params n.kind types n.type = true)
    (hvals : Forall₂ Value.Conforms vals types)
    (hv : interpretNode env args n vals = .ok v) : OperandRep R ⟨n, t⟩ v := by
  obtain ⟨v', hv', hconf⟩ := bind_eq_ok.1 hv
  split at hconf
  rotate_left
  · cases hconf
  rename_i hvconf
  cases hconf
  refine ⟨hrep, hvconf, ?_⟩
  rintro p hk b rfl
  dsimp only at hk
  rw [hk] at hver hv'
  have htype := verify_oneHot hver hvals
  unfold evalNode at hv'
  rcases vals with _ | ⟨a, _ | ⟨a', vals⟩⟩
  · cases hv'
  · obtain ⟨x, hx, hv'⟩ := bind_eq_ok.1 hv'
    rw [htype x (by rw [bits_eq_ok hx])] at hv'
    obtain ⟨width, hwidth, hv'⟩ := bind_eq_ok.1 hv'
    cases hwidth
    obtain ⟨c, hc, hv'⟩ := bind_eq_ok.1 hv'
    cases hv'
    exact oneHotOp_ne_zero hc
  · cases hv'

end Xls.Evaluator

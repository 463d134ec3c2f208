import Xls.Reassociation.Subtracts
import Xls.Canonicalization

/-!
# Xls.Canonicalization.Rules

Every rule replaces a node by one of the same type and value. A clamp is canonicalized if its
constant is a literal.
-/

namespace Xls

open Result Interpreter Bits LeafTree Bool Except List Option Nat
open Xls.Graph (World)

namespace Canonicalization

variable {env : Env} {args : List Value} {w : World env args} {id : Nat} {n : Node}

/-! ### Nodes of a world -/

/-- Operands with their types and values, which rank below a bound. -/
inductive Operands (w : World env args) (bound : ℚ) :
    List Nat → List IrType → List Value → Prop
  | nil : Operands w bound [] [] []
  | cons {o : Nat} {t : IrType} {u : Value} {os : List Nat} {ts : List IrType} {us : List Value}
      (h : w.Has bound o t u) (hs : Operands w bound os ts us) :
      Operands w bound (o :: os) (t :: ts) (u :: us)

section Operands

variable {bound : ℚ} {os : List Nat} {ts : List IrType} {us : List Value}

theorem Operands.types (h : Operands w bound os ts us) :
    operandTypes w.graph.nodes os = some ts := by
  induction h with
  | nil => rfl
  | cons h _ ih =>
    unfold operandTypes at ih ⊢
    rw [collect, h.type, ih]

theorem Operands.values (h : Operands w bound os ts us) :
    collect (fun o => w.vals[o]?) os = some us := by
  induction h with
  | nil => rfl
  | cons h _ ih => rw [collect, h.value, ih]

theorem Operands.rank (h : Operands w bound os ts us) : ∀ o ∈ os, w.rank o < bound := by
  induction h with
  | nil => simp
  | cons h _ ih => exact forall_mem_cons.mpr ⟨h.rank, ih⟩

/-- The operands of a node have their types and values. -/
theorem exists_operands (htypes : operandTypes w.graph.nodes os = some ts)
    (hvalues : collect (fun o => w.vals[o]?) os = some us)
    (hrank : ∀ o ∈ os, w.rank o < bound) : Operands w bound os ts us := by
  have htypes' := collect_eq_some.1 htypes
  have hvalues' := collect_eq_some.1 hvalues
  clear htypes hvalues
  induction htypes' generalizing us with
  | nil =>
    cases hvalues'
    exact .nil
  | cons ht _ ih =>
    cases hvalues' with
    | cons hu hus =>
      obtain ⟨ho, hos⟩ := forall_mem_cons.mp hrank
      exact .cons ⟨ht, hu, ho⟩ (ih hos hus)

end Operands

/-- A node with the types and values of its operands, and its value. -/
structure At (w : World env args) (id : Nat) (n : Node) (types : List IrType) (ops : List Value)
    (v : Value) : Prop where
  node : w.graph.nodes[id]? = some n
  operands : Operands w (w.rank id) n.operands types ops
  verified : verifyNode w.params n.kind types n.type = true
  value : w.vals[id]? = some v
  eval : evalNode env args n.kind n.type ops = .ok v
  conforms : v.Conforms n.type

theorem exists_at (hn : w.graph.nodes[id]? = some n) : ∃ types ops v, At w id n types ops v := by
  obtain ⟨types, htypes, hverify⟩ := w.verified id n hn
  obtain ⟨ops, v, hops, hv, hint⟩ := w.valuation.node id n hn
  obtain ⟨u, hu, hconf⟩ := Result.bind_eq_ok.1 hint
  have hoperands := exists_operands htypes hops (w.ranked id n hn)
  split at hconf
  · cases hconf
    exact ⟨types, ops, v, hn, hoperands, hverify, hv, hu, by assumption⟩
  · cases hconf

theorem At.has {types : List IrType} {ops : List Value} {v : Value}
    (h : At w id n types ops v) : w.Has (w.rank id + 1) id n.type v where
  type := by rw [h.node]; rfl
  value := h.value
  rank := lt_add_one _

variable {a : Nat} {m : Node} {types' : List IrType} {ops' : List Value} {kind : NodeKind}
  {x c : Bits}

/-- A node with one operand. -/
theorem exists_unary (hn : w.graph.nodes[id]? = some n) (ha : n.operands = [a]) :
    ∃ t u v, At w id n [t] [u] v ∧ w.Has (w.rank id) a t u := by
  obtain ⟨types, ops, v, h⟩ := exists_at hn
  have hoperands := h.operands
  rw [ha] at hoperands
  cases hoperands with
  | cons ha hnil =>
    cases hnil
    exact ⟨_, _, v, h, ha⟩

/-- A node with two operands. -/
theorem exists_binary {b : Nat} (hn : w.graph.nodes[id]? = some n) (hab : n.operands = [a, b]) :
    ∃ ta tb u u' v, At w id n [ta, tb] [u, u'] v ∧ w.Has (w.rank id) a ta u ∧
      w.Has (w.rank id) b tb u' := by
  obtain ⟨types, ops, v, h⟩ := exists_at hn
  have hoperands := h.operands
  rw [hab] at hoperands
  cases hoperands with
  | cons ha hoperands =>
    cases hoperands with
    | cons hb hnil =>
      cases hnil
      exact ⟨_, _, _, _, v, h, ha, hb⟩

variable {bound : ℚ} {o k : Nat} {u u' : Value} {r : Replacement}

/-- A node of a bits type holds bits. -/
theorem has_bits (h : w.Has bound o (.bits k) u) :
    ∃ x : Bits, u = .leaf x ∧ x.width = k := Value.conforms_bits h.conforms

/-! ### Replacing a node -/

/-- A replacement that leads to a later world. -/
def Keeps (w : World env args) (id : Nat) (r : Replacement) : Prop :=
  ∃ w', replace w.graph id r = .ok w'.graph ∧ w ≤ w'

/-- One more node, that passes the verifier and has a value. -/
theorem exists_snoc {types : List IrType} {ops : List Value} {v : Value}
    (hoperands : Operands w bound m.operands types ops)
    (hverify : verifyNode w.params m.kind types m.type = true)
    (heval : evalNode env args m.kind m.type ops = .ok v) (hconf : v.Conforms m.type) :
    ∃ w', w'.graph = { w.graph with nodes := w.graph.nodes ++ [m] } ∧ w ≤ w' ∧
      w'.Has bound w.graph.nodes.length m.type v := by
  have hint : Interpreter.interpretNode env args m ops = .ok v := by
    rw [Interpreter.interpretNode, heval, ok_bind, if_pos hconf]
    rfl
  obtain ⟨new, w', hmake, hle, htype, hvalue, hrank⟩ :=
    World.ensures_makeNode hoperands.types hverify hoperands.values hint hoperands.rank w
      (le_refl w)
  have hgraph := (ok.inj (congrArg (Except.map Prod.snd) hmake)).symm
  have hnew := (ok.inj (congrArg (Except.map Prod.fst) hmake)).symm
  dsimp only at hnew
  subst hnew
  exact ⟨w', hgraph, hle, htype, hvalue, hrank⟩

/-- A literal. -/
theorem exists_literal (w : World env args) (bound : ℚ) (z : Bits) :
    ∃ w', w'.graph = { w.graph with nodes := w.graph.nodes ++
        [⟨.literal (.leaf z), [], .bits z.width⟩] } ∧ w ≤ w' ∧
      w'.Has bound w.graph.nodes.length (.bits z.width) (.leaf z) :=
  exists_snoc (m := ⟨.literal (.leaf z), [], .bits z.width⟩) .nil
    (decide_eq_true (Value.conforms_leaf_bits.2 rfl)) rfl (Value.conforms_leaf_bits.2 rfl)

variable {types : List IrType} {ops : List Value} {v : Value}

theorem keeps_of_has {w' : World env args} (h : At w id n types ops v)
    (hgraph : w'.graph = { w.graph with nodes := w.graph.nodes ++ r.made }) (hle : w ≤ w')
    (hnew : w'.Has (w.rank id) r.node n.type v) : Keeps w id r := by
  rw [← hle.rank id h.has.lt] at hnew
  obtain ⟨_, w'', hreplace, hle', -⟩ :=
    World.ensures_replaceUsesWith_of_has (h.has.mono hle) hnew w' (le_refl w')
  refine ⟨w'', ?_, hle.trans hle'⟩
  rw [replace, ← hgraph, hreplace]
  rfl

/-- A node is replaced by a new one. -/
theorem keeps_one (h : At w id n types ops v)
    (hoperands : Operands w (w.rank id) m.operands types' ops') (htype : m.type = n.type)
    (hverify : verifyNode w.params m.kind types' n.type = true)
    (heval : evalNode env args m.kind n.type ops' = .ok v) :
    Keeps w id ⟨[m], w.graph.nodes.length⟩ := by
  rw [← htype] at hverify heval
  obtain ⟨w', hgraph, hle, hnew⟩ := exists_snoc hoperands hverify heval (htype ▸ h.conforms)
  exact keeps_of_has h hgraph hle (htype ▸ hnew)

/-- A node is replaced by the second of two new ones. -/
theorem keeps_two {m' : Node} {w₁ : World env args} (h : At w id n types ops v)
    (hgraph : w₁.graph = { w.graph with nodes := w.graph.nodes ++ [m] }) (hle : w ≤ w₁)
    (hoperands : Operands w₁ (w.rank id) m'.operands types' ops') (htype : m'.type = n.type)
    (hverify : verifyNode w₁.params m'.kind types' n.type = true)
    (heval : evalNode env args m'.kind n.type ops' = .ok v) :
    Keeps w id ⟨[m, m'], w.graph.nodes.length + 1⟩ := by
  rw [← htype] at hverify heval
  obtain ⟨w', hgraph', hle', hnew⟩ := exists_snoc hoperands hverify heval (htype ▸ h.conforms)
  have hlength : w₁.graph.nodes.length = w.graph.nodes.length + 1 := by
    rw [hgraph, length_append]
    rfl
  refine keeps_of_has h ?_ (hle.trans hle') (htype ▸ hlength ▸ hnew)
  rw [hgraph', hgraph]
  simp

/-! ### Commutative operators -/

/-- Swapping the operands of a commutative node keeps it valid. -/
theorem verifyNode_swap {params : List IrType} {ta tb type : IrType}
    (hkind : kind.isCommutative = true) (h : verifyNode params kind [ta, tb] type = true) :
    verifyNode params kind [tb, ta] type = true := by
  cases kind with
  | bin op =>
    cases op with
    | add =>
      simp only [verifyNode, BinOp.isShift, and_eq_true, beq_iff_eq] at h ⊢
      simp_all
    | _ => cases hkind
  | arith op =>
    simp only [verifyNode, and_eq_true] at h ⊢
    exact ⟨⟨h.1.2, h.1.1⟩, h.2⟩
  | partialProduct op width =>
    simp only [verifyNode, and_eq_true] at h ⊢
    exact ⟨⟨h.1.2, h.1.1⟩, h.2⟩
  | nary op =>
    simp only [verifyNode, all_cons, all_nil, Bool.and_true, and_eq_true] at h ⊢
    exact ⟨h.1, h.2.2, h.2.1⟩
  | compare op =>
    simp only [verifyNode, and_eq_true, beq_iff_eq] at h ⊢
    exact ⟨h.1.symm, h.2⟩
  | afterAll =>
    simp only [verifyNode, all_cons, all_nil, Bool.and_true, and_eq_true] at h ⊢
    exact ⟨⟨h.1.2, h.1.1⟩, h.2⟩
  | _ => cases hkind

theorem add_comm_bits {y : Bits} (h : x.width = y.width) : x.add y = y.add x := by
  rw [Bits.add, Bits.add, h, Nat.add_comm]

theorem arithOp_comm (op : ArithOp) (width : Nat) (x y : Bits) :
    arithOp op width x y = arithOp op width y x := by
  have humul : x.umul y = y.umul x := by
    rw [Bits.umul, Bits.umul, Nat.add_comm, Nat.mul_comm]
  have hsmul : x.smul y = y.smul x := by
    rw [Bits.smul, Bits.smul, Nat.add_comm, Int.mul_comm]
  unfold arithOp
  rw [humul, hsmul]

/-- Operations on two operands commute. -/
theorem naryOp_comm (op : NaryOp) (x y : Bits) :
    Interpreter.naryOp op [x, y] = Interpreter.naryOp op [y, x] := by
  have hfold : ∀ f : Bits → Bits → Bits, (x.width = y.width → f x y = f y x) →
      naryFold f [x, y] = naryFold f [y, x] := by
    intro f hf
    simp only [naryFold, foldlM_cons, foldlM_nil]
    by_cases hxy : x.width = y.width
    · rw [hf hxy, hxy]
    · have hyx : ¬y.width = x.width := fun h => hxy h.symm
      rw [beq_eq_false_iff_ne.mpr hxy, beq_eq_false_iff_ne.mpr hyx]
      rfl
  cases op with
  | and => exact hfold _ fun h => by rw [Bits.and, Bits.and, h, land_comm]
  | or => exact hfold _ fun h => by rw [Bits.or, Bits.or, h, lor_comm]
  | xor => exact hfold _ fun h => by rw [Bits.xor, Bits.xor, h, Nat.xor_comm]
  | nand =>
    have h := hfold Bits.and fun h => by rw [Bits.and, Bits.and, h, land_comm]
    simp only [Interpreter.naryOp, h]
  | nor =>
    have h := hfold Bits.or fun h => by rw [Bits.or, Bits.or, h, lor_comm]
    simp only [Interpreter.naryOp, h]

/-- Swapping the operands of a commutative node keeps its value. -/
theorem evalNode_swap {type : IrType} {v : Value} (hkind : kind.isCommutative = true)
    (h : evalNode env args kind type [u, u'] = .ok v) :
    evalNode env args kind type [u', u] = .ok v := by
  cases kind with
  | bin op =>
    cases op with
    | add =>
      obtain ⟨x, hx, h⟩ := Result.bind_eq_ok.1 h
      obtain ⟨y, hy, h⟩ := Result.bind_eq_ok.1 h
      obtain ⟨z, hz, h⟩ := Result.bind_eq_ok.1 h
      obtain ⟨_, hxy, hz⟩ := Result.bind_eq_ok.1 hz
      rw [checkThat_eq_ok, beq_iff_eq] at hxy
      cases hz
      show (do
        let y ← u'.bits
        let x ← u.bits
        let r ← binOp .add y x
        return LeafTree.leaf r) = _
      rw [hy, ok_bind, hx, ok_bind, binOp, beq_iff_eq.mpr hxy.symm, add_comm_bits hxy.symm]
      exact h
    | _ => cases hkind
  | arith op =>
    obtain ⟨x, hx, h⟩ := Result.bind_eq_ok.1 h
    obtain ⟨y, hy, h⟩ := Result.bind_eq_ok.1 h
    show (do
      let y ← u'.bits
      let x ← u.bits
      let width ← type.bitCountOrDie
      return LeafTree.leaf (arithOp op width y x)) = _
    rw [hy, ok_bind, hx, ok_bind]
    simp only [arithOp_comm op _ y x]
    exact h
  | partialProduct op width =>
    obtain ⟨x, hx, h⟩ := Result.bind_eq_ok.1 h
    obtain ⟨y, hy, h⟩ := Result.bind_eq_ok.1 h
    show (do
      let y ← u'.bits
      let x ← u.bits
      return partialProductOp op width y x) = _
    rw [hy, ok_bind, hx, ok_bind]
    have hcomm : partialProductOp op width y x =
        partialProductOp op width x y := by
      unfold partialProductOp
      rw [arithOp_comm]
    rw [hcomm]
    exact h
  | nary op =>
    obtain ⟨xs, hxs, h⟩ := Result.bind_eq_ok.1 h
    obtain ⟨x, hx, hxs⟩ := Result.bind_eq_ok.1 hxs
    obtain ⟨ys, hys, hxs⟩ := Result.bind_eq_ok.1 hxs
    obtain ⟨y, hy, hys⟩ := Result.bind_eq_ok.1 hys
    cases hys
    cases hxs
    show (do
      let xs ← Interpreter.bitsVector [u', u]
      let r ← Interpreter.naryOp op xs
      return LeafTree.leaf r) = _
    have hswap : Interpreter.bitsVector [u', u] = .ok [y, x] := by
      simp only [Interpreter.bitsVector, hx, hy, ok_bind, pure_eq_ok]
    rw [hswap, ok_bind, naryOp_comm]
    exact h
  | compare op =>
    obtain ⟨r, hr, h⟩ := Result.bind_eq_ok.1 h
    have hswap : compareOp op u' u = .ok r := by
      rw [← hr]
      cases op with
      | eq => rw [compareOp, compareOp, decide_eq_decide.mpr eq_comm]
      | ne => rw [compareOp, compareOp, decide_eq_decide.mpr eq_comm]
      | _ => cases hkind
    show (do
      let r ← compareOp op u' u
      let width ← type.bitCountOrDie
      return LeafTree.leaf (Bits.ofNat width r.toNat)) = _
    rw [hswap]
    exact h
  | afterAll => exact h
  | _ => cases hkind

/-- Constants move to the right. -/
theorem keeps_moveConstantRight (hn : w.graph.nodes[id]? = some n)
    (hr : moveConstantRight w.graph n = some r) : Keeps w id r := by
  unfold moveConstantRight at hr
  split at hr
  rotate_left
  · cases hr
  rename_i a b hab
  split at hr
  rotate_left
  · cases hr
  rename_i hcond
  cases hr
  rw [and_eq_true, and_eq_true] at hcond
  obtain ⟨ta, tb, u, u', v, h, ha, hb⟩ := exists_binary hn hab
  exact keeps_one h (.cons hb (.cons ha .nil)) rfl (verifyNode_swap hcond.1.1 h.verified)
    (evalNode_swap hcond.1.1 h.eval)

/-! ### Comparisons -/

/-- A comparison reversed, with its operands swapped. -/
theorem compareBits_reverse (op : CompareOp) (x y : Bits) :
    compareBits op.reverse y x = compareBits op x y := by
  cases op with
  | eq =>
    show (y == x) = (x == y)
    exact BEq.comm
  | ne =>
    show (!(y == x)) = !(x == y)
    rw [BEq.comm]
  | sge => exact (not_slt x y).symm
  | sgt => exact (not_sle x y).symm
  | sle => exact not_slt y x
  | slt => exact not_sle y x
  | _ => rfl

/-- Reversing a comparison of values, with its operands swapped, keeps the answer. -/
theorem compareOp_reverse (op : CompareOp) {r : Bool} (h : compareOp op u u' = .ok r) :
    compareOp op.reverse u' u = .ok r := by
  have hordered : ∀ op : CompareOp, (do
      let x ← u.bits
      let y ← u'.bits
      return compareBits op x y : Result Bool) = .ok r → (do
      let y ← u'.bits
      let x ← u.bits
      return compareBits op.reverse y x : Result Bool) = .ok r := by
    intro op h
    obtain ⟨x, hx, h⟩ := Result.bind_eq_ok.1 h
    obtain ⟨y, hy, h⟩ := Result.bind_eq_ok.1 h
    rw [hy, ok_bind, hx, ok_bind, compareBits_reverse]
    exact h
  cases op with
  | eq =>
    rw [← h]
    rw [CompareOp.reverse, compareOp, compareOp, decide_eq_decide.mpr eq_comm]
  | ne =>
    rw [← h]
    rw [CompareOp.reverse, compareOp, compareOp, decide_eq_decide.mpr eq_comm]
  | _ => exact hordered _ h

/-- A comparison with its operands. -/
theorem exists_compare {op : CompareOp} {b : Nat} (hn : w.graph.nodes[id]? = some n)
    (hkind : n.kind = .compare op) (hab : n.operands = [a, b]) :
    ∃ t u u' r, At w id n [t, t] [u, u'] (.leaf (Bits.ofNat 1 (Bool.toNat r))) ∧
      w.Has (w.rank id) a t u ∧ w.Has (w.rank id) b t u' ∧ n.type = .bits 1 ∧
      compareOp op u u' = .ok r := by
  obtain ⟨ta, tb, u, u', v, h, ha, hb⟩ := exists_binary hn hab
  have hverify := h.verified
  rw [hkind] at hverify
  simp only [verifyNode, and_eq_true, beq_iff_eq] at hverify
  obtain ⟨rfl, htype⟩ := hverify
  have heval := h.eval
  rw [hkind, htype] at heval
  obtain ⟨r, hr, heval⟩ := Result.bind_eq_ok.1 heval
  cases heval
  exact ⟨_, _, _, r, h, ha, hb, htype, hr⟩

/-- What the interpreter computes for a comparison. -/
theorem evalNode_compare {op : CompareOp} {r : Bool} (h : compareOp op u u' = .ok r) :
    evalNode env args (.compare op) (.bits 1) [u, u'] = .ok (.leaf (Bits.ofNat 1 r.toNat)) := by
  show (do
    let r ← compareOp op u u'
    let width ← (IrType.bits 1).bitCountOrDie
    return LeafTree.leaf (Bits.ofNat width r.toNat)) = _
  rw [h]
  rfl

theorem verifyNode_compare (params : List IrType) (op : CompareOp) (t : IrType) :
    verifyNode params (.compare op) [t, t] (.bits 1) = true := by
  simp [verifyNode]

/-- Reversing a comparison keeps the value of the node. -/
theorem keeps_reverseComparison (hn : w.graph.nodes[id]? = some n)
    (hr : reverseComparison w.graph n = some r) : Keeps w id r := by
  unfold reverseComparison at hr
  split at hr
  rotate_left
  · cases hr
  rename_i op a b hkind hab
  split at hr
  rotate_left
  · cases hr
  cases hr
  obtain ⟨t, u, u', r, h, ha, hb, htype, hcompare⟩ := exists_compare hn hkind hab
  refine keeps_one h (.cons hb (.cons ha .nil)) htype.symm ?_ ?_
  · rw [htype]
    exact verifyNode_compare w.params op.reverse t
  · rw [htype]
    exact evalNode_compare (compareOp_reverse op hcompare)

/-! ### Known values -/

theorem exists_of_isLiteral {g : Graph} (h : isLiteral g o = true) :
    ∃ value os t, g.nodes[o]? = some ⟨.literal value, os, t⟩ := by
  unfold isLiteral at h
  split at h
  · rename_i value os t hnode
    exact ⟨value, os, t, hnode⟩
  · cases h

/-- A node of a bits type that is fully known has a known value, which is its value. -/
theorem knownValueAsBits_of_isFullyKnown (h : w.Has bound o (.bits k) u)
    (hknown : isFullyKnown w.graph o = true) :
    ∃ c, knownValueAsBits w.graph o = some c ∧ u = .leaf c ∧ c.width = k := by
  obtain ⟨value, os, t, hm⟩ := exists_of_isLiteral hknown
  obtain ⟨x, rfl, hwidth⟩ := has_bits h
  have hx : w.Holds bound o x := ⟨by rw [h.type, hwidth], h.value, h.rank⟩
  have hsome : ∃ c, Reassociation.knownValueAsBits w.graph ⟨.literal value, os, t⟩ = some c := by
    obtain ⟨ops, -, heval⟩ := hx.eval hm
    cases heval
    exact ⟨x, rfl⟩
  obtain ⟨c, hc⟩ := hsome
  obtain rfl : c = x := Reassociation.knownValueAsBits_sound hx hm hc
  refine ⟨c, ?_, rfl, hwidth⟩
  rw [knownValueAsBits, hm]
  exact hc

/-- A known value of a node of a bits type is its value. -/
theorem eq_of_knownValueAsBits (h : w.Has bound o (.bits k) u)
    (hc : knownValueAsBits w.graph o = some c) : u = .leaf c := by
  obtain ⟨m, hm, ht⟩ := map_eq_some_iff.mp h.type
  obtain ⟨x, rfl, hwidth⟩ := has_bits h
  have hx : w.Holds bound o x := ⟨by rw [h.type, hwidth], h.value, h.rank⟩
  rw [knownValueAsBits, hm] at hc
  rw [Reassociation.knownValueAsBits_sound hx hm hc]

/-- A node is of a bits type. -/
theorem isBits_iff : isBits w.graph o = true ↔
    ∃ k, w.graph.nodes[o]?.map Node.type = some (.bits k) := by
  unfold isBits
  cases hm : w.graph.nodes[o]? with
  | none => simp
  | some m =>
    constructor
    · intro h
      obtain ⟨k, hk⟩ := IrType.eq_bits_of_isBits h
      exact ⟨k, by rw [map_some, hk]⟩
    · rintro ⟨k, hk⟩
      rw [map_some, some.injEq] at hk
      show m.type.isBits = true
      rw [hk]
      rfl

/-- A rule that returns, and replaces the node by one of the same value if it applies. -/
def Sound (w : World env args) (id : Nat) (rule : Result (Option Replacement)) : Prop :=
  ∃ r, rule = .ok r ∧ ∀ r', r = some r' → Keeps w id r'

theorem sound_none : Sound w id (.ok none) := ⟨none, rfl, by simp⟩

theorem sound_some (h : Keeps w id r) : Sound w id (.ok (some r)) := by
  refine ⟨some r, rfl, fun r' hr' => ?_⟩
  cases hr'
  exact h

/-- The first of sound rules that applies. -/
theorem sound_firstOf {rules : List (Result (Option Replacement))}
    (h : ∀ rule ∈ rules, Sound w id rule) : Sound w id (firstOf rules) := by
  induction rules with
  | nil => exact sound_none
  | cons rule rules ih =>
    obtain ⟨hrule, hrules⟩ := forall_mem_cons.mp h
    obtain ⟨r, rfl, hr⟩ := hrule
    cases r with
    | none => exact ih hrules
    | some r => exact sound_some (hr r rfl)

/-! ### Strict comparisons -/

theorem decrement_val (h : c.isZero = false) : c.decrement.val = c.val - 1 := by
  have hpos : c.val ≠ 0 := by simpa [Bits.isZero] using h
  have hlt := c.isLt
  show (c.val + 2 ^ c.width - 1) % 2 ^ c.width = c.val - 1
  rw [show c.val + 2 ^ c.width - 1 = c.val - 1 + 2 ^ c.width by omega, add_mod_right]
  exact mod_eq_of_lt (by omega)

theorem increment_val (h : c.isAllOnes = false) : c.increment.val = c.val + 1 := by
  have hne : c.val ≠ 2 ^ c.width - 1 := by simpa [Bits.isAllOnes] using h
  have hlt := c.isLt
  exact mod_eq_of_lt (by omega)

/-- A comparison with a literal that has the same result. -/
theorem keeps_compareLiteral {op' : CompareOp} {r : Bool} {z : Bits}
    (h : At w id n [.bits k, .bits k] [u, u'] (.leaf (Bits.ofNat 1 (Bool.toNat r))))
    (ha : w.Has (w.rank id) a (.bits k) u) (htype : n.type = .bits 1) (hz : z.width = k)
    (hcompare : compareOp op' u (.leaf z) = .ok r) :
    Keeps w id ⟨[⟨.literal (.leaf z), [], .bits z.width⟩,
      ⟨.compare op', [a, w.graph.nodes.length], .bits 1⟩], w.graph.nodes.length + 1⟩ := by
  obtain ⟨w₁, hgraph, hle, hliteral⟩ := exists_literal w (w.rank id) z
  rw [hz] at hliteral
  refine keeps_two h hgraph hle (.cons (ha.mono hle) (.cons hliteral .nil)) htype.symm ?_ ?_
  · rw [htype]
    exact verifyNode_compare w₁.params op' _
  · rw [htype]
    exact evalNode_compare hcompare

/-- A comparison with a literal becomes strict, with the literal next to it. -/
theorem sound_strictComparison (hn : w.graph.nodes[id]? = some n) :
    Sound w id (strictComparison w.graph n) := by
  unfold strictComparison
  split
  rotate_left
  · exact sound_none
  rename_i op a b hkind hab
  split
  rotate_left
  · exact sound_none
  rename_i hcond
  rw [and_eq_true] at hcond
  obtain ⟨t, u, u', r, h, ha, hb, htype, hcompare⟩ := exists_compare hn hkind hab
  obtain ⟨k, hk⟩ := isBits_iff.mp hcond.1
  obtain rfl : t = .bits k := some.inj (hb.type.symm.trans hk)
  obtain ⟨c, hc, rfl, hwidth⟩ := knownValueAsBits_of_isFullyKnown hb hcond.2
  obtain ⟨x, rfl, hx⟩ := has_bits ha
  rw [hc, show derefOption (some c) = ok c from rfl, ok_bind]
  split
  · rename_i hop
    obtain ⟨rfl, hzero⟩ := hop
    rw [not_eq_true'] at hzero
    refine sound_some (keeps_compareLiteral h ha htype hwidth ?_)
    rw [← hcompare]
    show ok (c.decrement.ult x) = ok (c.ule x)
    have hpos : c.val ≠ 0 := by simpa [Bits.isZero] using hzero
    rw [Bits.ult, ule, decrement_val hzero]
    exact congrArg ok (decide_eq_decide.mpr (by omega))
  · split
    · rename_i hop
      obtain ⟨rfl, hones⟩ := hop
      rw [not_eq_true'] at hones
      refine sound_some (keeps_compareLiteral h ha htype hwidth ?_)
      rw [← hcompare]
      show ok (x.ult c.increment) = ok (x.ule c)
      rw [Bits.ult, ule, increment_val hones]
      exact congrArg ok (decide_eq_decide.mpr (by omega))
    · exact sound_none

/-! ### Subtractions and extensions -/

theorem sub_eq_add_negate {y : Bits} (h : x.width = y.width) : x.sub y = x.add y.negate := by
  refine Bits.ext rfl ?_
  show (x.val + 2 ^ x.width - y.val) % 2 ^ x.width =
    (x.val + (2 ^ y.width - y.val) % 2 ^ y.width) % 2 ^ x.width
  have hlt := y.isLt
  rw [h, add_mod_mod, Nat.add_sub_assoc hlt.le]

/-- Subtracting a literal is adding its negation. -/
theorem sound_addNegated (hn : w.graph.nodes[id]? = some n) :
    Sound w id (addNegated w.graph n) := by
  unfold addNegated
  split
  rotate_left
  · exact sound_none
  rename_i a b hkind hab
  split
  rotate_left
  · exact sound_none
  rename_i hknown
  obtain ⟨ta, tb, u, u', v, h, ha, hb⟩ := exists_binary hn hab
  have hverify := h.verified
  have heval := h.eval
  rw [hkind] at hverify heval
  simp only [verifyNode_bin, BinOp.isShift, and_eq_true, beq_iff_eq] at hverify
  obtain ⟨⟨hbits, rfl⟩, hb'⟩ := hverify
  have htb : tb = n.type := by simpa using hb'
  obtain ⟨k, hk⟩ := IrType.eq_bits_of_isBits hbits
  rw [htb, hk] at hb
  rw [hk] at ha
  obtain ⟨c, hc, rfl, hwidth⟩ := knownValueAsBits_of_isFullyKnown hb hknown
  obtain ⟨x, rfl, hx⟩ := has_bits ha
  obtain ⟨_, hx', heval⟩ := Result.bind_eq_ok.1 heval
  cases hx'
  obtain ⟨_, hc', heval⟩ := Result.bind_eq_ok.1 heval
  cases hc'
  obtain ⟨z, hz, heval⟩ := Result.bind_eq_ok.1 heval
  obtain ⟨_, hwidths, hz⟩ := Result.bind_eq_ok.1 hz
  cases hz
  cases heval
  have hsame : x.width = c.width := hx.trans hwidth.symm
  rw [hc]
  obtain ⟨w₁, hgraph, hle, hliteral⟩ := exists_literal w (w.rank id) c.negate
  rw [negate_width, hwidth] at hliteral
  refine sound_some (keeps_two h hgraph hle (.cons (ha.mono hle) (.cons hliteral .nil)) rfl ?_ ?_)
  · rw [hk, verifyNode_bin]
    simp [IrType.isBits]
  · show (do
      let r ← binOp .add x c.negate
      return LeafTree.leaf r) = _
    rw [binOp, negate_width, beq_iff_eq.mpr hsame, sub_eq_add_negate hsame]
    rfl

/-- The value of a concatenation with zeros in front. -/
theorem concat_zero (h : x.width ≤ k) :
    Bits.concat [Bits.zero (k - x.width), x] = x.zeroExtend k := by
  have hwidth : (Bits.concat [Bits.zero (k - x.width), x]).width = k := by simp [Bits.concat, h]
  refine Bits.ext hwidth ?_
  have hlt : x.val < 2 ^ k := lt_of_lt_of_le x.isLt (Nat.pow_le_pow_right (by decide) h)
  simp [Bits.concat, Bits.append, Bits.zeroExtend, Bits.ofNat, Bits.zero, mod_eq_of_lt hlt]

/-- An extension by no bits. -/
theorem extended_self (op : ExtendOp) (x : Bits) : World.extended op x.width x = x := by
  cases op with
  | zeroExt => exact ofNat_self x
  | signExt =>
    refine Bits.ext rfl ?_
    rw [World.extended, signExtend_val (le_refl _)]
    simp

/-- An extension by no bits is its operand, and a zero extension is a concatenation with zeros. -/
theorem sound_removeExtension (hn : w.graph.nodes[id]? = some n) :
    Sound w id (removeExtension w.graph n) := by
  unfold removeExtension
  split
  rotate_left
  · exact sound_none
  rename_i op width a hkind ha
  obtain ⟨t, u, v, h, ha⟩ := exists_unary hn ha
  have hverify := h.verified
  have heval := h.eval
  rw [hkind] at hverify heval
  obtain ⟨k, rfl⟩ : ∃ k, t = .bits k := by
    cases t with
    | bits k => exact ⟨k, rfl⟩
    | _ => simp [verifyNode] at hverify
  obtain ⟨x, rfl, rfl⟩ := has_bits ha
  simp only [verifyNode, and_eq_true, beq_iff_eq, decide_eq_true_iff] at hverify
  obtain ⟨⟨hle, -⟩, htype⟩ := hverify
  have hv : v = .leaf (World.extended op width x) := by
    obtain ⟨_, hx, heval⟩ := Result.bind_eq_ok.1 heval
    cases hx
    obtain ⟨r, hr, heval⟩ := Result.bind_eq_ok.1 heval
    obtain ⟨_, _, hr⟩ := Result.bind_eq_ok.1 hr
    cases heval
    cases op with
    | _ =>
      cases hr
      rfl
  have hcount : bitCountOrDie w.graph a = .ok x.width := by
    obtain ⟨m, hm, ht⟩ := map_eq_some_iff.mp ha.type
    rw [bitCountOrDie, hm]
    show m.type.bitCountOrDie = _
    rw [ht]
    rfl
  rw [htype, hcount]
  show Sound w id (if width = x.width then _ else _)
  split
  · rename_i heq
    subst heq
    rw [extended_self] at hv
    subst hv
    refine sound_some (keeps_of_has h ?_ (le_refl w) (htype ▸ ha))
    simp
  · rename_i hne
    split
    rotate_left
    · exact sound_none
    rename_i hop
    subst hop
    have hlt : x.width < width := by omega
    rw [decide_eq_true hlt]
    obtain ⟨w₁, hgraph, hle₁, hliteral⟩ :=
      exists_literal w (w.rank id) (Bits.zero (width - x.width))
    refine sound_some (keeps_two h hgraph hle₁ (.cons hliteral (.cons (ha.mono hle₁) .nil))
      htype.symm ?_ ?_)
    · rw [htype]
      simp [verifyNode, IrType.totalBits, hle]
    · rw [hv]
      show ok (LeafTree.leaf (Bits.concat [Bits.zero (width - x.width), x])) = _
      rw [concat_zero hle]
      rfl

end Canonicalization

end Xls

import Mathlib.Algebra.Group.TypeTags.Basic
import Xls.Reassociation.Subtracts

/-!
# Xls.Reassociation.Expressions

An expression of one associative operation keeps its value when it becomes a balanced tree
(`Sums.reassociateExpression`). Adds and products modulo a power of two are sums in a
commutative monoid, written additively also for the products; the leaves of an expression sum
up to its value.
-/

namespace Xls.Reassociation

open Interpreter List Bits Int
open Xls.Graph (Build World)
open Xls.Graph.World (ensures_pure ensures_bind ensures_get)

variable {env : Env} {args : List Value} {w : World env args} {b : ℚ} {k : Nat}

/-! ### Operations as sums -/

/-- On bits of the width `k` the operation is the sum of a commutative monoid. -/
structure Sums {M : Type} [AddCommMonoid M] (env : Env) (args : List Value) (kind : NodeKind)
    (k : Nat) (element : Bits → M) : Prop where
  inj : ∀ {x y}, x.width = k → y.width = k → element x = element y → x = y
  binary : ∀ {type ops v}, evalNode env args kind type ops = .ok v → ops.length = 2
  verify : ∀ params, verifyNode params kind [.bits k, .bits k] (.bits k) = true
  eval : ∀ {x y}, x.width = k → y.width = k → ∃ z, z.width = k ∧
    element z = element x + element y ∧
      evalNode env args kind (.bits k) [.leaf x, .leaf y] = .ok (.leaf z)

/-- Addition on the residues of the width. -/
theorem sums_add (env : Env) (args : List Value) (k : Nat) :
    Sums env args (.bin .add) k (residue k) where
  inj := eq_of_residue
  binary := by
    intro type ops v h
    rcases ops with _ | ⟨u, _ | ⟨v', _ | ⟨u', ops⟩⟩⟩
    · cases h
    · cases h
    · rfl
    · cases h
  verify := by
    intro params
    simp [verifyNode_bin, IrType.isBits]
  eval := by
    intro x y hx hy
    refine ⟨x.add y, hx, residue_add hx, ?_⟩
    change (checkThat (x.width == y.width) >>= fun _ => _) >>= _ = _
    rw [beq_iff_eq.2 (hx.trans hy.symm)]
    rfl

variable {x : Bits}

theorem residue_slice : residue k (x.slice 0 k) = (x.val : ZMod (2 ^ k)) := by
  unfold residue
  rw [slice_val, pow_zero, Nat.div_one]
  exact ZMod.natCast_mod x.val (2 ^ k)

/-- The signed value has the same residue. -/
theorem intCast_toInt (hx : x.width = k) : (x.toInt : ZMod (2 ^ k)) = residue k x := by
  unfold toInt residue
  rw [hx]
  split
  · rw [cast_natCast]
  · rw [cast_sub, cast_natCast, cast_natCast, natCast_two_pow, sub_zero]

theorem natCast_ofInt {n : Nat} (h : k ≤ n) (i : Int) :
    ((ofInt n i).val : ZMod (2 ^ k)) = (i : ZMod (2 ^ k)) := by
  have hcast := congrArg (Int.cast : Int → ZMod (2 ^ k)) (ofInt_val_cast n i)
  rw [cast_natCast] at hcast
  have hzero : ((2 ^ n : Nat) : ZMod (2 ^ k)) = 0 := by
    rw [ZMod.natCast_eq_zero_iff]
    exact pow_dvd_pow 2 h
  rw [hcast, emod_def, cast_sub, cast_mul, cast_natCast, hzero, zero_mul, sub_zero]

/-- Both products are the product of the residues when all widths agree. -/
theorem arithOp_residue (op : ArithOp) {y : Bits} (hx : x.width = k) (hy : y.width = k) :
    (arithOp op k x y).width = k ∧ residue k (arithOp op k x y) = residue k x * residue k y := by
  cases op with
  | smul =>
    have hval : ((x.smul y).val : ZMod (2 ^ k)) = residue k x * residue k y := by
      unfold Bits.smul
      rw [natCast_ofInt (by omega), cast_mul, intCast_toInt hx, intCast_toInt hy]
    unfold arithOp
    dsimp only
    rw [smul_width, hx, hy]
    split
    · exact ⟨rfl, residue_slice.trans hval⟩
    · rw [if_neg (by omega)]
      exact ⟨by rw [smul_width]; omega, hval⟩
  | umul =>
    have hval : ((x.umul y).val : ZMod (2 ^ k)) = residue k x * residue k y := by
      rw [umul_val, Nat.cast_mul]
      rfl
    unfold arithOp
    dsimp only
    rw [umul_width, hx, hy]
    split
    · exact ⟨rfl, residue_slice.trans hval⟩
    · rw [if_neg (by omega)]
      exact ⟨by rw [umul_width]; omega, hval⟩

/-- Multiplication on the residues of the width, as a sum in the other monoid. -/
theorem sums_arith (env : Env) (args : List Value) (op : ArithOp) (k : Nat) :
    Sums env args (.arith op) k fun x => Additive.ofMul (residue k x) where
  inj hx hy h := eq_of_residue hx hy (Additive.ofMul.injective h)
  binary := by
    intro type ops v h
    rcases ops with _ | ⟨u, _ | ⟨v', _ | ⟨u', ops⟩⟩⟩
    · cases h
    · cases h
    · rfl
    · cases h
  verify := by
    intro params
    simp [verifyNode, IrType.isBits]
  eval := by
    intro x y hx hy
    obtain ⟨hwidth, hres⟩ := arithOp_residue op hx hy
    refine ⟨arithOp op k x y, hwidth, ?_, rfl⟩
    rw [hres, ofMul_mul]

/-! ### Gathering the leaves -/

section Expression

variable {M : Type} {kind : NodeKind} {element : Bits → M}

/-- The node holds bits of the width `k` that stand for the element. -/
def HoldsElement (k : Nat) (element : Bits → M) (b : ℚ) (w : World env args) (id : Nat) (s : M) :
    Prop :=
  ∃ x, w.Holds b id x ∧ x.width = k ∧ element x = s

variable {id : Nat} {x : Bits}

theorem HoldsElement.weaken {b' : ℚ} {s : M} (hb : b ≤ b') (h : HoldsElement k element b w id s) :
    HoldsElement k element b' w id s := by
  obtain ⟨x, hx, hwidth, hs⟩ := h
  exact ⟨x, hx.weaken hb, hwidth, hs⟩

variable [AddCommMonoid M]

/-- Nodes made like the root combine the elements that they hold. -/
theorem Sums.combines (h : Sums env args kind k element) (b : ℚ) {root : Node}
    (hk : root.kind = kind) (ht : root.type = .bits k) :
    Combines (HoldsElement k element b : World env args → Nat → M → Prop) (cloneNode root) where
  mono := by
    rintro w w' i s hle ⟨x, hx, hwidth, hs⟩
    exact ⟨x, hx.mono hle, hwidth, hs⟩
  combine := by
    rintro w i j s t ⟨x, hx, hxw, rfl⟩ ⟨y, hy, hyw, rfl⟩
    obtain ⟨z, hzw, hz, heval⟩ := h.eval hxw hyw
    unfold cloneNode
    rw [hk, ht]
    have hverify := h.verify w.params
    refine (Graph.World.ensures_binary hx hy hzw (by rwa [hxw, hyw]) heval).imp
      fun w' id _ hid => ?_
    exact ⟨z, hid, hzw, hz⟩

/-- The two operands of an interior node. -/
theorem Sums.operands (h : Sums env args kind k element) (hx : w.Holds b id x) (hxw : x.width = k)
    {n : Node} (hn : w.graph.nodes[id]? = some n) (hk : n.kind = kind)
    (hsame : nodeAndOperandsSameType w.graph n = true) :
    ∃ i j y z, n.operands = [i, j] ∧ w.Holds (w.rank id) i y ∧ w.Holds (w.rank id) j z ∧
      y.width = k ∧ z.width = k ∧ element x = element y + element z := by
  obtain ⟨m, hm, ht⟩ := hx.node
  cases hn.symm.trans hm
  rw [hxw] at ht
  obtain ⟨ops, hops, heval⟩ := hx.eval hn
  rw [hk] at heval
  have hlen := (LeafTree.collect_eq_some.1 hops).length_eq
  rw [h.binary heval] at hlen
  obtain ⟨i, j, hij⟩ := length_eq_two.1 hlen
  obtain ⟨y, z, hy, hz, hyw, hzw⟩ := operands_of_sameType hn hij ht hsame
  refine ⟨i, j, y, z, hij, hy, hz, hyw, hzw, ?_⟩
  rw [hij, LeafTree.collect, LeafTree.collect, hy.value, hz.value] at hops
  cases hops
  obtain ⟨r, -, hr, heval'⟩ := h.eval hyw hzw
  rw [ht, heval'] at heval
  cases heval
  exact hr

/-- Gathering returns, and the leaves sum up to the value of the node. The leaves of an
interior node rank below it. -/
theorem Sums.gatherExpressionLeaves (h : Sums env args kind k element) {fuel : Nat}
    (hx : w.Holds b id x) (hxw : x.width = k) (hfuel : w.graph.below w.rank id < fuel) :
    ∃ leaves interior depth,
      gatherExpressionLeaves w.graph kind fuel id = .ok (leaves, interior, depth) ∧
      0 < leaves.length ∧ ∃ ss,
        Forall₂ (HoldsElement k element (if interior = [] then b else w.rank id) w) leaves ss ∧
        ss.sum = element x := by
  induction fuel generalizing b id x with
  | zero => exact absurd hfuel (Nat.not_lt_zero _)
  | succ fuel ih =>
    obtain ⟨n, hn, -⟩ := hx.node
    rw [Reassociation.gatherExpressionLeaves, hn, show derefOption (some n) = .ok n from rfl,
      Result.ok_bind]
    split
    · refine ⟨[id], [], 0, rfl, Nat.one_pos, [_], ?_, sum_singleton⟩
      rw [if_pos rfl]
      exact Forall₂.cons ⟨x, hx, hxw, rfl⟩ Forall₂.nil
    · rename_i hcond
      simp only [ne_eq, decide_not, Bool.or_eq_true, Bool.not_eq_true', decide_eq_false_iff_not,
        not_or, Decidable.not_not, Bool.not_eq_false] at hcond
      obtain ⟨i, j, y, z, hij, hy, hz, hyw, hzw, hval⟩ := h.operands hx hxw hn hcond.1 hcond.2
      have hlt : ∀ o, o ∈ [i, j] → w.graph.below w.rank o < fuel := by
        intro o ho
        rw [← hij] at ho
        have hbelow := Graph.below_lt (w.valuation.operand_lt hn ho) (w.ranked id n hn o ho)
        omega
      -- an operand with other uses is a leaf, the others are gathered from
      have hvisit : ∀ {o : Nat} {u : Bits}, w.Holds (w.rank id) o u → u.width = k →
          o ∈ [i, j] → ∃ leaves interior depth,
            (if w.graph.hasSingleUse o then do
                let r ← Reassociation.gatherExpressionLeaves w.graph kind fuel o
                return (r.1, r.2.1, 1 + r.2.2)
              else return ([o], [], 1) : Result (List Nat × List Nat × Nat)) =
              .ok (leaves, interior, depth) ∧
            0 < leaves.length ∧ ∃ ss,
              Forall₂ (HoldsElement k element (w.rank id) w) leaves ss ∧
              ss.sum = element u := by
        intro o u hu huw ho
        split
        · obtain ⟨leaves, interior, depth, hrun, hpos, ss, hss, hsum⟩ := ih hu huw (hlt o ho)
          refine ⟨leaves, interior, 1 + depth, by rw [hrun]; rfl, hpos, ss, ?_, hsum⟩
          refine hss.imp fun _ _ => HoldsElement.weaken ?_
          split
          · exact le_refl _
          · exact hu.rank.le
        · exact ⟨[o], [], 1, rfl, Nat.one_pos, [_],
            Forall₂.cons ⟨u, hu, huw, rfl⟩ Forall₂.nil, sum_singleton⟩
      obtain ⟨ls, is, d, hrun, hpos, ss, hss, hsum⟩ := hvisit hy hyw (by simp)
      obtain ⟨ls', is', d', hrun', -, ts, hts, hsum'⟩ := hvisit hz hzw (by simp)
      refine ⟨ls ++ ls', id :: (is ++ is'), max d d', ?_, ?_, ss ++ ts, ?_, ?_⟩
      · rw [hij]
        dsimp only
        rw [hrun, Result.ok_bind]
        dsimp only
        rw [hrun']
        rfl
      · rw [length_append]
        omega
      · rw [if_neg (cons_ne_nil _ _)]
        exact rel_append hss hts
      · rw [sum_append, hsum, hsum', hval]

/-- Replacing an expression keeps the values. -/
theorem Sums.reassociateExpression (h : Sums env args kind k element) (hx : w.Holds b id x)
    (hxw : x.width = k) {n : Node} (hn : w.graph.nodes[id]? = some n) (hk : n.kind = kind)
    {leaves interior : List Nat} {depth : Nat} (hpos : 0 < leaves.length) {ss : List M}
    (hsum : ss.sum = element x)
    (hss : Forall₂ (HoldsElement k element (if interior = [] then b else w.rank id) w) leaves ss) :
    w.Ensures (reassociateExpression id n leaves interior depth) fun _ _ => True := by
  obtain ⟨m, hm, ht⟩ := hx.node
  cases hn.symm.trans hm
  rw [hxw] at ht
  refine ensures_get fun w₁ h₁ => ?_
  split
  · exact ensures_pure fun _ _ => trivial
  · rename_i hgood
    have hne : interior ≠ [] := by
      rintro rfl
      exact hgood rfl
    rw [if_neg hne] at hss
    have hcombines := h.combines (w.rank id) hk ht
    refine ensures_bind (hcombines.buildTree w₁.graph hpos (hcombines.items_mono h₁ hss))
      fun w₂ root h₂ hroot => ?_
    obtain ⟨y, hy, hyw, hval⟩ := hroot
    rw [hsum] at hval
    rw [h.inj hyw hxw hval] at hy
    have hle := h₁.trans h₂
    rw [← hle.rank id hx.lt] at hy
    refine ensures_bind (Graph.World.ensures_replaceUsesWith (hx.mono hle) hy) fun _ _ _ _ => ?_
    exact ensures_pure fun _ _ => trivial

end Expression

end Xls.Reassociation

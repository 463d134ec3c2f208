import Xls.Reassociation.FullWidth

/-!
# Xls.Reassociation.Sound

The reassociation pass keeps the meaning of a function: whatever the order in which the nodes
are visited, the pass returns and every node of the function, the return value included, has
the same value in the graph that it leaves (`reassociation_preserves`).
-/

namespace Xls.Reassociation

open Interpreter List
open Xls.Graph (Build World)
open Xls.Graph.World (ensures_pure ensures_bind ensures_get ensures_lift)

variable {env : Env} {args : List Value} {w : World env args} {id : Nat} {n : Node}

theorem isBits_of_arith (hn : w.graph.nodes[id]? = some n) {op : ArithOp}
    (hk : n.kind = .arith op) : n.type.isBits = true := by
  obtain ⟨types, -, hverify⟩ := w.verified id n hn
  rw [hk] at hverify
  rcases types with _ | ⟨a, _ | ⟨b, _ | ⟨c, types⟩⟩⟩
  · cases hverify
  · cases hverify
  · simp only [verifyNode, Bool.and_eq_true] at hverify
    exact hverify.2
  · cases hverify

/-- An expression of one operation. -/
theorem expression_spec {M : Type} [AddCommMonoid M] {element : Bits → M} {x : Bits} {b : ℚ}
    (hx : w.Holds b id x) (hn : w.graph.nodes[id]? = some n)
    (h : Sums env args n.kind x.width element) :
    w.Ensures (do
      let (leaves, interior, depth) ←
        liftM (gatherExpressionLeaves w.graph n.kind (w.graph.nodes.length + 1) id)
      let replaced ← reassociateExpression id n leaves interior depth
      return (interior, replaced)) fun _ _ => True := by
  obtain ⟨leaves, interior, depth, hgather, hpos, ss, hss, hsum⟩ :=
    h.gatherExpressionLeaves hx rfl (Nat.lt_succ_of_le (Graph.below_le w.graph w.rank id))
  refine ensures_lift hgather ?_
  refine ensures_bind (h.reassociateExpression hx rfl hn rfl hpos hsum hss) fun _ _ _ _ => ?_
  exact ensures_pure fun _ _ => trivial

/-- A full-width addition. -/
theorem fullWidth_spec {op : ExtendOp} {x : Bits} {b : ℚ} (hx : w.Holds b id x)
    (hn : w.graph.nodes[id]? = some n) (hfull : fullWidthAddition w.graph n = some op) :
    w.Ensures (do
      let (leaves, interior, depth) ←
        liftM (gatherFullWidthAdditionLeaves w.graph op (w.graph.nodes.length + 1) id)
      let width ← Graph.bitCountOrDie id
      let replaced ← reassociateFullWidth id op width leaves interior depth
      return (interior, replaced)) fun _ _ => True := by
  obtain ⟨leaves, interior, depth, hgather, hpos, ss, hss, hsum⟩ :=
    gatherFullWidthAdditionLeaves_spec hx (le_refl x.width)
      (Nat.lt_succ_of_le (Graph.below_le w.graph w.rank id)) (.inr ⟨n, hn, hfull⟩)
  have hwidth : 0 < x.width := by
    obtain ⟨e, e', a, a', y, y', -, -, -, -, -, -, -, hlt, -⟩ := fullWidthAddition_spec hx hn hfull
    omega
  refine ensures_lift hgather ?_
  refine ensures_bind (Graph.World.ensures_bitCountOrDie hx) fun w₁ width h₁ hw => ?_
  subst hw
  refine ensures_bind ((reassociateFullWidth_spec hx hwidth hpos hsum hss).of_le h₁)
    fun _ _ _ _ => ?_
  exact ensures_pure fun _ _ => trivial

/-- Visiting a node keeps the values. -/
theorem reassociateNode_spec (hid : id < w.graph.nodes.length) :
    w.Ensures (reassociateNode id) fun _ _ => True := by
  refine ensures_get fun w₁ h₁ => ?_
  obtain ⟨n, hn⟩ : ∃ n, w₁.graph.nodes[id]? = some n :=
    ⟨_, getElem?_eq_getElem (lt_of_lt_of_le hid h₁.length)⟩
  have hderef : derefOption w₁.graph.nodes[id]? = .ok n := by
    rw [hn]
    rfl
  refine ensures_lift hderef ?_
  split
  · exact ensures_pure fun _ _ => trivial
  · rename_i hkind
    split
    · rename_i op hfull
      have hbits : n.type.isBits = true := by
        have hadd : n.kind = .bin .add := by
          unfold fullWidthAddition at hfull
          split at hfull
          · assumption
          · cases hfull
        exact isBits_of_bin hn hadd
      obtain ⟨x, hx⟩ := holds_of_verified hn hbits
      exact fullWidth_spec hx hn hfull
    · cases hk : n.kind with
      | bin op =>
        have hadd : op = .add := by
          cases op <;> first
            | rfl
            | simp [hk, isReassociated] at hkind
        subst hadd
        obtain ⟨x, hx⟩ := holds_of_verified hn (isBits_of_bin hn hk)
        have hspec := expression_spec hx hn (hk ▸ sums_add env args x.width)
        rwa [hk] at hspec
      | arith op =>
        obtain ⟨x, hx⟩ := holds_of_verified hn (isBits_of_arith hn hk)
        have hspec := expression_spec hx hn (hk ▸ sums_arith env args op x.width)
        rwa [hk] at hspec
      | _ => simp [hk, isReassociated] at hkind

/-- Every step of the loop keeps the values. -/
theorem reassociate_spec {order visited : List Nat} {changed : Bool}
    (horder : ∀ id ∈ order, id < w.graph.nodes.length) :
    w.Ensures (reassociate order visited changed) fun _ _ => True := by
  induction order generalizing w visited changed with
  | nil => exact ensures_pure fun _ _ => trivial
  | cons id order ih =>
    rw [forall_mem_cons] at horder
    unfold reassociate
    split
    · exact ih horder.2
    · refine ensures_bind (reassociateNode_spec horder.1) fun w₁ r h₁ _ => ?_
      exact ih fun i hi => lt_of_lt_of_le (horder.2 i hi) h₁.length

/-- The pass keeps all values whatever the order of the nodes is. -/
theorem runOnFunctionBase_spec (order : (g : Graph) → List (Fin g.nodes.length)) :
    w.Ensures (runOnFunctionBase order) fun _ _ => True := by
  have hlt : ∀ g : Graph, ∀ id ∈ (order g).map Fin.val, id < g.nodes.length := by
    intro g id hid
    obtain ⟨i, -, rfl⟩ := mem_map.1 hid
    exact i.isLt
  refine ensures_get fun w₁ h₁ => ?_
  refine ensures_bind (reassociateSubtracts_spec (hlt w₁.graph)) fun w₂ _ _ _ => ?_
  refine ensures_get fun w₃ h₃ => ?_
  refine ensures_bind (reassociate_spec (hlt w₃.graph)) fun w₄ _ _ _ => ?_
  exact ensures_pure fun _ _ => trivial

/-- The pass returns on every function and for every order of its traversals. For every
assignment of the inputs, the graph that it leaves passes the verifier, has no cycle and
has one valuation, in which every node of the function keeps its type and its value, and
the return value is that of the function. -/
theorem reassociation_preserves (order : (g : Graph) → List (Fin g.nodes.length)) (f : Function)
    (env : Env) (args vals : List Value) (hrun : run env f args = .ok vals) :
    ∃ changed g' vals', runOnFunctionBase order f.graph = .ok (changed, g') ∧
      g'.Verified f.params ∧ g'.Valuation env args vals' ∧
      (∀ other, g'.Valuation env args other → other = vals') ∧
      f.nodes.map Node.type <+: g'.nodes.map Node.type ∧ vals <+: vals' ∧
      vals'[g'.returnValue]? = vals[f.returnValue]? := by
  have hspec := runOnFunctionBase_spec (w := World.ofRun hrun) order
  obtain ⟨changed, w', hpass, hle, -⟩ := hspec _ (le_refl _)
  have hlen : vals.length = f.nodes.length := (Graph.valuation_of_run hrun).length_eq
  obtain ⟨v, hv⟩ : ∃ v, vals[f.returnValue]? = some v :=
    ⟨_, getElem?_eq_getElem (by rw [hlen]; exact f.returnValue_lt)⟩
  have hverified := w'.verified
  rw [hle.params] at hverified
  refine ⟨changed, w'.graph, w'.vals, hpass, hverified, w'.valuation, ?_, hle.types, hle.vals, ?_⟩
  · intro other hother
    exact hother.unique w'.ranked w'.valuation
  · rw [hv]
    exact hle.returns v hv

/-- The sum of four numbers of four bits as a chain of full-width additions. -/
def sumOfFour : Function where
  params := [.bits 4, .bits 4, .bits 4, .bits 4]
  nodes := [⟨.param 0, [], .bits 4⟩, ⟨.param 1, [], .bits 4⟩, ⟨.param 2, [], .bits 4⟩,
    ⟨.param 3, [], .bits 4⟩,
    ⟨.extend .zeroExt 5, [0], .bits 5⟩, ⟨.extend .zeroExt 5, [1], .bits 5⟩,
    ⟨.bin .add, [4, 5], .bits 5⟩,
    ⟨.extend .zeroExt 6, [6], .bits 6⟩, ⟨.extend .zeroExt 6, [2], .bits 6⟩,
    ⟨.bin .add, [7, 8], .bits 6⟩,
    ⟨.extend .zeroExt 7, [9], .bits 7⟩, ⟨.extend .zeroExt 7, [3], .bits 7⟩,
    ⟨.bin .add, [10, 11], .bits 7⟩]
  returnValue := 12
  verified := by decide
  returnValue_lt := by decide

/-- The chain becomes a balanced tree with the same sum. -/
theorem reassociation_preserves_sumOfFour : ∃ changed g' vals',
    runOnFunctionBase (fun g => (finRange g.nodes.length).reverse) sumOfFour.graph =
      .ok (changed, g') ∧
    g'.Valuation (packageEnv []) (replicate 4 (.leaf (Bits.ofNat 4 15))) vals' ∧
    vals'[g'.returnValue]? = some (.leaf (Bits.ofNat 7 60)) := by
  have hrun : ∃ vals, run (packageEnv []) sumOfFour
      (replicate 4 (.leaf (Bits.ofNat 4 15))) = .ok vals ∧
        vals[12]? = some (.leaf (Bits.ofNat 7 60)) := ⟨_, rfl, rfl⟩
  obtain ⟨vals, hrun, hsum⟩ := hrun
  obtain ⟨changed, g', vals', hpass, -, hvaluation, -, -, -, hreturn⟩ :=
    reassociation_preserves (fun g => (finRange g.nodes.length).reverse) sumOfFour _ _ _ hrun
  exact ⟨changed, g', vals', hpass, hvaluation, hreturn.trans hsum⟩

end Xls.Reassociation

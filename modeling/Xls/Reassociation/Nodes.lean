import Mathlib.Data.ZMod.Basic
import Xls.BitsOps.Exact
import Xls.Reassociation.Tree

/-!
# Xls.Reassociation.Nodes

The nodes that the pass reads and makes, in terms of their values: what the value of an
add, a subtract, a product or an extension says of its operands, and what a new node is
worth.
-/

namespace Xls

open Interpreter LeafTree Option
open Xls.Graph (Build World)

namespace Graph.World

variable {env : Env} {args : List Value} {w : World env args} {b : ℚ}

/-! ### Reading nodes -/

variable {i : Nat} {x : Bits} {n : Node} {v : Value} {j : Nat} {y : Bits}

theorem conforms (hn : w.graph.nodes[i]? = some n) (hv : w.vals[i]? = some v) :
    v.Conforms n.type := by
  obtain ⟨ops, v', -, hv', hint⟩ := w.valuation.node i n hn
  cases hv.symm.trans hv'
  obtain ⟨u, -, hconf⟩ := Result.bind_eq_ok.1 hint
  split at hconf
  · cases hconf
    assumption
  · cases hconf

/-- The value of a node has its type. -/
theorem Has.conforms {t : IrType} (h : w.Has b i t v) : v.Conforms t := by
  obtain ⟨n, hn, rfl⟩ := map_eq_some_iff.1 h.type
  exact World.conforms hn h.value

/-- A node of a bits type holds bits. -/
theorem holds_of_type {k : Nat} (ht : w.graph.nodes[i]?.map Node.type = some (.bits k))
    (hrank : w.rank i < b) : ∃ x, x.width = k ∧ w.Holds b i x := by
  rw [map_eq_some_iff] at ht
  obtain ⟨n, hn, ht⟩ := ht
  obtain ⟨ops, v, -, hv, -⟩ := w.valuation.node i n hn
  have hconf := conforms hn hv
  rw [ht] at hconf
  obtain ⟨x, rfl, hx⟩ := Value.conforms_bits hconf
  exact ⟨x, hx, by rw [hn, map_some, ht, hx], hv, hrank⟩

theorem Holds.weaken {b' : ℚ} (h : w.Holds b i x) (hb : b ≤ b') : w.Holds b' i x :=
  ⟨h.type, h.value, lt_of_lt_of_le h.rank hb⟩

/-- The node of a position that holds bits. -/
theorem Holds.node (h : w.Holds b i x) :
    ∃ n, w.graph.nodes[i]? = some n ∧ n.type = .bits x.width := by
  have ht := h.type
  rw [map_eq_some_iff] at ht
  exact ht

/-- What the interpreter computed for a node that holds bits. -/
theorem Holds.eval (h : w.Holds b i x) (hn : w.graph.nodes[i]? = some n) : ∃ ops,
      collect (fun o => w.vals[o]?) n.operands = some ops ∧
        evalNode env args n.kind n.type ops = .ok (.leaf x) := by
  obtain ⟨ops, v, hops, hv, hint⟩ := w.valuation.node i n hn
  cases h.value.symm.trans hv
  obtain ⟨u, hu, hconf⟩ := Result.bind_eq_ok.1 hint
  split at hconf
  · cases hconf
    exact ⟨ops, hops, hu⟩
  · cases hconf

theorem ensures_getNode_of_has {t : IrType} (h : w.Has b i t v) :
    w.Ensures (getNode i) fun w' n => w'.graph.nodes[i]? = some n ∧ n.type = t := by
  intro w₁ h₁
  obtain ⟨n, hn, ht⟩ := map_eq_some_iff.1 (h.mono h₁).type
  refine ⟨n, w₁, ?_, le_refl w₁, hn, ht⟩
  unfold getNode
  rw [hn]
  rfl

theorem ensures_getNode (h : w.Holds b i x) :
    w.Ensures (getNode i) fun w' n => w'.graph.nodes[i]? = some n ∧ n.type = .bits x.width :=
  ensures_getNode_of_has h.has

theorem ensures_bitCountOrDie (h : w.Holds b i x) :
    w.Ensures (bitCountOrDie i) fun _ k => k = x.width := by
  refine ensures_bind (ensures_getNode h) fun w' n hle hn => ?_
  rw [hn.2]
  exact ensures_pure fun _ _ => rfl

/-! ### Making nodes -/

/-- A new node of a bits type holds what the interpreter computes for it. -/
theorem ensures_makeBits {ops : List Value} {z : Bits} {types : List IrType}
    (htypes : operandTypes w.graph.nodes n.operands = some types)
    (hverify : verifyNode w.params n.kind types n.type = true) (ht : n.type = .bits z.width)
    (hops : collect (fun o => w.vals[o]?) n.operands = some ops)
    (hv : evalNode env args n.kind n.type ops = .ok (.leaf z))
    (hrank : ∀ o ∈ n.operands, w.rank o < b) :
    w.Ensures (makeNode n) fun w' id => w'.Holds b id z := by
  have hint : Interpreter.interpretNode env args n ops = .ok (.leaf z) := by
    unfold Interpreter.interpretNode
    rw [hv, Result.ok_bind, if_pos]
    · rfl
    · rw [ht]
      exact (rfl : z.width = z.width)
  refine (ensures_makeNode htypes hverify hops hint hrank).imp fun w' id _ h => ⟨?_, h.2.1, h.2.2⟩
  rw [h.1, ht]

theorem ensures_literal (z : Bits) (b : ℚ) :
    w.Ensures (makeNode ⟨.literal (.leaf z), [], .bits z.width⟩) fun w' id => w'.Holds b id z :=
  ensures_makeBits rfl (decide_eq_true (Value.conforms_leaf_bits.2 rfl)) rfl rfl rfl (by simp)

/-- The value of an extension. -/
def extended (op : ExtendOp) (k : Nat) (x : Bits) : Bits :=
  match op with
  | .signExt => x.signExtend k
  | .zeroExt => x.zeroExtend k

/-- An extension node holds the extended value. -/
theorem ensures_extend {i k : Nat} {x : Bits} {op : ExtendOp} (h : w.Holds b i x)
    (hk : x.width ≤ k) (hop : op = .zeroExt ∨ 0 < x.width) :
    w.Ensures (makeNode ⟨.extend op k, [i], .bits k⟩) fun w' id =>
      w'.Holds b id (extended op k x) := by
  have hwidth : (extended op k x).width = k := by
    cases op <;> rfl
  have hcollect : collect (fun o => w.vals[o]?) [i] = some [.leaf x] := by
    rw [collect, h.value]
    rfl
  have heval : evalNode env args (.extend op k) (.bits k) [.leaf x] =
      .ok (.leaf (extended op k x)) := by
    unfold evalNode
    change (extendOp op k x >>= fun r => pure (LeafTree.leaf r)) = _
    unfold extendOp
    rw [decide_eq_true hk]
    cases op <;> rfl
  have htypes : operandTypes w.graph.nodes [i] = some [.bits x.width] := by
    unfold operandTypes
    rw [collect, h.type]
    rfl
  have hverify : verifyNode w.params (.extend op k) [.bits x.width] (.bits k) = true := by
    rcases hop with rfl | hop
    · simp [verifyNode, hk]
    · simp [verifyNode, hk, hop]
  refine ensures_makeBits htypes hverify (by rw [hwidth]) hcollect heval ?_
  intro o ho
  rw [List.mem_singleton.1 ho]
  exact h.rank

section

variable (hi : w.Holds b i x) (hj : w.Holds b j y)
include hi hj

/-- A node with two operands that hold bits. -/
theorem ensures_binary {kind : NodeKind} {k : Nat} {z : Bits} (hz : z.width = k)
    (hverify : verifyNode w.params kind [.bits x.width, .bits y.width] (.bits k) = true)
    (heval : evalNode env args kind (.bits k) [.leaf x, .leaf y] = .ok (.leaf z)) :
    w.Ensures (makeNode ⟨kind, [i, j], .bits k⟩) fun w' id => w'.Holds b id z := by
  have hcollect : collect (fun o => w.vals[o]?) [i, j] = some [.leaf x, .leaf y] := by
    rw [collect, collect, hi.value, hj.value]
    rfl
  have htypes : operandTypes w.graph.nodes [i, j] = some [.bits x.width, .bits y.width] := by
    unfold operandTypes
    rw [collect, collect, hi.type, hj.type]
    rfl
  refine ensures_makeBits htypes hverify (by rw [hz]) hcollect heval ?_
  intro o ho
  rcases List.mem_pair.1 ho with rfl | rfl
  · exact hi.rank
  · exact hj.rank

theorem ensures_add (hxy : x.width = y.width) :
    w.Ensures (Reassociation.makeBinOp .add i j) fun w' id => w'.Holds b id (x.add y) := by
  refine ensures_bind (ensures_getNode hi) fun w' n hle hn => ?_
  rw [hn.2]
  refine ensures_binary (hi.mono hle) (hj.mono hle) rfl
    (by simp [verifyNode_bin, hxy, IrType.isBits]) ?_
  change (checkThat (x.width == y.width) >>= fun _ => _) >>= _ = _
  rw [beq_iff_eq.2 hxy]
  rfl

theorem ensures_sub (hxy : x.width = y.width) :
    w.Ensures (Reassociation.makeBinOp .sub i j) fun w' id => w'.Holds b id (x.sub y) := by
  refine ensures_bind (ensures_getNode hi) fun w' n hle hn => ?_
  rw [hn.2]
  refine ensures_binary (hi.mono hle) (hj.mono hle) rfl
    (by simp [verifyNode_bin, hxy, IrType.isBits]) ?_
  change (checkThat (x.width == y.width) >>= fun _ => _) >>= _ = _
  rw [beq_iff_eq.2 hxy]
  rfl

end

end Graph.World

end Xls

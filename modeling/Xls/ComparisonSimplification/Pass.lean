import Xls.ComparisonSimplification.Equivalences
import Xls.Graph.Changes

/-!
# Xls.ComparisonSimplification.Pass

The replacements of the pass. A node with an exact equivalence is replaced by a node with its
value; a derived comparison is worth the comparison that stands before it in topological
order, or its negation. The whole pass returns and only makes changes that keep values
(`comparisonSimplification_sound`).
-/

namespace Xls

open Interpreter Bits IntervalSet Canonicalization List
open Graph (World Changes)
open Graph.World

namespace ComparisonSimplification

open Canonicalization (At Operands exists_at)

variable {env : Env} {args : List Value} {w : World env args} {id : Nat}

/-! ### Replacements by equivalences -/

theorem leads_done {c : Graph.Build Unit} {a : Bool} (h : w.Leads c fun _ _ => True) :
    w.Leads (c >>= fun _ => pure a) fun _ _ => True :=
  leads_bind h fun _ _ _ _ => leads_pure trivial

variable {b : ℚ} {equivalences : Equivalences} {r : Bool} {comparisons : List (Comparison × Nat)}

theorem leads_replaceWithLiteral {z : Bits} (hid : w.Holds b id z) :
    w.Leads (replaceWithLiteral id z) fun _ _ => True := by
  refine leads_bind (leads_makeNode (ensures_literal z (w.rank id))) fun w' literal hle h => ?_
  rw [← hle.rank id hid.lt] at h
  exact leads_replaceUsesWith (hid.mono hle).has h.has

variable {x : Bits} {e : RangeEquivalence} {w' : World env args} {order : List Nat}

theorem ensures_compare {op : CompareOp} {i j : Nat} {y : Bits} (hi : w.Holds b i x)
    (hj : w.Holds b j y) (hwidth : x.width = y.width) :
    w.Ensures (Graph.makeNode ⟨.compare op, [i, j], .bits 1⟩) fun w' new =>
      w'.Holds b new (Bits.ofBool (compareBits op x y)) := by
  refine ensures_binary hi hj rfl ?_ ?_
  · rw [hwidth]
    exact verifyNode_compare w.params op _
  · exact evalNode_compare (compareOp_leaf op x y)

theorem leads_replaceWithCompare {op : CompareOp} {node : Nat} {value : Bits}
    (hid : w.Holds b id (Bits.ofBool (compareBits op x value)))
    (hnode : w.Holds (w.rank id) node x) (hwidth : x.width = value.width) :
    w.Leads (replaceWithCompare id node value op) fun _ _ => True := by
  refine leads_bind (leads_makeNode (ensures_literal value (w.rank id)))
    fun w₁ literal h₁ hliteral => ?_
  refine leads_bind (leads_makeNode (ensures_compare (hnode.mono h₁) hliteral hwidth))
    fun w₂ compare h₂ hcompare => ?_
  have hle := h₁.trans h₂
  rw [← hle.rank id hid.lt] at hcompare
  exact leads_replaceUsesWith (hid.mono hle).has hcompare.has

/-- A range of one point is the comparison with it. -/
theorem holds_eq_compare {value : Nat} (hwidth : x.width = e.width)
    (hcovers : ∀ y, e.range.Covers y ↔ y = value) :
    e.holds x.val = compareBits .eq x (Bits.ofNat e.width value) := by
  have hvalue := ((hcovers value).2 rfl).lt
  refine decide_eq_decide.2 ((hcovers x.val).trans ?_)
  rw [ext_iff', ofNat_width, ofNat_val, Nat.mod_eq_of_lt hvalue]
  exact ⟨fun hx => ⟨hwidth, hx⟩, fun hx => hx.2⟩

/-- A range that leaves out one point is the comparison with it. -/
theorem holds_ne_compare {value : Nat} (hwidth : x.width = e.width)
    (hcovers : ∀ y, e.range.complement.Covers y ↔ y = value) :
    e.holds x.val = compareBits .ne x (Bits.ofNat e.width value) := by
  have hlt : x.val < 2 ^ e.width := by
    rw [← hwidth]
    exact x.isLt
  have hvalue := ((hcovers value).2 rfl).lt
  have hiff : x = Bits.ofNat e.width value ↔ ¬e.range.Covers x.val := by
    rw [← covers_complement hlt, hcovers, ext_iff', ofNat_width, ofNat_val, Nat.mod_eq_of_lt hvalue]
    exact ⟨fun hx => hx.2, fun hx => ⟨hwidth, hx⟩⟩
  show decide (e.range.Covers x.val) = !decide (x = Bits.ofNat e.width value)
  rw [decide_eq_decide.2 hiff, decide_not, Bool.not_not]

/-- The complement of a range that is not maximal has a point. -/
theorem isEmpty_complement {n : Nat} {s : IntervalSet n} (h : ¬s.isMaximal = true) :
    s.complement.isEmpty = false := by
  rw [← Bool.not_eq_true, isEmpty_iff_forall]
  intro hnone
  refine h (isMaximal_iff.2 fun y hy => ?_)
  by_contra hnot
  exact hnone y ((covers_complement hy).2 hnot)

/-- A node with an exact equivalence is replaced by one of the same value, whichever of the
sets is recognized. -/
theorem leads_simplifyNode (h : Exact w id e x) : w.Leads (simplifyNode id e) fun _ _ => True := by
  have hlt : x.val < 2 ^ e.width := by
    rw [← h.width]
    exact x.isLt
  -- the node is the comparison of the other node that decides the range
  have hreplace : ∀ {op : CompareOp} {value : Bits}, value.width = e.width →
      e.holds x.val = compareBits op x value →
        w.Leads (replaceWithCompare id e.node value op >>= fun _ => pure true)
          fun _ _ => True := by
    intro op value hwidth hholds
    have hid := h.node
    rw [hholds] at hid
    exact leads_done (leads_replaceWithCompare hid h.other (h.width.trans hwidth.symm))
  have hkeep : ∀ {a : Bool}, w.Leads (pure a) fun _ _ => True := leads_pure trivial
  obtain ⟨n, hn⟩ : ∃ n, w.graph.nodes[id]? = some n :=
    ⟨_, getElem?_eq_getElem h.node.lt⟩
  unfold simplifyNode
  refine leads_get (leads_getNode hn ?_)
  split
  · rename_i hmaximal
    have hholds : e.holds x.val = true :=
      decide_eq_true (isMaximal_iff.1 hmaximal x.val hlt)
    have hid := h.node
    rw [hholds] at hid
    exact leads_done (leads_replaceWithLiteral hid)
  · rename_i hmaximal
    split
    · rename_i hempty
      have hholds : e.holds x.val = false :=
        decide_eq_false (isEmpty_iff_forall.1 hempty x.val)
      have hid := h.node
      rw [hholds] at hid
      exact leads_done (leads_replaceWithLiteral hid)
    · rename_i hempty
      rw [Bool.not_eq_true] at hempty
      obtain ⟨o, ho, hprecise⟩ := getPreciseValue_spec hempty
      refine leads_lift ho ?_
      cases o with
      | some value =>
        dsimp only
        split
        · exact hkeep
        · exact hreplace rfl (holds_eq_compare h.width (hprecise value rfl))
      | none =>
        obtain ⟨o', ho', hprecise'⟩ :=
          getPreciseValue_spec (isEmpty_complement hmaximal)
        refine leads_lift ho' ?_
        cases o' with
        | some value =>
          dsimp only
          split
          · exact hkeep
          · exact hreplace rfl (holds_ne_compare h.width (hprecise' value rfl))
        | none =>
          dsimp only
          split
          · rename_i limit hlimit
            obtain ⟨hwidth, hcovers⟩ := getULtInterval_spec hlimit
            split
            · exact hkeep
            · exact hreplace hwidth (decide_eq_decide.2 (hcovers x.val))
          · split
            · rename_i limit hlimit
              obtain ⟨hwidth, hcovers⟩ := getUGtInterval_spec hlimit
              split
              · exact hkeep
              · exact hreplace hwidth (decide_eq_decide.2 (hcovers x.val hlt))
            · exact hkeep

theorem AllExact.mono (h : AllExact w equivalences) (hle : w ≤ w') : AllExact w' equivalences := by
  intro id e hlookup
  obtain ⟨x, hx⟩ := h id e hlookup
  exact ⟨x, hx.mono hle⟩

theorem leads_simplifyNodes (order : List Nat) (h : AllExact w equivalences) :
    w.Leads (simplifyNodes equivalences order) fun _ _ => True := by
  refine leads_foldlM (I := fun _ w _ => AllExact w equivalences) ?_ h |>.imp ?_
  · intro id rest w changed h
    split
    · exact leads_pure h
    · rename_i e hlookup
      obtain ⟨x, hx⟩ := h id e hlookup
      exact leads_bind (leads_simplifyNode hx) fun w' _ hle _ => leads_pure (h.mono hle)
  · exact fun _ _ _ _ => trivial

/-! ### Derived comparisons -/

/-- A comparison inverted. -/
theorem compareBits_invert (op : CompareOp) (x y : Bits) :
    compareBits op.invert x y = !compareBits op x y := by
  cases op with
  | eq => rfl
  | sle => rfl
  | slt => rfl
  | uge =>
    show x.ult y = !y.ule x
    rw [← not_ult, Bool.not_not]
  | ugt => exact (not_ult y x).symm
  | ule =>
    show y.ult x = !x.ule y
    rw [← not_ult, Bool.not_not]
  | ult => exact (not_ult x y).symm
  | _ => exact (Bool.not_not _).symm

/-- Inverting a comparison of values inverts the answer. -/
theorem compareOp_invert (op : CompareOp) {u u' : Value} (h : compareOp op u u' = .ok r) :
    compareOp op.invert u u' = .ok (!r) := by
  have hordered : ∀ op : CompareOp, (do
      let x ← u.bits
      let y ← u'.bits
      return compareBits op x y : Result Bool) = .ok r → (do
      let x ← u.bits
      let y ← u'.bits
      return compareBits op.invert x y : Result Bool) = .ok (!r) := by
    intro op h
    obtain ⟨x, hx, h⟩ := Result.bind_eq_ok.1 h
    obtain ⟨y, hy, h⟩ := Result.bind_eq_ok.1 h
    rw [hx, Result.ok_bind, hy, Result.ok_bind, compareBits_invert]
    cases h
    rfl
  cases op with
  | eq =>
    cases h
    rfl
  | ne =>
    cases h
    exact congrArg Except.ok (Bool.not_not _).symm
  | _ => exact hordered _ h

/-- An entry of the map: a comparison with its operands and its value. -/
structure Compares (w : World env args) (key : Comparison) (id : Nat) (u u' : Value) (r : Bool) :
    Prop where
  lhs : w.vals[key.lhs]? = some u
  rhs : w.vals[key.rhs]? = some u'
  compare : compareOp key.op u u' = .ok r
  node : w.Holds (w.rank id + 1) id (Bits.ofBool r)

/-- The comparisons in the map stand before the nodes to come, which come in order. -/
structure Derives (order : List Nat) (w : World env args) (comparisons : List (Comparison × Nat)) :
    Prop where
  valid : ∀ id ∈ order, id < w.graph.nodes.length
  sorted : order.Pairwise fun i j => w.rank i < w.rank j
  compares : ∀ key id, comparisons.lookup key = some id → ∃ u u' r, Compares w key id u u' r
  before : ∀ key id, comparisons.lookup key = some id → ∀ j ∈ order, w.rank id < w.rank j

theorem Compares.mono {key : Comparison} {u u' : Value} (h : Compares w key id u u' r)
    (hle : w ≤ w') : Compares w' key id u u' r where
  lhs := getElem?_of_prefix hle.vals h.lhs
  rhs := getElem?_of_prefix hle.vals h.rhs
  compare := h.compare
  node := by
    rw [hle.rank id h.node.lt]
    exact h.node.mono hle

/-- What was derived stays derived when nodes are appended. -/
theorem Derives.mono (h : Derives order w comparisons) (hle : w ≤ w') :
    Derives order w' comparisons where
  valid := fun id hid => lt_of_lt_of_le (h.valid id hid) hle.length
  sorted := by
    refine h.sorted.imp_of_mem fun {i j} hi hj hlt => ?_
    rw [hle.rank i (h.valid i hi), hle.rank j (h.valid j hj)]
    exact hlt
  compares := by
    intro key id hlookup
    obtain ⟨u, u', r, hat⟩ := h.compares key id hlookup
    exact ⟨u, u', r, hat.mono hle⟩
  before := by
    intro key id hlookup j hj
    obtain ⟨u, u', r, hat⟩ := h.compares key id hlookup
    rw [hle.rank id hat.node.lt, hle.rank j (h.valid j hj)]
    exact h.before key id hlookup j hj

theorem Derives.tail {id : Nat} {order : List Nat} {comparisons : List (Comparison × Nat)}
    (h : Derives (id :: order) w comparisons) : Derives order w comparisons where
  valid := (forall_mem_cons.1 h.valid).2
  sorted := (pairwise_cons.1 h.sorted).2
  compares := h.compares
  before := fun key id hlookup j hj => h.before key id hlookup j (mem_cons_of_mem _ hj)

/-- A comparison that was not derived is a new entry. -/
theorem Derives.cons {id : Nat} {order : List Nat} {comparisons : List (Comparison × Nat)}
    (h : Derives (id :: order) w comparisons) {key : Comparison} {u u' : Value} {r : Bool}
    (hat : Compares w key id u u' r) : Derives order w ((key, id) :: comparisons) where
  valid := h.tail.valid
  sorted := h.tail.sorted
  compares := by
    intro key' id' hlookup
    rw [lookup_cons] at hlookup
    by_cases hsame : key' = key
    · rw [beq_iff_eq.2 hsame] at hlookup
      cases hlookup
      rw [hsame]
      exact ⟨u, u', r, hat⟩
    · rw [beq_eq_false_iff_ne.2 hsame] at hlookup
      exact h.compares key' id' hlookup
  before := by
    intro key' id' hlookup
    rw [lookup_cons] at hlookup
    by_cases hsame : key' = key
    · rw [beq_iff_eq.2 hsame] at hlookup
      cases hlookup
      exact (pairwise_cons.1 h.sorted).1
    · rw [beq_eq_false_iff_ne.2 hsame] at hlookup
      exact h.tail.before key' id' hlookup

/-- A node is replaced by the negation of the inverted comparison. -/
theorem leads_replaceWithNot {inverted : Nat} (hid : w.Holds b id (Bits.ofBool r))
    (hinverted : w.Holds (w.rank id) inverted (Bits.ofBool !r)) :
    w.Leads (replaceWithNot id inverted) fun _ _ => True := by
  obtain ⟨n, hn, htype⟩ := hinverted.node
  refine leads_getNode hn ?_
  rw [htype]
  have hoperands : Operands w (w.rank id) [inverted] [.bits 1] [.leaf (Bits.ofBool !r)] :=
    .cons hinverted.has .nil
  have hnot : w.Ensures (Graph.makeNode ⟨.un .not, [inverted], .bits 1⟩) fun w' new =>
      w'.Holds (w.rank id) new (Bits.ofBool !r).not :=
    ensures_makeBits hoperands.types rfl rfl hoperands.values rfl hoperands.rank
  refine leads_bind (leads_makeNode hnot) fun w' new hle hnew => ?_
  rw [not_ofBool, Bool.not_not, ← hle.rank id hid.lt] at hnew
  exact leads_replaceUsesWith (hid.mono hle).has hnew.has

/-- One node of the loop. -/
theorem leads_deriveComparison {changed : Bool} (h : Derives (id :: order) w comparisons) :
    w.Leads (deriveComparison changed comparisons id) fun w' out => Derives order w' out.2 := by
  have hid := (forall_mem_cons.1 h.valid).1
  obtain ⟨n, hn⟩ : ∃ n, w.graph.nodes[id]? = some n := ⟨_, getElem?_eq_getElem hid⟩
  unfold deriveComparison
  refine leads_getNode hn ?_
  split
  · rename_i op lhs rhs hkind hoperands
    obtain ⟨t, u, u', r, hat, hlhs, hrhs, htype, hcompare⟩ :=
      exists_compare hn hkind hoperands
    have hnode : w.Holds (w.rank id + 1) id (Bits.ofBool r) := by
      have hhas := hat.has
      rw [htype] at hhas
      exact hhas.holds
    -- an earlier comparison of the same operands, in this order or the other
    have hearlier : ∀ {key : Comparison} {earlier : Nat}, comparisons.lookup key = some earlier →
        ∀ {v v' : Value} {s : Bool}, w.vals[key.lhs]? = some v → w.vals[key.rhs]? = some v' →
          compareOp key.op v v' = .ok s →
            w.Holds (w.rank id) earlier (Bits.ofBool s) := by
      intro key earlier hlookup v v' s hv hv' hs
      obtain ⟨a, a', r', hentry⟩ := h.compares key earlier hlookup
      have ha := hentry.lhs
      rw [hv] at ha
      cases ha
      have ha' := hentry.rhs
      rw [hv'] at ha'
      cases ha'
      have hr := hentry.compare
      rw [hs] at hr
      cases hr
      exact ⟨hentry.node.type, hentry.node.value, h.before key earlier hlookup id mem_cons_self⟩
    have hreverse := compareOp_reverse op hcompare
    have hdone : ∀ {c : Graph.Build Unit}, w.Leads c (fun _ _ => True) →
        w.Leads (c >>= fun _ => pure (true, comparisons)) fun w' out => Derives order w' out.2 :=
      fun hc => leads_bind hc fun w' _ hle _ => leads_pure (h.tail.mono hle)
    dsimp only
    split
    · rename_i equivalent hlookup
      exact hdone (leads_replaceUsesWith hnode.has
        (hearlier hlookup hrhs.value hlhs.value hreverse).has)
    · split
      · rename_i inverted hlookup
        exact hdone (leads_replaceWithNot hnode
          (hearlier hlookup hlhs.value hrhs.value (compareOp_invert op hcompare)))
      · split
        · rename_i inverted hlookup
          exact hdone (leads_replaceWithNot hnode
            (hearlier hlookup hrhs.value hlhs.value (compareOp_invert op.reverse hreverse)))
        · exact leads_pure (h.cons ⟨hlhs.value, hrhs.value, hcompare, hnode⟩)
  · exact leads_pure h.tail

theorem leads_transformDerivedComparisons (hvalid : ∀ id ∈ order, id < w.graph.nodes.length)
    (hsorted : order.Pairwise fun i j => w.rank i < w.rank j) :
    w.Leads (transformDerivedComparisons order) fun _ _ => True := by
  have hstart : Derives order w [] :=
    ⟨hvalid, hsorted, fun _ _ h => (nomatch h), fun _ _ h => (nomatch h)⟩
  have hloop : w.Leads (order.foldlM (fun state id => deriveComparison state.1 state.2 id)
      (false, [])) fun w' out => Derives [] w' out.2 :=
    leads_foldlM (I := fun order w (out : Bool × List (Comparison × Nat)) =>
      Derives order w out.2) (fun id rest w out h => leads_deriveComparison h) hstart
  exact leads_bind hloop fun _ _ _ _ => leads_pure trivial

/-! ### Sorted nodes -/

theorem operands_functionBase {g : Graph} {i : Nat} {n : Node} (hn : g.nodes[i]? = some n) :
    (functionBase g).operands i = n.operands := by
  simp [functionBase, hn]

theorem exists_of_mem_operands {g : Graph} {i o : Nat} (ho : o ∈ (functionBase g).operands i) :
    ∃ n, g.nodes[i]? = some n ∧ o ∈ n.operands := by
  cases hn : g.nodes[i]? with
  | none => simp [functionBase, hn] at ho
  | some n => exact ⟨n, rfl, operands_functionBase hn ▸ ho⟩

/-- `TopoSort` lists every node of a graph without cycles once, operands before users. -/
theorem topoSort_ok (w : World env args) :
    ∃ order, topoSort w.graph = .ok order ∧ order.Nodup ∧
      (∀ i, i ∈ order ↔ i < w.graph.nodes.length) ∧
      order.Pairwise fun a b => ∀ n, w.graph.nodes[a]? = some n → b ∉ n.operands := by
  have hclosed : ∀ i ∈ (functionBase w.graph).nodes, ∀ o ∈ (functionBase w.graph).operands i,
      o ∈ (functionBase w.graph).nodes := by
    intro i _ o ho
    obtain ⟨n, hn, hmem⟩ := exists_of_mem_operands ho
    exact mem_range.2 (w.valuation.operand_lt hn hmem)
  -- operands rank below their users, so that no chain of uses comes back
  have hrank : ∀ {i o}, Relation.TransGen (functionBase w.graph).Uses i o →
      w.rank o < w.rank i := by
    intro i o huses
    have huse : ∀ {i o}, (functionBase w.graph).Uses i o → w.rank o < w.rank i := fun h => by
      obtain ⟨n, hn, hmem⟩ := exists_of_mem_operands h.2
      exact w.ranked _ n hn _ hmem
    induction huses with
    | single h => exact huse h
    | tail _ h ih => exact (huse h).trans ih
  obtain ⟨order, hrun, hperm, hsorted⟩ := TopoSort.topoSort_ok (f := functionBase w.graph)
    nodup_range hclosed fun i hcycle => lt_irrefl _ (hrank hcycle)
  refine ⟨order, hrun, hperm.nodup_iff.2 nodup_range, fun i => ?_, hsorted.imp ?_⟩
  · rw [hperm.mem_iff]
    exact mem_range
  · intro a b h n hn
    rwa [operands_functionBase hn] at h

/-- The positions in a topological order rank the graph. -/
theorem ranked_idxOf (hmem : ∀ i, i ∈ order ↔ i < w.graph.nodes.length)
    (hsorted : order.Pairwise fun a b => ∀ n, w.graph.nodes[a]? = some n → b ∉ n.operands) :
    w.graph.Ranked fun i => (order.idxOf i : ℚ) := by
  intro i n hn o ho
  have hi : i ∈ order := (hmem i).2 (List.getElem?_eq_some_iff.1 hn).1
  have ho' : o ∈ order := (hmem o).2 (w.valuation.operand_lt hn ho)
  dsimp only
  rw [Nat.cast_lt]
  by_contra hnot
  obtain heq | hlt := (Nat.le_of_not_lt hnot).eq_or_lt
  · -- a node is no operand of itself
    rw [idxOf_inj hi] at heq
    have hself := w.ranked i n hn o ho
    rw [heq] at hself
    exact lt_irrefl _ hself
  · have hlen := idxOf_lt_length_of_mem ho'
    have hpair := pairwise_iff_getElem.1 hsorted _ _ (hlt.trans hlen) hlen hlt
    rw [getElem_idxOf, getElem_idxOf] at hpair
    exact hpair n hn ho

theorem pairwise_idxOf (hnodup : order.Nodup) :
    order.Pairwise fun i j => (order.idxOf i : ℚ) < (order.idxOf j : ℚ) := by
  rw [pairwise_iff_getElem]
  intro i j hi hj hlt
  rw [hnodup.idxOf_getElem, hnodup.idxOf_getElem, Nat.cast_lt]
  exact hlt

/-! ### The pass -/

theorem allExact_nil : AllExact w [] := fun _ _ h => nomatch h

/-- The equivalences that the first loop records, whichever way it goes over the nodes, are
exact at every width. The pass returns, by changes that add nodes or replace a node by one of
the same value, so that every node and the function keep their values. -/
theorem comparisonSimplification_sound (w : World env args) :
    (∀ order : List Nat, (∀ id ∈ order, id < w.graph.nodes.length) →
      ∃ equivalences, computeEquivalences w.graph order [] = .ok equivalences ∧
        ∀ id e, equivalences.lookup id = some e → ∃ x : Bits, x.width = e.width ∧
          w.vals[e.node]? = some (.leaf x) ∧
          w.vals[id]? = some (.leaf (Bits.ofBool (decide (e.range.Covers x.val))))) ∧
    ∃ (changed : Bool) (w' : World env args),
      runOnFunctionBaseInternal w.graph = .ok (changed, w'.graph) ∧
      Changes (w.graph, w.vals) (w'.graph, w'.vals) ∧ w.vals <+: w'.vals ∧
      ∀ v, w.vals[w.graph.returnValue]? = some v → w'.vals[w'.graph.returnValue]? = some v := by
  constructor
  · intro order horder
    obtain ⟨equivalences, hrun, hexact⟩ := computeEquivalences_exact horder allExact_nil
    refine ⟨equivalences, hrun, fun id e hlookup => ?_⟩
    obtain ⟨x, hx⟩ := hexact id e hlookup
    exact ⟨x, hx.width, hx.other.value, hx.node.value⟩
  · obtain ⟨order, horder, -, hmem, -⟩ := topoSort_ok w
    obtain ⟨equivalences, hcompute, hexact⟩ :=
      computeEquivalences_exact (fun id hid => (hmem id).1 hid) allExact_nil
    obtain ⟨changed, w₁, hrun₁, -, hchanges₁, -⟩ := leads_simplifyNodes order hexact
    -- the last loop goes by the order of the graph as it is now
    obtain ⟨order', horder', hnodup, hmem', hsorted⟩ := topoSort_ok w₁
    let w₂ := w₁.withRank _ (ranked_idxOf hmem' hsorted)
    obtain ⟨commonChanged, w₃, hrun₃, -, hchanges₃, -⟩ :=
      leads_transformDerivedComparisons (w := w₂) (fun id hid => (hmem' id).1 hid)
        (pairwise_idxOf hnodup)
    have hchanges : Changes w.state w₃.state := hchanges₁.trans hchanges₃
    refine ⟨changed || commonChanged, w₃, ?_, hchanges, hchanges.keeps⟩
    show (liftM (topoSort w.graph) >>= fun order =>
      liftM (computeEquivalences w.graph order []) >>= fun equivalences =>
      simplifyNodes equivalences order >>= fun changed =>
      get >>= fun g => liftM (topoSort g) >>= fun order =>
      transformDerivedComparisons order >>= fun commonChanged =>
      (pure (changed || commonChanged) : Graph.Build Bool)) w.graph = _
    rw [run_liftM horder, run_liftM hcompute, run_bind_of_ok hrun₁]
    show (liftM (topoSort w₁.graph) >>= fun order =>
      transformDerivedComparisons order >>= fun commonChanged =>
      (pure (changed || commonChanged) : Graph.Build Bool)) w₁.graph = _
    exact (run_liftM horder').trans (run_bind_of_ok hrun₃)

/-- `and(x < 1, x >= 1)`; the first comparison becomes `x == 0`, and one of the two the
negation of the other. -/
def lessThanOne : Function where
  params := [.bits 8]
  nodes := [⟨.param 0, [], .bits 8⟩, ⟨.literal (.leaf (Bits.ofNat 8 1)), [], .bits 8⟩,
    ⟨.compare .ult, [0, 1], .bits 1⟩, ⟨.compare .uge, [0, 1], .bits 1⟩,
    ⟨.nary .and, [2, 3], .bits 1⟩]
  returnValue := 4
  verified := by decide
  returnValue_lt := by decide

theorem run_lessThanOne : Interpreter.run (packageEnv []) lessThanOne
    [.leaf (Bits.ofNat 8 0)] = .ok [.leaf (Bits.ofNat 8 0), .leaf (Bits.ofNat 8 1),
      .leaf (Bits.ofNat 1 1), .leaf (Bits.ofNat 1 0), .leaf (Bits.ofNat 1 0)] := rfl

theorem comparisonSimplification_lessThanOne :
    (∃ equivalences, computeEquivalences lessThanOne.graph [0, 1, 2, 3, 4] [] = .ok equivalences) ∧
    ∃ changed, ∃ w' : World (packageEnv []) [.leaf (Bits.ofNat 8 0)],
      runOnFunctionBaseInternal lessThanOne.graph = .ok (changed, w'.graph) ∧
      w'.vals[w'.graph.returnValue]? = some (.leaf (Bits.ofNat 1 0)) := by
  obtain ⟨hexact, changed, w', hrun, -, -, hreturn⟩ :=
    comparisonSimplification_sound (World.ofRun run_lessThanOne)
  obtain ⟨equivalences, hequivalences, -⟩ := hexact [0, 1, 2, 3, 4] (by decide)
  exact ⟨⟨equivalences, hequivalences⟩, changed, w', hrun, hreturn _ rfl⟩

end ComparisonSimplification

end Xls

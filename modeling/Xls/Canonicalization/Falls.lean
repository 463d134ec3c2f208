import Xls.Canonicalization.Weight

/-!
# Xls.Canonicalization.Falls

A rewrite that is not about an extension makes nodes that weigh less than the node that they
replace (`Rewrites.weight_made`). The depth of a node is a number above that of its operand
if the node is an inversion.
-/

namespace Xls

open List
open Xls.Graph (World redirect)

namespace Canonicalization

variable {env : Env} {args : List Value} {w : World env args} {id : Nat} {n : Node}
  {r : Replacement} {depth : Nat → Nat}

/-! ### Depths -/

/-- An inverted node is deeper than its operand. -/
def DeepensNot (g : Graph) (depth : Nat → Nat) : Prop :=
  ∀ (j p : Nat) (t : IrType), g.nodes[j]? = some ⟨.un .not, [p], t⟩ → depth p < depth j

/-- The number of nodes below a node is a depth. -/
theorem deepensNot_below (w : World env args) : DeepensNot w.graph (w.graph.below w.rank) := by
  intro j p t hj
  exact Graph.below_lt (w.valuation.operand_lt hj (by simp)) (w.ranked j _ hj p (by simp))

variable {g : Graph} {d : Nat → Nat}

/-- New nodes are neither extensions nor inversions. -/
theorem Rewrites.made_kind (h : Rewrites g n r) :
    ∀ m ∈ r.made, isExtend m.kind = false ∧ m.kind ≠ .un .not := by
  cases h with
  | @moveConstantRight a b hoperands hkind hleft hright =>
    intro m hm
    rw [mem_singleton] at hm
    subst hm
    show isExtend n.kind = false ∧ n.kind ≠ .un .not
    constructor
    · cases hk : n.kind with
      | extend op k =>
        rw [hk] at hkind
        cases hkind
      | _ => rfl
    · intro hk
      rw [hk] at hkind
      cases hkind
  | _ => simp [isExtend]

/-- A rewrite makes no path deeper for the nodes that were there. -/
theorem deepensNot_grown (h : Rewrites w.graph n r) (hextend : isExtend n.kind = false)
    (hdepth : DeepensNot w.graph depth) :
    DeepensNot (replaced w.graph id r) (grown w.graph depth) := by
  intro j p t hj
  rw [replaced_getElem?, Option.map_eq_some_iff] at hj
  obtain ⟨m, hm, hredirect⟩ := hj
  obtain ⟨kind, os, type⟩ := m
  simp only [redirect, Node.mk.injEq] at hredirect
  obtain ⟨rfl, hos, rfl⟩ := hredirect
  by_cases hlt : j < w.graph.nodes.length
  · rw [getElem?_append_left hlt] at hm
    obtain ⟨o, rfl, rfl⟩ := map_eq_singleton_iff.mp hos
    have ho : o < w.graph.nodes.length := w.valuation.operand_lt hm (by simp)
    have hlower := hdepth j o _ hm
    obtain ⟨-, i, m', hnode, -⟩ := h.exists_new hextend
    have hle : grown w.graph depth (if o = id then r.node else o) ≤ depth o := by
      split
      · rw [hnode, grown, if_neg (by omega)]
        exact Nat.zero_le _
      · rw [grown, if_pos ho]
    have hgrown : grown w.graph depth j = depth j := if_pos hlt
    rw [hgrown]
    exact lt_of_le_of_lt hle hlower
  · rw [getElem?_append_right (not_lt.mp hlt)] at hm
    exact absurd rfl (h.made_kind _ (mem_of_getElem? hm)).2

/-! ### New nodes -/

/-- The constant of a clamp is a literal, and not what is compared with it. -/
def ClampsDistinct (g : Graph) (id : Nat) : Prop :=
  ∀ n, g.nodes[id]? = some n → ∀ clamp, findClamp g n = some clamp →
    isLiteral g clamp.k = true ∧ clamp.x ≠ clamp.k

theorem ClampsDistinct.literal {g : Graph} (h : ClampsDistinct g id) : ClampsLiteral g id :=
  fun n hn clamp hclamp => (h n hn clamp hclamp).1

theorem weightAt_made {i : Nat} {m : Node} (hm : r.made[i]? = some m) (hid : id ∉ m.operands) :
    weightAt (replaced g id r) d (g.nodes.length + i) = weight (replaced g id r) d m := by
  have hredirect : redirect id r.node m = m := by
    obtain ⟨kind, os, type⟩ := m
    have hos : os.map (fun o => if o = id then r.node else o) = os := by
      refine (map_congr_left fun o ho => if_neg ?_).trans (map_id os)
      rintro rfl
      exact hid ho
    rw [redirect, hos]
  rw [weightAt, replaced_made id hm, hredirect]

/-- A literal has no weight. -/
theorem weight_literal (g : Graph) (d : Nat → Nat) (z : Bits) (k : Nat) :
    weight g d ⟨.literal (.leaf z), [], .bits k⟩ = 0 := rfl

theorem misplaced_of_known {a b : Nat} (hoperands : n.operands = [a, b])
    (h : isFullyKnown g b = true) : misplaced g n = 0 := by
  unfold misplaced
  rw [hoperands]
  simp [h]

theorem misplaced_of_unknown {a b : Nat} (hoperands : n.operands = [a, b])
    (h : isFullyKnown g a = false) : misplaced g n = 0 := by
  unfold misplaced
  rw [hoperands]
  simp [h]

/-- Only selects weigh for their selector. -/
theorem selectWeight_of_commutative (h : n.kind.isCommutative = true) : selectWeight g d n = 0 := by
  unfold selectWeight
  split
  · rename_i hkind _
    rw [hkind] at h
    cases h
  · rfl

variable {hasDefault : Bool}

theorem selectWeight_sel {s : Nat} {os : List Nat} (hkind : n.kind = .sel hasDefault)
    (hoperands : n.operands = s :: os) :
    selectWeight g d n = d s + hasDefault.toNat + clampWeight g n := by
  unfold selectWeight
  rw [hkind, hoperands]

/-- A select weighs for nothing else. -/
theorem weight_sel {s : Nat} {os : List Nat} (hkind : n.kind = .sel hasDefault)
    (hoperands : n.operands = s :: os) :
    weight g d n = d s + hasDefault.toNat + clampWeight g n := by
  have hmisplaced : misplaced g n = 0 := by
    unfold misplaced
    split
    · simp [hkind, NodeKind.isCommutative, isCompare]
    · rfl
  rw [weight, hmisplaced, hkind, selectWeight_sel hkind hoperands]
  simp [convertible]

/-- The nodes that are made for a clamp have no weight. -/
theorem weight_made_clamp {op : CompareOp} {x k : Nat} {t : IrType}
    (hmade : r.made = [⟨.compare op, [x, k], .bits 1⟩,
      ⟨.sel false, [w.graph.nodes.length, x, k], t⟩])
    (hop : op = .ugt ∨ op = .ult) (hid : id < w.graph.nodes.length) (hx : id ≠ x) (hk : id ≠ k)
    (hlt : k < w.graph.nodes.length) (hne : x ≠ k) (hliteral : isLiteral w.graph k = true) :
    ∑ i ∈ Finset.range r.made.length,
      weightAt (replaced w.graph id r) (grown w.graph depth) (w.graph.nodes.length + i) = 0 := by
  have hknown : isFullyKnown (replaced w.graph id r) k = true :=
    (isFullyKnown_replaced hlt).trans hliteral
  have hselector : (replaced w.graph id r).nodes[w.graph.nodes.length]? =
      some ⟨.compare op, [x, k], .bits 1⟩ := by
    have hfirst := replaced_made (g := w.graph) (i := 0) id (by rw [hmade]; rfl)
    simpa [redirect, hx.symm, hk.symm] using hfirst
  have hcanonical : CanonicalClamp (replaced w.graph id r)
      ⟨.sel false, [w.graph.nodes.length, x, k], t⟩ :=
    ⟨_, x, k, op, .bits 1, rfl, rfl, hselector, hop, hne, hknown⟩
  have hcompare : weightAt (replaced w.graph id r) (grown w.graph depth)
      (w.graph.nodes.length + 0) = 0 := by
    rw [weightAt_made (i := 0) (by rw [hmade]; rfl) (by simp [hx, hk]), weight,
      misplaced_of_known rfl hknown]
    rcases hop with rfl | rfl
    · rfl
    · rfl
  have hsel : weightAt (replaced w.graph id r) (grown w.graph depth)
      (w.graph.nodes.length + 1) = 0 := by
    rw [weightAt_made (i := 1) (by rw [hmade]; rfl) (by simp [hx, hk, hid.ne]),
      weight_sel rfl rfl, clampWeight_canonical hcanonical, grown, if_neg (lt_irrefl _)]
    rfl
  rw [hmade]
  simp only [length_cons, length_nil, Finset.sum_range_succ, Finset.sum_range_zero]
  rw [hcompare, hsel]

/-- New nodes weigh less than the node they replace. -/
theorem Rewrites.weight_made (h : Rewrites w.graph n r) (hn : w.graph.nodes[id]? = some n)
    (hextend : isExtend n.kind = false) (hclamps : ClampsDistinct w.graph id)
    (hdepth : DeepensNot w.graph depth) :
    ∑ i ∈ Finset.range r.made.length,
        weightAt (replaced w.graph id r) (grown w.graph depth) (w.graph.nodes.length + i) <
      weight w.graph depth n := by
  have hid : id < w.graph.nodes.length := (List.getElem?_eq_some_iff.1 hn).1
  have hne : ∀ {o : Nat}, o ∈ n.operands → id ≠ o := fun ho => (operand_ne hn ho).1.symm
  have hlt : ∀ {o : Nat}, o ∈ n.operands → o < w.graph.nodes.length :=
    fun ho => (operand_ne hn ho).2
  cases h with
  | @moveConstantRight a b hoperands hkind hleft hright =>
    have ha := hne (o := a) (by simp [hoperands])
    have hb := hne (o := b) (by simp [hoperands])
    simp only [length_singleton, Finset.sum_range_one]
    rw [weightAt_made (i := 0) rfl (by simp [ha, hb])]
    have hknown : isFullyKnown (replaced w.graph id ⟨[{ n with operands := [b, a] }],
        w.graph.nodes.length⟩) b = false := by
      rw [isFullyKnown_replaced (hlt (by simp [hoperands]))]
      exact hright
    rw [weight, weight, misplaced_of_unknown rfl hknown,
      selectWeight_of_commutative (n := { n with operands := [b, a] }) hkind,
      selectWeight_of_commutative (n := n) hkind, misplaced, hoperands]
    simp [hkind, hleft, hright]
  | @reverse op a b hkind hoperands hleft hright =>
    have ha := hne (o := a) (by simp [hoperands])
    have hb := hne (o := b) (by simp [hoperands])
    simp only [length_singleton, Finset.sum_range_one]
    rw [weightAt_made (i := 0) rfl (by simp [ha, hb])]
    have hknown : isFullyKnown (replaced w.graph id ⟨[⟨.compare op.reverse, [b, a], .bits 1⟩],
        w.graph.nodes.length⟩) b = false := by
      rw [isFullyKnown_replaced (hlt (by simp [hoperands]))]
      exact hright
    have hconvertible : convertible (.compare op.reverse) = convertible (.compare op) := by
      cases op <;> rfl
    rw [weight, misplaced_of_unknown rfl hknown, hconvertible, weight, misplaced, hoperands, hkind]
    simp [selectWeight, hkind, isCompare, hleft, hright]
  | @strict op op' a b k z hkind hoperands hweak hstrict =>
    have ha := hne (o := a) (by simp [hoperands])
    simp only [length_cons, length_nil, Finset.sum_range_succ, Finset.sum_range_zero]
    rw [weightAt_made (i := 0) rfl (by simp), weightAt_made (i := 1) rfl
      (by simp [ha, hid.ne]), weight_literal]
    have hknown := isFullyKnown_literal (replaced_made (g := w.graph) (i := 0) id
      (r := ⟨[⟨.literal (.leaf z), [], .bits k⟩,
        ⟨.compare op', [a, w.graph.nodes.length], .bits 1⟩], w.graph.nodes.length + 1⟩) rfl)
    rw [weight, misplaced_of_known rfl hknown, weight, hkind]
    rcases hweak with rfl | rfl <;> rcases hstrict with rfl | rfl <;>
      simp [convertible, selectWeight]
  | @clamp clamp selector s cmp a b c d hfind hat =>
    obtain ⟨-, -, hx, hk, -⟩ := clampOf_form hat.form
    obtain ⟨hliteral, hdistinct⟩ := hclamps n hn clamp hfind
    have hkmem : clamp.k ∈ n.operands := by
      rcases hk with hk | hk
      · simp [hat.operands, hk]
      · simp [hat.operands, hk]
    have hop : (if clamp.isHigh then CompareOp.ugt else .ult) = .ugt ∨
        (if clamp.isHigh then CompareOp.ugt else .ult) = .ult := by
      split
      · exact .inl rfl
      · exact .inr rfl
    have hxid : id ≠ clamp.x := by
      rintro rfl
      have hselector := (operand_ne hn (o := selector) (by simp [hat.operands])).2
      have hinner := w.ranked selector s hat.selector clamp.x (by simp [hat.selectorOperands, hx])
      have houter := w.ranked clamp.x n hn selector (by simp [hat.operands])
      exact lt_asymm hinner houter
    rw [weight_made_clamp rfl hop hid hxid (hne hkmem) (hlt hkmem) hdistinct hliteral,
      weight_sel hat.kind hat.operands]
    -- The clamp that is kept is not found again.
    have hother : ¬CanonicalClamp w.graph n := by
      rintro ⟨s', a', k', cmp', t', -, hoperands, hs', -, hne', -⟩
      have hsame := hat.operands.symm.trans hoperands
      simp only [List.cons.injEq, and_true] at hsame
      obtain ⟨rfl, rfl, rfl⟩ := hsame
      obtain rfl := Option.some.inj (hat.selector.symm.trans hs')
      cases hat.selectorKind
      have hform := hat.form
      cases hat.selectorOperands
      rw [clampOf_canonical hne'] at hform
      cases hform
    rw [clampWeight_other hother]
    exact Nat.succ_pos _
  | @addNegated a b k z hkind hoperands =>
    have ha := hne (o := a) (by simp [hoperands])
    simp only [length_cons, length_nil, Finset.sum_range_succ, Finset.sum_range_zero]
    rw [weightAt_made (i := 0) rfl (by simp), weightAt_made (i := 1) rfl
      (by simp [ha, hid.ne]), weight_literal]
    have hknown := isFullyKnown_literal (replaced_made (g := w.graph) (i := 0) id
      (r := ⟨[⟨.literal (.leaf z), [], .bits k⟩,
        ⟨.bin .add, [a, w.graph.nodes.length], n.type⟩], w.graph.nodes.length + 1⟩) rfl)
    rw [weight, misplaced_of_known rfl hknown, weight, hkind]
    simp [convertible, selectWeight]
  | removeExtension hkind =>
    rw [hkind] at hextend
    cases hextend
  | concat hkind =>
    rw [hkind] at hextend
    cases hextend
  | @swapCases selector a b p type hkind hoperands hinverted =>
    have ha := hne (o := a) (by simp [hoperands])
    have hb := hne (o := b) (by simp [hoperands])
    have hlower := hdepth selector p type hinverted
    have hp : p < w.graph.nodes.length := w.valuation.operand_lt hinverted (by simp)
    have hpid : id ≠ p := by
      rintro rfl
      have hinner := w.ranked selector _ hinverted id (by simp)
      have houter := w.ranked id n hn selector (by simp [hoperands])
      exact lt_asymm hinner houter
    have hother : ¬CanonicalClamp w.graph n := by
      rintro ⟨s', a', k', cmp', t', -, hoperands', hs', -⟩
      rw [hoperands, List.cons.injEq] at hoperands'
      obtain ⟨rfl, -⟩ := hoperands'
      rw [hinverted] at hs'
      cases hs'
    simp only [length_singleton, Finset.sum_range_one]
    rw [weightAt_made (i := 0) rfl (by simp [ha, hb, hpid]), weight_sel rfl rfl,
      weight_sel hkind hoperands, clampWeight_other hother, grown, if_pos hp]
    exact add_lt_add_of_lt_of_le (Nat.add_lt_add_right hlower _) (clampWeight_le _ _)
  | @defaultToCase selector cases hkind hoperands =>
    have hself : id ∉ selector :: cases := fun ho => hne (hoperands ▸ ho) rfl
    have hselector := hlt (o := selector) (by simp [hoperands])
    have hother : ¬CanonicalClamp w.graph n := by
      rintro ⟨s', a', k', cmp', t', hkind', -⟩
      rw [hkind] at hkind'
      cases hkind'
    simp only [length_singleton, Finset.sum_range_one]
    rw [weightAt_made (i := 0) rfl hself, weight_sel rfl rfl, weight_sel hkind hoperands,
      clampWeight_other hother, grown, if_pos hselector]
    exact add_lt_add_of_lt_of_le (Nat.lt_succ_self _) (clampWeight_le _ _)

end Canonicalization

end Xls

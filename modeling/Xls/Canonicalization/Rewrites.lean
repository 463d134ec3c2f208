import Xls.Canonicalization.Selects

/-!
# Xls.Canonicalization.Rewrites

What a call of `CanonicalizeNode` can do, said once (`rewrites_of_canonicalizeNode`), and the
nodes that stay without users.
-/

namespace Xls

open List Except
open Xls.Graph (World redirect)

namespace Canonicalization

variable {env : Env} {args : List Value} {w : World env args} {id : Nat} {n : Node}
  {r : Replacement}

/-! ### The replacements -/

/-- The replacement of a node, by the rule that applied. -/
inductive Rewrites (g : Graph) (n : Node) : Replacement → Prop
  | moveConstantRight {a b : Nat} (operands : n.operands = [a, b])
      (kind : n.kind.isCommutative = true) (left : isFullyKnown g a = true)
      (right : isFullyKnown g b = false) :
      Rewrites g n ⟨[{ n with operands := [b, a] }], g.nodes.length⟩
  | reverse {op : CompareOp} {a b : Nat} (kind : n.kind = .compare op)
      (operands : n.operands = [a, b]) (left : isFullyKnown g a = true)
      (right : isFullyKnown g b = false) :
      Rewrites g n ⟨[⟨.compare op.reverse, [b, a], .bits 1⟩], g.nodes.length⟩
  | strict {op op' : CompareOp} {a b k : Nat} {z : Bits} (kind : n.kind = .compare op)
      (operands : n.operands = [a, b]) (weak : op = .uge ∨ op = .ule)
      (strict : op' = .ugt ∨ op' = .ult) :
      Rewrites g n ⟨[⟨.literal (.leaf z), [], .bits k⟩,
        ⟨.compare op', [a, g.nodes.length], .bits 1⟩], g.nodes.length + 1⟩
  | clamp {clamp : Clamp} {selector : Nat} {s : Node} {cmp : CompareOp} {a b c d : Nat}
      (find : findClamp g n = some clamp) (clampAt : ClampAt g n clamp selector s cmp a b c d) :
      Rewrites g n ⟨[⟨.compare (if clamp.isHigh then .ugt else .ult), [clamp.x, clamp.k],
        .bits 1⟩, ⟨.sel false, [g.nodes.length, clamp.x, clamp.k], n.type⟩], g.nodes.length + 1⟩
  | addNegated {a b k : Nat} {z : Bits} (kind : n.kind = .bin .sub)
      (operands : n.operands = [a, b]) :
      Rewrites g n ⟨[⟨.literal (.leaf z), [], .bits k⟩,
        ⟨.bin .add, [a, g.nodes.length], n.type⟩], g.nodes.length + 1⟩
  | removeExtension {op : ExtendOp} {k a : Nat} (kind : n.kind = .extend op k)
      (operands : n.operands = [a]) : Rewrites g n ⟨[], a⟩
  | concat {op : ExtendOp} {k a k' k'' : Nat} {z : Bits} (kind : n.kind = .extend op k)
      (operands : n.operands = [a]) :
      Rewrites g n ⟨[⟨.literal (.leaf z), [], .bits k'⟩,
        ⟨.concat, [g.nodes.length, a], .bits k''⟩], g.nodes.length + 1⟩
  | swapCases {selector a b p : Nat} {type : IrType} (kind : n.kind = .sel false)
      (operands : n.operands = [selector, a, b])
      (inverted : g.nodes[selector]? = some ⟨.un .not, [p], type⟩) :
      Rewrites g n ⟨[⟨.sel false, [p, b, a], n.type⟩], g.nodes.length⟩
  | defaultToCase {selector : Nat} {cases : List Nat} (kind : n.kind = .sel true)
      (operands : n.operands = selector :: cases) :
      Rewrites g n ⟨[⟨.sel false, selector :: cases, n.type⟩], g.nodes.length⟩

theorem mem_of_firstOf {rules : List (Result (Option Replacement))}
    (h : firstOf rules = .ok (some r)) : ok (some r) ∈ rules := by
  induction rules with
  | nil => cases h
  | cons rule rules ih =>
    unfold firstOf at h
    split at h
    · exact mem_cons_of_mem _ (ih h)
    · rw [h]
      exact mem_cons_self

variable {g : Graph}

/-- What the rule for strict comparisons makes. -/
theorem rewrites_strict (h : strictComparison g n = .ok (some r)) : Rewrites g n r := by
  unfold strictComparison at h
  split at h
  rotate_left
  · cases h
  rename_i op a b hkind hoperands
  split at h
  rotate_left
  · cases h
  obtain ⟨c, -, h⟩ := Result.bind_eq_ok.1 h
  split at h
  · rename_i hop
    cases h
    exact .strict hkind hoperands (.inl hop.1) (.inl rfl)
  split at h
  · rename_i hop
    cases h
    exact .strict hkind hoperands (.inr hop.1) (.inr rfl)
  · cases h

theorem rewrites_clamp (hn : w.graph.nodes[id]? = some n)
    (h : maybeCanonicalizeClamp w.graph n = .ok (some r)) : Rewrites w.graph n r := by
  unfold maybeCanonicalizeClamp at h
  split at h
  · cases h
  rename_i clamp hfind
  obtain ⟨_, _, h⟩ := Result.bind_eq_ok.1 h
  cases h
  obtain ⟨selector, s, cmp, a, b, c, d, hat⟩ := findClamp_spec hn hfind
  exact .clamp hfind hat

/-- What the rule for adding a negation makes. -/
theorem rewrites_addNegated (h : addNegated g n = .ok (some r)) : Rewrites g n r := by
  unfold addNegated at h
  split at h
  rotate_left
  · cases h
  rename_i a b hkind hoperands
  split at h
  rotate_left
  · cases h
  obtain ⟨c, -, h⟩ := Result.bind_eq_ok.1 h
  cases h
  exact .addNegated hkind hoperands

/-- What the rule for superfluous extensions makes. -/
theorem rewrites_removeExtension (h : removeExtension g n = .ok (some r)) : Rewrites g n r := by
  unfold removeExtension at h
  split at h
  rotate_left
  · cases h
  rename_i op k a hkind hoperands
  obtain ⟨bitCount, -, h⟩ := Result.bind_eq_ok.1 h
  obtain ⟨operandBitCount, -, h⟩ := Result.bind_eq_ok.1 h
  split at h
  · cases h
    exact .removeExtension hkind hoperands
  split at h
  · obtain ⟨_, _, h⟩ := Result.bind_eq_ok.1 h
    cases h
    exact .concat hkind hoperands
  · cases h

/-- What the rule for defaults makes. -/
theorem rewrites_defaultToCase (h : defaultToCase g n = .ok (some r)) : Rewrites g n r := by
  unfold defaultToCase at h
  split at h
  rotate_left
  · cases h
  rename_i hasDefault selector cases hkind hoperands
  obtain ⟨k, -, h⟩ := Result.bind_eq_ok.1 h
  split at h
  · rename_i hcond
    cases h
    rw [hcond.2.1] at hkind
    exact .defaultToCase hkind hoperands
  · cases h

/-- What `CanonicalizeNode` can do. -/
theorem rewrites_of_canonicalizeNode (hn : w.graph.nodes[id]? = some n)
    (h : canonicalizeNode w.graph id = .ok (some r)) : Rewrites w.graph n r := by
  rw [canonicalizeNode, hn] at h
  have hmem := mem_of_firstOf h
  simp only [mem_cons, not_mem_nil, or_false] at hmem
  rcases hmem with h | h | h | h | h | h | h | h
  · have hr := (ok.inj h).symm
    unfold moveConstantRight at hr
    split at hr
    rotate_left
    · cases hr
    rename_i a b hoperands
    split at hr
    · rename_i hcond
      cases hr
      simp only [Bool.and_eq_true, Bool.not_eq_true'] at hcond
      exact .moveConstantRight hoperands hcond.1.1 hcond.1.2 hcond.2
    · cases hr
  · have hr := (ok.inj h).symm
    unfold reverseComparison at hr
    split at hr
    rotate_left
    · cases hr
    rename_i op a b hkind hoperands
    split at hr
    · rename_i hcond
      cases hr
      simp only [Bool.and_eq_true, Bool.not_eq_true'] at hcond
      exact .reverse hkind hoperands hcond.1 hcond.2
    · cases hr
  · exact rewrites_strict h.symm
  · exact rewrites_clamp hn h.symm
  · exact rewrites_addNegated h.symm
  · exact rewrites_removeExtension h.symm
  · have hr := (ok.inj h).symm
    unfold swapCases at hr
    split at hr
    rotate_left
    · cases hr
    rename_i selector a b hkind hoperands
    split at hr
    · rename_i p type hselector
      cases hr
      exact .swapCases hkind hoperands hselector
    · cases hr
  · exact rewrites_defaultToCase h.symm

/-! ### The graph after a replacement -/

/-- The graph with the new nodes, and all uses of the node redirected. -/
def replaced (g : Graph) (id : Nat) (r : Replacement) : Graph :=
  ⟨(g.nodes ++ r.made).map (redirect id r.node),
    if g.returnValue = id then r.node else g.returnValue⟩

theorem replace_eq_ok {g' : Graph} (h : replace g id r = .ok g') : g' = replaced g id r := by
  unfold replace Graph.replaceUsesWith at h
  dsimp only at h
  split at h
  · cases h
    rfl
  · cases h

theorem length_replaced (g : Graph) (id : Nat) (r : Replacement) :
    (replaced g id r).nodes.length = g.nodes.length + r.made.length := by
  simp [replaced]

theorem replaced_getElem? (g : Graph) (id : Nat) (r : Replacement) (j : Nat) :
    (replaced g id r).nodes[j]? = (g.nodes ++ r.made)[j]?.map (redirect id r.node) := by
  rw [replaced, getElem?_map]

variable {j : Nat} {m : Node}

/-- A node of the graph is in the place that it had. -/
theorem replaced_old (h : g.nodes[j]? = some m) (id : Nat) (r : Replacement) :
    (replaced g id r).nodes[j]? = some (redirect id r.node m) := by
  rw [replaced_getElem?, getElem?_append_left (List.getElem?_eq_some_iff.1 h).1, h]
  rfl

/-- A node that was made. -/
theorem replaced_made {i : Nat} (id : Nat) (h : r.made[i]? = some m) :
    (replaced g id r).nodes[g.nodes.length + i]? = some (redirect id r.node m) := by
  rw [replaced_getElem?, getElem?_append_right (Nat.le_add_right _ _), Nat.add_sub_cancel_left, h]
  rfl

/-! ### Nodes without users -/

/-- A node is the operand of another. -/
def Used (g : Graph) (o : Nat) : Prop := ∃ m ∈ g.nodes, o ∈ m.operands

theorem used_of_operand {o : Nat} (h : g.nodes[j]? = some m) (ho : o ∈ m.operands) :
    Used g o := ⟨m, mem_of_getElem? h, ho⟩

/-- An operand of a node is another node of the graph. -/
theorem operand_ne (hn : w.graph.nodes[id]? = some n) {o : Nat} (ho : o ∈ n.operands) :
    o ≠ id ∧ o < w.graph.nodes.length := by
  refine ⟨fun heq => ?_, w.valuation.operand_lt hn ho⟩
  have hrank := w.ranked id n hn o ho
  rw [heq] at hrank
  exact lt_irrefl _ hrank

/-- New nodes have operands that are used or new, and so is the node that replaces the old. -/
theorem Rewrites.sourced (h : Rewrites g n r) (hn : g.nodes[id]? = some n) :
    (∀ m ∈ r.made, ∀ o ∈ m.operands, Used g o ∨ g.nodes.length ≤ o) ∧
      (r.node ∈ n.operands ∨ g.nodes.length ≤ r.node) := by
  have hused : ∀ {o : Nat}, o ∈ n.operands → Used g o := used_of_operand hn
  cases h with
  | @moveConstantRight a b hoperands hkind hleft hright =>
    refine ⟨?_, .inr (le_refl _)⟩
    have ha : Used g a := hused (by simp [hoperands])
    have hb : Used g b := hused (by simp [hoperands])
    simp [ha, hb]
  | @reverse op a b hkind hoperands hleft hright =>
    refine ⟨?_, .inr (le_refl _)⟩
    have ha : Used g a := hused (by simp [hoperands])
    have hb : Used g b := hused (by simp [hoperands])
    simp [ha, hb]
  | @strict op op' a b k z hkind hoperands hweak hstrict =>
    refine ⟨?_, .inr (Nat.le_succ _)⟩
    have ha : Used g a := hused (by simp [hoperands])
    simp [ha]
  | @clamp clamp selector s cmp a b c d hfind hat =>
    refine ⟨?_, .inr (Nat.le_succ _)⟩
    obtain ⟨-, -, hx, hk, -⟩ := clampOf_form hat.form
    have ha : Used g clamp.x := by
      rw [hx]
      exact used_of_operand hat.selector (by simp [hat.selectorOperands])
    have hk' : Used g clamp.k := by
      rcases hk with hk | hk
      · exact hused (by simp [hat.operands, hk])
      · exact hused (by simp [hat.operands, hk])
    simp [ha, hk']
  | @addNegated a b k z hkind hoperands =>
    refine ⟨?_, .inr (Nat.le_succ _)⟩
    have ha : Used g a := hused (by simp [hoperands])
    simp [ha]
  | @removeExtension op k a hkind hoperands => exact ⟨by simp, .inl (by simp [hoperands])⟩
  | @concat op k a k' k'' z hkind hoperands =>
    refine ⟨?_, .inr (Nat.le_succ _)⟩
    have ha : Used g a := hused (by simp [hoperands])
    simp [ha]
  | @swapCases selector a b p type hkind hoperands hinverted =>
    refine ⟨?_, .inr (le_refl _)⟩
    have ha : Used g a := hused (by simp [hoperands])
    have hb : Used g b := hused (by simp [hoperands])
    have hp : Used g p := used_of_operand hinverted (by simp)
    simp [ha, hb, hp]
  | @defaultToCase selector cases hkind hoperands =>
    refine ⟨?_, .inr (le_refl _)⟩
    intro m hm o ho
    rw [mem_singleton] at hm
    subst hm
    exact .inl (hused (by rw [hoperands]; exact ho))

/-- Nodes that are not used, and are not the return value. -/
def Retired (g : Graph) (ids : List Nat) : Prop :=
  ∀ j ∈ ids, j < g.nodes.length ∧ ¬Used g j ∧ g.returnValue ≠ j

/-- A node that is retired is dead. -/
theorem Retired.isDead {ids : List Nat} (h : Retired g ids) (hj : j ∈ ids) : isDead g j = true := by
  obtain ⟨-, hused, hreturn⟩ := h j hj
  have husers : g.users j = [] := by
    rw [Graph.users, filter_eq_nil_iff]
    intro m hm hcontains
    exact hused ⟨m, hm, contains_iff_mem.mp hcontains⟩
  rw [Canonicalization.isDead, husers, beq_eq_false_iff_ne.mpr hreturn]
  rfl

/-- A node is retired when it is replaced, and the retired nodes stay so. -/
theorem Rewrites.retired (h : Rewrites w.graph n r) (hn : w.graph.nodes[id]? = some n)
    {ids : List Nat} (hids : Retired w.graph ids) :
    Retired (replaced w.graph id r) (id :: ids) := by
  obtain ⟨hmade, hnode⟩ := h.sourced hn
  have hid : id < w.graph.nodes.length := (List.getElem?_eq_some_iff.1 hn).1
  have hne : r.node ≠ id := by
    rcases hnode with hnode | hnode
    · exact (operand_ne hn hnode).1
    · omega
  -- Neither the node nor a retired one is an operand before the uses are redirected.
  have hold : ∀ j ∈ id :: ids, ∀ m ∈ w.graph.nodes ++ r.made, ∀ o ∈ m.operands,
      (if o = id then r.node else o) ≠ j := by
    intro j hj m hm o ho heq
    rcases mem_cons.mp hj with rfl | hj
    · split at heq
      · exact hne heq
      · rename_i ho'
        exact ho' heq
    · obtain ⟨hlt, hused, -⟩ := hids j hj
      split at heq
      · rcases hnode with hnode | hnode
        · exact hused (heq ▸ used_of_operand hn hnode)
        · omega
      · subst heq
        rcases mem_append.mp hm with hm | hm
        · exact hused ⟨m, hm, ho⟩
        · rcases hmade m hm o ho with ho' | ho'
          · exact hused ho'
          · omega
  intro j hj
  have hlt : j < w.graph.nodes.length := by
    rcases mem_cons.mp hj with rfl | hj
    · exact hid
    · exact (hids j hj).1
  refine ⟨by rw [length_replaced]; omega, ?_, ?_⟩
  · rintro ⟨m, hm, ho⟩
    obtain ⟨m', hm', rfl⟩ := mem_map.mp hm
    obtain ⟨o, ho', heq⟩ := mem_map.mp ho
    exact hold j hj m' hm' o ho' heq
  · show (if w.graph.returnValue = id then r.node else w.graph.returnValue) ≠ j
    rcases mem_cons.mp hj with rfl | hj
    · split
      · exact hne
      · assumption
    · obtain ⟨-, hused, hreturn⟩ := hids j hj
      split
      · intro heq
        rcases hnode with hnode | hnode
        · exact hused (heq ▸ used_of_operand hn hnode)
        · omega
      · exact hreturn

end Canonicalization

end Xls

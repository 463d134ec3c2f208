import Mathlib.Algebra.BigOperators.Intervals
import Xls.Canonicalization.Rewrites

/-!
# Xls.Canonicalization.Weight

The weight of the nodes that were not replaced yet. A rewrite that is not about an extension
makes nodes that weigh less than the node they replace, and makes no other node heavier
(`weight_redirect`).
-/

namespace Xls

open Finset
open Xls.Graph (World redirect)

namespace Canonicalization

variable {env : Env} {args : List Value} {w : World env args} {id : Nat} {n : Node}
  {r : Replacement}

/-! ### Weights -/

def isCompare : NodeKind → Bool
  | .compare _ => true
  | _ => false

def isExtend : NodeKind → Bool
  | .extend _ _ => true
  | _ => false

/-- A constant on the left of an operator that has it on the right. -/
def misplaced (g : Graph) (n : Node) : Nat :=
  match n.operands with
  | [a, b] =>
    if (n.kind.isCommutative || isCompare n.kind) && isFullyKnown g a && !isFullyKnown g b then 1
    else 0
  | _ => 0

/-- An operation that can turn into another. -/
def convertible : NodeKind → Nat
  | .bin .sub | .compare .uge | .compare .ule => 1
  | _ => 0

/-- A clamp in the form that is kept. -/
def CanonicalClamp (g : Graph) (n : Node) : Prop :=
  ∃ (s a k : Nat) (cmp : CompareOp) (t : IrType), n.kind = .sel false ∧ n.operands = [s, a, k] ∧
    g.nodes[s]? = some ⟨.compare cmp, [a, k], t⟩ ∧ (cmp = .ugt ∨ cmp = .ult) ∧ a ≠ k ∧
    isLiteral g k = true

open Classical in
/-- One for a select that is not yet a clamp in the form that is kept. -/
noncomputable def clampWeight (g : Graph) (n : Node) : Nat := if CanonicalClamp g n then 0 else 1

variable {g : Graph}

theorem clampWeight_canonical (h : CanonicalClamp g n) : clampWeight g n = 0 :=
  if_pos h

theorem clampWeight_other (h : ¬CanonicalClamp g n) : clampWeight g n = 1 :=
  if_neg h

theorem clampWeight_le (g : Graph) (n : Node) : clampWeight g n ≤ 1 := by
  unfold clampWeight
  split
  · exact Nat.zero_le _
  · exact le_refl _

/-- The depth of the selector, and what can still be done once. -/
noncomputable def selectWeight (g : Graph) (depth : Nat → Nat) (n : Node) : Nat :=
  match n.kind, n.operands with
  | .sel hasDefault, s :: _ =>
    depth s + hasDefault.toNat + clampWeight g n
  | _, _ => 0

/-- The weight of a node. -/
noncomputable def weight (g : Graph) (depth : Nat → Nat) (n : Node) : Nat :=
  misplaced g n + convertible n.kind + selectWeight g depth n

/-- The weight of the node at a position. -/
noncomputable def weightAt (g : Graph) (depth : Nat → Nat) (j : Nat) : Nat :=
  match g.nodes[j]? with
  | some n => weight g depth n
  | none => 0

/-- The depths when nodes are added: new nodes have none. -/
def grown (g : Graph) (depth : Nat → Nat) (j : Nat) : Nat :=
  if j < g.nodes.length then depth j else 0

/-- One for an extension. -/
def extendAt (g : Graph) (j : Nat) : Nat :=
  match g.nodes[j]? with
  | some n => if isExtend n.kind then 1 else 0
  | none => 0

/-- The sum over the nodes that were not replaced. -/
def pending (c : Nat → Nat) (ids : List Nat) (length : Nat) : Nat :=
  ∑ j ∈ range length, if j ∈ ids then 0 else c j

/-- The nodes that were not replaced get no heavier, so the sum falls by the node that is
replaced, and grows by the nodes that are made. -/
theorem pending_step {c c' : Nat → Nat} {ids : List Nat} {length k : Nat} (hid : id < length)
    (hids : id ∉ ids) (hle : ∀ j, j < length → j ≠ id → c' j ≤ c j) :
    pending c' (id :: ids) (length + k) + c id ≤
      pending c ids length + ∑ i ∈ range k, c' (length + i) := by
  have hmem : id ∈ range length := mem_range.mpr hid
  have hold : (∑ j ∈ range length, if j ∈ id :: ids then 0 else c' j) + c id ≤
      pending c ids length := by
    unfold pending
    rw [← add_sum_erase _ _ hmem, ← add_sum_erase _ _ hmem, if_pos List.mem_cons_self,
      if_neg hids, Nat.zero_add, Nat.add_comm]
    refine Nat.add_le_add_left (sum_le_sum fun j hj => ?_) _
    obtain ⟨hne, hj⟩ := mem_erase.mp hj
    rw [mem_range] at hj
    by_cases hjids : j ∈ ids
    · rw [if_pos (List.mem_cons_of_mem _ hjids), if_pos hjids]
    · rw [if_neg (by simp [hne, hjids]), if_neg hjids]
      exact hle j hj hne
  have hnew : ∑ i ∈ range k, (if length + i ∈ id :: ids then 0 else c' (length + i)) ≤
      ∑ i ∈ range k, c' (length + i) := by
    refine sum_le_sum fun i _ => ?_
    split
    · exact Nat.zero_le _
    · exact le_refl _
  rw [pending, sum_range_add]
  omega

/-! ### Known nodes -/

/-- Only literals are known. -/
def isPlain : NodeKind → Bool
  | .literal _ | .extend _ _ => false
  | _ => true

variable {j : Nat}

theorem isFullyKnown_plain {m : Node} (h : g.nodes[j]? = some m) (hplain : isPlain m.kind = true) :
    isFullyKnown g j = false := by
  rw [Bool.eq_false_iff]
  intro hknown
  obtain ⟨value, os, t, hnode⟩ := exists_of_isLiteral hknown
  rw [h] at hnode
  cases hnode
  cases hplain

theorem isFullyKnown_literal {k : Nat} {z : Bits}
    (h : g.nodes[j]? = some ⟨.literal (.leaf z), [], .bits k⟩) : isFullyKnown g j = true := by
  rw [isFullyKnown, isLiteral, h]

/-- What is known of a node does not change. -/
theorem isFullyKnown_replaced (hj : j < g.nodes.length) :
    isFullyKnown (replaced g id r) j = isFullyKnown g j := by
  have hm : g.nodes[j]? = some g.nodes[j] := List.getElem?_eq_getElem hj
  rw [isFullyKnown, isFullyKnown, isLiteral, isLiteral, replaced_old hm, hm]
  generalize g.nodes[j] = m
  obtain ⟨kind, os, t⟩ := m
  cases kind with
  | literal value => rfl
  | _ => rfl

section Replaced

/-- A replacement that is not about an extension is by a new node. -/
theorem Rewrites.exists_new {g : Graph} (h : Rewrites g n r) (hextend : isExtend n.kind = false) :
    isPlain n.kind = true ∧ ∃ i m, r.node = g.nodes.length + i ∧ r.made[i]? = some m ∧
      isPlain m.kind = true := by
  cases h with
  | @moveConstantRight a b hoperands hkind hleft hright =>
    have hplain : isPlain n.kind = true := by
      cases hk : n.kind with
      | literal value =>
        rw [hk] at hkind
        cases hkind
      | extend op k =>
        rw [hk] at hextend
        cases hextend
      | _ => rfl
    exact ⟨hplain, 0, _, rfl, rfl, hplain⟩
  | reverse hkind => exact ⟨by rw [hkind]; rfl, 0, _, rfl, rfl, rfl⟩
  | strict hkind => exact ⟨by rw [hkind]; rfl, 1, _, rfl, rfl, rfl⟩
  | clamp hfind hat => exact ⟨by rw [hat.kind]; rfl, 1, _, rfl, rfl, rfl⟩
  | addNegated hkind => exact ⟨by rw [hkind]; rfl, 1, _, rfl, rfl, rfl⟩
  | removeExtension hkind =>
    rw [hkind] at hextend
    cases hextend
  | concat hkind =>
    rw [hkind] at hextend
    cases hextend
  | swapCases hkind => exact ⟨by rw [hkind]; rfl, 0, _, rfl, rfl, rfl⟩
  | defaultToCase hkind => exact ⟨by rw [hkind]; rfl, 0, _, rfl, rfl, rfl⟩

variable (hn : w.graph.nodes[id]? = some n) (h : Rewrites w.graph n r)
  (hextend : isExtend n.kind = false)

include hn h hextend

/-- What is known of an operand does not change, also where it is redirected. -/
theorem isFullyKnown_redirect {o : Nat} (ho : o < w.graph.nodes.length) :
    isFullyKnown (replaced w.graph id r) (if o = id then r.node else o) =
      isFullyKnown w.graph o := by
  split
  · rename_i heq
    subst heq
    obtain ⟨hplain, i, m, hnode, hm, hmplain⟩ := h.exists_new hextend
    have hmade : (replaced w.graph o r).nodes[w.graph.nodes.length + i]? =
        some (redirect o r.node m) := replaced_made o hm
    rw [← hnode] at hmade
    rw [isFullyKnown_plain hmade hmplain, isFullyKnown_plain hn hplain]
  · exact isFullyKnown_replaced ho

variable {j : Nat} {m : Node}

/-- Redirecting to the replacement keeps the count of misplaced literals. -/
theorem misplaced_redirect (hm : w.graph.nodes[j]? = some m) :
    misplaced (replaced w.graph id r) (redirect id r.node m) = misplaced w.graph m := by
  unfold misplaced
  rcases hoperands : m.operands with _ | ⟨a, _ | ⟨b, _ | ⟨c, os⟩⟩⟩
  · simp [redirect, hoperands]
  · simp [redirect, hoperands]
  · have ha : a < w.graph.nodes.length := w.valuation.operand_lt hm (by simp [hoperands])
    have hb : b < w.graph.nodes.length := w.valuation.operand_lt hm (by simp [hoperands])
    simp only [redirect, hoperands, List.map_cons, List.map_nil]
    rw [isFullyKnown_redirect hn h hextend ha, isFullyKnown_redirect hn h hextend hb]
  · simp [redirect, hoperands]

omit hn hextend in
/-- A node that is replaced by a new one is not a strict comparison with a known value. -/
theorem not_strict {cmp : CompareOp} {a k : Nat} {t : IrType}
    (hcmp : cmp = .ugt ∨ cmp = .ult) (hknown : isFullyKnown w.graph k = true) :
    n ≠ ⟨.compare cmp, [a, k], t⟩ := by
  rintro rfl
  cases h with
  | moveConstantRight hoperands hkind _ hright =>
    rcases hcmp with rfl | rfl
    · cases hkind
    · cases hkind
  | reverse _ hoperands _ hright =>
    cases hoperands
    rw [hknown] at hright
    cases hright
  | strict hkind _ hweak =>
    cases hkind
    rcases hcmp with rfl | rfl
    · simp at hweak
    · simp at hweak
  | clamp _ hat => cases hat.kind
  | addNegated hkind => cases hkind
  | removeExtension hkind => cases hkind
  | concat hkind => cases hkind
  | swapCases hkind => cases hkind
  | defaultToCase hkind => cases hkind

/-- A clamp in the form that is kept stays one. -/
theorem canonicalClamp_redirect (hm : w.graph.nodes[j]? = some m)
    (hclamp : CanonicalClamp w.graph m) :
    CanonicalClamp (replaced w.graph id r) (redirect id r.node m) := by
  obtain ⟨s, a, k, cmp, t, hkind, hoperands, hs, hcmp, hne, hliteral⟩ := hclamp
  have hk : k < w.graph.nodes.length := w.valuation.operand_lt hm (by simp [hoperands])
  have hsid : s ≠ id := by
    rintro rfl
    exact not_strict h hcmp hliteral (Option.some.inj (hn.symm.trans hs))
  have hkid : k ≠ id := by
    rintro rfl
    obtain ⟨hplain, -⟩ := h.exists_new hextend
    unfold isLiteral at hliteral
    rw [hn] at hliteral
    obtain ⟨kind, os, type⟩ := n
    cases kind with
    | literal value => cases hplain
    | _ => cases hliteral
  obtain ⟨-, i, m', hnode, -⟩ := h.exists_new hextend
  refine ⟨s, if a = id then r.node else a, k, cmp, t, hkind, ?_, ?_, hcmp, ?_, ?_⟩
  · simp [redirect, hoperands, hsid, hkid]
  · rw [replaced_old hs]
    simp [redirect, hkid]
  · split
    · omega
    · exact hne
  · exact (isFullyKnown_replaced hk).trans hliteral

/-! ### What a replacement weighs -/

/-- The weight of a node does not grow when its operands are redirected. -/
theorem weight_redirect {depth : Nat → Nat} (hm : w.graph.nodes[j]? = some m) :
    weight (replaced w.graph id r) (grown w.graph depth) (redirect id r.node m) ≤
      weight w.graph depth m := by
  have hselect : selectWeight (replaced w.graph id r) (grown w.graph depth)
      (redirect id r.node m) ≤ selectWeight w.graph depth m := by
    unfold selectWeight
    cases hkind : m.kind with
    | sel hasDefault =>
      rcases hoperands : m.operands with _ | ⟨s, os⟩
      · simp [redirect, hkind, hoperands]
      · have hs : s < w.graph.nodes.length := w.valuation.operand_lt hm (by simp [hoperands])
        obtain ⟨-, i, m', hnode, -⟩ := h.exists_new hextend
        have hdepth : grown w.graph depth (if s = id then r.node else s) ≤ depth s := by
          split
          · rw [hnode, grown, if_neg (by omega)]
            exact Nat.zero_le _
          · rw [grown, if_pos hs]
        have hcanonical : clampWeight (replaced w.graph id r) (redirect id r.node m) ≤
            clampWeight w.graph m := by
          by_cases hclamp : CanonicalClamp w.graph m
          · have hkept := canonicalClamp_redirect hn h hextend hm hclamp
            rw [clampWeight_canonical hkept]
            exact Nat.zero_le _
          · rw [clampWeight_other hclamp]
            exact clampWeight_le _ _
        have hredirect : redirect id r.node m =
            ⟨.sel hasDefault, (if s = id then r.node else s) ::
              os.map (fun o => if o = id then r.node else o), m.type⟩ := by
          simp [redirect, hkind, hoperands]
        rw [hredirect] at hcanonical ⊢
        exact Nat.add_le_add (Nat.add_le_add_right hdepth _) hcanonical
    | _ => simp [redirect, hkind]
  unfold weight
  rw [misplaced_redirect hn h hextend hm]
  exact Nat.add_le_add_left hselect _

end Replaced

end Canonicalization

end Xls

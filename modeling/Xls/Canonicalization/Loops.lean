import Xls.Canonicalization.Terminates

/-!
# Xls.Canonicalization.Loops

A clamp of a literal by itself turns into the other clamp of it, and back, so the iteration
never ends once it has made one (`meets_of_ends`).
-/

namespace Xls

open List
open Xls.Graph (World redirect)

namespace Canonicalization

variable {env : Env} {args : List Value} {w : World env args} {id : Nat} {n : Node}
  {r : Replacement} {depth : Nat → Nat} {s : Progress} {g : Graph}

/-! ### Single nodes -/

theorem moveConstantRight_none (h : n.kind.isCommutative = false) :
    moveConstantRight g n = none := by
  unfold moveConstantRight
  split
  · simp [h]
  · rfl

/-- Only selects are clamps. -/
theorem maybeCanonicalizeClamp_none (h : ∀ hasDefault, n.kind ≠ .sel hasDefault) :
    maybeCanonicalizeClamp g n = .ok none := by
  have hfind : findClamp g n = none := by
    unfold findClamp
    split
    · rfl
    split
    · rename_i hkind _
      exact absurd hkind (h _)
    · rfl
  rw [maybeCanonicalizeClamp, hfind]

theorem isBits_of_equal {m o : Nat} (h : areEqualConstants g m o = true) : isBits g m = true := by
  rw [areEqualConstants, Bool.and_eq_true, Bool.and_eq_true] at h
  exact h.1.1

variable {t : IrType} {op : CompareOp} {k : Nat} {s' : Progress}

theorem canonicalizeNode_literal {value : Value} {os : List Nat}
    (h : g.nodes[id]? = some ⟨.literal value, os, t⟩) : canonicalizeNode g id = .ok none := by
  rw [canonicalizeNode, h]
  dsimp only
  rw [moveConstantRight_none rfl, maybeCanonicalizeClamp_none (by simp)]
  rfl

/-- Strict comparisons of a known value with itself stay. -/
theorem canonicalizeNode_strict (hop : op = .ugt ∨ op = .ult) (hk : areEqualConstants g k k = true)
    (hknown : isFullyKnown g k = true) (h : g.nodes[id]? = some ⟨.compare op, [k, k], t⟩) :
    canonicalizeNode g id = .ok none := by
  have hcommutative : NodeKind.isCommutative (.compare op) = false := by
    rcases hop with rfl | rfl
    · rfl
    · rfl
  have hreverse : reverseComparison g ⟨.compare op, [k, k], t⟩ = none := by
    simp [reverseComparison, hknown]
  have hstrict : strictComparison g ⟨.compare op, [k, k], t⟩ = .ok none := by
    have hbits := isBits_of_equal hk
    unfold areEqualConstants at hk
    cases hvalue : knownValueAsBits g k with
    | none => simp [hvalue] at hk
    | some c =>
      rcases hop with rfl | rfl
      · simp [strictComparison, hbits, hknown, hvalue, derefOption]
      · simp [strictComparison, hbits, hknown, hvalue, derefOption]
  rw [canonicalizeNode, h]
  dsimp only
  rw [moveConstantRight_none hcommutative, hreverse, hstrict, maybeCanonicalizeClamp_none (by simp)]
  rfl

/-- No rule comes before that for clamps. -/
theorem canonicalizeNode_clamp {hasDefault : Bool} {os : List Nat} {clamp : Clamp}
    (h : g.nodes[id]? = some ⟨.sel hasDefault, os, t⟩)
    (hfind : findClamp g ⟨.sel hasDefault, os, t⟩ = some clamp) :
    canonicalizeNode g id = maybeCanonicalizeClamp g ⟨.sel hasDefault, os, t⟩ := by
  rw [canonicalizeNode, h]
  dsimp only
  rw [moveConstantRight_none rfl, maybeCanonicalizeClamp, hfind]
  dsimp only
  cases isLiteral g clamp.k with
  | true => rfl
  | false => rfl

/-! ### Clamps of a literal by itself -/

/-- A clamp of a literal by itself. -/
structure SelfClamp (g : Graph) (j c k : Nat) (op : CompareOp) (t t' : IrType) : Prop where
  isBits : t.isBits = true
  node : g.nodes[j]? = some ⟨.sel false, [c, k, k], t⟩
  selector : g.nodes[c]? = some ⟨.compare op, [k, k], t'⟩
  op : op = .ugt ∨ op = .ult
  literal : isLiteral g k = true
  constant : areEqualConstants g k k = true

theorem isLiteral_replaced (h : isLiteral g k = true) : isLiteral (replaced g id r) k = true := by
  obtain ⟨value, os, t, hnode⟩ := exists_of_isLiteral h
  rw [isLiteral, replaced_old hnode]
  rfl

/-- The value of a literal does not change. -/
theorem constant_replaced (h : isLiteral g k = true) :
    areEqualConstants (replaced g id r) k k = areEqualConstants g k k := by
  obtain ⟨value, os, t, hnode⟩ := exists_of_isLiteral h
  rw [areEqualConstants, areEqualConstants, Canonicalization.isBits, Canonicalization.isBits,
    knownValueAsBits, knownValueAsBits, replaced_old hnode, hnode]
  cases value with
  | leaf b => rfl
  | node vs =>
    cases t with
    | bits k =>
      cases k with
      | zero => rfl
      | succ k => rfl
    | _ => rfl

/-- The clamp is found, with the other comparison. -/
theorem SelfClamp.findClamp {j c : Nat} {t' : IrType} (h : SelfClamp g j c k op t t') :
    findClamp g ⟨.sel false, [c, k, k], t⟩ = some ⟨k, k, op == .ult⟩ := by
  have hform : clampOf g op k k k k = some ⟨k, k, op == .ult⟩ := by
    rcases h.op with rfl | rfl
    · simp [clampOf, h.constant, not_sequential_self]
    · simp [clampOf, h.constant]
  simp [Canonicalization.findClamp, h.isBits, h.selector, hform]

/-- The rule for clamps makes a clamp of the literal by itself again. -/
theorem selfClamp_made
    (hr : r = ⟨[⟨.compare op, [k, k], .bits 1⟩, ⟨.sel false, [g.nodes.length, k, k], t⟩],
      g.nodes.length + 1⟩) (ht : t.isBits = true) (hop : op = .ugt ∨ op = .ult)
    (hid : id < g.nodes.length) (hk : id ≠ k) (hliteral : isLiteral g k = true)
    (hconstant : areEqualConstants g k k = true) :
    SelfClamp (replaced g id r) (g.nodes.length + 1) g.nodes.length k op t (.bits 1) where
  isBits := ht
  node := by
    have hmade := replaced_made (g := g) (r := r) (i := 1) id (by rw [hr]; rfl)
    simpa [redirect, hk.symm, hid.ne'] using hmade
  selector := by
    have hmade := replaced_made (g := g) (r := r) (i := 0) id (by rw [hr]; rfl)
    simpa [redirect, hk.symm] using hmade
  op := hop
  literal := isLiteral_replaced hliteral
  constant := by
    rw [constant_replaced hliteral]
    exact hconstant

/-- Neither the comparison nor the literal is replaced. -/
theorem SelfClamp.replaced {j c : Nat} {t' : IrType} (h : SelfClamp g j c k op t t')
    (hr : canonicalizeNode g id = .ok (some r)) : SelfClamp (replaced g id r) j c k op t t' := by
  obtain ⟨value, os, tk, hnode⟩ := exists_of_isLiteral h.literal
  have hk : k ≠ id := by
    rintro rfl
    rw [canonicalizeNode_literal hnode] at hr
    cases hr
  have hc : c ≠ id := by
    rintro rfl
    rw [canonicalizeNode_strict h.op h.constant h.literal h.selector] at hr
    cases hr
  refine ⟨h.isBits, ?_, ?_, h.op, isLiteral_replaced h.literal, ?_⟩
  · rw [replaced_old h.node]
    simp [redirect, hk, hc]
  · rw [replaced_old h.selector]
    simp [redirect, hk]
  · rw [constant_replaced h.literal]
    exact h.constant

/-! ### Runs without an end -/

/-- A clamp of a literal by itself is still ahead. -/
def Looping (s : Progress) : Prop :=
  ∃ j c k op t t', SelfClamp s.graph j c k op t t' ∧ j ∉ s.simplifiedNodeIds ∧
    (∀ i ∈ s.simplifiedNodeIds, i < s.graph.nodes.length) ∧
    (s.changedThisTime = true ∨ ∃ i, s.nodeIt = some i ∧ i ≤ j)

theorem lt_of_canonicalizeNode (h : canonicalizeNode g id = .ok (some r)) :
    id < g.nodes.length := by
  by_contra hid
  rw [canonicalizeNode, getElem?_eq_none (not_lt.mp hid)] at h
  cases h

/-- A step of the iteration either leaves the node or replaces it and moves on. -/
theorem step_some {g : Graph} {ids : List Nat} {changed : Bool}
    (h : step ⟨g, ids, changed, some id⟩ = .ok (some s')) :
    s' = ⟨g, ids, changed, next g id⟩ ∧ (Progress.simplifies ⟨g, ids, changed, some id⟩ id = false ∨
          canonicalizeNode g id = .ok none) ∨
      ∃ r, Progress.simplifies ⟨g, ids, changed, some id⟩ id = true ∧
        canonicalizeNode g id = .ok (some r) ∧
        s' = ⟨replaced g id r, id :: ids, true, next g id⟩ := by
  unfold step at h
  dsimp only at h
  split at h
  · rename_i hsimplifies
    obtain ⟨r, hr, h⟩ := Result.bind_eq_ok.1 h
    cases r with
    | none =>
      cases h
      exact .inl ⟨rfl, .inr hr⟩
    | some r =>
      obtain ⟨g', hg', h⟩ := Result.bind_eq_ok.1 h
      cases h
      obtain rfl := replace_eq_ok hg'
      exact .inr ⟨r, hsimplifies, hr, rfl⟩
  · rename_i hskip
    cases h
    exact .inl ⟨rfl, .inl (Bool.not_eq_true _ ▸ hskip)⟩

/-- A clamp that is ahead stays ahead, or another one is made. -/
theorem looping_step (h : Looping s) (hstep : step s = .ok (some s')) : Looping s' := by
  obtain ⟨g, ids, changed, nodeIt⟩ := s
  obtain ⟨j, c, k, op, t, t', hclamp, hj, hids, hahead⟩ := h
  dsimp only at hclamp hj hids hahead
  have hjlt : j < g.nodes.length := (List.getElem?_eq_some_iff.1 hclamp.node).1
  cases nodeIt with
  | none =>
    unfold step at hstep
    dsimp only at hstep
    split at hstep
    · cases hstep
      refine ⟨j, c, k, op, t, t', hclamp, hj, hids, .inr ⟨0, ?_, Nat.zero_le j⟩⟩
      exact if_pos (Nat.zero_lt_of_lt hjlt)
    · cases hstep
  | some id =>
    have hfind := hclamp.findClamp
    have hsimplified : canonicalizeNode g j =
        .ok (some ⟨[⟨.compare (if op == .ult then .ugt else .ult), [k, k], .bits 1⟩,
          ⟨.sel false, [g.nodes.length, k, k], t⟩], g.nodes.length + 1⟩) := by
      rw [canonicalizeNode_clamp hclamp.node hfind, maybeCanonicalizeClamp, hfind]
      dsimp only
      rw [hclamp.literal]
      rfl
    rcases step_some hstep with ⟨rfl, hskip⟩ | ⟨r, -, hr, rfl⟩
    · refine ⟨j, c, k, op, t, t', hclamp, hj, hids, ?_⟩
      rcases hahead with hchanged | ⟨i, hi, hle⟩
      · exact .inl hchanged
      cases hi
      have hne : id ≠ j := by
        rintro rfl
        rcases hskip with hskip | hskip
        · have hcontains : ids.contains id = false := by simpa using hj
          rw [Progress.simplifies, hcontains] at hskip
          simp at hskip
        · rw [hsimplified] at hskip
          cases hskip
      refine .inr ⟨id + 1, ?_, by omega⟩
      exact if_pos (by omega)
    · have hid := lt_of_canonicalizeNode hr
      have hlength : ∀ i ∈ id :: ids, i < (replaced g id r).nodes.length := by
        intro i hi
        rw [length_replaced]
        rcases mem_cons.mp hi with rfl | hi
        · exact Nat.lt_add_right _ hid
        · exact Nat.lt_add_right _ (hids i hi)
      by_cases hne : id = j
      · subst hne
        rw [hsimplified] at hr
        obtain rfl := (Option.some.inj (Except.ok.inj hr)).symm
        obtain ⟨value, os, tk, hnode⟩ := exists_of_isLiteral hclamp.literal
        have hk : id ≠ k := by
          rintro rfl
          rw [hclamp.node] at hnode
          cases hnode
        have hop : (if op == .ult then CompareOp.ugt else .ult) = .ugt ∨
            (if op == .ult then CompareOp.ugt else .ult) = .ult := by
          split
          · exact .inl rfl
          · exact .inr rfl
        refine ⟨_, _, k, _, t, _,
          selfClamp_made rfl hclamp.isBits hop hid hk hclamp.literal hclamp.constant, ?_,
          hlength, .inl rfl⟩
        -- Nodes that were replaced come before the new ones.
        intro hmem
        rcases mem_cons.mp hmem with heq | hmem
        · omega
        · have hlt := hids _ hmem
          omega
      · refine ⟨j, c, k, op, t, t', hclamp.replaced hr, ?_, hlength, .inl rfl⟩
        intro hmem
        rcases mem_cons.mp hmem with heq | hmem
        · exact hne heq.symm
        · exact hj hmem

/-- The loop does not end while a clamp is ahead. -/
theorem looping_not_end (h : Looping s) : step s ≠ .ok none := by
  obtain ⟨g, ids, changed, nodeIt⟩ := s
  obtain ⟨j, c, k, op, t, t', -, -, -, hahead⟩ := h
  intro hend
  cases nodeIt with
  | none =>
    rcases hahead with hchanged | ⟨i, hi, -⟩
    · dsimp only at hchanged
      subst hchanged
      cases hend
    · cases hi
  | some id =>
    unfold step at hend
    dsimp only at hend
    split at hend
    · obtain ⟨r, -, hend⟩ := Result.bind_eq_ok.1 hend
      cases r with
      | none => cases hend
      | some r =>
        obtain ⟨g', -, hend⟩ := Result.bind_eq_ok.1 hend
        cases hend
    · cases hend

/-- A run with a clamp ahead has no end. -/
theorem looping_reaches (h : Looping s) (hreaches : Reaches s s') : step s' ≠ .ok none := by
  induction hreaches with
  | refl s => exact looping_not_end h
  | step hstep _ ih => exact ih (looping_step h hstep)

/-! ### Steps that do not meet the condition -/

/-- A step that does not meet the condition fails or begins a run without an end. -/
theorem meets_of_step (h : Invariant w s depth) (hstep : step s = .ok (some s'))
    (hends : ¬Looping s') : MeetsClamps s := by
  obtain ⟨g, ids, changed, nodeIt⟩ := s
  intro id hit hsimplifies n hn clamp hfind
  dsimp only at hit hsimplifies hn hfind
  subst hit
  obtain ⟨rfl, hretired, hnodeIt, -⟩ := h
  obtain ⟨selector, s, cmp, a, b, c, d, hat⟩ := findClamp_spec hn hfind
  obtain ⟨kind, os, t⟩ := n
  obtain ⟨hbits, hkind, hoperands, hs, hskind, hsoperands, hform⟩ := hat
  dsimp only at hbits hkind hoperands
  subst hkind hoperands
  have hcanonicalize := canonicalizeNode_clamp hn hfind
  rw [maybeCanonicalizeClamp, hfind] at hcanonicalize
  dsimp only at hcanonicalize
  cases hliteral : isLiteral w.graph clamp.k with
  | false =>
    rw [hliteral] at hcanonicalize
    rcases step_some hstep with ⟨-, hskip | hnone⟩ | ⟨r, -, hr, -⟩
    · rw [hsimplifies] at hskip
      cases hskip
    · rw [hcanonicalize] at hnone
      cases hnone
    · rw [hcanonicalize] at hr
      cases hr
  | true =>
    refine ⟨rfl, fun heq => hends ?_⟩
    rw [hliteral] at hcanonicalize
    rcases step_some hstep with ⟨-, hskip | hnone⟩ | ⟨r, -, hr, rfl⟩
    · rw [hsimplifies] at hskip
      cases hskip
    · rw [hcanonicalize] at hnone
      cases hnone
    rw [hcanonicalize] at hr
    obtain rfl := (Option.some.inj (Except.ok.inj hr)).symm
    have hid := lt_of_canonicalizeNode hcanonicalize
    obtain ⟨-, -, -, hk, hconstant⟩ := clampOf_form hform
    have hne : id ≠ clamp.k := by
      have hmem : clamp.k ∈ [selector, d, c] := by
        rcases hk with hk | hk
        · simp [hk]
        · simp [hk]
      exact (operand_ne hn hmem).1.symm
    have hop : (if clamp.isHigh then CompareOp.ugt else .ult) = .ugt ∨
        (if clamp.isHigh then CompareOp.ugt else .ult) = .ult := by
      split
      · exact .inl rfl
      · exact .inr rfl
    refine ⟨_, _, clamp.k, _, t, _,
      selfClamp_made (by rw [heq]) hbits hop hid hne hliteral hconstant, ?_, ?_, .inl rfl⟩
    · intro hmem
      rcases mem_cons.mp hmem with heq | hmem
      · omega
      · have hlt := (hretired _ hmem).1
        dsimp only at hlt
        omega
    · intro i hi
      rw [length_replaced]
      rcases mem_cons.mp hi with rfl | hi
      · exact Nat.lt_add_right _ hid
      · exact Nat.lt_add_right _ (hretired i hi).1

/-- If the loop ends, all of its steps meet the condition. -/
theorem meets_of_ends (h : Invariant w s depth) (hreaches : Reaches s s')
    (hend : step s' = .ok none) : ∀ s'', Reaches s s'' → MeetsClamps s'' := by
  induction hreaches generalizing w depth with
  | refl s =>
    intro s'' hs''
    cases hs'' with
    | refl =>
      obtain ⟨g, ids, changed, nodeIt⟩ := s
      intro id hit
      dsimp only at hit
      subst hit
      exfalso
      unfold step at hend
      dsimp only at hend
      split at hend
      · obtain ⟨r, -, hend⟩ := Result.bind_eq_ok.1 hend
        cases r with
        | none => cases hend
        | some r =>
          obtain ⟨g', -, hend⟩ := Result.bind_eq_ok.1 hend
          cases hend
      · cases hend
    | step hstep =>
      rw [hend] at hstep
      cases hstep
  | @step s s₁ s' hstep hrest ih =>
    have hmeets : MeetsClamps s :=
      meets_of_step h hstep fun hlooping => looping_reaches hlooping hrest hend
    have hnext := step_spec h hmeets
    rw [hstep] at hnext
    rcases hnext with hnext | ⟨s₂, w', depth', hnext, -, h', -⟩
    · cases hnext
    cases hnext
    intro s'' hs''
    cases hs'' with
    | refl => exact hmeets
    | step hstep' hrest' =>
      rw [hstep] at hstep'
      cases hstep'
      exact ih h' hend _ hrest'

end Canonicalization

end Xls

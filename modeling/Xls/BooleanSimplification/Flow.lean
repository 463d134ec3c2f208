import Xls.BooleanSimplification.Tables

/-!
# Xls.BooleanSimplification.Flow

What a logic expression means on truth values of the nodes at its frontier (`Evaluates`).
Both the truth table that flows to a node and the words of a run follow it, row by row and
position by position, so that the table lifts to the words (`lifts_of_flow`).
-/

namespace Xls

open List
open Graph (World)
open Graph.World

namespace BooleanSimplification

/-! ### Logic expressions -/

/-- Below the node are only logic operations, down to the frontier. -/
inductive LogicDag (g : Graph) (frontier : List Nat) : Nat → Prop
  | frontier {id : Nat} : id ∈ frontier → LogicDag g frontier id
  | logic {id : Nat} {n : Node} : g.nodes[id]? = some n → isLogicOp n = true →
      (∀ o ∈ n.operands, LogicDag g frontier o) → LogicDag g frontier id

/-- The truth value of a node, for truth values of the nodes at the frontier. -/
inductive Evaluates (g : Graph) (frontier : List Nat) (σ : Nat → Bool) : Nat → Bool → Prop
  | frontier {id : Nat} : id ∈ frontier → Evaluates g frontier σ id (σ id)
  | nary {id : Nat} {n : Node} {op : NaryOp} {ps : List Bool} : id ∉ frontier →
      g.nodes[id]? = some n → n.kind = .nary op →
      Forall₂ (Evaluates g frontier σ) n.operands ps →
        Evaluates g frontier σ id (truth op ps)
  | not {id : Nat} {n : Node} {o : Nat} {p : Bool} : id ∉ frontier → g.nodes[id]? = some n →
      n.kind = .un .not → n.operands = [o] → Evaluates g frontier σ o p →
        Evaluates g frontier σ id !p

variable {frontier : List Nat}

/-- The frontier may be moved down. -/
theorem LogicDag.trans {g : Graph} {frontier' : List Nat} {id : Nat} (h : LogicDag g frontier id)
    (h' : ∀ f ∈ frontier, LogicDag g frontier' f) : LogicDag g frontier' id := by
  induction h with
  | frontier hid => exact h' _ hid
  | logic hn hlogic _ ih => exact .logic hn hlogic ih

/-- A relation that determines its right side determines lists of them. -/
theorem forall₂_unique {α β : Type} {R S : α → β → Prop} {l : List α} {l' l'' : List β}
    (h : Forall₂ R l l') (h' : Forall₂ S l l'')
    (huniq : ∀ a ∈ l, ∀ b c, R a b → S a c → b = c) : l' = l'' := by
  induction h generalizing l'' with
  | nil =>
    cases h'
    rfl
  | cons hab _ ih =>
    cases h' with
    | cons hac hrest =>
      obtain ⟨hhead, htail⟩ := forall_mem_cons.1 huniq
      rw [hhead _ _ hab hac, ih hrest htail]

/-- Truth values at the frontier determine the truth value of the node. -/
theorem Evaluates.unique {g : Graph} {σ σ' : Nat → Bool} {id : Nat} {p q : Bool}
    (hdag : LogicDag g frontier id) (hσ : ∀ f ∈ frontier, σ f = σ' f)
    (h : Evaluates g frontier σ id p) (h' : Evaluates g frontier σ' id q) : p = q := by
  induction hdag generalizing p q with
  | @frontier id hid =>
    cases h with
    | frontier _ =>
      cases h' with
      | frontier _ => exact hσ id hid
      | nary hnot => exact absurd hid hnot
      | not hnot => exact absurd hid hnot
    | nary hnot => exact absurd hid hnot
    | not hnot => exact absurd hid hnot
  | @logic id n hn hlogic _ ih =>
    cases h with
    | frontier hid =>
      cases h' with
      | frontier _ => exact hσ id hid
      | nary hnot => exact absurd hid hnot
      | not hnot => exact absurd hid hnot
    | nary hnot hn' hkind hps =>
      cases hn.symm.trans hn'
      cases h' with
      | frontier hid => exact absurd hid hnot
      | nary _ hn'' hkind' hqs =>
        cases hn.symm.trans hn''
        cases hkind.symm.trans hkind'
        rw [forall₂_unique hps hqs fun o ho p q hp hq => ih o ho hp hq]
      | not _ hn'' hkind' =>
        cases hn.symm.trans hn''
        cases hkind.symm.trans hkind'
    | not hnot hn' hkind hoperands hp =>
      cases hn.symm.trans hn'
      cases h' with
      | frontier hid => exact absurd hid hnot
      | nary _ hn'' hkind' =>
        cases hn.symm.trans hn''
        cases hkind.symm.trans hkind'
      | not _ hn'' _ hoperands' hq =>
        cases hn.symm.trans hn''
        cases hoperands.symm.trans hoperands'
        rw [ih _ (by rw [hoperands]; exact mem_singleton_self _) hp hq]

/-- A logic operation is a bitwise operation or an inverter. -/
theorem kind_of_isLogicOp {n : Node} (h : isLogicOp n = true) :
    (∃ op, n.kind = .nary op) ∨ n.kind = .un .not := by
  unfold isLogicOp at h
  split at h
  · exact .inl ⟨_, ‹_›⟩
  · exact .inl ⟨_, ‹_›⟩
  · exact .inl ⟨_, ‹_›⟩
  · exact .inl ⟨_, ‹_›⟩
  · exact .inr ‹_›
  · cases h

/-! ### Words -/

section Words

variable {env : Env} {args : List Value} {w : World env args} {frontier : List Nat} {m : Nat}

/-- The bit of a node at a position. -/
def bitAt (vals : List Value) (j : Nat) (id : Nat) : Bool :=
  match vals[id]? with
  | some (.leaf x) => x.get j
  | _ => false

variable {id : Nat} {os : List Nat} {types : List IrType} {xs : List Bits}

theorem bitAt_of_value {vals : List Value} {j : Nat} {x : Bits} (h : vals[id]? = some (.leaf x)) :
    bitAt vals j id = x.get j := by
  rw [bitAt, h]

/-- A word that has the truth value of its node at every position. -/
structure WordAt (w : World env args) (frontier : List Nat) (m : Nat) (id : Nat) (x : Bits) :
    Prop where
  value : w.vals[id]? = some (.leaf x)
  width : x.width = m
  evaluates : ∀ j < m, Evaluates w.graph frontier (bitAt w.vals j) id (x.get j)

theorem holds_of_bits (h : w.graph.nodes[id]?.map Node.type = some (.bits m)) :
    ∃ x : Bits, w.vals[id]? = some (.leaf x) ∧ x.width = m := by
  obtain ⟨x, hwidth, hx⟩ := holds_of_type h (lt_add_one (w.rank id))
  exact ⟨x, hx.value, hwidth⟩

/-- The operands of a logic operation, with their words. -/
theorem words_of_operands {b : ℚ} {ops : List Value}
    (h : Canonicalization.Operands w b os types ops)
    (hwords : ∀ o ∈ os, ∃ x, WordAt w frontier m o x) :
    ∃ xs : List Bits, ops = xs.map .leaf ∧ Forall₂ (WordAt w frontier m) os xs := by
  induction h with
  | nil => exact ⟨[], rfl, .nil⟩
  | cons ho _ ih =>
    obtain ⟨⟨x, hx⟩, hrest⟩ := forall_mem_cons.1 hwords
    obtain ⟨xs, rfl, hxs⟩ := ih hrest
    have hvalue := ho.value
    rw [hx.value] at hvalue
    cases hvalue
    exact ⟨x :: xs, rfl, .cons hx hxs⟩

theorem operand_type {t : IrType} (h : operandTypes w.graph.nodes os = some types)
    (hall : ∀ u ∈ types, u = t) : ∀ o ∈ os, w.graph.nodes[o]?.map Node.type = some t := by
  intro o ho
  obtain ⟨i, hi, rfl⟩ := getElem_of_mem ho
  rw [operandTypes, LeafTree.collect_eq_some] at h
  have hi' : i < types.length := by rwa [← h.length_eq]
  have hget := h.get hi hi'
  rw [get_eq_getElem, get_eq_getElem, hall _ (getElem_mem hi')] at hget
  exact hget

variable {n : Node} {g : Graph} {v : Bits} {memo : List (Nat × Bits)}

/-- The operands of a logic operation have its type. -/
theorem types_of_isLogicOp {params : List IrType} (hlogic : isLogicOp n = true)
    (h : verifyNode params n.kind types n.type = true) :
    n.type.isBits = true ∧ ∀ u ∈ types, u = n.type := by
  rcases kind_of_isLogicOp hlogic with ⟨op, hkind⟩ | hkind
  · rw [hkind] at h
    cases types with
    | nil => cases h
    | cons t ts =>
      simp only [verifyNode, Bool.and_eq_true, all_eq_true, beq_iff_eq] at h
      exact h
  · rw [hkind] at h
    cases types with
    | nil => cases h
    | cons t ts =>
      cases ts with
      | nil =>
        simp only [verifyNode, Bool.and_eq_true, beq_iff_eq, Bool.or_eq_true] at h
        obtain ⟨rfl, hbits⟩ := h
        refine ⟨?_, fun u hu => mem_singleton.1 hu⟩
        rcases hbits with hbits | hbits
        · cases hbits
        · exact hbits
      | cons => cases h

/-- The interpreter runs the operation on the words of the operands. -/
theorem exists_flowOp {v : Value} (hlogic : isLogicOp n = true)
    (h : Interpreter.evalNode env args n.kind n.type (xs.map .leaf) = .ok v) :
    ∃ r, flowOp n.kind xs = .ok r ∧ v = .leaf r := by
  rcases kind_of_isLogicOp hlogic with ⟨op, hkind⟩ | hkind
  · rw [hkind] at h ⊢
    change (Interpreter.bitsVector _ >>= fun xs => Interpreter.naryOp op xs >>= fun r => _) = _ at h
    rw [Interpreter.bitsVector_leaves, Result.ok_bind] at h
    obtain ⟨r, hr, h⟩ := Result.bind_eq_ok.1 h
    cases h
    exact ⟨r, hr, rfl⟩
  · rw [hkind] at h ⊢
    match xs, h with
    | [x], h =>
      cases h
      exact ⟨x.not, rfl, rfl⟩

/-- An operation on words that follow the truth values of the operands follows those of the
node. -/
theorem evaluates_flowOp {σ : Nat → Nat → Bool} {r : Bits} (hid : id ∉ frontier)
    (hn : g.nodes[id]? = some n) (hlogic : isLogicOp n = true)
    (h : Forall₂ (fun o (x : Bits) => x.width = m ∧
      ∀ j < m, Evaluates g frontier (σ j) o (x.get j)) n.operands xs)
    (hr : flowOp n.kind xs = .ok r) :
    r.width = m ∧ ∀ j < m, Evaluates g frontier (σ j) id (r.get j) := by
  have hwidths : ∀ x ∈ xs, x.width = m := by
    intro x hx
    obtain ⟨i, hi, rfl⟩ := getElem_of_mem hx
    exact (h.get (by rwa [h.length_eq]) hi).1
  have hevaluates : ∀ j < m, Forall₂ (Evaluates g frontier (σ j)) n.operands
      (xs.map fun x => x.get j) := by
    intro j hj
    rw [forall₂_map_right_iff]
    exact h.imp fun o x hx => hx.2 j hj
  rcases kind_of_isLogicOp hlogic with ⟨op, hkind⟩ | hkind
  · rw [hkind] at hr
    have hne : xs ≠ [] := by
      intro hnil
      rw [hnil] at hr
      cases op <;> cases hr
    obtain ⟨r', hr', hwidth, hget⟩ := naryOp_get op hne hwidths
    cases hr'.symm.trans hr
    refine ⟨hwidth, fun j hj => ?_⟩
    rw [hget j hj]
    exact .nary hid hn hkind (hevaluates j hj)
  · rw [hkind] at hr
    have hone : ∃ x, xs = [x] := by
      match xs, hr with
      | [x], _ => exact ⟨x, rfl⟩
    obtain ⟨x, rfl⟩ := hone
    obtain ⟨o, hoperands⟩ := length_eq_one_iff.1 h.length_eq
    have hx := hwidths x mem_cons_self
    cases hr
    refine ⟨hx, fun j hj => ?_⟩
    rw [Bits.get_not (by rwa [hx])]
    have hoperand := hevaluates j hj
    rw [hoperands] at hoperand
    exact .not hid hn hkind hoperands (forall₂_cons.1 hoperand).1

/-- Every node of the expression has a word that follows its truth values. -/
theorem exists_wordAt (hdag : LogicDag w.graph frontier id)
    (htype : w.graph.nodes[id]?.map Node.type = some (.bits m)) :
    ∃ x, WordAt w frontier m id x := by
  have hfrontier : ∀ {id : Nat}, id ∈ frontier →
      w.graph.nodes[id]?.map Node.type = some (.bits m) → ∃ x, WordAt w frontier m id x := by
    intro id hid htype
    obtain ⟨x, hx, hwidth⟩ := holds_of_bits htype
    refine ⟨x, hx, hwidth, fun j _ => ?_⟩
    rw [← bitAt_of_value hx]
    exact .frontier hid
  -- induction on the expression; a node at the frontier stands for itself, whatever it is
  induction hdag with
  | @frontier id hid => exact hfrontier hid htype
  | @logic id n hn hlogic _ ih =>
    by_cases hid : id ∈ frontier
    · exact hfrontier hid htype
    · obtain ⟨types, ops, v, hat⟩ := Canonicalization.exists_at hn
      rw [hn] at htype
      have htype : n.type = .bits m := Option.some.inj htype
      obtain ⟨-, hall⟩ := types_of_isLogicOp hlogic hat.verified
      rw [htype] at hall
      have hwords : ∀ o ∈ n.operands, ∃ x, WordAt w frontier m o x := fun o ho =>
        ih o ho (operand_type hat.operands.types hall o ho)
      obtain ⟨xs, rfl, hxs⟩ := words_of_operands hat.operands hwords
      obtain ⟨r, hr, rfl⟩ := exists_flowOp hlogic hat.eval
      obtain ⟨hwidth, hevaluates⟩ := evaluates_flowOp hid hn hlogic
        (hxs.imp fun _ _ hx => ⟨hx.width, hx.evaluates⟩) hr
      exact ⟨r, hat.value, hwidth, hevaluates⟩

/-! ### Tables -/

/-- The truth value that a node at the frontier has in a row. -/
def rowValue (frontier : List Nat) (k : Nat) (id : Nat) : Bool :=
  ((frontierVector frontier id).map fun v => v.get k).getD false

/-- A table that has the truth value of its node in every row. -/
structure FlowsTo (g : Graph) (frontier : List Nat) (id : Nat) (v : Bits) : Prop where
  rows : v.width = 8
  evaluates : ∀ k < 8, Evaluates g frontier (rowValue frontier k) id (v.get k)

def MemoFlows (g : Graph) (frontier : List Nat) (memo : List (Nat × Bits)) : Prop :=
  ∀ id v, memo.lookup id = some v → FlowsTo g frontier id v

theorem memoFlows_nil (g : Graph) (frontier : List Nat) : MemoFlows g frontier [] :=
  fun _ _ h => nomatch h

/-- A memo that flows, extended by a node that flows. -/
theorem MemoFlows.cons {g : Graph} {memo : List (Nat × Bits)} (h : MemoFlows g frontier memo)
    {id : Nat} {v : Bits} (hv : FlowsTo g frontier id v) :
    MemoFlows g frontier ((id, v) :: memo) := by
  intro id' v' hlookup
  rw [lookup_cons] at hlookup
  by_cases hsame : id' = id
  · rw [beq_iff_eq.2 hsame] at hlookup
    cases hlookup
    rw [hsame]
    exact hv
  · rw [beq_eq_false_iff_ne.2 hsame] at hlookup
    exact h id' v' hlookup

/-- The vector of a node on the frontier is the initial one of its place. -/
theorem mem_of_frontierVector (h : frontierVector frontier id = some v) :
    ∃ i : Fin 3, frontier[i.val]? = some id ∧ v = TruthTable.getInitialVector i := by
  unfold frontierVector at h
  split at h
  · cases h
    exact ⟨0, ‹_›, rfl⟩
  · split at h
    · cases h
      exact ⟨1, ‹_›, rfl⟩
    · split at h
      · cases h
        exact ⟨2, ‹_›, rfl⟩
      · cases h

/-- The nodes on the frontier have vectors. -/
theorem frontierVector_of_mem (hlength : frontier.length ≤ 3) (h : id ∈ frontier) :
    (frontierVector frontier id).isSome = true := by
  obtain ⟨i, hi, rfl⟩ := getElem_of_mem h
  have hget : frontier[i]? = some frontier[i] := getElem?_eq_getElem hi
  obtain rfl | rfl | rfl : i = 0 ∨ i = 1 ∨ i = 2 := by omega
  · rw [frontierVector, if_pos hget]
    rfl
  · unfold frontierVector
    split <;> rfl
  · unfold frontierVector
    split
    · rfl
    · split <;> rfl

theorem flowsTo_frontier (h : frontierVector frontier id = some v) : FlowsTo g frontier id v := by
  obtain ⟨i, hi, rfl⟩ := mem_of_frontierVector h
  refine ⟨getInitialVector_width i, fun k _ => ?_⟩
  have hrow : (TruthTable.getInitialVector i).get k = rowValue frontier k id := by
    rw [rowValue, h]
    rfl
  rw [hrow]
  exact .frontier (mem_of_getElem? hi)

/-- The flow of an operation on the tables of its operands. -/
theorem flowOp_ok (hid : id ∉ frontier) (hn : w.graph.nodes[id]? = some n)
    (hlogic : isLogicOp n = true) {vs : List Bits}
    (h : Forall₂ (FlowsTo w.graph frontier) n.operands vs) :
    ∃ v, flowOp n.kind vs = .ok v ∧ FlowsTo w.graph frontier id v := by
  obtain ⟨types, htypes, hverify⟩ := w.verified id n hn
  have hlength : types.length = n.operands.length := by
    rw [operandTypes, LeafTree.collect_eq_some] at htypes
    exact htypes.length_eq.symm
  have hrows : ∀ v ∈ vs, v.width = 8 := by
    intro v hv
    obtain ⟨i, hi, rfl⟩ := getElem_of_mem hv
    exact (h.get (by rwa [h.length_eq]) hi).rows
  -- the verifier has checked the number of operands
  have hok : ∃ v, flowOp n.kind vs = .ok v := by
    rcases kind_of_isLogicOp hlogic with ⟨op, hkind⟩ | hkind
    · have hne : vs ≠ [] := by
        intro hnil
        rw [hnil] at h
        rw [forall₂_nil_right_iff.1 h, length_nil, length_eq_zero_iff] at hlength
        rw [hkind, hlength] at hverify
        cases hverify
      obtain ⟨v, hv, -, -⟩ := naryOp_get op hne hrows
      rw [hkind]
      exact ⟨v, hv⟩
    · have hone : ∃ t, types = [t] := by
        rw [hkind] at hverify
        match types, hverify with
        | [t], _ => exact ⟨t, rfl⟩
      obtain ⟨t, rfl⟩ := hone
      obtain ⟨v, rfl⟩ := length_eq_one_iff.1 (h.length_eq.symm.trans hlength.symm)
      rw [hkind]
      exact ⟨v.not, rfl⟩
  obtain ⟨v, hv⟩ := hok
  obtain ⟨rows, evaluates⟩ := evaluates_flowOp hid hn hlogic
    (h.imp fun _ _ hv => ⟨hv.rows, hv.evaluates⟩) hv
  exact ⟨v, hv, rows, evaluates⟩

/-- The loop over the operands, which hands on the results that are memoized. -/
theorem flowOperands_ok {flow : Nat → List (Nat × Bits) → Result (Bits × List (Nat × Bits))}
    (hflow : ∀ o ∈ os, ∀ memo, MemoFlows g frontier memo → ∃ v memo',
      flow o memo = .ok (v, memo') ∧ FlowsTo g frontier o v ∧ MemoFlows g frontier memo')
    (acc : List Bits) (hmemo : MemoFlows g frontier memo) :
    ∃ vs memo', os.foldlM (fun (state : List Bits × List (Nat × Bits)) operand => do
        let (result, memo) ← flow operand state.2
        return (state.1 ++ [result], memo)) (acc, memo) = .ok (acc ++ vs, memo') ∧
      Forall₂ (FlowsTo g frontier) os vs ∧ MemoFlows g frontier memo' := by
  induction os generalizing acc memo with
  | nil => exact ⟨[], memo, by rw [append_nil]; rfl, .nil, hmemo⟩
  | cons o os ih =>
    obtain ⟨ho, hos⟩ := forall_mem_cons.1 hflow
    obtain ⟨v, memo₁, hv, hflows, hmemo₁⟩ := ho memo hmemo
    obtain ⟨vs, memo₂, hvs, hrest, hmemo₂⟩ := ih hos (acc ++ [v]) hmemo₁
    refine ⟨v :: vs, memo₂, ?_, .cons hflows hrest, hmemo₂⟩
    rw [foldlM_cons, hv]
    rw [List.append_assoc, singleton_append] at hvs
    exact hvs

/-- The flow reaches every node of the expression. Each step goes down in rank, so that the
number of nodes below bounds the depth. -/
theorem flowFromFrontierToNode_ok (hlength : frontier.length ≤ 3) {fuel : Nat}
    (hdag : LogicDag w.graph frontier id) (hfuel : w.graph.below w.rank id < fuel)
    (hmemo : MemoFlows w.graph frontier memo) :
    ∃ v memo', flowFromFrontierToNode w.graph frontier fuel id memo = .ok (v, memo') ∧
      FlowsTo w.graph frontier id v ∧ MemoFlows w.graph frontier memo' := by
  induction fuel generalizing id memo with
  | zero => omega
  | succ fuel ih =>
    rw [flowFromFrontierToNode]
    split
    · rename_i v hlookup
      exact ⟨v, memo, rfl, hmemo id v hlookup, hmemo⟩
    · split
      · rename_i v hv
        exact ⟨v, _, rfl, flowsTo_frontier hv, hmemo.cons (flowsTo_frontier hv)⟩
      · rename_i hnone
        have hid : id ∉ frontier := by
          intro hin
          have hsome := frontierVector_of_mem hlength hin
          rw [hnone] at hsome
          cases hsome
        cases hdag with
        | frontier hin => exact absurd hin hid
        | @logic _ n hn hlogic hdag =>
          have hflow : ∀ o ∈ n.operands, ∀ memo, MemoFlows w.graph frontier memo →
              ∃ v memo', flowFromFrontierToNode w.graph frontier fuel o memo =
                .ok (v, memo') ∧ FlowsTo w.graph frontier o v ∧
                  MemoFlows w.graph frontier memo' := by
            intro o ho memo hmemo
            refine ih (hdag o ho) ?_ hmemo
            have hlt := Graph.below_lt (w.valuation.operand_lt hn ho) (w.ranked id n hn o ho)
            omega
          obtain ⟨vs, memo', hvs, hall, hmemo'⟩ := flowOperands_ok hflow [] hmemo
          obtain ⟨v, hv, hflows⟩ := flowOp_ok hid hn hlogic hall
          refine ⟨v, (id, v) :: memo', ?_, hflows, hmemo'.cons hflows⟩
          have hderef : derefOption w.graph.nodes[id]? = .ok n := by
            rw [hn]
            rfl
          rw [hderef, Result.ok_bind, hvs, Result.ok_bind, nil_append]
          dsimp only
          rw [hv]
          rfl

/-- The table that flows to a node lifts to its word. -/
theorem lifts_of_flow (hlength : frontier.length ≤ 3)
    (hxs : Forall₂ (fun f x => w.vals[f]? = some (.leaf x)) frontier xs) {x : Bits}
    (hdag : LogicDag w.graph frontier id) (hv : FlowsTo w.graph frontier id v)
    (hx : WordAt w frontier m id x) : Lifts xs m v x where
  rows := hv.rows
  width := hx.width
  get := by
    intro j hj k hk hrow
    refine Evaluates.unique hdag ?_ (hx.evaluates j hj) (hv.evaluates k hk)
    intro f hf
    obtain ⟨v', hv'⟩ := Option.isSome_iff_exists.1 (frontierVector_of_mem hlength hf)
    obtain ⟨i, hi, rfl⟩ := mem_of_frontierVector hv'
    obtain ⟨hi', hget⟩ := List.getElem?_eq_some_iff.1 hi
    have hlt : i.val < xs.length := by rwa [← hxs.length_eq]
    have hvalue := hxs.get hi' hlt
    rw [get_eq_getElem, get_eq_getElem, hget] at hvalue
    rw [bitAt_of_value hvalue, rowValue, hv']
    exact (hrow i _ (getElem?_eq_getElem hlt)).symm

end Words

end BooleanSimplification

end Xls

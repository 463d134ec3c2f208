import Xls.AbstractNodeEvaluator.Total
import Xls.BddFunction.Run

/-!
# Xls.BddFunction.Evaluate

`BddFunction::Evaluate`: the value of a function from its diagrams. Nodes that are
saturated or not of a bits type are interpreted; the bits of the others are read off
the diagram, under the values of the variables collected so far.

`run_evaluate` says that `Run` always returns and that `Evaluate` then computes what
the interpreter computes. A node that is not saturated only mentions variables of
nodes before it, so no variable is missing when it is evaluated.
-/

namespace Xls

open Interpreter LeafTree BinaryDecisionDiagram Evaluator List Result
open SaturatingBddEvaluator (Stands evaluator evaluator_total)

namespace BddFunction

/-! ### Evaluation -/

/-- `OpIsSideEffecting`. -/
def isSideEffecting : NodeKind → Bool
  | .param _ | .assert | .cover | .trace | .gate => true
  | _ => false

def isGate : NodeKind → Bool
  | .gate => true
  | _ => false

/-- `InterpretNode` outside of an interpreter. -/
def interpretNode (env : Env) (args : List Value) (n : Node) (operands : List Value) :
    Result Value :=
  if isSideEffecting n.kind && !isGate n.kind then
    .error (.status "Cannot interpret side-effecting op outside of an interpreter.")
  else Interpreter.interpretNode env args n operands

/-- The bits of a vector under the values of the variables. -/
def evaluateBits (s : BddState) (variableValues : Nat → Option Bool) : List Nat → Result (List Bool)
  | [] => .ok []
  | i :: is => do
    let bit ← s.bdd.evaluate i variableValues
    let rest ← evaluateBits s variableValues is
    return bit :: rest

section Evaluate

variable (env : Env) (args : List Value) (bf : BddFunction)

/-- The value of a node, given those of the nodes before it. -/
def evaluateNode (values : List Value) (variableValues : Nat → Option Bool) (n : Node) :
    Result Value :=
  match n.kind with
  | .param index => derefOption args[index]?
  | _ =>
    if isSideEffecting n.kind && n.type == .token then .ok Value.token
    else if !n.type.isBits || bf.saturatedExpressions[values.length]? == some true then do
      let operands ← derefOption (collect (fun o => values[o]?) n.operands)
      interpretNode env args n operands
    else
      match bf.nodeMap[values.length]? with
      | some (some vector) => do
        let bits ← evaluateBits bf.bdd variableValues vector
        return .leaf (Bits.ofBools bits)
      | _ => .error .check

/-- The bits of base nodes are the values of their variableValues. -/
def assignBits (s : BddState) (variableValues : Nat → Option Bool) :
    List Nat → List Bool → Nat → Option Bool
  | i :: is, bit :: bits =>
    let variableValues :=
      if s.bdd.isVariableBaseNode i then Function.update variableValues i (some bit)
      else variableValues
    assignBits s variableValues is bits
  | _, _ => variableValues

/-- The variables of a node are assigned from its value. -/
def assign (id : Nat) (result : Value) (variableValues : Nat → Option Bool) :
    Result (Nat → Option Bool) :=
  match bf.nodeMap[id]? with
  | some (some vector) => do
    let b ← result.bits
    return assignBits bf.bdd variableValues vector b.toBools
  | _ => .ok variableValues

/-- The loop of `Evaluate` over the nodes. -/
def evaluateNodes : List Value → (Nat → Option Bool) → List Node → Result (List Value)
  | values, _, [] => .ok values
  | values, variableValues, n :: ns => do
    let result ← evaluateNode env args bf values variableValues n
    let variableValues ← assign bf values.length result variableValues
    evaluateNodes (values ++ [result]) variableValues ns

/-- `BddFunction::Evaluate`. -/
def evaluate : Result Value :=
  if args.length ≠ bf.function.params.length then
    .error (.status "XLS_RET_CHECK failure: args.size() == function->params().size()")
  else do
    let values ← evaluateNodes env args bf [] (fun _ => none) bf.function.nodes
    derefOption values[bf.function.returnValue]?

end Evaluate

/-! ### The loop returns -/

/-- A visited node of a bits type has a vector of its width, made of indices. -/
structure Sized (s : BddState) (o : BddValue) : Prop where
  indexed : ∀ vec, o.vector = some vec → ∀ e ∈ vec, ∃ i, e = .index i ∧ s.Valid i
  vector : ∀ w, o.node.type = .bits w → ∃ vec, o.vector = some vec ∧ vec.length = w

variable {s : BddState} {n : Node} {params : List IrType} {values : List BddValue} {ns : List Node}

theorem Sized.mono {t : BddState} (hst : s.bdd.Grows t.bdd) {o : BddValue} (h : Sized s o) :
    Sized t o := by
  refine ⟨fun vec hvec e he => ?_, h.vector⟩
  obtain ⟨i, hi, hv⟩ := h.indexed vec hvec e he
  exact ⟨i, hi, hv.mono hst⟩

/-- What an element denotes, with a default for `TooManyPaths`. -/
def bitOf (s : BddState) : SaturatingBddNodeIndex → Bool
  | .index i => s.denote (fun _ => false) i
  | .tooManyPaths => false

theorem forget_total {es : List SaturatingBddNodeIndex}
    (hes : ∀ e ∈ es, SaturatingBddEvaluator.Valid s e) :
    ∃ r s', forget es s = .ok (r, s') ∧ s.bdd.Grows s'.bdd ∧ r.length = es.length ∧
      ∀ e ∈ r, ∃ i, e = .index i ∧ s'.Valid i := by
  have hstands : Forall₂ (Stands s fun _ => false) es (es.map (bitOf s)) := by
    rw [forall₂_map_right_iff, forall₂_same]
    intro e he i hi
    exact ⟨hes e he i hi, by rw [hi]; rfl⟩
  obtain ⟨r, s', σ', hrun, hext, hrep, -⟩ := forget_represents hstands
  refine ⟨r, s', hrun, hext.grows, ?_, hrep.valid⟩
  rw [hrep.stands.length_eq, length_map]

/-- New variables fill a vector of the width of the node. -/
theorem createNewNodeVector_total {w : Nat} (hw : n.type = .bits w) (s : BddState) :
    ∃ r s', createNewNodeVector n s = .ok (r, s') ∧ s.bdd.Grows s'.bdd ∧ r.length = w ∧
      ∀ e ∈ r, ∃ i, e = .index i ∧ s'.Valid i := by
  have hvalid : ∀ e ∈ List.replicate n.type.flatBitCount SaturatingBddNodeIndex.tooManyPaths,
      SaturatingBddEvaluator.Valid s e := by
    intro e he i hi
    rw [eq_of_mem_replicate he] at hi
    cases hi
  obtain ⟨r, s', hrun, hgrows, hlen, hall⟩ := forget_total hvalid
  refine ⟨r, s', hrun, hgrows, ?_, hall⟩
  rw [hlen, length_replicate, hw]
  simp [IrType.flatBitCount, IrType.shape, LeafTree.leaves]

/-- A node that is evaluated and has no default handler has a total one. -/
theorem isTotal_of_shouldEvaluate {operands : List Node} (h : shouldEvaluate n operands = true)
    (hdefault : hasDefaultHandler n = false) : isTotal n.kind = true := by
  unfold shouldEvaluate at h
  rw [Bool.and_eq_true] at h
  unfold hasDefaultHandler at hdefault
  cases hk : n.kind with
  | un op =>
    rw [hk] at h
    cases op <;> simp_all [isTotal]
  | compare op =>
    rw [hk] at h
    cases op <;> simp_all [isTotal, isExpressedCompare]
  | dynamicBitSlice w =>
    rw [hk] at hdefault
    cases hdefault
  | _ =>
    rw [hk] at h
    first | rfl | cases h.2

variable {operands : List BddValue} {positions : List Nat} {types : List IrType} {σ : Nat → Bool}
  {bits : List Bool} {variableValues : Nat → Option Bool} {pathLimit : Int}
  {nodeFilter : Option (Nat → Bool)}

/-- Operands of bits types have vectors. -/
theorem collect_operandOf (hsized : ∀ o ∈ operands, Sized s o)
    (hbits : ∀ o ∈ operands, o.node.type.isBits = true) :
    ∃ ops, collect operandOf operands = some ops ∧
      (∀ o ∈ ops, VectorOperand SaturatingBddEvaluator.Valid s o) ∧
      ops.map (fun o => o.node.type) = operands.map fun o => o.node.type := by
  induction operands with
  | nil => exact ⟨[], rfl, by simp, rfl⟩
  | cons o operands ih =>
    rw [forall_mem_cons] at hsized hbits
    obtain ⟨ops, hops, hall, htypes⟩ := ih hsized.2 hbits.2
    obtain ⟨w, hw⟩ := IrType.eq_bits_of_isBits hbits.1
    obtain ⟨vec, hvec, hlen⟩ := hsized.1.vector w hw
    have hvalid := hsized.1.indexed vec hvec
    refine ⟨⟨o.node, .leaf vec⟩ :: ops, ?_, forall_mem_cons.2 ⟨?_, hall⟩, ?_⟩
    · rw [collect, operandOf, hvec, hops]
      rfl
    · refine ⟨w, vec, hw, rfl, hlen, fun e he i hi => ?_⟩
      obtain ⟨j, hj, hv⟩ := hvalid e he
      cases hj.symm.trans hi
      exact hv
    · rw [map_cons, map_cons, htypes]

/-- Whether a node is evaluated or gets variables, its vector has the width of its type. -/
theorem nodeVector_total {w : Nat} (hw : n.type = .bits w) (hsized : ∀ o ∈ operands, Sized s o)
    (hver : verifyNode params n.kind (operands.map fun o => o.node.type) n.type = true)
    (pathLimit : Int) (filtered : Bool) :
    ∃ r saturated s', nodeVector pathLimit filtered n operands s = .ok (r, saturated, s') ∧
      s.bdd.Grows s'.bdd ∧ r.length = w ∧ ∀ e ∈ r, ∃ i, e = .index i ∧ s'.Valid i := by
  obtain ⟨fresh, t, hfresh, hfgrows, hflen, hfall⟩ := createNewNodeVector_total hw s
  unfold nodeVector
  split
  · exact ⟨fresh, true, t, by rw [hfresh]; rfl, hfgrows, hflen, hfall⟩
  rename_i hcond
  simp only [Bool.or_eq_true, Bool.not_eq_true', any_eq_true, not_or, not_exists, not_and,
    Bool.not_eq_false] at hcond
  obtain ⟨⟨hshould, -⟩, hbits⟩ := hcond
  obtain ⟨ops, hops, hall, htypes⟩ := collect_operandOf hsized hbits
  unfold evaluateVector
  rw [hops]
  change ∃ r saturated s', (if hasDefaultHandler n = true then _ else _) = _ ∧ _
  split
  · exact ⟨fresh, true, t, by rw [hfresh]; rfl, hfgrows, hflen, hfall⟩
  rename_i hdefault
  rw [Bool.not_eq_true] at hdefault
  rw [← htypes] at hver
  have hensures : Grow.Ensures s ((evaluator pathLimit).abstractNode (Grow.fail .check) n ops)
      (VectorResult SaturatingBddEvaluator.Valid w) :=
    evaluator_total.abstractNode (isTotal_of_shouldEvaluate hshould hdefault) hw hall hver
  obtain ⟨value, u, hrun, vec, rfl, hlen, hvalid⟩ := hensures s (le_refl s)
  obtain ⟨r, s', hforget, hgrows, hrlen, hrall⟩ := forget_total hvalid
  have hle : s ≤ u := Grow.mono _ _ _ _ hrun
  refine ⟨r, vec.contains .tooManyPaths, s', ?_, hle.1.trans hgrows, hrlen.trans hlen, hrall⟩
  rw [hrun]
  change (forget vec u >>= fun p => _) = _
  rw [hforget]
  rfl

theorem collect_sized {found : List BddValue} (h : ∀ o ∈ values, Sized s o)
    (hf : collect (fun o => values[o]?) positions = some found) : ∀ o ∈ found, Sized s o := by
  rw [collect_eq_some] at hf
  intro o ho
  obtain ⟨i, hi, rfl⟩ := getElem_of_mem ho
  have hget := Forall₂.get hf (by rwa [hf.length_eq]) hi
  exact h _ (mem_of_getElem? hget)

/-- Operands that have types are found. -/
theorem collect_of_operandTypes
    (h : operandTypes (values.map BddValue.node) positions = some types) :
    ∃ found, collect (fun o => values[o]?) positions = some found := by
  unfold operandTypes at h
  rw [collect_eq_some] at h
  induction h with
  | nil => exact ⟨[], rfl⟩
  | @cons i t is ts hi _ ih =>
    obtain ⟨found, hfound⟩ := ih
    rw [getElem?_map, Option.map_map, Option.map_eq_some_iff] at hi
    obtain ⟨o, ho, -⟩ := hi
    exact ⟨o :: found, by rw [collect, ho, hfound]⟩

/-- The loop of `Run` returns on verified nodes. -/
theorem visitNodes_total (pathLimit : Int) (nodeFilter : Option (Nat → Bool))
    (hsized : ∀ o ∈ values, Sized s o)
    (hver : verifyFrom params (values.map BddValue.node) ns = true) :
    ∃ values' s', visitNodes pathLimit nodeFilter values s ns = .ok (values', s') ∧
      ∀ o ∈ values', Sized s' o := by
  induction ns generalizing values s with
  | nil => exact ⟨values, s, rfl, hsized⟩
  | cons n ns ih =>
    rw [verifyFrom, Bool.and_eq_true] at hver
    obtain ⟨hn, hns⟩ := hver
    cases htypes : operandTypes (values.map BddValue.node) n.operands with
    | none => simp [htypes] at hn
    | some types =>
      obtain ⟨found, hfound⟩ := collect_of_operandTypes htypes
      rw [htypes] at hn
      dsimp only at hn
      rw [← collect_nodeTypes hfound htypes] at hn
      rw [visitNodes, hfound]
      by_cases hbits : n.type.isBits = true
      · obtain ⟨w, hw⟩ := IrType.eq_bits_of_isBits hbits
        obtain ⟨r, saturated, t, hr, hgrows, hlen, hall⟩ := nodeVector_total hw
          (collect_sized hsized hfound) hn pathLimit
          ((nodeFilter.map fun keep => !keep values.length).getD false)
        have hnext : ∀ o ∈ values ++ [⟨n, some r, saturated⟩], Sized t o := by
          intro o ho
          rcases mem_append.1 ho with ho | ho
          · exact (hsized o ho).mono hgrows
          · rw [mem_singleton.1 ho]
            refine ⟨fun vec hvec => ?_, fun w' hw' => ⟨r, rfl, ?_⟩⟩
            · cases hvec
              exact hall
            · cases hw.symm.trans hw'
              exact hlen
        obtain ⟨values', s', hrun, hsized'⟩ := ih hnext (by rwa [map_append])
        refine ⟨values', s', ?_, hsized'⟩
        change (if n.type.isBits = true then _ else _) = _
        rw [if_pos hbits, hr]
        exact hrun
      · have hnext : ∀ o ∈ values ++ [⟨n, none, false⟩], Sized s o := by
          intro o ho
          rcases mem_append.1 ho with ho | ho
          · exact hsized o ho
          · rw [mem_singleton.1 ho]
            refine ⟨fun vec hvec => (by cases hvec), fun w hw => ?_⟩
            change n.type = _ at hw
            rw [hw] at hbits
            exact absurd rfl hbits
        obtain ⟨values', s', hrun, hsized'⟩ := ih hnext (by rwa [map_append])
        refine ⟨values', s', ?_, hsized'⟩
        change (if n.type.isBits = true then _ else _) = _
        rw [if_neg hbits]
        exact hrun

/-! ### Evaluation follows the interpreter -/

/-- A base node of a variable leads to one and to zero. -/
theorem isVariableBaseNode_iff {b : BinaryDecisionDiagram} {i : Nat} :
    b.isVariableBaseNode i = true ↔
      ∃ v, b.cells i = some ⟨v, BinaryDecisionDiagram.one, BinaryDecisionDiagram.zero⟩ := by
  unfold isVariableBaseNode cells
  cases b.node? i with
  | none => simp
  | some node =>
    simp only [Bool.and_eq_true, beq_iff_eq, Option.map_some, Option.some.injEq]
    constructor
    · rintro ⟨hh, hl⟩
      exact ⟨node.var, by rw [← hh, ← hl]⟩
    · rintro ⟨v, hv⟩
      rw [hv]
      exact ⟨rfl, rfl⟩

/-- The variables below a bound have the values of the valuation. -/
def Assigned (F : BddState) (σ : Nat → Bool) (bound : Nat) (variableValues : Nat → Option Bool) :
    Prop :=
  ∀ v i, v < bound →
    F.bdd.cells i = some ⟨v, BinaryDecisionDiagram.one, BinaryDecisionDiagram.zero⟩ →
      variableValues i = some (σ v)

/-- Assigning the bits of a vector keeps right entries and adds those of its base nodes. -/
theorem assignBits_spec {F : BddState} {is : List Nat} (h : Forall₂ (F.Denotes σ) is bits)
    {v i : Nat}
    (hi : F.bdd.cells i = some ⟨v, BinaryDecisionDiagram.one, BinaryDecisionDiagram.zero⟩)
    (hold : variableValues i = some (σ v) ∨ i ∈ is) :
    assignBits F variableValues is bits i = some (σ v) := by
  induction h generalizing variableValues with
  | nil =>
    rcases hold with hold | hold
    · exact hold
    · cases hold
  | @cons j bit is bits hj _ ih =>
    refine ih ?_
    by_cases hij : i = j
    · subst hij
      refine .inl ?_
      rw [if_pos (isVariableBaseNode_iff.2 ⟨v, hi⟩), Function.update_self, ← hj.2]
      exact congrArg some (F.invariant.denote_base hi σ)
    · rcases hold with hold | hold
      · refine .inl ?_
        split
        · rw [Function.update_of_ne hij]
          exact hold
        · exact hold
      · exact .inr ((mem_cons.1 hold).resolve_left hij)

theorem evaluateBits_eq {F t : BddState} (hgrows : t.bdd.Grows F.bdd)
    (hassigned : Assigned F σ t.bdd.nextVar variableValues) {is : List Nat}
    (h : Forall₂ (F.Denotes σ) is bits) (hvalid : ∀ i ∈ is, t.Valid i) :
    evaluateBits F variableValues is = .ok bits := by
  induction h with
  | nil => rfl
  | cons hi _ ih =>
    rw [forall_mem_cons] at hvalid
    have heval := evaluate_grows t.invariant F.invariant hgrows hassigned
      hvalid.1
    rw [evaluateBits, heval, ok_bind, ih hvalid.2]
    exact congrArg (fun bit => Except.ok (bit :: _)) hi.2

/-- A value of the type of tokens is the token. -/
theorem eq_token {v : Value} (h : v.Conforms .token) : v = Value.token := by
  unfold Value.Conforms at h
  obtain ⟨b, rfl, hb⟩ := rel_leaf_right h
  have hval : b = Bits.zero 0 := by
    refine Bits.ext hb ?_
    have hlt := b.isLt
    rw [hb] at hlt
    exact Nat.lt_one_iff.1 hlt
  rw [hval]
  rfl

/-- Nodes with side effects other than parameters and gates are tokens. -/
theorem verify_token (h : verifyNode params n.kind types n.type = true)
    (hside : isSideEffecting n.kind = true) (hparam : ∀ i, n.kind ≠ .param i)
    (hgate : isGate n.kind = false) : n.type = .token := by
  unfold verifyNode at h
  cases hk : n.kind with
  | param i => exact absurd hk (hparam i)
  | gate =>
    rw [hk] at hgate
    cases hgate
  | assert =>
    rw [hk] at h
    split at h <;> simp_all
  | cover =>
    rw [hk] at h
    split at h <;> simp_all
  | trace =>
    rw [hk] at h
    split at h <;> simp_all
  | _ =>
    rw [hk] at hside
    cases hside

theorem verifyFrom_cons {before : List Node} (h : verifyFrom params before (n :: ns) = true) :
    ∃ types, operandTypes before n.operands = some types ∧
      verifyNode params n.kind types n.type = true ∧
        verifyFrom params (before ++ [n]) ns = true := by
  rw [verifyFrom, Bool.and_eq_true] at h
  cases htypes : operandTypes before n.operands with
  | none => simp [htypes] at h
  | some types =>
    rw [htypes] at h
    exact ⟨types, rfl, h⟩

section Simulation

variable {env : Env} {args : List Value} {params : List IrType} {bf : BddFunction} {σ : Nat → Bool}

/-- What `BddFunction` has recorded for a node. -/
structure Recorded (bf : BddFunction) (id : Nat) (o : BddValue) : Prop where
  nodeMap : ∃ m, bf.nodeMap[id]? = some m ∧ toBddNodeVector o = some m
  saturated : bf.saturatedExpressions[id]? = some o.saturated

variable {variableValues : Nat → Option Bool} {vals : List Value}

/-- The value of a node that the interpreter computes is the one that `Evaluate`
computes. -/
theorem evaluateNode_eq {types : List IrType} {found : List Value} {n : Node} {o : BddValue}
    {t : BddState} {v : Value} (ho : o.node = n) (hrecorded : Recorded bf vals.length o)
    (htracks : Tracks bf.bdd σ o v) (hver : verifyNode params n.kind types n.type = true)
    (hfound : collect (fun o => vals[o]?) n.operands = some found)
    (hv : Interpreter.interpretNode env args n found = .ok v) (hgrows : t.bdd.Grows bf.bdd.bdd)
    (hvalid : o.saturated = false → n.type.isBits = true →
      Assigned bf.bdd σ t.bdd.nextVar variableValues ∧
        ∃ r, o.vector = some r ∧ ∀ e ∈ r, ∃ i, e = .index i ∧ t.Valid i) :
    evaluateNode env args bf vals variableValues n = .ok v := by
  have hconf := htracks.conforms
  rw [ho] at hconf
  by_cases hparam : ∃ i, n.kind = .param i
  · obtain ⟨i, hk⟩ := hparam
    obtain ⟨v', hv', hv⟩ := Result.bind_eq_ok.1 hv
    rw [hk] at hv'
    unfold evaluateNode
    rw [hk]
    split at hv
    rotate_left
    · cases hv
    cases hv
    unfold evalNode at hv'
    dsimp only at hv' ⊢
    split at hv'
    · cases hv'
      rw [‹args[i]? = _›]
      rfl
    · cases hv'
  · have hparam' : ∀ i, n.kind ≠ .param i := fun i hk => hparam ⟨i, hk⟩
    have heq : evaluateNode env args bf vals variableValues n =
        if isSideEffecting n.kind && n.type == .token then .ok Value.token
        else if !n.type.isBits || bf.saturatedExpressions[vals.length]? == some true then do
          let operands ← derefOption (collect (fun o => vals[o]?) n.operands)
          interpretNode env args n operands
        else
          match bf.nodeMap[vals.length]? with
          | some (some vector) => do
            let bits ← evaluateBits bf.bdd variableValues vector
            return .leaf (Bits.ofBools bits)
          | _ => .error .check := by
      unfold evaluateNode
      split
      · exact absurd ‹_› (hparam' _)
      · rfl
    rw [heq]
    split
    · rename_i hside
      rw [Bool.and_eq_true, beq_iff_eq] at hside
      rw [hside.2] at hconf
      rw [eq_token hconf]
    · rename_i hside
      split
      · rw [hfound]
        change interpretNode env args n found = .ok v
        unfold interpretNode
        rw [if_neg]
        · exact hv
        · rw [Bool.and_eq_true, Bool.not_eq_true']
          rintro ⟨hse, hgate⟩
          rw [hse, verify_token hver hse hparam' hgate] at hside
          exact hside rfl
      · rename_i hdirect
        rw [hrecorded.saturated] at hdirect
        simp only [Bool.or_eq_true, Bool.not_eq_true', beq_iff_eq, Option.some.injEq, not_or,
          Bool.not_eq_false, Bool.not_eq_true] at hdirect
        obtain ⟨hassigned, r, hr, hrvalid⟩ := hvalid hdirect.2 hdirect.1
        obtain ⟨m, hm, htm⟩ := hrecorded.nodeMap
        have hstands := toBddNodeVector_stands htracks htm
        unfold toBddNodeVector at htm
        rw [hr] at htm
        dsimp only at htm
        rw [Option.map_eq_some_iff] at htm
        obtain ⟨is, his, rfl⟩ := htm
        obtain ⟨b, rfl, hbits⟩ := hstands is rfl
        have hisvalid : ∀ i ∈ is, t.Valid i := by
          intro i hi
          rw [collect_eq_some] at his
          obtain ⟨k, hk, rfl⟩ := getElem_of_mem hi
          have hget := Forall₂.get his (by rwa [his.length_eq]) hk
          obtain ⟨j, hj, hjv⟩ := hrvalid _ (get_mem r ⟨k, by rwa [his.length_eq]⟩)
          rw [hj] at hget
          cases hget
          exact hjv
        rw [hm]
        dsimp only
        rw [evaluateBits_eq hgrows hassigned hbits hisvalid]
        exact congrArg (fun c => Except.ok (LeafTree.leaf c)) (Bits.ofBools_toBools b)

/-- The variables created for a node have their values once its vector is assigned. -/
theorem assign_eq {id : Nat} {o : BddValue} {v : Value} {s t : BddState}
    {r : List SaturatingBddNodeIndex} (hrecorded : Recorded bf id o) (htracks : Tracks bf.bdd σ o v)
    (hr : o.vector = some r) (hgrows : t.bdd.Grows bf.bdd.bdd)
    (hbased : ∀ v, s.bdd.nextVar ≤ v → v < t.bdd.nextVar → ∃ i, .index i ∈ r ∧
      t.bdd.cells i = some ⟨v, BinaryDecisionDiagram.one, BinaryDecisionDiagram.zero⟩)
    (hassigned : Assigned bf.bdd σ s.bdd.nextVar variableValues) :
    ∃ variableValues', assign bf id v variableValues = .ok variableValues' ∧
      Assigned bf.bdd σ t.bdd.nextVar variableValues' := by
  obtain ⟨m, hm, htm⟩ := hrecorded.nodeMap
  have hstands := toBddNodeVector_stands htracks htm
  unfold toBddNodeVector at htm
  rw [hr] at htm
  dsimp only at htm
  rw [Option.map_eq_some_iff] at htm
  obtain ⟨is, his, rfl⟩ := htm
  obtain ⟨b, rfl, hbits⟩ := hstands is rfl
  refine ⟨assignBits bf.bdd variableValues is b.toBools, ?_, fun v i hv hi => ?_⟩
  · unfold assign
    rw [hm]
    rfl
  refine assignBits_spec hbits hi ?_
  by_cases hlt : v < s.bdd.nextVar
  · exact .inl (hassigned v i hlt hi)
  · obtain ⟨j, hj, hcell⟩ := hbased v (Nat.le_of_not_lt hlt) hv
    -- a variable has one base node
    have hij : i = j := by
      have hlookup := (bf.bdd.invariant.nodeMap _ _ _ _).2 (hgrows.cells j _ hcell)
      rw [(bf.bdd.invariant.nodeMap _ _ _ _).2 hi] at hlookup
      exact Option.some.inj hlookup
    subst hij
    rw [collect_eq_some] at his
    obtain ⟨k, hk, hget⟩ := getElem_of_mem hj
    have hrel := Forall₂.get his hk (by rwa [← his.length_eq])
    rw [get_eq_getElem, hget] at hrel
    exact .inr (Option.some.inj hrel ▸ get_mem is _)

/-- The loop of `Evaluate` computes the values of the interpreter. -/
theorem evaluateNodes_eq {s : BddState} {before news : List BddValue} {vals' : List Value}
    (hlog : Log s news bf.bdd) (hrecorded : ∀ k o, (before ++ news)[k]? = some o → Recorded bf k o)
    (htracks : Forall₂ (Tracks bf.bdd σ) (before ++ news) vals')
    (hver : verifyFrom params (before.map BddValue.node) (news.map BddValue.node) = true)
    (hlen : vals.length = before.length)
    (hv : Interpreter.visit env args vals (news.map BddValue.node) = .ok vals')
    (hassigned : Assigned bf.bdd σ s.bdd.nextVar variableValues) :
    evaluateNodes env args bf vals variableValues (news.map BddValue.node) = .ok vals' := by
  generalize hF : bf.bdd = F at hlog
  induction hlog generalizing before vals variableValues with
  | nil s => exact hv
  | @skip s s' n rest hbits hlog ih =>
    subst hF
    obtain ⟨types, htypes, hn, hns⟩ := verifyFrom_cons hver
    obtain ⟨found, hfound, hv⟩ := Result.bind_eq_ok.1 hv
    obtain ⟨v, hnv, hv⟩ := Result.bind_eq_ok.1 hv
    rw [derefOption_eq_ok] at hfound
    have hat : (before ++ ⟨n, none, false⟩ :: rest)[vals.length]? = some ⟨n, none, false⟩ := by
      simp [hlen]
    have hvat : vals'[vals.length]? = some v := by
      obtain ⟨suffix, rfl⟩ := visit_prefix hv
      simp
    have hrec := hrecorded _ _ hat
    have hresult : evaluateNode env args bf vals variableValues n = .ok v := by
      refine evaluateNode_eq rfl hrec (LeafTree.rel_getElem? htracks hat hvat) hn hfound hnv
        hlog.grows ?_
      intro _ hb
      rw [hbits] at hb
      cases hb
    have hassign : assign bf vals.length v variableValues = .ok variableValues := by
      obtain ⟨m, hm, htm⟩ := hrec.nodeMap
      cases htm
      unfold assign
      rw [hm]
    rw [map_cons, evaluateNodes, hresult, ok_bind, hassign, ok_bind]
    have hsplit : before ++ ⟨n, none, false⟩ :: rest =
      (before ++ [⟨n, none, false⟩]) ++ rest := by simp
    rw [hsplit] at hrecorded htracks
    exact ih hrecorded htracks (by simpa using hns) (by simp [hlen]) hv hassigned rfl
  | @vector s t s' n r saturated rest hbits grows indexed unsaturated based hlog ih =>
    subst hF
    obtain ⟨types, htypes, hn, hns⟩ := verifyFrom_cons hver
    obtain ⟨found, hfound, hv⟩ := Result.bind_eq_ok.1 hv
    obtain ⟨v, hnv, hv⟩ := Result.bind_eq_ok.1 hv
    rw [derefOption_eq_ok] at hfound
    have hat : (before ++ ⟨n, some r, saturated⟩ :: rest)[vals.length]? =
        some ⟨n, some r, saturated⟩ := by
      simp [hlen]
    have hvat : vals'[vals.length]? = some v := by
      obtain ⟨suffix, rfl⟩ := visit_prefix hv
      simp
    have hrec := hrecorded _ _ hat
    have htrack := LeafTree.rel_getElem? htracks hat hvat
    have hresult : evaluateNode env args bf vals variableValues n = .ok v := by
      refine evaluateNode_eq rfl hrec htrack hn hfound hnv hlog.grows ?_
      intro hsat _
      refine ⟨?_, r, rfl, indexed⟩
      rw [unsaturated hsat]
      exact hassigned
    obtain ⟨variableValues', hassign, hassigned'⟩ :=
      assign_eq hrec htrack rfl hlog.grows based hassigned
    rw [map_cons, evaluateNodes, hresult, ok_bind, hassign, ok_bind]
    have hsplit : before ++ ⟨n, some r, saturated⟩ :: rest =
      (before ++ [⟨n, some r, saturated⟩]) ++ rest := by simp
    rw [hsplit] at hrecorded htracks
    exact ih hrecorded htracks (by simpa using hns) (by simp [hlen]) hv hassigned' rfl

end Simulation

/-! ### Run and Evaluate -/

/-- Every node that was visited has its entry in the map. -/
theorem collect_toBddNodeVector (h : ∀ o ∈ values, Sized s o) :
    ∃ nodeMap, collect toBddNodeVector values = some nodeMap := by
  have hindex : ∀ vec : List SaturatingBddNodeIndex, (∀ e ∈ vec, ∃ i, e = .index i ∧ s.Valid i) →
      ∃ is, collect toIndex vec = some is := by
    intro vec hvec
    induction vec with
    | nil => exact ⟨[], rfl⟩
    | cons e vec ih =>
      rw [forall_mem_cons] at hvec
      obtain ⟨i, rfl, -⟩ := hvec.1
      obtain ⟨is, his⟩ := ih hvec.2
      exact ⟨i :: is, by rw [collect, his]; rfl⟩
  induction values with
  | nil => exact ⟨[], rfl⟩
  | cons o values ih =>
    rw [forall_mem_cons] at h
    obtain ⟨nodeMap, hmap⟩ := ih h.2
    have hone : ∃ m, toBddNodeVector o = some m := by
      unfold toBddNodeVector
      split
      · exact ⟨none, rfl⟩
      · rename_i vec hvec
        obtain ⟨is, his⟩ := hindex vec (h.1.indexed vec hvec)
        exact ⟨some is, by rw [his]; rfl⟩
    obtain ⟨m, hm⟩ := hone
    exact ⟨m :: nodeMap, by rw [collect, hm, hmap]⟩

/-- `Run` returns on every function. -/
theorem run_total (f : Function) (pathLimit : Int) (nodeFilter : Option (Nat → Bool)) :
    ∃ bf, run f pathLimit nodeFilter = .ok bf := by
  have hnil : ∀ o ∈ ([] : List BddValue), Sized emptyState o := by simp
  obtain ⟨values, s, hvisit, hsized⟩ := visitNodes_total pathLimit nodeFilter hnil f.verified
  obtain ⟨nodeMap, hmap⟩ := collect_toBddNodeVector hsized
  refine ⟨⟨f, s, nodeMap, values.map BddValue.saturated⟩, ?_⟩
  unfold run
  rw [hvisit, ok_bind]
  dsimp only
  rw [hmap]
  rfl

/-- Visiting nodes appends exactly these nodes. -/
theorem visitNodes_nodes {values' : List BddValue} {s' : BddState}
    (h : visitNodes pathLimit nodeFilter values s ns = .ok (values', s')) :
    values'.map BddValue.node = values.map BddValue.node ++ ns := by
  induction ns generalizing values s with
  | nil =>
    cases h
    exact (append_nil _).symm
  | cons n ns ih =>
    obtain ⟨operands, -, h⟩ := Result.bind_eq_ok.1 h
    split at h
    · obtain ⟨p, -, h⟩ := Result.bind_eq_ok.1 h
      simpa using ih h
    · simpa using ih h

/-- The value that the interpreter computes is the one that `Evaluate` computes. -/
theorem evaluate_eq {env : Env} {f : Function} {args : List Value} {v : Value} {bf : BddFunction}
    (hbf : run f pathLimit nodeFilter = .ok bf)
    (hv : interpretFunction env f args = .ok v) : evaluate env args bf = .ok v := by
  obtain ⟨vals, hrun, hreturn⟩ := Result.bind_eq_ok.1 hv
  obtain ⟨⟨values, s⟩, hvalues, hbf⟩ := Result.bind_eq_ok.1 hbf
  obtain ⟨nodeMap, hmap, hbf⟩ := Result.bind_eq_ok.1 hbf
  cases hbf
  rw [derefOption_eq_ok, collect_eq_some] at hmap
  have hvisit := visit_of_run hrun
  have hnodes : values.map BddValue.node = f.nodes := visitNodes_nodes hvalues
  have hnil : Forall₂ (Tracks emptyState fun _ => false) [] [] := Forall₂.nil
  obtain ⟨σ, news, -, htracks, hnews, hlog⟩ :=
    visitNodes_tracks hnil f.verified hvalues hvisit
  rw [nil_append] at hnews
  subst hnews
  have hrecorded : ∀ k o, ([] ++ values)[k]? = some o →
      Recorded ⟨f, s, nodeMap, values.map BddValue.saturated⟩ k o := by
    intro k o ho
    rw [nil_append] at ho
    refine ⟨LeafTree.rel_getElem?_right hmap.flip ho, ?_⟩
    rw [getElem?_map, ho]
    rfl
  have hverified := f.verified
  rw [← hnodes] at hvisit hverified
  have hassigned : Assigned s σ emptyState.bdd.nextVar fun _ => none :=
    fun v i hlt => absurd hlt (Nat.not_lt_zero v)
  have heval : evaluateNodes env args ⟨f, s, nodeMap, values.map BddValue.saturated⟩ []
      (fun _ => none) (values.map BddValue.node) = .ok vals :=
    evaluateNodes_eq hlog hrecorded htracks hverified rfl hvisit hassigned
  rw [hnodes] at heval
  have hlen : args.length = f.params.length := by
    unfold Interpreter.run at hrun
    split at hrun
    · cases hrun
    · rename_i hlen
      exact not_not.1 hlen
  unfold evaluate
  rw [if_neg (not_not.2 hlen)]
  dsimp only
  rw [heval]
  exact hreturn

/-- For every function, path limit and filter, `Run` returns, and `Evaluate` then
computes the value of the interpreter for all arguments. -/
theorem run_evaluate (f : Function) (pathLimit : Int) (nodeFilter : Option (Nat → Bool)) :
    ∃ bf, run f pathLimit nodeFilter = .ok bf ∧ ∀ env args v,
      interpretFunction env f args = .ok v → evaluate env args bf = .ok v := by
  obtain ⟨bf, hbf⟩ := run_total f pathLimit nodeFilter
  exact ⟨bf, hbf, fun env args v hv => evaluate_eq hbf hv⟩

/-- The sum of two parameters, and its comparison with a constant. -/
def sumIsThree : Function where
  params := [.bits 2, .bits 2]
  nodes :=
    [⟨.param 0, [], .bits 2⟩, ⟨.param 1, [], .bits 2⟩, ⟨.bin .add, [0, 1], .bits 2⟩,
     ⟨.literal (.leaf (Bits.ofNat 2 3)), [], .bits 2⟩, ⟨.compare .eq, [2, 3], .bits 1⟩]
  returnValue := 4
  verified := by decide
  returnValue_lt := by decide

theorem run_evaluate_sumIsThree :
    ∃ bf, run sumIsThree 2 none = .ok bf ∧
      evaluate (packageEnv []) [.leaf (Bits.ofNat 2 1), .leaf (Bits.ofNat 2 2)] bf =
        .ok (.leaf (Bits.ofNat 1 1)) := by
  obtain ⟨bf, hbf, heval⟩ := run_evaluate sumIsThree 2 none
  exact ⟨bf, hbf, heval _ _ _ rfl⟩

end BddFunction

end Xls

import Mathlib.Data.Fin.Tuple.Basic
import Xls.BinaryDecisionDiagram

/-!
# Xls.BinaryDecisionDiagram.Calls

Sequences of calls on one diagram. A call takes the leaves and the results of earlier calls
as arguments, and nothing else, which the types enforce. Next to the run of the diagram each
sequence has a meaning: the Boolean function that every call describes. The main result says
that the two agree and that the indices a diagram returns are canonical (`calls_canonical`).
-/

namespace Xls.BinaryDecisionDiagram

/-- An argument of a call that is preceded by `n` calls. -/
inductive Operand (n : Nat)
  | zero
  | one
  | result (k : Fin n)

/-- A call that is preceded by `n` calls. -/
inductive Call (n : Nat)
  | newVariable
  | not (a : Operand n)
  | and (a b : Operand n)
  | or (a b : Operand n)

/-- A sequence of `n` calls, the last one outermost. -/
inductive Calls : Nat → Type
  | nil : Calls 0
  | snoc {n : Nat} (calls : Calls n) (call : Call n) : Calls (n + 1)

/-- A Boolean function of the variables. -/
abbrev BoolFunction := (Nat → Bool) → Bool

variable {n : Nat}

/-! ### What the diagram does -/

def Operand.index (results : Fin n → Nat) : Operand n → Nat
  | zero => BinaryDecisionDiagram.zero
  | one => BinaryDecisionDiagram.one
  | result k => results k

def Call.run (results : Fin n → Nat) (b : BinaryDecisionDiagram) :
    Call n → Result (Nat × BinaryDecisionDiagram)
  | newVariable => b.newVariable
  | not x => b.not (x.index results)
  | and x y => b.and (x.index results) (y.index results)
  | or x y => b.or (x.index results) (y.index results)

/-- The indices returned by the calls, and the diagram after them. -/
def Calls.run : {n : Nat} → Calls n → Result ((Fin n → Nat) × BinaryDecisionDiagram)
  | _, nil => .ok (Fin.elim0, empty)
  | _, snoc calls call => do
    let (results, b) ← calls.run
    let (r, b') ← call.run results b
    .ok (Fin.snoc results r, b')

/-! ### What the calls describe -/

def Operand.function (functions : Fin n → BoolFunction) : Operand n → BoolFunction
  | zero => fun _ => false
  | one => fun _ => true
  | result k => functions k

/-- The function a call describes when `var` is the next variable. -/
def Call.function (functions : Fin n → BoolFunction) (var : Nat) : Call n → BoolFunction
  | newVariable => fun σ => σ var
  | not x => fun σ => !x.function functions σ
  | and x y => fun σ => x.function functions σ && y.function functions σ
  | or x y => fun σ => x.function functions σ || y.function functions σ

def Call.isNewVariable : Call n → Bool
  | newVariable => true
  | _ => false

/-- The number of variables the calls create. -/
def Calls.variableCount : {n : Nat} → Calls n → Nat
  | _, nil => 0
  | _, snoc calls call => calls.variableCount + if call.isNewVariable then 1 else 0

/-- The function described by each call. -/
def Calls.functions : {n : Nat} → Calls n → Fin n → BoolFunction
  | _, nil => Fin.elim0
  | _, snoc calls call =>
    Fin.snoc (α := fun _ => BoolFunction) calls.functions
      (call.function calls.functions calls.variableCount)

/-- The variable created by each call, if any. -/
def Calls.variables : {n : Nat} → Calls n → Fin n → Option Nat
  | _, nil => Fin.elim0
  | _, snoc calls call =>
    Fin.snoc (α := fun _ => Option Nat) calls.variables
      (if call.isNewVariable then some calls.variableCount else none)

/-! ### Agreement -/

/-- The indices and the diagram agree with what the calls describe. -/
structure Agrees (calls : Calls n) (results : Fin n → Nat) (b : BinaryDecisionDiagram) : Prop where
  invariant : b.Invariant
  nextVar : b.nextVar = calls.variableCount
  valid : ∀ k, b.cells.Valid (results k)
  denote : ∀ k σ, b.cells.denote σ (results k) = calls.functions k σ
  baseNode : ∀ k v, calls.variables k = some v → b.cells (results k) = some ⟨v, one, zero⟩
  created : ∀ v, v < b.nextVar → ∃ k, calls.variables k = some v

variable {calls : Calls n} {results : Fin n → Nat} {b : BinaryDecisionDiagram}

theorem Agrees.operand (h : Agrees calls results b) (x : Operand n) :
    b.cells.Valid (x.index results) ∧
      ∀ σ, b.cells.denote σ (x.index results) = x.function calls.functions σ := by
  cases x with
  | zero => exact ⟨valid_zero, h.invariant.denote_zero⟩
  | one => exact ⟨valid_one, h.invariant.denote_one⟩
  | result k => exact ⟨h.valid k, h.denote k⟩

/-- A call that returned the function it describes extends the agreement. -/
theorem Agrees.snoc (h : Agrees calls results b) {call : Call n} {p : Nat × BinaryDecisionDiagram}
    (hp : b.Denotes (call.function calls.functions calls.variableCount) p)
    (hnext : p.2.nextVar = (calls.snoc call).variableCount)
    (hbase : call.isNewVariable = true → p.2.cells p.1 = some ⟨calls.variableCount, one, zero⟩) :
    Agrees (calls.snoc call) (Fin.snoc results p.1) p.2 where
  invariant := hp.invariant
  nextVar := hnext
  valid k := by
    cases k using Fin.lastCases with
    | last =>
      rw [Fin.snoc_last]
      exact hp.valid
    | cast k =>
      rw [Fin.snoc_castSucc]
      exact (h.valid k).mono hp.grows.cells
  denote k σ := by
    cases k using Fin.lastCases with
    | last =>
      rw [Calls.functions, Fin.snoc_last, Fin.snoc_last]
      exact hp.denote σ
    | cast k =>
      rw [Calls.functions, Fin.snoc_castSucc, Fin.snoc_castSucc,
        denote_grows h.invariant hp.invariant hp.grows (h.valid k), h.denote]
  baseNode k v hv := by
    cases k using Fin.lastCases with
    | last =>
      rw [Calls.variables, Fin.snoc_last] at hv
      rw [Fin.snoc_last]
      split at hv
      · rename_i hnew
        cases hv
        exact hbase hnew
      · cases hv
    | cast k =>
      rw [Calls.variables, Fin.snoc_castSucc] at hv
      rw [Fin.snoc_castSucc]
      exact hp.grows.cells _ _ (h.baseNode k v hv)
  created v hv := by
    by_cases hold : v < b.nextVar
    · obtain ⟨k, hk⟩ := h.created v hold
      exact ⟨k.castSucc, by rw [Calls.variables, Fin.snoc_castSucc, hk]⟩
    · rw [hnext, Calls.variableCount] at hv
      rw [h.nextVar] at hold
      split at hv
      · rename_i hnew
        refine ⟨Fin.last n, ?_⟩
        rw [Calls.variables, Fin.snoc_last, if_pos hnew]
        congr 1
        omega
      · omega

/-- One call returns and keeps the agreement. -/
theorem Agrees.call (h : Agrees calls results b) (call : Call n) :
    ∃ p, call.run results b = .ok p ∧ Agrees (calls.snoc call) (Fin.snoc results p.1) p.2 := by
  cases call with
  | newVariable =>
    obtain ⟨p, hp, hinv, hgrows, hcell, hnext⟩ := newVariable_spec h.invariant
    rw [h.nextVar] at hcell hnext
    exact ⟨p, hp, h.snoc ⟨hinv, hgrows, CellTable.valid_cell hcell, hinv.denote_base hcell⟩ hnext
      fun _ => hcell⟩
  | not x =>
    obtain ⟨hx, hxf⟩ := h.operand x
    obtain ⟨p, hp, hnext, hden⟩ := not_spec h.invariant hx
    refine ⟨p, hp, h.snoc (hden.congr fun σ => ?_) (hnext.trans h.nextVar) fun hnew => ?_⟩
    · rw [hxf]
      rfl
    · cases hnew
  | and x y =>
    obtain ⟨hx, hxf⟩ := h.operand x
    obtain ⟨hy, hyf⟩ := h.operand y
    obtain ⟨p, hp, hnext, hden⟩ := and_spec h.invariant hx hy
    refine ⟨p, hp, h.snoc (hden.congr fun σ => ?_) (hnext.trans h.nextVar) fun hnew => ?_⟩
    · rw [hxf, hyf]
      rfl
    · cases hnew
  | or x y =>
    obtain ⟨hx, hxf⟩ := h.operand x
    obtain ⟨hy, hyf⟩ := h.operand y
    obtain ⟨p, hp, hnext, hden⟩ := or_spec h.invariant hx hy
    refine ⟨p, hp, h.snoc (hden.congr fun σ => ?_) (hnext.trans h.nextVar) fun hnew => ?_⟩
    · rw [hxf, hyf]
      rfl
    · cases hnew

/-- Every sequence of calls returns and agrees with what it describes. -/
theorem Calls.run_agrees (calls : Calls n) :
    ∃ results b, calls.run = .ok (results, b) ∧ Agrees calls results b := by
  induction calls with
  | nil =>
    exact ⟨Fin.elim0, empty, rfl, invariant_empty, rfl, fun k => k.elim0, fun k => k.elim0,
      fun k => k.elim0, fun v hv => absurd hv (Nat.not_lt_zero v)⟩
  | snoc calls call ih =>
    obtain ⟨results, b, hrun, hagrees⟩ := ih
    obtain ⟨p, hp, hagrees'⟩ := hagrees.call call
    refine ⟨Fin.snoc results p.1, p.2, ?_, hagrees'⟩
    rw [Calls.run, hrun, Result.ok_bind]
    dsimp only
    rw [hp]
    rfl

/-! ### Canonicity -/

/-- Variables strictly increase along every path. -/
def Ordered (b : BinaryDecisionDiagram) : Prop :=
  ∀ i node, b.node? i = some node → ∀ child, (child = node.high ∨ child = node.low) →
    child < i ∧ ∀ node', b.node? child = some node' → node.var < node'.var

/-- No node has the same node as both children. -/
def Reduced (b : BinaryDecisionDiagram) : Prop :=
  ∀ i node, b.node? i = some node → node.low ≠ node.high

/-- No two nodes have the same variable and children. -/
def DuplicateFree (b : BinaryDecisionDiagram) : Prop :=
  ∀ i j node node', b.node? i = some node → b.node? j = some node' →
    node.toCell = node'.toCell → i = j

theorem cells_of_node? {i : Nat} {node : BddNode} (h : b.node? i = some node) :
    b.cells i = some node.toCell := by
  rw [cells, h]
  rfl

/-- The tables of a diagram with the invariant are ordered, reduced and without duplicates. -/
theorem Invariant.tables (h : b.Invariant) : b.Ordered ∧ b.Reduced ∧ b.DuplicateFree := by
  refine ⟨?_, ?_, ?_⟩
  · intro i node hn child hchild
    have hord := h.canonical.ordered (cells_of_node? hn)
    have hdesc := h.canonical.descends (cells_of_node? hn)
    rcases hchild with rfl | rfl
    · exact ⟨hdesc.1, fun node' hn' => hord.1 _ (cells_of_node? hn')⟩
    · exact ⟨hdesc.2, fun node' hn' => hord.2 _ (cells_of_node? hn')⟩
  · intro i node hn
    exact (h.canonical.reduced (cells_of_node? hn)).symm
  · intro i j node node' hn hn' heq
    exact h.canonical.unique (cells_of_node? hn) (heq ▸ cells_of_node? hn')

/-- Every sequence of calls returns, so no `CHECK` fails; each index evaluates to
the function its call describes, whatever the values of the variables; indices are
equal exactly if the functions are; and the node table is ordered, reduced and free
of duplicates. -/
theorem calls_canonical (calls : Calls n) :
    ∃ results b, calls.run = .ok (results, b) ∧
      (∀ k σ values, (∀ j v, calls.variables j = some v → values (results j) = some (σ v)) →
        b.evaluate (results k) values = .ok (calls.functions k σ)) ∧
      (∀ j k, results j = results k ↔ ∀ σ, calls.functions j σ = calls.functions k σ) ∧
      b.Ordered ∧ b.Reduced ∧ b.DuplicateFree := by
  obtain ⟨results, b, hrun, h⟩ := calls.run_agrees
  refine ⟨results, b, hrun, ?_, ?_, h.invariant.tables⟩
  · intro k σ values hvalues
    rw [← h.denote k σ]
    refine evaluate_spec h.invariant (fun v i hi => ?_) (h.valid k)
    -- the base node of a variable is the one the variable's own call returned
    obtain ⟨j, hj⟩ := h.created v (h.invariant.bounded hi)
    rw [h.invariant.canonical.unique hi (h.baseNode j v hj)]
    exact hvalues j v hj
  · intro j k
    constructor
    · intro heq σ
      rw [← h.denote, ← h.denote, heq]
    · intro heq
      refine h.invariant.canonical.denote_injective (h.valid j) (h.valid k) fun σ => ?_
      rw [h.denote, h.denote, heq]

end Xls.BinaryDecisionDiagram

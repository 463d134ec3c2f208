import Xls.OneBitMux

/-!
# Xls.BooleanSimplification

Logic over at most three nodes by truth tables (`xls/passes/boolean_simplification_pass.cc`).
The pass finds the nodes at the frontier of a logic expression, flows a truth table of eight
rows from them to the node, and replaces the node by the cheapest operation with that table.
-/

namespace Xls.BooleanSimplification

open List
open Graph (Build getNode makeNode replaceUsesWith bitCountOrDie)
open OneBitMux (makeNot retCheck)

/-- `GetFromMsb`. -/
def getFromMsb (b : Bits) (i : Nat) : Bool := b.get (b.width - 1 - i)

/-- `kMaxFrontierNodes`. -/
def maxFrontierNodes : Nat := 3

/-! ### Truth tables -/

/-- What the constructor of `TruthTable` checks. -/
def truthTableChecks (xyzPresent xyzNegated : Bits) (logicalOp : Option NaryOp) : Bool :=
  !xyzPresent.isZero && xyzPresent.width == 3 && xyzNegated.width == 3 &&
    (logicalOp.isSome || xyzPresent.popCount == 1 && decide (xyzNegated.popCount ≤ 1)) &&
    (xyzPresent.not.and xyzNegated).isZero

/-- `TruthTable`: the operands that are present, those that are negated, and the operation. -/
structure TruthTable where
  xyzPresent : Bits
  xyzNegated : Bits
  logicalOp : Option NaryOp
  checks : truthTableChecks xyzPresent xyzNegated logicalOp = true

namespace TruthTable

/-- The constructor. -/
def make (xyzPresent xyzNegated : Bits) (logicalOp : Option NaryOp) : Result TruthTable :=
  if h : truthTableChecks xyzPresent xyzNegated logicalOp = true then
    .ok ⟨xyzPresent, xyzNegated, logicalOp, h⟩
  else .error .check

def present (t : TruthTable) (i : Fin 3) : Bool := getFromMsb t.xyzPresent i

def negated (t : TruthTable) (i : Fin 3) : Bool := getFromMsb t.xyzNegated i

/-- `GetInitialVector`. -/
def getInitialVector : Fin 3 → Bits
  | 0 => Bits.ofNat 8 0b00001111
  | 1 => Bits.ofNat 8 0b00110011
  | 2 => Bits.ofNat 8 0b01010101

/-- `RunNaryOp`. -/
def runNaryOp (op : NaryOp) (operands : List Bits) : Result Bits := Interpreter.naryOp op operands

/-- The vector of an operand that is present. -/
def operandVector (t : TruthTable) (i : Fin 3) : Option Bits :=
  if t.present i then
    some (if t.negated i then (getInitialVector i).not else getInitialVector i)
  else none

def operandVectors (t : TruthTable) : List Bits := (finRange 3).filterMap t.operandVector

/-- `ComputeTruthTable`. -/
def computeTruthTable (t : TruthTable) : Result Bits :=
  match t.logicalOp with
  | some op => runNaryOp op t.operandVectors
  | none =>
    match t.operandVectors with
    | [v] => .ok v
    | _ => .error .check

end TruthTable

/-- `IsNotOf`. -/
def isNotOf (g : Graph) (node inverted : Nat) : Bool :=
  match g.nodes[node]? with
  | some ⟨.un .not, [operand], _⟩ => operand == inverted
  | _ => false

namespace TruthTable

/-- `MatchesSymmetrical`. -/
def matchesSymmetrical (t : TruthTable) (g : Graph) (original : Nat) (operands : List Nat) :
    Result Bool := do
  let n ← derefOption g.nodes[original]?
  match t.logicalOp with
  | some op =>
    if n.kind ≠ .nary op then return false
    else
      return (finRange 3).all fun i =>
        !t.present i ||
          match operands[i.val]? with
          -- not enough operands to match this truth table
          | none => false
          | some operand =>
            if t.negated i then n.operands.any fun o => isNotOf g o operand
            else n.operands.any fun o => o == operand
  | none =>
    match (finRange 3).find? t.present with
    | none => .error .check
    | some i => do
      let operand ← derefOption operands[i.val]?
      return if t.negated i then isNotOf g original operand else original == operand

/-- An operand of a replacement, with an inverter where it is negated. -/
def createOperand (t : TruthTable) (i : Fin 3) (operand : Nat) : Build Nat :=
  if t.negated i then makeNot operand else return operand

/-- The loop of `CreateReplacement` over the operands. -/
def createOperands (t : TruthTable) (operands : List Nat) : List (Fin 3) → Build (List Nat)
  | [] => return []
  | i :: is => do
    if t.present i then
      let operand ← derefOption operands[i.val]?
      let operand ← t.createOperand i operand
      let rest ← createOperands t operands is
      return operand :: rest
    else createOperands t operands is

/-- A `NaryOp`; the node has the type of its first operand. -/
def makeNary (op : NaryOp) (operands : List Nat) : Build Nat := do
  let first ← derefOption operands.head?
  let n ← getNode first
  makeNode ⟨.nary op, operands, n.type⟩

/-- `CreateReplacement`. -/
def createReplacement (t : TruthTable) (operands : List Nat) : Build Nat :=
  if maxFrontierNodes < operands.length then throw .check
  else do
    let thisOperands ← t.createOperands operands (finRange 3)
    match t.logicalOp, thisOperands with
    -- a single operand needs no operation
    | none, [operand] => return operand
    | none, _ => throw .check
    | some op, thisOperands => makeNary op thisOperands

end TruthTable

/-! ### The tables -/

/-- `kLogicOps`, approximately from cheap to expensive. -/
def logicOps : List NaryOp := [.nand, .nor, .xor, .and, .or]

def presences : List Nat := [0b011, 0b101, 0b110, 0b111]

/-- What `CreateTruthTables` adds, in this order: single values and their negations, the
operations, and the operations that negate operands that are present. -/
def candidates : List (Nat × Nat × Option NaryOp) :=
  ([0b001, 0b010, 0b100].flatMap fun presence =>
    [(presence, 0, none), (presence, presence, none)]) ++
  (logicOps.flatMap fun op => presences.map fun presence => (presence, 0, some op)) ++
  (logicOps.flatMap fun op => presences.flatMap fun presence =>
    ((range' 1 7).filter fun negation => presence &&& negation == negation).map
      fun negation => (presence, negation, some op))

/-- `add` in `CreateTruthTables`. A table that is there stays. -/
def addTable (results : List (Nat × TruthTable)) (candidate : Nat × Nat × Option NaryOp) :
    Result (List (Nat × TruthTable)) := do
  let (presence, negation, op) := candidate
  let table ← TruthTable.make (Bits.ofNat 3 presence) (Bits.ofNat 3 negation) op
  let truthTable ← table.computeTruthTable
  let truthTableBits ← BitsOps.toUint64 truthTable
  return if (results.lookup truthTableBits).isSome then results
    else results ++ [(truthTableBits, table)]

/-- `CreateTruthTables`. -/
def createTruthTables : Result (List (Nat × TruthTable)) := candidates.foldlM addTable []

/-- `ResolveTruthTable`. -/
def resolveTruthTable (bits : Bits) (operands : List Nat) (original : Nat) :
    Build (Option Nat) := do
  retCheck (decide (2 ≤ operands.length ∧ operands.length ≤ 3))
    "2 <= operands.size() && operands.size() <= 3"
  if bits.isAllOnes then
    let width ← bitCountOrDie original
    -- a tautology: `SBits(-1, width)`, which needs a bit
    let value ← BitsOps.sBits (-1) width
    let literal ← makeNode ⟨.literal (.leaf value), [], .bits value.width⟩
    return some literal
  else if bits.isZero then
    let width ← bitCountOrDie original
    let literal ← makeNode ⟨.literal (.leaf (Bits.ofNat width 0)), [], .bits width⟩
    return some literal
  else
    let truthTables ← createTruthTables
    let key ← BitsOps.toUint64 bits
    match truthTables.lookup key with
    | none => return none
    | some table =>
      let g ← get
      let minimal ← table.matchesSymmetrical g original operands
      -- the node has the form of the cheapest table already
      if minimal then return none
      else
        let replacement ← table.createReplacement operands
        return some replacement

/-! ### Frontiers -/

/-- `Frontier`: at most `maxFrontierNodes` nodes, or `TooManySentinel`. -/
inductive Frontier
  | vector (nodes : List Nat)
  | tooMany

/-- `AddNonBool`. -/
def addNonBool (node : Nat) : Frontier → Frontier
  | .tooMany => .tooMany
  | .vector nodes =>
    if nodes.contains node then .vector nodes
    -- a fourth node: there is no truth table for it
    else if maxFrontierNodes ≤ nodes.length then .tooMany
    else .vector (nodes ++ [node])

/-- `Union`, of the first frontier into the second. -/
def union : Frontier → Frontier → Frontier
  | _, .tooMany => .tooMany
  | .tooMany, .vector _ => .tooMany
  | .vector nodes, out => nodes.foldl (fun out node => addNonBool node out) out

/-- The loop of `UnionOperandFrontier`. An operand that is not in the map is at the frontier. -/
def unionOperandFrontier (nodeToFrontier : List (Nat × Frontier)) (n : Node) : Frontier :=
  n.operands.foldl (fun accum operand =>
    match nodeToFrontier.lookup operand with
    | none => addNonBool operand accum
    | some frontier => union frontier accum) (.vector [])

/-- The nodes with a handler. -/
def isLogicOp (n : Node) : Bool :=
  match n.kind with
  | .nary .and | .nary .nand | .nary .nor | .nary .or | .un .not => true
  | _ => false

/-- The frontier of a node is noted when the node is visited. -/
def visitFrontier (g : Graph) (nodeToFrontier : List (Nat × Frontier)) (id : Nat) :
    List (Nat × Frontier) :=
  match g.nodes[id]? with
  | some n =>
    if isLogicOp n then (id, unionOperandFrontier nodeToFrontier n) :: nodeToFrontier
    else nodeToFrontier
  | none => nodeToFrontier

/-- `node_to_frontier_` after some nodes were visited. -/
def visitFrontiers (g : Graph) (ids : List Nat) : List (Nat × Frontier) :=
  ids.foldl (visitFrontier g) []

/-! ### Flows -/

/-- The operation of a node on truth tables. -/
def flowOp (kind : NodeKind) (operands : List Bits) : Result Bits :=
  match kind with
  | .nary op => Interpreter.naryOp op operands
  | .un .not =>
    match operands with
    | [operand] => .ok operand.not
    | _ => .error (.status "XLS_RET_CHECK failure: operands.size() == 1")
  | _ => .error .check

/-- The truth table of a node at the frontier. `GetZ` is null for two nodes. -/
def frontierVector (frontier : List Nat) (node : Nat) : Option Bits :=
  if frontier[0]? = some node then some (TruthTable.getInitialVector 0)
  else if frontier[1]? = some node then some (TruthTable.getInitialVector 1)
  else if frontier[2]? = some node then some (TruthTable.getInitialVector 2)
  else none

/-- `FlowFromFrontierToNode`, with the results that are memoized. -/
def flowFromFrontierToNode (g : Graph) (frontier : List Nat) :
    Nat → Nat → List (Nat × Bits) → Result (Bits × List (Nat × Bits))
  | 0, _, _ => .error .check
  | fuel + 1, node, memo =>
    match memo.lookup node with
    | some result => .ok (result, memo)
    | none =>
      match frontierVector frontier node with
      | some result => .ok (result, (node, result) :: memo)
      | none => do
        let n ← derefOption g.nodes[node]?
        let (operands, memo) ← n.operands.foldlM (fun state operand => do
          let (result, memo) ← flowFromFrontierToNode g frontier fuel operand state.2
          return (state.1 ++ [result], memo)) ([], memo)
        let result ← flowOp n.kind operands
        return (result, (node, result) :: memo)

/-! ### The pass -/

/-- `BooleanFlowTracker`. -/
structure Tracker where
  nodeToFrontier : List (Nat × Frontier)
  nodeReplacements : List (Nat × Nat)

/-- `HandleLogicOp`. The paths from a node to the frontier are not longer than the graph. -/
def handleLogicOp (t : Tracker) (id : Nat) (n : Node) : Build Tracker := do
  let frontier := unionOperandFrontier t.nodeToFrontier n
  let t := { t with nodeToFrontier := (id, frontier) :: t.nodeToFrontier }
  match frontier with
  | .tooMany => return t
  | .vector operands =>
    if 2 ≤ operands.length then
      let g ← get
      let (result, _) ← flowFromFrontierToNode g operands (g.nodes.length + 1) id []
      let replacement ← resolveTruthTable result operands id
      match replacement with
      | none => return t
      | some r => return { t with nodeReplacements := t.nodeReplacements ++ [(id, r)] }
    else return t

/-- A visit of a node; the default handler does nothing. -/
def visitNode (t : Tracker) (id : Nat) : Build Tracker := do
  let n ← getNode id
  if isLogicOp n then handleLogicOp t id n else return t

/-- `RunOnFunctionBaseInternal`, on the nodes in the order in which they are visited. -/
def runOnFunctionBaseInternal (order : List Nat) : Build Bool := do
  let t ← order.foldlM visitNode ⟨[], []⟩
  t.nodeReplacements.forM fun r => replaceUsesWith r.1 r.2
  return !t.nodeReplacements.isEmpty

end Xls.BooleanSimplification

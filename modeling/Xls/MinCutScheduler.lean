import Xls.FunctionPartition

/-!
# Xls.MinCutScheduler

The scheduler of `scheduling/min_cut_scheduler.cc`: the nodes are split at one cycle boundary
after the other with a minimum cut, in several orders of which the best is kept.
-/

namespace Xls

/-- A function or a proc, as the scheduler sees it. -/
structure FunctionBase (g : NodeGraph) extends NodeInfo g where
  /-- `nodes()`, in the order of the function. -/
  nodes : List (Fin g.size)
  nodup_nodes : nodes.Nodup
  mem_nodes : ∀ n, n ∈ nodes
  isMinDelay : Fin g.size → Bool
  isReceive : Fin g.size → Bool
  isSend : Fin g.size → Bool
  /-- The parameters and the next state of a proc. -/
  proc : Option (List (Fin g.size) × List (Fin g.size))

/-- `SchedulingConstraint`, where the scheduler tells them apart. -/
inductive SchedulingConstraint
  | recvsFirstSendsLast
  | other
  deriving DecidableEq

namespace MinCutScheduler

open ScheduleBounds FunctionPartition

variable {g : NodeGraph}

/-- The loop that tightens the lower bounds after a cut. -/
def tightenAllLb (value : Int) : List (Fin g.size) → ScheduleBounds g → Result (ScheduleBounds g)
  | [], s => .ok s
  | node :: rest, s => do
    let s ← s.tightenNodeLb node value
    tightenAllLb value rest s

/-- The nodes that can be scheduled in a cycle or in the next. -/
def partitionableNodes (f : FunctionBase g) (cycle : Int) (bounds : ScheduleBounds g) :
    List (Fin g.size) :=
  f.nodes.filter fun node => bounds.lb node ≤ cycle ∧ cycle + 1 ≤ bounds.ub node

/-- `SplitAfterCycle`. -/
def splitAfterCycle (f : FunctionBase g) (cycle : Int) (bounds : ScheduleBounds g) :
    Result (ScheduleBounds g) := do
  let (first, second) ← minCostFunctionPartition f.toNodeInfo (partitionableNodes f cycle bounds)
  let bounds ← tightenAllUb cycle first bounds
  tightenAllLb (cycle + 1) second bounds

/-- `CountInteriorPipelineRegisters`, in an `int64_t`. -/
def countInteriorPipelineRegisters (f : FunctionBase g) (bounds : ScheduleBounds g) :
    List (Fin g.size) → Int → Result Int
  | [], registers => .ok registers
  | node :: rest, registers =>
    if bounds.lb node ≠ bounds.ub node then
      .error (.status "XLS_RET_CHECK failure: bounds.lb(node) == bounds.ub(node)")
    else
      let latestUse :=
        (g.users node).foldl (fun latest user => max latest (bounds.lb user)) (bounds.lb node)
      let live := Int.bmod (f.flatBitCount node * (latestUse - bounds.lb node)) (2 ^ 64)
      countInteriorPipelineRegisters f bounds rest (addInt64 registers live)

/-- `MiddleFirstOrder`. -/
def middleFirstOrder (first last : Int) : List Int :=
  if last < first then [] -- The source does not end here; it has no such call.
  else if first = last then [first]
  else if first = last - 1 then [first, last]
  else
    let middle := (first + last) / 2
    middle :: (middleFirstOrder first (middle - 1) ++ middleFirstOrder (middle + 1) last)
termination_by (last + 1 - first).toNat

/-- `GetMinCutCycleOrders`. -/
def getMinCutCycleOrders (length : Int) : Result (List (List Int)) :=
  if length = 0 then .ok [[]]
  else if length = 1 then .ok [[0]]
  else if length = 2 then .ok [[0, 1], [1, 0]]
  else if length < 0 then .error .check -- A vector of negative length.
  else
    let forward := (List.range length.toNat).map fun cycle : Nat => (cycle : Int)
    .ok [forward, forward.reverse, middleFirstOrder 0 (length - 1)]

variable (f : FunctionBase g) (delayEstimator : Fin g.size → Result Int) (clockPeriodPs : Int)

/-- The cuts of one order. -/
def cutInOrder : List Int → ScheduleBounds g → Result (ScheduleBounds g)
  | [], bounds => .ok bounds
  | cycle :: rest, bounds => do
    let bounds ← splitAfterCycle f cycle bounds
    let bounds ← propagateLowerBounds delayEstimator clockPeriodPs bounds
    let bounds ← propagateUpperBounds delayEstimator clockPeriodPs bounds
    cutInOrder rest bounds

/-- The loop over the orders, with the best bounds and their number of registers. -/
def tryCutOrders (bounds : ScheduleBounds g) :
    List (List Int) → Option (ScheduleBounds g × Int) → Result (Option (ScheduleBounds g × Int))
  | [], best => .ok best
  | cutOrder :: rest, best => do
    let trial ← cutInOrder f delayEstimator clockPeriodPs cutOrder bounds
    let registers ← countInteriorPipelineRegisters f trial f.nodes 0
    match best with
    | none => tryCutOrders bounds rest (some (trial, registers))
    | some (bestBounds, bestRegisters) =>
      tryCutOrders bounds rest (if registers < bestRegisters then some (trial, registers)
        else some (bestBounds, bestRegisters))

/-- A tightening of a node to the first cycle. -/
def tightenToFirst (node : Fin g.size) (bounds : ScheduleBounds g) : Result (ScheduleBounds g) := do
  let bounds ← bounds.tightenNodeUb node 0
  propagateUpperBounds delayEstimator clockPeriodPs bounds

/-- The loop over the nodes for a constraint. -/
def recvsFirstSendsLast (pipelineStages : Int) :
    List (Fin g.size) → ScheduleBounds g → Result (ScheduleBounds g)
  | [], bounds => .ok bounds
  | node :: rest, bounds => do
    let bounds ←
      if f.isReceive node then tightenToFirst delayEstimator clockPeriodPs node bounds
      else .ok bounds
    let bounds ←
      if f.isSend node then
        (bounds.tightenNodeLb node (pipelineStages - 1)).bind
          (propagateLowerBounds delayEstimator clockPeriodPs)
      else .ok bounds
    recvsFirstSendsLast pipelineStages rest bounds

/-- The loop over the constraints. -/
def applyConstraints (pipelineStages : Int) :
    List SchedulingConstraint → ScheduleBounds g → Result (ScheduleBounds g)
  | [], bounds => .ok bounds
  | .recvsFirstSendsLast :: rest, bounds => do
    let bounds ← recvsFirstSendsLast f delayEstimator clockPeriodPs pipelineStages f.nodes bounds
    applyConstraints pipelineStages rest bounds
  | .other :: _, _ =>
    .error (.status
      "MinCutScheduler doesn't support constraints other than receives-first-sends-last.")

/-- The state backedge of a proc must be in the first cycle. -/
def tightenAllToFirst : List (Fin g.size) → ScheduleBounds g → Result (ScheduleBounds g)
  | [], bounds => .ok bounds
  | node :: rest, bounds => do
    let bounds ← tightenToFirst delayEstimator clockPeriodPs node bounds
    tightenAllToFirst rest bounds

/-- The parameters and the next state of a proc. -/
def stateNodes : List (Fin g.size) :=
  match f.proc with
  | none => []
  | some (params, nextState) => params ++ nextState

/-- `MinCutScheduler`, with the bounds that it leaves and the cycle map. -/
def minCutScheduler (pipelineStages : Int) (bounds : ScheduleBounds g)
    (constraints : List SchedulingConstraint) :
    Result (ScheduleBounds g × (Fin g.size → Int)) := do
  let bounds ← applyConstraints f delayEstimator clockPeriodPs pipelineStages constraints bounds
  if f.nodes.any f.isMinDelay then
    .error (.status "MinCutScheduler doesn't support min_delay nodes.")
  else do
    let bounds ← tightenAllToFirst delayEstimator clockPeriodPs (stateNodes f) bounds
    let orders ← getMinCutCycleOrders (pipelineStages - 1)
    let best ← tryCutOrders f delayEstimator clockPeriodPs bounds orders none
    let (bestBounds, _) ← derefOption best
    if f.nodes.any fun node => bestBounds.lb node ≠ bestBounds.ub node then
      .error (.status "XLS_RET_CHECK failure: bounds->lb(node) == bounds->ub(node)")
    else return (bestBounds, bestBounds.lb)

end MinCutScheduler

end Xls

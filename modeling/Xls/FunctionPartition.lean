import Xls.MinCut

/-!
# Xls.FunctionPartition

`MinCostFunctionPartition` of `scheduling/function_partition.cc`: some nodes of a function are
partitioned by a minimum cut of a graph that is built for them.
-/

namespace Xls

/-- What the cut needs to know of the nodes of a function, beside their operands. -/
structure NodeInfo (g : NodeGraph) where
  isParam : Fin g.size → Bool
  /-- `GetType()->GetFlatBitCount()`. -/
  flatBitCount : Fin g.size → Int
  flatBitCount_nonneg : ∀ n, 0 ≤ flatBitCount n

namespace FunctionPartition

open MinCut (Edge Graph minCutBetweenNodes)

/-- A node of the graph that is cut. -/
inductive CutNode (g : NodeGraph)
  | source
  | sink
  /-- A node of the function. -/
  | node (n : Fin g.size)
  /-- The node with the fan-in of a node of the function that has more than one user. -/
  | fanin (n : Fin g.size)
  deriving DecidableEq

/-- The graph that is built, and the nodes of the function that it has. -/
structure Builder (g : NodeGraph) where
  nodes : List (CutNode g)
  edges : List (Edge (CutNode g))
  xlsNodesInMincutGraph : List (Fin g.size)

variable {g : NodeGraph}

namespace Builder

/-- The graph with the artificial source and sink. -/
def initial (g : NodeGraph) : Builder g := ⟨[.source, .sink], [], []⟩

/-- `add_edge`: an edge and an opposing edge of maximum weight. -/
def addEdge (b : Builder g) (src tgt : CutNode g) (weight : Int) : Builder g :=
  { b with edges := b.edges ++ [⟨src, tgt, weight⟩, ⟨tgt, src, int64Max⟩] }

/-- `add_node_to_mincut_graph`. -/
def addNodeToMincutGraph (b : Builder g) (node : Fin g.size) : Result (Builder g) := do
  checkThat (decide (node ∉ b.xlsNodesInMincutGraph))
  return { b with
    nodes := b.nodes ++ [.node node]
    xlsNodesInMincutGraph := b.xlsNodesInMincutGraph ++ [node] }

end Builder

variable (info : NodeInfo g) (partitionable : List (Fin g.size))

/-- The loop over the operands of a partitionable node. -/
def addOperands : List (Fin g.size) → Builder g → Result (Builder g)
  | [], b => .ok b
  | operand :: rest, b =>
    if operand ∉ partitionable ∧ operand ∉ b.xlsNodesInMincutGraph then do
      let b ← b.addNodeToMincutGraph operand
      addOperands rest (b.addEdge .source (.node operand) int64Max)
    else addOperands rest b

/-- The loop over the users of a partitionable node. -/
def addUsers : List (Fin g.size) → Builder g → Result (Builder g)
  | [], b => .ok b
  | user :: rest, b =>
    if user ∉ partitionable ∧ user ∉ b.xlsNodesInMincutGraph then do
      let b ← b.addNodeToMincutGraph user
      addUsers rest (b.addEdge (.node user) .sink int64Max)
    else addUsers rest b

/-- The loop over the partitionable nodes. -/
def addPartitionable : List (Fin g.size) → Builder g → Result (Builder g)
  | [], b => .ok b
  | node :: rest, b => do
    let b ← b.addNodeToMincutGraph node
    let b := if info.isParam node then b.addEdge .source (.node node) int64Max else b
    let b ← addOperands partitionable (g.operands node) b
    let b ← addUsers partitionable (g.users node) b
    addPartitionable rest b

/-- `edge_weight`, in an `int64_t`. -/
def edgeWeight (node : Fin g.size) (fanOut : Nat) : Int :=
  let scaled := Int.bmod (info.flatBitCount node * (1024 * 1024)) (2 ^ 64)
  Int.tdiv (addInt64 scaled (fanOut / 2 : Nat)) fanOut

/-- The edges of a node with more than one successor. -/
def addFanOut (node : Fin g.size) (weight : Int) : List (Fin g.size) → Builder g → Builder g
  | [], b => b
  | successor :: rest, b =>
    addFanOut node weight rest ((b.addEdge (.node node) (.node successor) weight).addEdge
      (.node successor) (.fanin node) weight)

/-- The loop that adds the edges of the function. -/
def addFunctionEdges : List (Fin g.size) → Builder g → Builder g
  | [], b => b
  | node :: rest, b =>
    match (g.users node).filter fun user => user ∈ b.xlsNodesInMincutGraph with
    | [] => addFunctionEdges rest b
    | [successor] =>
      addFunctionEdges rest (b.addEdge (.node node) (.node successor) (edgeWeight info node 1))
    | successors =>
      addFunctionEdges rest (addFanOut node (edgeWeight info node successors.length) successors
        { b with nodes := b.nodes ++ [.fanin node] })

/-- The partitionable node that a node of the graph stands for. -/
def partitionableNode : CutNode g → Option (Fin g.size)
  | .node n => if n ∈ partitionable then some n else none
  | _ => none

/-- `MinCostFunctionPartition`. -/
def minCostFunctionPartition : Result (List (Fin g.size) × List (Fin g.size)) := do
  checkThat (decide partitionable.Nodup)
  let b ← addPartitionable info partitionable partitionable (Builder.initial g)
  let b := addFunctionEdges info b.xlsNodesInMincutGraph b
  let cut ← minCutBetweenNodes ⟨b.nodes, b.edges⟩ .source .sink
  return (cut.sourcePartition.filterMap (partitionableNode partitionable),
    cut.sinkPartition.filterMap (partitionableNode partitionable))

end FunctionPartition

end Xls

import Mathlib.Data.List.FinRange
import Xls.ScheduleBounds

/-!
# Xls.MinCut

The minimum cut of `data_structures/min_cut.cc`: the Ford-Fulkerson method with augmenting
paths that a breadth-first search finds.

A node is a value of a type; the numbers that the source gives to nodes only order the list of
nodes. A residual edge is an edge of the graph with a direction, and its capacity is all that
changes, so the residual graph is a function from residual edges to capacities.
-/

namespace Xls.MinCut

/-- An edge of the graph. -/
structure Edge (N : Type) where
  fromNode : N
  toNode : N
  weight : Int

/-- The graph, with the nodes and the edges in the order in which they were added. -/
structure Graph (N : Type) where
  nodes : List N
  edges : List (Edge N)

variable {N : Type} (g : Graph N)

/-- `ResidualEdge`: an edge, forward (`false`) or backward (`true`). -/
abbrev ResidualEdge := Fin g.edges.length × Bool

namespace ResidualEdge

variable {g}

/-- `ResidualEdge::from`. -/
def fromNode (e : ResidualEdge g) : N :=
  if e.2 then g.edges[e.1].toNode else g.edges[e.1].fromNode

/-- `ResidualEdge::to`. -/
def toNode (e : ResidualEdge g) : N :=
  if e.2 then g.edges[e.1].fromNode else g.edges[e.1].toNode

/-- `ResidualEdge::dual_edge`. -/
def dualEdge (e : ResidualEdge g) : ResidualEdge g := (e.1, !e.2)

end ResidualEdge

/-- `ResidualGraph`: the capacities of the residual edges. -/
abbrev ResidualGraph := ResidualEdge g → Int

/-- The residual graph without flow. -/
def initialResidualGraph : ResidualGraph g := fun e => if e.2 then 0 else g.edges[e.1].weight

variable {g} [DecidableEq N]

/-- `ResidualGraph::successors`. -/
def successors (g : Graph N) (node : N) : List (ResidualEdge g) :=
  (List.finRange g.edges.length).flatMap fun i =>
    (if g.edges[i].fromNode = node then [(i, false)] else []) ++
      (if g.edges[i].toNode = node then [(i, true)] else [])

/-- `ResidualGraph::PushFlow`. -/
def pushFlow (residual : ResidualGraph g) (amount : Int) (e : ResidualEdge g) :
    Result (ResidualGraph g) := do
  checkThat (decide (amount ≤ residual e))
  let residual := Function.update residual e (residual e - amount)
  return Function.update residual e.dualEdge (residual e.dualEdge + amount)

/-! ### Augmenting paths -/

/-- `path_back`: for the nodes that were found, the latest first, the last edge of a path to
the node and the capacity of the path. -/
abbrev PathBack (g : Graph N) := List (N × ResidualEdge g × Int)

/-- Looks a node up in `path_back`. -/
def pathBackAt (node : N) : PathBack g → Option (ResidualEdge g × Int)
  | [] => none
  | (found, entry) :: rest => if found = node then some entry else pathBackAt node rest

/-- `maybe_extend_frontier`. -/
def maybeExtendFrontier (residual : ResidualGraph g) (e : ResidualEdge g)
    (pathBack : PathBack g) (nextFrontier : List N) : PathBack g × List N :=
  if (pathBackAt e.toNode pathBack).isSome then (pathBack, nextFrontier)
  else
    let pathCapacity := ((pathBackAt e.fromNode pathBack).map Prod.snd).getD int64Max
    ((e.toNode, e, min pathCapacity (residual e)) :: pathBack, nextFrontier ++ [e.toNode])

/-- Where the search stands: it found the sink, or it has a next frontier. -/
inductive Search (g : Graph N)
  | found (pathBack : PathBack g)
  | frontier (pathBack : PathBack g) (nextFrontier : List N)

/-- The loop over the edges of a node. -/
def scanEdges (sink : N) (residual : ResidualGraph g) :
    List (ResidualEdge g) → PathBack g → List N → Result (Search g)
  | [], pathBack, nextFrontier => .ok (.frontier pathBack nextFrontier)
  | e :: rest, pathBack, nextFrontier => do
    checkThat (decide (0 ≤ residual e))
    if 0 < residual e then
      let (pathBack, nextFrontier) := maybeExtendFrontier residual e pathBack nextFrontier
      if e.toNode = sink then return .found pathBack
      else scanEdges sink residual rest pathBack nextFrontier
    else scanEdges sink residual rest pathBack nextFrontier

/-- The loop over the nodes of the frontier. -/
def scanNodes (sink : N) (residual : ResidualGraph g) :
    List N → PathBack g → List N → Result (Search g)
  | [], pathBack, nextFrontier => .ok (.frontier pathBack nextFrontier)
  | node :: rest, pathBack, nextFrontier => do
    match ← scanEdges sink residual (successors g node) pathBack nextFrontier with
    | .found pathBack => return .found pathBack
    | .frontier pathBack nextFrontier => scanNodes sink residual rest pathBack nextFrontier

/-- The loop over the frontiers. Every frontier but the last has a new node. -/
def search (sink : N) (residual : ResidualGraph g) :
    Nat → List N → PathBack g → Result (Option (PathBack g))
  | 0, _, _ => .error .check
  | fuel + 1, frontier, pathBack =>
    if frontier.isEmpty then return none
    else do
      match ← scanNodes sink residual frontier pathBack [] with
      | .found pathBack => return some pathBack
      | .frontier pathBack nextFrontier => search sink residual fuel nextFrontier pathBack

/-- The loop that walks back along the path and augments the flow. -/
def augmentPath (source : N) (amount : Int) (pathBack : PathBack g) :
    Nat → N → ResidualGraph g → Result (ResidualGraph g)
  | 0, _, _ => .error .check
  | fuel + 1, n, residual =>
    if n = source then return residual
    else do
      let (e, _) ← derefOption (pathBackAt n pathBack)
      let residual ← pushFlow residual amount e
      checkThat (decide (0 ≤ residual e))
      augmentPath source amount pathBack fuel e.fromNode residual

/-- `AugmentFlow`. -/
def augmentFlow (source sink : N) (residual : ResidualGraph g) :
    Result (Int × ResidualGraph g) := do
  match ← search sink residual (g.nodes.length + 2) [source] [] with
  | some pathBack => do
    let (_, amount) ← derefOption (pathBackAt sink pathBack)
    checkThat (decide (0 < amount))
    let residual ← augmentPath source amount pathBack (pathBack.length + 1) sink residual
    return (amount, residual)
  | none => return (0, residual)

/-! ### The cut -/

/-- The loop over `AugmentFlow`. -/
def maximizeFlow (source sink : N) : Nat → ResidualGraph g → Result (ResidualGraph g)
  | 0, _ => .error .check
  | fuel + 1, residual => do
    let (amount, residual) ← augmentFlow source sink residual
    if 0 < amount then maximizeFlow source sink fuel residual else return residual

/-- The loop over the edges of a node that marks the nodes that are reached. -/
def reachEdges (residual : ResidualGraph g) :
    List (ResidualEdge g) → List N → List N → List N × List N
  | [], reachable, frontier => (reachable, frontier)
  | e :: rest, reachable, frontier =>
    if 0 < residual e ∧ e.toNode ∉ reachable then
      reachEdges residual rest (e.toNode :: reachable) (frontier ++ [e.toNode])
    else reachEdges residual rest reachable frontier

/-- The loop that walks the residual graph from the source. -/
def reach (residual : ResidualGraph g) : Nat → List N → List N → Result (List N)
  | _, reachable, [] => .ok reachable
  | 0, _, _ :: _ => .error .check
  | fuel + 1, reachable, node :: frontier =>
    let (reachable, frontier) := reachEdges residual (successors g node) reachable frontier
    reach residual fuel reachable frontier

/-- `GraphCut`. -/
structure GraphCut (N : Type) where
  weight : Int
  sourcePartition : List N
  sinkPartition : List N

/-- The cut between the nodes that were reached and the others. -/
def cutBetween (g : Graph N) (reachable : List N) : GraphCut N :=
  let crossing := g.nodes.flatMap fun node =>
    g.edges.filter fun e => e.fromNode = node ∧ node ∈ reachable ∧ e.toNode ∉ reachable
  { weight := (crossing.map Edge.weight).foldl addInt64 0
    sourcePartition := g.nodes.filter fun node => node ∈ reachable
    sinkPartition := g.nodes.filter fun node => node ∉ reachable }

/-- `MinCutBetweenNodes`. No run augments the flow by more than all weights together. -/
def minCutBetweenNodes (g : Graph N) (source sink : N) : Result (GraphCut N) := do
  let fuel := (g.edges.map fun e => e.weight.toNat).sum + 1
  let residual ← maximizeFlow source sink fuel (initialResidualGraph g)
  let reachable ← reach residual (g.nodes.length + 1) [source] [source]
  checkThat (decide (sink ∉ reachable))
  return cutBetween g reachable

end Xls.MinCut

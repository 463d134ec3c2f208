import Mathlib.Logic.Relation
import Xls.Lib.MergedWeight
import Xls.UnionFindMap.Views

/-!
# Xls.GraphContraction

The graph with vertex identification of `data_structures/graph_contraction.h`: three
union-find maps from vertices to the weights of the vertices and to the edges that leave and
enter them. The edges of a vertex are a map from the other end to the weight.

Beside the operations stands what they are for: `Added` records the vertices, the edges and
the identifications, and `IsQuotient` says that a graph is the quotient of what was added.
-/

namespace Xls

open Prod

namespace GraphContraction

/-- `absl::flat_hash_map<V, EW>`. -/
abbrev EdgeMap (V EW : Type) := AList fun _ : V => EW

/-- The order in which the elements of a hash set are visited, which is not specified. -/
structure HashOrder (V : Type) where
  arrange : List V → List V
  perm : ∀ l, (arrange l).Perm l

end GraphContraction

open GraphContraction in
/-- The graph. -/
structure GraphContraction (V VW EW : Type) where
  vertexWeights : UnionFindMap V VW
  outEdges : UnionFindMap V (EdgeMap V EW)
  inEdges : UnionFindMap V (EdgeMap V EW)

namespace GraphContraction

variable {V VW EW : Type}

/-- The graph as it is constructed. -/
def empty : GraphContraction V VW EW :=
  ⟨UnionFindMap.empty, UnionFindMap.empty, UnionFindMap.empty⟩

variable [DecidableEq V]

/-! ### Vertices and edges -/

/-- `Contains`. -/
def contains (g : GraphContraction V VW EW) (vertex : V) : Bool :=
  g.vertexWeights.contains vertex

/-- The part of `AddVertex` that concerns one map of edges. -/
def insertNoEdges (m : UnionFindMap V (EdgeMap V EW)) (vertex : V) :
    Result (UnionFindMap V (EdgeMap V EW)) :=
  if m.contains vertex then return m else m.insert vertex ∅

/-- `AddVertex`. -/
def addVertex (g : GraphContraction V VW EW) (vertex : V) (weight : VW) :
    Result (GraphContraction V VW EW) := do
  let vertexWeights ← g.vertexWeights.insert vertex weight
  let outEdges ← insertNoEdges g.outEdges vertex
  let inEdges ← insertNoEdges g.inEdges vertex
  return ⟨vertexWeights, outEdges, inEdges⟩

/-- `AddEdge`. Merging a hash map into another one keeps the entries that are there. -/
def addEdge (g : GraphContraction V VW EW) (source target : V) (weight : EW) :
    Result (Bool × GraphContraction V VW EW) :=
  if !(g.contains source && g.contains target) then
    return (false, g)
  else do
    let outEdges ← g.outEdges.insertWith source (AList.singleton target weight) (· ∪ ·)
    let inEdges ← g.inEdges.insertWith target (AList.singleton source weight) (· ∪ ·)
    return (true, { g with outEdges := outEdges, inEdges := inEdges })

/-! ### Identifying vertices -/

section Identify

variable (order : HashOrder V) (ewMerge : EW → EW → EW) (x y rep : V)

/-- The key that the merged edges have for a vertex. -/
def renamed (vertex : V) : V := if vertex = x ∨ vertex = y then rep else vertex

/-- One round of the loops of `merge_map`. -/
def mergeEntry (edges result : EdgeMap V EW) (vertex : V) : EdgeMap V EW :=
  match edges.lookup vertex with
  | some weight =>
    match result.lookup (renamed x y rep vertex) with
    | some old => result.insert (renamed x y rep vertex) (ewMerge old weight)
    | none => result.insert (renamed x y rep vertex) weight
  | none => result

/-- `merge_map` of `IdentifyVertices`. -/
def mergeMap (a b : EdgeMap V EW) : EdgeMap V EW :=
  (order.arrange b.keys).foldl (mergeEntry ewMerge x y rep b)
    ((order.arrange a.keys).foldl (mergeEntry ewMerge x y rep a) ∅)

/-- What `patch_up_edges` does to the edges of a vertex. -/
def patchEdges (edges : EdgeMap V EW) : Result (EdgeMap V EW) :=
  match edges.lookup x, edges.lookup y with
  | some xWeight, some yWeight =>
    .ok (((edges.erase x).erase y).insert rep (ewMerge xWeight yWeight))
  | some weight, none => .ok ((edges.erase x).insert rep weight)
  | none, some weight => .ok ((edges.erase y).insert rep weight)
  | none, none => .error .check

/-- `patch_up_edges`. -/
def patchUpEdges (map : UnionFindMap V (EdgeMap V EW)) (vertex : V) :
    Result (UnionFindMap V (EdgeMap V EW)) := do
  let (found, map) ← map.find vertex
  let (_, edges) ← derefOption found
  let edges ← patchEdges ewMerge x y rep edges
  map.assign vertex edges

/-- The loops over `patch_up_edges`. -/
def patchAll : List V → UnionFindMap V (EdgeMap V EW) → Result (UnionFindMap V (EdgeMap V EW))
  | [], map => .ok map
  | vertex :: rest, map => do
    let map ← patchUpEdges ewMerge x y rep map vertex
    patchAll rest map

/-- `Find(vertex)->second` of a map of edges, as the set of its keys. -/
def keysOf (map : UnionFindMap V (EdgeMap V EW)) (vertex : V) :
    Result (List V × UnionFindMap V (EdgeMap V EW)) := do
  let (found, map) ← map.find vertex
  let (_, edges) ← derefOption found
  return (order.arrange edges.keys, map)

end Identify

/-- `IdentifyVertices`. -/
def identifyVertices (order : HashOrder V) (vwMerge : VW → VW → VW) (ewMerge : EW → EW → EW)
    (g : GraphContraction V VW EW) (x y : V) : Result (Bool × GraphContraction V VW EW) :=
  if !(g.contains x && g.contains y) then
    return (false, g)
  else do
    let (xFound, vertexWeights) ← g.vertexWeights.find x
    let (yFound, vertexWeights) ← vertexWeights.find y
    let (xRep, _) ← derefOption xFound
    let (yRep, _) ← derefOption yFound
    if xRep = yRep then
      return (true, { g with vertexWeights := vertexWeights })
    else
      let (_, vertexWeights) ← vertexWeights.union x y vwMerge
      let (found, vertexWeights) ← vertexWeights.find x
      let (rep, _) ← derefOption found
      let (edgesOutOfX, outEdges) ← keysOf order g.outEdges x
      let (edgesOutOfY, outEdges) ← keysOf order outEdges y
      let (edgesIntoX, inEdges) ← keysOf order g.inEdges x
      let (edgesIntoY, inEdges) ← keysOf order inEdges y
      let (_, outEdges) ← outEdges.union x y (mergeMap order ewMerge x y rep)
      let (_, inEdges) ← inEdges.union x y (mergeMap order ewMerge x y rep)
      let outEdges ← patchAll ewMerge x y rep edgesIntoX outEdges
      let outEdges ← patchAll ewMerge x y rep edgesIntoY outEdges
      let inEdges ← patchAll ewMerge x y rep edgesOutOfX inEdges
      let inEdges ← patchAll ewMerge x y rep edgesOutOfY inEdges
      return (true, ⟨vertexWeights, outEdges, inEdges⟩)

/-! ### Queries -/

/-- `RepresentativeOf`. -/
def representativeOf (g : GraphContraction V VW EW) (vertex : V) :
    Result (Option V × GraphContraction V VW EW) := do
  let (found, vertexWeights) ← g.vertexWeights.find vertex
  return (found.map fst, { g with vertexWeights := vertexWeights })

/-- `EdgesOutOf`. -/
def edgesOutOf (g : GraphContraction V VW EW) (vertex : V) :
    Result (EdgeMap V EW × GraphContraction V VW EW) := do
  let (found, outEdges) ← g.outEdges.find vertex
  return ((found.map snd).getD ∅, { g with outEdges := outEdges })

/-- `EdgesInto`. -/
def edgesInto (g : GraphContraction V VW EW) (vertex : V) :
    Result (EdgeMap V EW × GraphContraction V VW EW) := do
  let (found, inEdges) ← g.inEdges.find vertex
  return ((found.map snd).getD ∅, { g with inEdges := inEdges })

/-- `WeightOf` of a vertex. -/
def weightOf (g : GraphContraction V VW EW) (vertex : V) :
    Result (Option VW × GraphContraction V VW EW) := do
  let (found, vertexWeights) ← g.vertexWeights.find vertex
  return (found.map snd, { g with vertexWeights := vertexWeights })

/-- The answer of `RepresentativeOf`. -/
def repOf (g : GraphContraction V VW EW) (vertex : V) : Option V :=
  match g.representativeOf vertex with
  | .ok (answer, _) => answer
  | .error _ => none

/-- The answer of `EdgesOutOf`. -/
def outOf (g : GraphContraction V VW EW) (vertex : V) : EdgeMap V EW :=
  match g.edgesOutOf vertex with
  | .ok (answer, _) => answer
  | .error _ => ∅

/-- The answer of `EdgesInto`. -/
def intoOf (g : GraphContraction V VW EW) (vertex : V) : EdgeMap V EW :=
  match g.edgesInto vertex with
  | .ok (answer, _) => answer
  | .error _ => ∅

/-! ### Runs -/

/-- A call that changes the graph. -/
inductive Operation (V VW EW : Type)
  | addVertex (vertex : V) (weight : VW)
  | addEdge (source target : V) (weight : EW)
  | identifyVertices (x y : V)

section Runs

variable (order : HashOrder V) (vwMerge : VW → VW → VW) (ewMerge : EW → EW → EW)

/-- One call. -/
def step (g : GraphContraction V VW EW) :
    Operation V VW EW → Result (GraphContraction V VW EW)
  | .addVertex vertex weight => g.addVertex vertex weight
  | .addEdge source target weight => snd <$> g.addEdge source target weight
  | .identifyVertices x y => snd <$> identifyVertices order vwMerge ewMerge g x y

/-- Calls one after the other. -/
def run (g : GraphContraction V VW EW) :
    List (Operation V VW EW) → Result (GraphContraction V VW EW)
  | [] => .ok g
  | op :: rest => do
    let g ← step order vwMerge ewMerge g op
    run g rest

end Runs

/-! ### The quotient of what was added -/

/-- The vertices and edges that were added, with their last weights, and the pairs of
vertices that were identified. -/
structure Added (V VW EW : Type) where
  vertices : AList fun _ : V => VW
  edges : AList fun _ : V × V => EW
  identified : List (V × V)

namespace Added

/-- Nothing was added. -/
def nothing : Added V VW EW := ⟨∅, ∅, []⟩

/-- What was added after a call. Edges and identifications need known vertices. -/
def record (h : Added V VW EW) : Operation V VW EW → Added V VW EW
  | .addVertex vertex weight => { h with vertices := h.vertices.insert vertex weight }
  | .addEdge source target weight =>
    if source ∈ h.vertices ∧ target ∈ h.vertices then
      { h with edges := h.edges.insert (source, target) weight }
    else h
  | .identifyVertices x y =>
    if x ∈ h.vertices ∧ y ∈ h.vertices then
      { h with identified := (x, y) :: h.identified }
    else h

/-- What was added after the calls of a run. -/
def records (h : Added V VW EW) (ops : List (Operation V VW EW)) : Added V VW EW :=
  ops.foldl record h

/-- The classes of identified vertices. -/
def Same (h : Added V VW EW) : V → V → Prop :=
  Relation.EqvGen fun u v => (u, v) ∈ h.identified

end Added

/-- A graph is the quotient of what was added: its representatives stand for the classes, and
the edges and weights it reports are the merged weights of what was added. -/
structure IsQuotient (vwMerge : VW → VW → VW) (ewMerge : EW → EW → EW)
    (g : GraphContraction V VW EW) (h : Added V VW EW) : Prop where
  representative : ∀ v ∈ h.vertices, ∃ r ∈ h.vertices, g.repOf v = some r ∧ g.repOf r = some r
  classes : ∀ u ∈ h.vertices, ∀ v ∈ h.vertices, g.repOf u = g.repOf v ↔ h.Same u v
  weightOf : ∀ v ∈ h.vertices, ∃ g', g.weightOf v =
    .ok (weigh vwMerge h.vertices.entries fun u => g.repOf u = g.repOf v, g')
  edgesOutOf : ∀ v ∈ h.vertices, ∃ edges g', g.edgesOutOf v = .ok (edges, g') ∧
    ∀ t, edges.lookup t = weigh ewMerge h.edges.entries fun e =>
      g.repOf e.1 = g.repOf v ∧ g.repOf e.2 = some t
  edgesInto : ∀ v ∈ h.vertices, ∃ edges g', g.edgesInto v = .ok (edges, g') ∧
    ∀ s, edges.lookup s = weigh ewMerge h.edges.entries fun e =>
      g.repOf e.1 = some s ∧ g.repOf e.2 = g.repOf v
  /-- The edges in the two directions mirror each other. -/
  mirror : ∀ s t, g.repOf s = some s → g.repOf t = some t →
    (g.outOf s).lookup t = (g.intoOf t).lookup s
  endpoints : ∀ v, (∀ t ∈ g.outOf v, g.repOf t = some t) ∧ ∀ s ∈ g.intoOf v, g.repOf s = some s

/-! ### Calls that the graph handles -/

/-- A vertex names its class: it is the representative, or the class has no edges. -/
def Names (g : GraphContraction V VW EW) (v : V) : Prop :=
  g.repOf v = some v ∨ g.outOf v = ∅ ∧ g.intoOf v = ∅

/-- The calls that the graph handles. A vertex that is added again is not identified with
another one. An edge is added between representatives that have no edge yet. Vertices that are
identified name their classes; if the representative that both will have is neither of them,
neither class has an edge to itself. -/
def Meets (g : GraphContraction V VW EW) : Operation V VW EW → Prop
  | .addVertex vertex _ => g.contains vertex = true → ∀ u, g.repOf u = g.repOf vertex → u = vertex
  | .addEdge source target _ => g.contains source = true → g.contains target = true →
    g.repOf source = some source ∧ g.repOf target = some target ∧ target ∉ g.outOf source
  | .identifyVertices x y => ∀ a b, g.repOf x = some a → g.repOf y = some b → a ≠ b →
    g.Names x ∧ g.Names y ∧
      (UnionFindMap.survivor g.vertexWeights.size a b = x ∨
        UnionFindMap.survivor g.vertexWeights.size a b = y ∨ a ∉ g.outOf a ∧ b ∉ g.outOf b)

/-- Every call of a run is one that the graph handles. -/
def AllMeet (order : HashOrder V) (vwMerge : VW → VW → VW) (ewMerge : EW → EW → EW)
    (g : GraphContraction V VW EW) : List (Operation V VW EW) → Prop
  | [] => True
  | op :: rest => g.Meets op ∧
      ∀ g', step order vwMerge ewMerge g op = .ok g' → AllMeet order vwMerge ewMerge g' rest

end GraphContraction

end Xls

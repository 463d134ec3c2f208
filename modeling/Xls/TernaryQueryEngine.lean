import Xls.AbstractNodeEvaluator.Node
import Xls.Ternary

/-!
# Xls.TernaryQueryEngine

`xls/passes/ternary_query_engine.cc`: the known bits of every node, computed by one
sweep of `AbstractNodeEvaluator` over ternary values, with handlers of its own for
the operations on arrays.

An index into an array is compared with an array size that fits in an `int64_t`, so
`ToSaturatedInt64` never decides a comparison and is left out.
-/

namespace Xls

open TernaryVector BoolList

/-- `ReachedFixpoint`. -/
inductive ReachedFixpoint
  | unchanged | changed | unknown
  deriving DecidableEq

/-- A ternary vector at every leaf. -/
abbrev TernaryTree := Evaluator.CompoundValue TernaryValue

/-- The ternary tree admits the value. -/
abbrev TernaryTree.Admits (t : TernaryTree) (v : Value) : Prop :=
  Evaluator.TreeRep TernaryValue.Admits t v

namespace TernaryQueryEngine

/-- An operand with its ternary tree. -/
abbrev Operand := Evaluator.Operand TernaryValue

/-! ### Indices that are not fully known -/

/-- The loop of `ForEachPossibleIndex` over the values of one index. The first index
at or past the last element stands for all later ones. -/
def eachIndex (visit : TernaryTree → Result (List TernaryTree)) (view : TernaryTree) :
    List (List Bool) → Result (List TernaryTree)
  | [] => .ok []
  | possibility :: rest => do
    let idx := toNat possibility
    if view.children.length - 1 ≤ idx then
      let last ← derefOption view.children[view.children.length - 1]?
      visit last
    else
      let element ← derefOption view.children[idx]?
      let found ← visit element
      let later ← eachIndex visit view rest
      return found ++ later

/-- `ForEachPossibleIndex`: the views that the indices may select. -/
def forEachPossibleIndex : List TernaryVector → TernaryTree → Result (List TernaryTree)
  | [], view => .ok [view]
  | index :: indices, view =>
    eachIndex (forEachPossibleIndex indices) view (allBitsValues index)

/-- `UpdateWithIntersection`, with its check of the lengths. -/
def intersectLeaf (lhs rhs : TernaryVector) : Option TernaryVector :=
  if lhs.length = rhs.length then some (intersection lhs rhs) else none

/-- The loop of `MergeEntriesForUpdate` over the values of one index; it ends at the
first index past the array. -/
def eachEntry (update : TernaryTree → Result TernaryTree) :
    List (List Bool) → List TernaryTree → Result (List TernaryTree)
  | [], entries => .ok entries
  | possibility :: rest, entries =>
    match entries[toNat possibility]? with
    | none => .ok entries
    | some entry => do
      let updated ← update entry
      eachEntry update rest (entries.set (toNat possibility) updated)

/-- `MergeEntriesForUpdate`. -/
def mergeEntriesForUpdate (value : TernaryTree) :
    List TernaryVector → TernaryTree → Result TernaryTree
  | [], out => derefOption (LeafTree.merge intersectLeaf out value)
  | _ :: _, .leaf _ => .error (.status "Type is not an array")
  | index :: indices, .node entries => do
    let merged ← eachEntry (mergeEntriesForUpdate value indices)
      (allBitsValues index) entries
    return .node merged

/-! ### Handlers -/

/-- Whether nothing is known. -/
def isUnconstrained (t : TernaryTree) : Bool := t.leaves.all fun v => v.all (· == .unknown)

/-- The loop of `MergePossibilities`. -/
def mergeFrom (result : TernaryTree) : List TernaryTree → Result TernaryTree
  | [] => .ok result
  | possibility :: rest =>
    if isUnconstrained result then .ok result
    else do
      let merged ← derefOption (LeafTree.merge intersectLeaf result possibility)
      mergeFrom merged rest

/-- `MergePossibilities`. -/
def mergePossibilities : List TernaryTree → Result TernaryTree
  | [] => .error (.status "XLS_RET_CHECK failure: !possibilities.empty()")
  | possibility :: rest => mergeFrom possibility rest

/-- `UnconstrainedOf`. -/
def unconstrainedOf (type : IrType) : TernaryTree :=
  type.shape.map fun width => List.replicate width .unknown

def handleArrayIndex (array : TernaryTree) (indices : List TernaryVector) : Result TernaryTree :=
  if indices = [] then .ok array
  else do
    let possibilities ← forEachPossibleIndex indices array
    mergePossibilities possibilities

/-- `leaf_type_tree::SliceArray`; elements past the end repeat the last one. -/
def sliceArray (size : Nat) (source : TernaryTree) (start : Nat) : Result TernaryTree := do
  let last ← derefOption source.children.getLast?
  return .node ((List.range size).map fun i => source.children.getD (i + start) last)

/-- The slices `HandleArraySlice` collects; it stops after an offset past the array. -/
def possibleSlices (size : Nat) (array : TernaryTree) :
    List (List Bool) → Result (List TernaryTree)
  | [] => .ok []
  | possibility :: rest => do
    let off := toNat possibility
    let slice ← sliceArray size array off
    if array.children.length < off then return [slice]
    else
      let slices ← possibleSlices size array rest
      return slice :: slices

def handleArraySlice (type : IrType) (array : TernaryTree) (start : TernaryVector) :
    Result TernaryTree := do
  let size ← type.arraySizeOrDie
  let possibilities ← possibleSlices size array (allBitsValues start)
  mergePossibilities possibilities

/-- The update at a known location; an offset past the end of any dimension leaves
the array as it is. -/
def updateKnown (value : TernaryTree) : List Nat → TernaryTree → Result TernaryTree
  | [], _ => .ok value
  | _ :: _, .leaf _ => .error (.status "Type is not an array")
  | offset :: offsets, .node entries =>
    match entries[offset]? with
    | none => .ok (.node entries)
    | some entry => do
      let updated ← updateKnown value offsets entry
      return .node (entries.set offset updated)

def handleArrayUpdate (type : IrType) (array value : TernaryTree) (indices : List TernaryVector) :
    Result TernaryTree :=
  if indices.all TernaryVector.isFullyKnown then
    match type with
    | .array _ _ =>
      updateKnown value
        (indices.map fun index => toNat (toKnownBitsValues index)) array
    | _ => .error (.status "Type is not an array")
  else mergeEntriesForUpdate value indices array

/-- `kIndexBitLimit`. -/
def indexBitLimit : Nat := 10

/-- `kComplexEvaluationLimit`. -/
def complexEvaluationLimit : Nat := 256

/-- `kCompoundDataTypeSizeLimit`. -/
def compoundDataTypeSizeLimit : Nat := 65536

/-- The unknown bits of an index. -/
def unknownBits (o : Operand) : Nat := (o.value.leaf?.getD []).count .unknown

/-- The operands that a scan over possible indices depends on. -/
def scannedIndices (kind : NodeKind) (operands : List Operand) : List Operand :=
  match kind with
  | .arrayIndex | .arraySlice _ => operands.drop 1
  | .arrayUpdate => operands.drop 2
  | _ => []

/-- `IsExpensiveToEvaluate`. -/
def isExpensiveToEvaluate (n : Node) (operands : List Operand) : Bool :=
  match n.kind with
  | .bin .shrl | .bin .shll | .bin .shra | .bitSliceUpdate =>
    complexEvaluationLimit < n.type.flatBitCount
  | _ =>
    (!n.type.isBits && compoundDataTypeSizeLimit < n.type.flatBitCount) ||
      indexBitLimit ≤ ((scannedIndices n.kind operands).map unknownBits).sum

/-- `VisitSingleNode` of a `TernaryNodeEvaluator`. -/
def visitSingleNode (n : Node) (operands : List Operand) : Result TernaryTree :=
  match n.kind, operands with
  | .arrayIndex, array :: indices => do
    let vecs ← Grow.eval (Evaluator.getValueList indices)
    handleArrayIndex array.value vecs
  | .arraySlice _, [array, start] => do
    let vec ← Grow.eval (Evaluator.getValue start)
    handleArraySlice n.type array.value vec
  | .arrayUpdate, array :: value :: indices => do
    let vecs ← Grow.eval (Evaluator.getValueList indices)
    handleArrayUpdate array.node.type array.value value.value vecs
  | _, _ =>
    Grow.eval (ternaryEvaluator.abstractNode (pure (unconstrainedOf n.type)) n operands)

/-! ### The sweep -/

/-- One node of the sweep: too expensive nodes are left unconstrained. -/
def evaluateNode (n : Node) (operands : List Operand) : Result TernaryTree :=
  if isExpensiveToEvaluate n operands then .ok (unconstrainedOf n.type)
  else visitSingleNode n operands

/-- The sweep over the nodes in topological order. -/
def sweep : List Operand → List Node → Result (List Operand)
  | values, [] => .ok values
  | values, n :: ns => do
    let operands ← derefOption (LeafTree.collect (fun o => values[o]?) n.operands)
    let t ← evaluateNode n operands
    sweep (values ++ [⟨n, t⟩]) ns

end TernaryQueryEngine

/-- `TernaryQueryEngine`: the type and the tree of every node populated so far. -/
structure TernaryQueryEngine where
  values : Nat → Option (IrType × TernaryTree)

namespace TernaryQueryEngine

/-- An engine that has not been populated. -/
def empty : TernaryQueryEngine := ⟨fun _ => none⟩

/-- A value of the sweep merged into what was known before. -/
def mergeValue (old : Option (IrType × TernaryTree)) (new : Operand) :
    Result (IrType × TernaryTree) :=
  match old with
  | none => .ok (new.node.type, new.value)
  | some (type, t) =>
    if type = new.node.type then do
      let merged ← derefOption (LeafTree.merge TernaryVector.updateWithUnion t new.value)
      return (type, merged)
    else .ok (new.node.type, new.value)

/-- The values of the nodes from a position on, merged one by one. -/
def mergeValues (e : TernaryQueryEngine) :
    Nat → List Operand → Result (List (IrType × TernaryTree))
  | _, [] => .ok []
  | i, new :: rest => do
    let merged ← mergeValue (e.values i) new
    let others ← mergeValues e (i + 1) rest
    return merged :: others

/-- Whether a known value differs from the one found by the sweep. -/
def differs (e : TernaryQueryEngine) (i : Nat) (new : Operand) : Bool :=
  match e.values i with
  | none => false
  | some (type, t) => decide (type = new.node.type) && decide (t ≠ new.value)

/-- `TernaryQueryEngine::Populate`. -/
def populate (e : TernaryQueryEngine) (f : Function) :
    Result (ReachedFixpoint × TernaryQueryEngine) := do
  let news ← sweep [] f.nodes
  let merged ← e.mergeValues 0 news
  let rf := if news.zipIdx.any fun p => e.differs p.2 p.1 then .changed else .unchanged
  return (rf, ⟨fun i => merged[i]?.or (e.values i)⟩)

end TernaryQueryEngine

end Xls

import Xls.IntervalSet.Algebra
import Xls.StatelessQueryEngine
import Xls.TopoSort

/-!
# Xls.ComparisonSimplification

Conditions on one node as sets of its values (`xls/passes/comparison_simplification_pass.cc`).
The first loop records, for one-bit nodes, the range of another node over which the node is
true; the second replaces nodes by simpler comparisons over the same range; the last reuses
comparisons that are the converse or the negation of an earlier one.
-/

namespace Xls

/-- `InvertComparisonOp`. -/
def CompareOp.invert : CompareOp → CompareOp
  | .sge => .slt
  | .sgt => .sle
  | .sle => .sgt
  | .slt => .sge
  | .uge => .ult
  | .ugt => .ule
  | .ule => .ugt
  | .ult => .uge
  | .eq => .ne
  | .ne => .eq

namespace ComparisonSimplification

open Graph (Build getNode makeNode replaceUsesWith)
open StatelessQueryEngine (isFullyKnown knownValueAsBits)

/-! ### Range equivalences -/

/-- `RangeEquivalence`: the node holds a value in the range. -/
structure RangeEquivalence where
  node : Nat
  width : Nat
  range : IntervalSet width

/-- The range at a width; set operations check that both sets have one width. -/
def RangeEquivalence.rangeOf (e : RangeEquivalence) (width : Nat) : Result (IntervalSet width) :=
  if h : e.width = width then .ok (h ▸ e.range) else .error .check

/-- The ranges reduced from the left on. -/
def reduceRanges {width : Nat}
    (reduce : IntervalSet width → IntervalSet width → IntervalSet width) :
    IntervalSet width → List RangeEquivalence → Result (IntervalSet width)
  | result, [] => .ok result
  | result, e :: es => do
    let range ← e.rangeOf width
    reduceRanges reduce (reduce result range) es

/-- `ReduceEquivalence`. -/
def reduceEquivalence (equivalences : List RangeEquivalence)
    (reduce : (width : Nat) → IntervalSet width → IntervalSet width → IntervalSet width)
    (complement : Bool) : Result (Option RangeEquivalence) :=
  match equivalences with
  | [] => return none
  | e :: es =>
    if !(e :: es).all fun c => c.node == e.node then return none
    else do
      let result ← reduceRanges (reduce e.width) e.range es
      return some ⟨e.node, e.width, if complement then result.complement else result⟩

/-- `MakeULtRange`: the values below the limit. -/
def makeULtRange (limit : Bits) : IntervalSet limit.width :=
  if limit.isZero then IntervalSet.empty limit.width
  else (IntervalSet.empty limit.width).addInterval (Interval.closed 0 limit.decrement.val)

/-- `MakeUGtRange`: the values above the limit. -/
def makeUGtRange (limit : Bits) : IntervalSet limit.width :=
  if limit.isAllOnes then IntervalSet.empty limit.width
  else
    (IntervalSet.empty limit.width).addInterval
      (Interval.closed limit.increment.val (Bits.allOnes limit.width).val)

/-- The range of a comparison with a constant. Only the strict comparisons are considered. -/
def constantEquivalence (op : CompareOp) (other : Nat) (constant : Bits) (constantOnRhs : Bool) :
    Option RangeEquivalence :=
  match op with
  | .eq => some ⟨other, constant.width, IntervalSet.ofBits constant⟩
  | .ne => some ⟨other, constant.width, (IntervalSet.ofBits constant).complement⟩
  | .ult => some ⟨other, constant.width,
      if constantOnRhs then makeULtRange constant else makeUGtRange constant⟩
  | .ugt => some ⟨other, constant.width,
      if constantOnRhs then makeUGtRange constant else makeULtRange constant⟩
  | _ => none

/-- The equivalences recorded so far; the last one recorded for a node counts. -/
abbrev Equivalences := List (Nat × RangeEquivalence)

/-- The range of a logical operation from those of its operands. -/
def logicalEquivalence (equivalences : Equivalences) (n : Node) :
    Result (Option RangeEquivalence) :=
  match LeafTree.collect (fun operand => equivalences.lookup operand) n.operands with
  | none => return none
  | some es =>
    match n.kind with
    | .nary .and => reduceEquivalence es (fun _ => IntervalSet.intersect) false
    | .nary .or => reduceEquivalence es (fun _ => IntervalSet.combine) false
    -- `Not(x)` is `Nand(x)`
    | .un .not => reduceEquivalence es (fun _ => IntervalSet.intersect) true
    | .nary .nand => reduceEquivalence es (fun _ => IntervalSet.intersect) true
    | .nary .nor => reduceEquivalence es (fun _ => IntervalSet.combine) true
    | _ => return none

/-- `ComputeRangeEquivalence`. -/
def computeRangeEquivalence (g : Graph) (equivalences : Equivalences) (id : Nat) :
    Result (Option RangeEquivalence) := do
  let n ← derefOption g.nodes[id]?
  if n.type ≠ .bits 1 then return none
  else
    match n.kind, n.operands with
    | .compare op, [lhs, rhs] =>
      if !((g.nodes[lhs]?.map Node.type).any IrType.isBits) then return none
      else if isFullyKnown g lhs then do
        let constant ← derefOption (knownValueAsBits g lhs)
        return constantEquivalence op rhs constant false
      else if isFullyKnown g rhs then do
        let constant ← derefOption (knownValueAsBits g rhs)
        return constantEquivalence op lhs constant true
      else logicalEquivalence equivalences n
    | _, _ => logicalEquivalence equivalences n

/-- The first loop of `RunOnFunctionBaseInternal`. -/
def computeEquivalences (g : Graph) : List Nat → Equivalences → Result Equivalences
  | [], equivalences => .ok equivalences
  | id :: order, equivalences => do
    let equivalence ← computeRangeEquivalence g equivalences id
    match equivalence with
    | none => computeEquivalences g order equivalences
    | some e => computeEquivalences g order ((id, e) :: equivalences)

/-! ### Replacements -/

/-- `GetULtInterval`: the limit below which the range lies. -/
def getULtInterval {width : Nat} (range : IntervalSet width) : Option Bits :=
  match range.intervals with
  | [interval] =>
    if interval.lower = 0 ∧ interval.upper ≠ 2 ^ width - 1 then
      some (Bits.ofNat width interval.upper).increment
    else none
  | _ => none

/-- `GetUGtInterval`: the limit above which the range lies. -/
def getUGtInterval {width : Nat} (range : IntervalSet width) : Option Bits :=
  match range.intervals with
  | [interval] =>
    if interval.lower ≠ 0 ∧ interval.upper = 2 ^ width - 1 then
      some (Bits.ofNat width interval.lower).decrement
    else none
  | _ => none

def isCompareOp (n : Node) : Bool :=
  match n.kind with
  | .compare _ => true
  | _ => false

/-- `is_eq_or_not_eq`. -/
def isEqOrNotEq (n : Node) : Bool :=
  match n.kind with
  | .compare .eq | .compare .ne => true
  | _ => false

/-- `is_inverse_of_multiuse_compare_op`. -/
def isInverseOfMultiuseCompareOp (g : Graph) (n : Node) : Bool :=
  match n.kind, n.operands with
  | .un .not, [operand] => g.nodes[operand]?.any isCompareOp && !g.hasSingleUse operand
  | _, _ => false

/-- `ReplaceUsesWithNew<Literal>`. -/
def replaceWithLiteral (id : Nat) (value : Bits) : Build Unit := do
  let literal ← makeNode ⟨.literal (.leaf value), [], .bits value.width⟩
  replaceUsesWith id literal

/-- The comparison of a node with a new literal takes the place of a node. -/
def replaceWithCompare (id node : Nat) (value : Bits) (op : CompareOp) : Build Unit := do
  let literal ← makeNode ⟨.literal (.leaf value), [], .bits value.width⟩
  let compare ← makeNode ⟨.compare op, [node, literal], .bits 1⟩
  replaceUsesWith id compare

/-- One node in the second loop of `RunOnFunctionBaseInternal`, with its equivalence. -/
def simplifyNode (id : Nat) (e : RangeEquivalence) : Build Bool := do
  let g ← get
  let n ← getNode id
  if e.range.isMaximal then
    replaceWithLiteral id (Bits.ofNat 1 1)
    return true
  else if e.range.isEmpty then
    replaceWithLiteral id (Bits.ofNat 1 0)
    return true
  else
    let precise ← e.range.getPreciseValue
    match precise with
    | some value =>
      if isEqOrNotEq n || isInverseOfMultiuseCompareOp g n then return false
      else
        replaceWithCompare id e.node (Bits.ofNat e.width value) .eq
        return true
    | none =>
      let precise ← e.range.complement.getPreciseValue
      match precise with
      | some value =>
        if isEqOrNotEq n || isInverseOfMultiuseCompareOp g n then return false
        else
          replaceWithCompare id e.node (Bits.ofNat e.width value) .ne
          return true
      | none =>
        match getULtInterval e.range with
        | some limit =>
          if isCompareOp n || isInverseOfMultiuseCompareOp g n then return false
          else
            replaceWithCompare id e.node limit .ult
            return true
        | none =>
          match getUGtInterval e.range with
          | some limit =>
            if isCompareOp n then return false
            else
              replaceWithCompare id e.node limit .ugt
              return true
          | none => return false

/-- The second loop of `RunOnFunctionBaseInternal`. -/
def simplifyNodes (equivalences : Equivalences) (order : List Nat) : Build Bool :=
  order.foldlM (fun changed id => do
    match equivalences.lookup id with
    | none => return changed
    | some e =>
      let simplified ← simplifyNode id e
      return changed || simplified) false

/-! ### Derived comparisons -/

/-- `Comparison`. -/
structure Comparison where
  lhs : Nat
  rhs : Nat
  op : CompareOp
  deriving DecidableEq

/-- An inverter on an earlier comparison takes the place of a node. -/
def replaceWithNot (id inverted : Nat) : Build Unit := do
  let n ← getNode inverted
  let notNode ← makeNode ⟨.un .not, [inverted], n.type⟩
  replaceUsesWith id notNode

/-- One node in the loop of `TransformDerivedComparisons`. -/
def deriveComparison (changed : Bool) (comparisons : List (Comparison × Nat)) (id : Nat) :
    Build (Bool × List (Comparison × Nat)) := do
  let n ← getNode id
  match n.kind, n.operands with
  | .compare op, [lhs, rhs] =>
    let commutedOp := op.reverse
    match comparisons.lookup ⟨rhs, lhs, commutedOp⟩ with
    | some equivalent =>
      replaceUsesWith id equivalent
      return (true, comparisons)
    | none =>
      match comparisons.lookup ⟨lhs, rhs, op.invert⟩ with
      | some inverted =>
        replaceWithNot id inverted
        return (true, comparisons)
      | none =>
        match comparisons.lookup ⟨rhs, lhs, commutedOp.invert⟩ with
        | some inverted =>
          replaceWithNot id inverted
          return (true, comparisons)
        | none => return (changed, (⟨lhs, rhs, op⟩, id) :: comparisons)
  | _, _ => return (changed, comparisons)

/-- `TransformDerivedComparisons`. -/
def transformDerivedComparisons (order : List Nat) : Build Bool := do
  let result ← order.foldlM (fun state id => deriveComparison state.1 state.2 id) (false, [])
  return result.1

/-! ### The pass -/

/-- What `TopoSort` reads of a function: the operands of its nodes and the return value. -/
def functionBase (g : Graph) : TopoSort.FunctionBase Nat where
  nodes := List.range g.nodes.length
  operands id := (g.nodes[id]?.map Node.operands).getD []
  returnValue := some g.returnValue

/-- `TopoSort`. -/
def topoSort (g : Graph) : Result (List Nat) := TopoSort.topoSort (functionBase g)

/-- `RunOnFunctionBaseInternal`. The graph changes in the second loop only after it was sorted
for it, so that the first two loops have one order. -/
def runOnFunctionBaseInternal : Build Bool := do
  let g ← get
  let order ← topoSort g
  let equivalences ← computeEquivalences g order []
  let changed ← simplifyNodes equivalences order
  let g ← get
  let order ← topoSort g
  let commonChanged ← transformDerivedComparisons order
  return changed || commonChanged

end ComparisonSimplification

end Xls

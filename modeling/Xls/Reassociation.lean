import Xls.Graph

/-!
# Xls.Reassociation

`xls/passes/reassociation_pass.cc`: expressions of adds and subtracts become one
subtract of two sums, and expressions of one associative operation become balanced
trees with the constants grouped. In the full-width mode an addition and the extensions
of its operands are one operation, and the nodes of the new tree have the widths that
their operands call for.

The nodes are traversed in the order of a list of positions; the source uses the
reverse topological order. The recursions over the expression trees are bounded by the
number of nodes.
-/

namespace Xls.Reassociation

open Xls.Graph (Build)

/-! ### Queries -/

/-- `NodeAndOperandsSameType`. -/
def nodeAndOperandsSameType (g : Graph) (n : Node) : Bool :=
  n.operands.all fun o => g.nodes[o]?.map Node.type == some n.type

/-- `StatelessQueryEngine::KnownValueAsBits`: literals, extensions of nothing by zeros and
values without bits are known. -/
def knownValueAsBits (g : Graph) (n : Node) : Option Bits :=
  match n.kind, n.operands, n.type with
  | .literal (.leaf b), _, _ => some b
  | .extend .zeroExt w, [o], _ =>
    if g.nodes[o]?.map Node.type == some (.bits 0) then some (Bits.zero w) else none
  | _, _, .bits 0 => some (Bits.zero 0)
  | _, _, _ => none

/-- `StatelessQueryEngine::IsFullyKnown`: literals. -/
def isFullyKnown (g : Graph) (id : Nat) : Bool :=
  match g.nodes[id]? with
  | some ⟨.literal _, _, _⟩ => true
  | _ => false

/-- The kind of extension of a node, and its operand. -/
def extensionOf (g : Graph) (id : Nat) : Option (ExtendOp × Nat) :=
  match g.nodes[id]? with
  | some n =>
    match n.kind, n.operands with
    | .extend op _, [a] => some (op, a)
    | _, _ => none
  | none => none

/-- The bits of the type of a node. -/
def flatBitCount (g : Graph) (id : Nat) : Nat :=
  match g.nodes[id]? with
  | some n => n.type.flatBitCount
  | none => 0

/-- The operand is the given kind of extension by at least one bit. -/
def isProperExtension (g : Graph) (op : ExtendOp) (o : Nat) : Bool :=
  match extensionOf g o with
  | some (op', a) => decide (op' = op) && decide (flatBitCount g a < flatBitCount g o)
  | none => false

/-- `IsFullWidthAddition`, with the kind of extension of its operands. -/
def fullWidthAddition (g : Graph) (n : Node) : Option ExtendOp :=
  match n.kind, n.operands with
  | .bin .add, o :: os =>
    match extensionOf g o with
    | some (op, _) => if (o :: os).all (isProperExtension g op) then some op else none
    | none => none
  | _, _ => none

/-! ### Adds and subtracts -/

/-- `AddSubLeaf`. -/
structure AddSubLeaf where
  negated : Bool
  node : Nat

def isAdd (n : Node) : Bool := decide (n.kind = .bin .add)

def isSub (n : Node) : Bool := decide (n.kind = .bin .sub)

/-- `GatherAddsAndSubtracts`: the leaves and the interior nodes. -/
def gatherAddsAndSubtracts (g : Graph) :
    Nat → Nat → Bool → Result (List AddSubLeaf × List Nat)
  | 0, _, _ => .error .check
  | fuel + 1, id, negated => do
    let n ← derefOption g.nodes[id]?
    if (!isAdd n && !isSub n) || !nodeAndOperandsSameType g n then
      return ([⟨negated, id⟩], [])
    else
      match n.operands with
      | [a, b] => do
        let (leaves, interior) ← gatherAddsAndSubtracts g fuel a negated
        let negatedNext := if isSub n then !negated else negated
        let (leaves', interior') ← gatherAddsAndSubtracts g fuel b negatedNext
        return (leaves ++ leaves', id :: (interior ++ interior'))
      | _ => .error (.status "XLS_RET_CHECK failure: node->operand_count() == 2")

/-- `MakeNode<BinOp>`; the node has the type of its left operand. -/
def makeBinOp (op : BinOp) (lhs rhs : Nat) : Build Nat := do
  let n ← Graph.getNode lhs
  Graph.makeNode ⟨.bin op, [lhs, rhs], n.type⟩

/-- `CreateSum`. -/
def createSum : List Nat → Build Nat
  | [] => throw (.status "XLS_RET_CHECK failure: !nodes.empty()")
  | [id] => return id
  | lhs :: id :: ids => do
    let rhs ← createSum (id :: ids)
    makeBinOp .add lhs rhs

/-- Separate the leaves into nonnegated and negated nodes. A negated constant becomes a
nonnegated literal; the last result says whether there was one. -/
def separateLeaves : List AddSubLeaf → Build (List Nat × List Nat × Bool)
  | [] => return ([], [], false)
  | leaf :: leaves =>
    if leaf.negated then do
      let g ← get
      match g.nodes[leaf.node]?.bind (knownValueAsBits g) with
      | some value => do
        let literal ← Graph.makeNode ⟨.literal (.leaf value.negate), [], .bits value.width⟩
        let (nonnegated, negated, _) ← separateLeaves leaves
        return (literal :: nonnegated, negated, true)
      | none => do
        let (nonnegated, negated, negatedConstant) ← separateLeaves leaves
        return (nonnegated, leaf.node :: negated, negatedConstant)
    else do
      let (nonnegated, negated, negatedConstant) ← separateLeaves leaves
      return (leaf.node :: nonnegated, negated, negatedConstant)

/-- The sum of the nonnegated nodes, less that of the negated ones. -/
def createDifference (nonnegated negated : List Nat) (negatedConstant : Bool) : Build Nat :=
  if negated.isEmpty then
    if negatedConstant then createSum nonnegated
    else throw (.status "XLS_RET_CHECK failure: negated_constant")
  else if nonnegated.isEmpty then
    throw (.status "XLS_RET_CHECK failure: !nonnegated_nodes.empty()")
  else do
    let lhs ← createSum nonnegated
    let rhs ← createSum negated
    makeBinOp .sub lhs rhs

/-- Replace an expression of adds and subtracts, unless it has no subtract, or only one
and no negated constant. -/
def reassociateSubtract (id : Nat) (leaves : List AddSubLeaf) (subtractCount : Nat) : Build Bool :=
  if subtractCount = 0 then return false
  else do
    let (nonnegated, negated, negatedConstant) ← separateLeaves leaves
    if subtractCount = 1 && !negatedConstant then return false
    else do
      let replacement ← createDifference nonnegated negated negatedConstant
      Graph.replaceUsesWith id replacement
      return true

/-- The number of subtracts among the nodes. -/
def subtractCount (g : Graph) (ids : List Nat) : Nat :=
  (ids.filter fun id => (g.nodes[id]?.map isSub).getD false).length

/-- The loop of `ReassociateSubtracts`. -/
def reassociateSubtracts : List Nat → List Nat → Bool → Build Bool
  | [], _, changed => return changed
  | id :: order, visited, changed =>
    if visited.contains id then reassociateSubtracts order visited changed
    else do
      let g ← get
      let n ← liftM (derefOption g.nodes[id]?)
      if !isAdd n && !isSub n then reassociateSubtracts order visited changed
      else do
        let (leaves, interior) ← liftM (gatherAddsAndSubtracts g (g.nodes.length + 1) id false)
        let replaced ← reassociateSubtract id leaves (subtractCount g interior)
        reassociateSubtracts order (interior ++ visited) (changed || replaced)

/-! ### Balanced trees -/

/-- `GatherFullWidthAdditionLeaves`: the leaves, the interior nodes and the height. -/
def gatherFullWidthAdditionLeaves (g : Graph) (op : ExtendOp) :
    Nat → Nat → Result (List Nat × List Nat × Nat)
  | 0, _ => .error .check
  | fuel + 1, id => do
    let n ← derefOption g.nodes[id]?
    if fullWidthAddition g n ≠ some op then return ([id], [], 0)
    else
      let visit (extension : Nat) : Result (List Nat × List Nat × Nat) := do
        let (_, operand) ← derefOption (extensionOf g extension)
        if g.hasSingleUse extension && g.hasSingleUse operand then do
          let (leaves, interior, depth) ← gatherFullWidthAdditionLeaves g op fuel operand
          return (leaves, interior, 1 + depth)
        else return ([operand], [], 1)
      match n.operands with
      | [a, b] => do
        let (leaves, interior, depth) ← visit a
        let (leaves', interior', depth') ← visit b
        return (leaves ++ leaves', id :: (interior ++ interior'), max depth depth')
      | _ => .error .check

/-- `GatherExpressionLeaves`: the leaves, the interior nodes and the height. -/
def gatherExpressionLeaves (g : Graph) (kind : NodeKind) :
    Nat → Nat → Result (List Nat × List Nat × Nat)
  | 0, _ => .error .check
  | fuel + 1, id => do
    let n ← derefOption g.nodes[id]?
    if n.kind ≠ kind || !nodeAndOperandsSameType g n then return ([id], [], 0)
    else
      let visit (operand : Nat) : Result (List Nat × List Nat × Nat) :=
        if g.hasSingleUse operand then do
          let (leaves, interior, depth) ← gatherExpressionLeaves g kind fuel operand
          return (leaves, interior, 1 + depth)
        else return ([operand], [], 1)
      match n.operands with
      | [a, b] => do
        let (leaves, interior, depth) ← visit a
        let (leaves', interior', depth') ← visit b
        return (leaves ++ leaves', id :: (interior ++ interior'), max depth depth')
      | _ => .error .check

/-- `new_node` in the full-width mode, for a root of the given width. -/
def newFullWidthNode (op : ExtendOp) (rootWidth lhs rhs : Nat) : Build Nat := do
  let lhsWidth ← Graph.bitCountOrDie lhs
  let rhsWidth ← Graph.bitCountOrDie rhs
  let additionWidth := min (max lhsWidth rhsWidth + 1) rootWidth
  let extendedLhs ← Graph.makeNode ⟨.extend op additionWidth, [lhs], .bits additionWidth⟩
  let extendedRhs ← Graph.makeNode ⟨.extend op additionWidth, [rhs], .bits additionWidth⟩
  makeBinOp .add extendedLhs extendedRhs

/-- `new_node` otherwise: a clone of the root. -/
def cloneNode (root : Node) (lhs rhs : Nat) : Build Nat :=
  Graph.makeNode ⟨root.kind, [lhs, rhs], root.type⟩

section Tree

variable (newNode : Nat → Nat → Build Nat)

/-- The constants after the first two are put on top of what they make. -/
def foldConstants : Nat → List Nat → Build Nat
  | expr, [] => return expr
  | expr, c :: cs => do
    let expr ← newNode c expr
    foldConstants expr cs

/-- Append the constants to the inputs, more than one as a single expression. -/
def groupConstants (inputs : List Nat) : List Nat → Build (List Nat)
  | [] => return inputs
  | [c] => return inputs ++ [c]
  | c :: c' :: cs => do
    let expr ← newNode c c'
    let expr ← foldConstants newNode expr cs
    return inputs ++ [expr]

/-- Combine the first inputs in pairs. -/
def combinePairs : Nat → List Nat → Build (List Nat)
  | 0, inputs => return inputs
  | count + 1, a :: b :: inputs => do
    let op ← newNode a b
    let rest ← combinePairs count inputs
    return op :: rest
  | _ + 1, _ => throw .check

/-- The layers of the balanced tree; the first argument bounds their number. -/
def combineLayers : Nat → List Nat → Build Nat
  | _, [id] => return id
  | 0, _ => throw .check
  | fuel + 1, inputs => do
    let inputs ← combinePairs newNode (inputs.length / 2) (inputs.take (2 * (inputs.length / 2)))
    combineLayers fuel inputs

/-- The ragged layer at the top of the tree, which leaves a power of two of inputs. -/
def combineRagged (inputs : List Nat) : Build (List Nat) :=
  if isPowerOfTwo inputs.length then return inputs
  else combinePairs newNode (inputs.length - 2 ^ inputs.length.log2) inputs

/-- The balanced tree of the inputs. -/
def balance (inputs : List Nat) : Build Nat := do
  let inputs ← combineRagged newNode inputs
  if isPowerOfTwo inputs.length then combineLayers newNode inputs.length inputs
  else throw (.status "XLS_RET_CHECK failure: IsPowerOfTwo(inputs.size())")

/-- The new expression of the leaves, which are separated into constants and inputs. -/
def buildTree (g : Graph) (leaves : List Nat) : Build Nat := do
  let inputs ← groupConstants newNode (leaves.filter fun l => !isFullyKnown g l)
    (leaves.filter (isFullyKnown g))
  balance newNode inputs

end Tree

/-- There is nothing to gain from a new tree. -/
def isGood (g : Graph) (leaves interior : List Nat) (depth : Nat) : Bool :=
  decide (interior.length ≤ 1) ||
    (depth == Bits.ceilOfLog2 leaves.length &&
      decide ((leaves.filter (isFullyKnown g)).length ≤ 1))

/-- Extend the root of the new tree to the width of the old one. -/
def extendRoot (op : ExtendOp) (width root : Nat) : Build Nat := do
  let rootWidth ← Graph.bitCountOrDie root
  if rootWidth < width then Graph.makeNode ⟨.extend op width, [root], .bits width⟩
  else return root

/-- Replace a full-width addition of a given width. -/
def reassociateFullWidth (id : Nat) (op : ExtendOp) (width : Nat) (leaves interior : List Nat)
    (depth : Nat) : Build Bool := do
  let g ← get
  if isGood g leaves interior depth then return false
  else do
    let root ← buildTree (newFullWidthNode op width) g leaves
    let root ← extendRoot op width root
    Graph.replaceUsesWith id root
    return true

/-- Replace an expression of one operation. -/
def reassociateExpression (id : Nat) (n : Node) (leaves interior : List Nat) (depth : Nat) :
    Build Bool := do
  let g ← get
  if isGood g leaves interior depth then return false
  else do
    let root ← buildTree (cloneNode n) g leaves
    Graph.replaceUsesWith id root
    return true

/-- The operations that are reassociated. -/
def isReassociated : NodeKind → Bool
  | .bin .add | .arith .umul | .arith .smul => true
  | _ => false

/-- One node of the loop of `Reassociate`: the interior nodes of its expression, and
whether it was replaced. -/
def reassociateNode (id : Nat) : Build (List Nat × Bool) := do
  let g ← get
  let n ← liftM (derefOption g.nodes[id]?)
  if !isReassociated n.kind then return ([], false)
  else
    match fullWidthAddition g n with
    | some op => do
      let (leaves, interior, depth) ←
        liftM (gatherFullWidthAdditionLeaves g op (g.nodes.length + 1) id)
      let width ← Graph.bitCountOrDie id
      let replaced ← reassociateFullWidth id op width leaves interior depth
      return (interior, replaced)
    | none => do
      let (leaves, interior, depth) ←
        liftM (gatherExpressionLeaves g n.kind (g.nodes.length + 1) id)
      let replaced ← reassociateExpression id n leaves interior depth
      return (interior, replaced)

/-- The loop of `Reassociate`. -/
def reassociate : List Nat → List Nat → Bool → Build Bool
  | [], _, changed => return changed
  | id :: order, visited, changed =>
    if visited.contains id then reassociate order visited changed
    else do
      let (interior, replaced) ← reassociateNode id
      reassociate order (id :: (interior ++ visited)) (changed || replaced)

/-- `ReassociationPass::RunOnFunctionBaseInternal`. The two parts traverse the nodes of
the graph at their start in the given order. -/
def runOnFunctionBase (order : (g : Graph) → List (Fin g.nodes.length)) : Build Bool := do
  let g ← get
  let subtractsChanged ← reassociateSubtracts ((order g).map Fin.val) [] false
  let g ← get
  let changed ← reassociate ((order g).map Fin.val) [] false
  return subtractsChanged || changed

end Xls.Reassociation

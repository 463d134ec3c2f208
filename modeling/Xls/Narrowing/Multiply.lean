import Xls.BitsOps.Multiply
import Xls.Narrowing.ArithmeticSound
import Xls.Narrowing.Compare
import Xls.Narrowing.LiteralArray

/-!
# Xls.Narrowing.Multiply

`MaybeNarrowMultiply` and `MaybeNarrowPartialMultiply` of the narrowing pass
(`xls/passes/narrowing_pass.cc`). The rules for the operands are the same for both; only a
multiply also loses the trailing zeros of its operands, and only a partial multiply is replaced
together with the addition of its two parts.
-/

namespace Xls

open Graph (Build World getNode bitCountOrDie makeNode replaceUsesWith)
open Graph.World

namespace Narrowing

open ArithSimplification (makeLiteral makeBitSlice)
open Reassociation (makeBinOp)
open Bits (mulOp)

/-! ### Nodes -/

/-- The partial product, signed or unsigned. -/
def mulpOp (signed : Bool) : PartialProductOp := if signed then .smulp else .umulp

/-- An `ArithOp`. -/
def makeArithOp (op : ArithOp) (width lhs rhs : Nat) : Build Nat :=
  makeNode ⟨.arith op, [lhs, rhs], .bits width⟩

/-- A `PartialProductOp`. -/
def makePartialProductOp (op : PartialProductOp) (width lhs rhs : Nat) : Build Nat :=
  makeNode ⟨.partialProduct op width, [lhs, rhs], .tuple [.bits width, .bits width]⟩

/-- A `TupleIndex`. -/
def makeTupleIndex (operand index : Nat) : Build Nat := do
  let n ← getNode operand
  match n.type with
  | .tuple types => do
    let type ← derefOption types[index]?
    makeNode ⟨.tupleIndex index, [operand], type⟩
  | _ => throw .check

/-- `BitsType::BitsType`: a type has no negative number of bits. -/
def bitsTypeWidth (bitCount : Int) : Result Nat := do
  checkThat (decide (0 ≤ bitCount))
  return bitCount.toNat

/-- `MaybeExtend`. -/
def maybeExtend (node bitCount : Nat) (isSigned : Bool) : Build Nat := do
  let width ← bitCountOrDie node
  if bitCount < width then throw (.status "XLS_RET_CHECK failure: node->BitCountOrDie()")
  else if width = bitCount then return node
  else makeExtend (if isSigned then .signExt else .zeroExt) bitCount node

/-- `ExtractMostSignificantBits`. -/
def extractMostSignificantBits (node bitCount : Nat) : Build Nat := do
  let width ← bitCountOrDie node
  if width < bitCount then throw (.status "XLS_RET_CHECK failure: node->BitCountOrDie()")
  else if width = bitCount then return node
  else makeBitSlice node (width - bitCount) bitCount

/-! ### Operands -/

/-- An operand with its node. -/
structure Operand where
  id : Nat
  node : Node
  bitCount : Nat

def readOperand (id : Nat) : Build Operand := do
  let node ← getNode id
  let bitCount ← bitCountOrDie id
  return ⟨id, node, bitCount⟩

/-- `MaybeNarrowUnsignedOperand`. -/
def maybeNarrowUnsignedOperand (e : SpecializedQueryEngines) (user : Nat) (operand : Operand) :
    Build (Option Nat) := do
  let leadingZeros ← e.countLeadingKnownZeros operand.id (some user)
  if leadingZeros = 0 then return none
  else
    let narrowed ← makeBitSlice operand.id 0 (operand.bitCount - leadingZeros)
    return some narrowed

/-- The operand of a `SignExt`. -/
def signExtended (n : Node) : Option Nat :=
  match n.kind, n.operands with
  | .extend .signExt _, [value] => some value
  | _, _ => none

/-- `MaybeNarrowSignedOperand`. -/
def maybeNarrowSignedOperand (e : SpecializedQueryEngines) (user : Nat) (operand : Operand) :
    Build (Option Nat) :=
  match signExtended operand.node with
  | some value => return some value
  | none => do
    let leadingZeros ← e.countLeadingKnownZeros operand.id (some user)
    if 1 < leadingZeros then
      let narrowed ← maybeNarrow operand.id (operand.bitCount - leadingZeros + 1)
      return some narrowed
    else return none

/-- `narrowed_lhs` or `narrowed_rhs`. -/
def narrowToResult (width : Nat) (operand : Operand) : Build Nat :=
  if width < operand.bitCount then maybeNarrow operand.id width else return operand.id

/-- The product of the operands, if one of them was narrowed. -/
def narrowWith (narrow : Operand → Build (Option Nat)) (make : Nat → Nat → Build Nat)
    (lhs rhs : Operand) : Build (Option Nat) := do
  let operand0 ← narrow lhs
  let operand1 ← narrow rhs
  if operand0.isSome || operand1.isSome then
    let product ← make (operand0.getD lhs.id) (operand1.getD rhs.id)
    return some product
  else return none

/-- `is_sign_agnostic`. -/
def isSignAgnostic (width : Nat) (lhs rhs : Operand) : Bool :=
  width == lhs.bitCount && width == rhs.bitCount

def narrowIf (cond : Bool) (c : Build (Option Nat)) : Build (Option Nat) :=
  if cond then c else return none

/-- The rules for the operands of a multiply; `make` builds a product as wide as the result. -/
def narrowOperands (e : SpecializedQueryEngines) (make : Bool → Nat → Nat → Build Nat)
    (signed : Bool) (id width : Nat) (lhs rhs : Operand) : Build (Option Nat) :=
  if width < lhs.bitCount ∨ width < rhs.bitCount then do
    let narrowedLhs ← narrowToResult width lhs
    let narrowedRhs ← narrowToResult width rhs
    let product ← make signed narrowedLhs narrowedRhs
    return some product
  else do
    let product ← narrowIf (!signed || isSignAgnostic width lhs rhs)
      (narrowWith (maybeNarrowUnsignedOperand e id) (make false) lhs rhs)
    match product with
    | some product => return some product
    | none =>
      narrowIf (signed || isSignAgnostic width lhs rhs)
        (narrowWith (maybeNarrowSignedOperand e id) (make true) lhs rhs)

/-! ### Multiplies -/

/-- The rule for the trailing zeros of the operands. -/
def narrowTrailingZeros (e : SpecializedQueryEngines) (signed : Bool) (id width : Nat)
    (lhs rhs : Operand) : Build (Option Nat) := do
  let leftTrailingZeros ← e.countTrailingKnownZeros lhs.id (some id)
  let rightTrailingZeros ← e.countTrailingKnownZeros rhs.id (some id)
  if 0 < leftTrailingZeros ∨ 0 < rightTrailingZeros then
    let removedBits := leftTrailingZeros + rightTrailingZeros
    let newLeft ← extractMostSignificantBits lhs.id (lhs.bitCount - leftTrailingZeros)
    let newRight ← extractMostSignificantBits rhs.id (rhs.bitCount - rightTrailingZeros)
    let newWidth ← bitsTypeWidth ((width : Int) - removedBits)
    let newMul ← makeArithOp (mulOp signed) newWidth newLeft newRight
    let zeros ← makeLiteral (Bits.zero removedBits)
    let concat ← makeConcat [newMul, zeros]
    return some concat
  else return none

/-- `ReplaceUsesWith`, if there is a replacement. -/
def replaceBy (id : Nat) : Option Nat → Build Bool
  | none => return false
  | some replacement => do
    replaceUsesWith id replacement
    return true

/-- The rules of `MaybeNarrowMultiply`. -/
def narrowMultiply (e : SpecializedQueryEngines) (id : Nat) (op : ArithOp) (width : Nat)
    (lhs rhs : Operand) : Build Bool :=
  if lhs.bitCount + rhs.bitCount < width then do
    let narrowedMul ← makeArithOp op (lhs.bitCount + rhs.bitCount) lhs.id rhs.id
    let replacement ← maybeExtend narrowedMul width (op == .smul)
    replaceUsesWith id replacement
    return true
  else do
    let product ← narrowOperands e (fun signed => makeArithOp (mulOp signed) width) (op == .smul)
      id width lhs rhs
    match product with
    | some product => replaceBy id (some product)
    | none => do
      let product ← narrowTrailingZeros e (op == .smul) id width lhs rhs
      replaceBy id product

/-- `MaybeNarrowMultiply`. -/
def maybeNarrowMultiply (e : SpecializedQueryEngines) (id : Nat) (op : ArithOp) (lhs rhs : Nat) :
    Build Bool := do
  let width ← bitCountOrDie id
  let lhs ← readOperand lhs
  let rhs ← readOperand rhs
  narrowMultiply e id op width lhs rhs

/-! ### Partial multiplies -/

/-- A user of a partial multiply that is a `TupleIndex` of which an addition is the only user. -/
def summand (g : Graph) (user : Nat) : Result (Option (Nat × Nat)) :=
  match g.nodes[user]?.map Node.kind with
  | some (.tupleIndex index) => do
    checkThat (decide (index < 2))
    match userIds g user with
    | [add] =>
      if g.nodes[add]?.map Node.kind = some (.bin .add) then return some (index, add)
      else return none
    | _ => return none
  | _ => return none

/-- `PartialMultiplyImmediateSum`. -/
def partialMultiplyImmediateSum (g : Graph) (id : Nat) : Result (Option Nat) :=
  match userIds g id with
  | [user, user'] => do
    let first ← summand g user
    match first with
    | none => return none
    | some (index, add) => do
      let second ← summand g user'
      match second with
      | none => return none
      | some (index', add') =>
        if index ≠ index' ∧ add = add' then return some add else return none
  | _ => return none

/-- The sum of the parts of a partial product. -/
def makePartialSum (op : PartialProductOp) (width lhs rhs : Nat) : Build Nat := do
  let narrowedMul ← makePartialProductOp op width lhs rhs
  let product0 ← makeTupleIndex narrowedMul 0
  let product1 ← makeTupleIndex narrowedMul 1
  makeBinOp .add product0 product1

/-- The rules of `MaybeNarrowPartialMultiply`, given `PartialMultiplyImmediateSum`. -/
def narrowPartialMultiply (e : SpecializedQueryEngines) (id : Nat) (op : PartialProductOp)
    (width : Nat) (lhs rhs : Operand) (addImmediatelyAfter : Option Nat) : Build Bool :=
  match addImmediatelyAfter, decide (lhs.bitCount + rhs.bitCount < width) with
  | some add, true => do
    let sum ← makePartialSum op (lhs.bitCount + rhs.bitCount) lhs.id rhs.id
    let extendedSum ← maybeExtend sum width (op == .smulp)
    replaceUsesWith add extendedSum
    return true
  | _, _ => do
    let product ← narrowOperands e (fun signed => makePartialProductOp (mulpOp signed) width)
      (op == .smulp) id width lhs rhs
    replaceBy id product

/-- `MaybeNarrowPartialMultiply`. -/
def maybeNarrowPartialMultiply (e : SpecializedQueryEngines) (id : Nat) (op : PartialProductOp)
    (width lhs rhs : Nat) : Build Bool := do
  let lhs ← readOperand lhs
  let rhs ← readOperand rhs
  let g ← get
  let addImmediatelyAfter ← partialMultiplyImmediateSum g id
  narrowPartialMultiply e id op width lhs rhs addImmediatelyAfter

/-- The handler of a node that is a multiply. -/
def multiplyHandler (e : SpecializedQueryEngines) (id : Nat) (n : Node) : Build Bool :=
  match n.kind, n.operands with
  | .arith op, [lhs, rhs] => maybeNarrowMultiply e id op lhs rhs
  | .partialProduct op width, [lhs, rhs] => maybeNarrowPartialMultiply e id op width lhs rhs
  | _, _ => return false

/-- `HandleUMul`, `HandleSMul`, `HandleUMulp` and `HandleSMulp`. -/
def handleMultiply (e : SpecializedQueryEngines) (id : Nat) : Build Bool := do
  let n ← getNode id
  multiplyHandler e id n

end Narrowing

end Xls

import Xls.Ir
import Xls.ValueProto

/-!
# Xls.Flattening

Values and arrays of expressions as flat vectors of bits
(`xls/codegen/flattening.cc`). The first element of a tuple lands in the highest bits, the
first element of an array in the lowest ones.

The helpers for Verilog build expressions (`xls/codegen/vast.h`). The meaning of these is
that of the language for unpacked arrays, concatenations and part selects.
-/

namespace Xls.Flattening

open List
open KindedValue (sameTypeAs)

/-! ### From a value to bits -/

mutual

/-- `GatherValueLeaves`. -/
def gatherValueLeaves : KindedValue → Result (List Bits)
  | .bits b => .ok [b]
  | .tuple vs => gatherForward vs
  | .array v vs => do
    let last ← gatherBackward vs
    let first ← gatherValueLeaves v
    return last ++ first
  | .token | .invalid => .error .check

/-- The loop over the elements of a tuple. -/
def gatherForward : List KindedValue → Result (List Bits)
  | [] => .ok []
  | v :: vs => do
    let leaves ← gatherValueLeaves v
    let rest ← gatherForward vs
    return leaves ++ rest

/-- The loop over the elements of an array, from the last one to the first. -/
def gatherBackward : List KindedValue → Result (List Bits)
  | [] => .ok []
  | v :: vs => do
    let rest ← gatherBackward vs
    let leaves ← gatherValueLeaves v
    return rest ++ leaves

end

/-- `FlattenValueToBits`. -/
def flattenValueToBits (value : KindedValue) : Result Bits := do
  let leaves ← gatherValueLeaves value
  return Bits.concat leaves

/-! ### From bits to a value -/

/-- `GetFlatBitIndexOfElement`. -/
def getFlatBitIndexOfElement : IrType → Nat → Result Nat
  | .tuple ts, index => do
    checkThat (decide (index < ts.length))
    return ((ts.drop (index + 1)).map IrType.flatBitCount).sum
  | .array n t, index => do
    checkThat (decide (index < n))
    return index * t.flatBitCount
  | _, _ => .error .check

/-- `SameTypeAs`, for all elements after the first. -/
def allSameType (first : KindedValue) : List KindedValue → Result Unit
  | [] => .ok ()
  | element :: elements => do
    let same ← sameTypeAs first element
    if same then allSameType first elements
    else .error (.status "XLS_RET_CHECK failure: elements[0].SameTypeAs(elements[i])")

/-- `Value::Array`. -/
def makeArray : List KindedValue → Result KindedValue
  | [] => .error (.status "Empty array Values are not supported.")
  | v :: vs => do
    allSameType v vs
    return .array v vs

/-- The results of a computation on each element, in order. -/
def forEach {α β : Type} (f : α → Result β) : List α → Result (List β)
  | [] => .ok []
  | a :: as => do
    let b ← f a
    let bs ← forEach f as
    return b :: bs

/-- The check at the start of `UnflattenBitsToValue`. -/
def checkFlatBitCount (bits : Bits) (type : IrType) : Result Unit :=
  if bits.width = type.flatBitCount then .ok ()
  else .error (.status
    s!"Cannot unflatten input. Has {bits.width} bits, expected {type.flatBitCount} bits")

mutual

/-- `UnflattenBitsToValue`. -/
def unflattenBitsToValue : IrType → Bits → Result KindedValue
  | .bits w, bits => do
    checkFlatBitCount bits (.bits w)
    return .bits bits
  | .tuple ts, bits => do
    checkFlatBitCount bits (.tuple ts)
    let elements ← unflattenElements (.tuple ts) bits 0 ts
    return .tuple elements
  | .array n t, bits => do
    checkFlatBitCount bits (.array n t)
    let elements ← forEach (fun i => do
      let start ← getFlatBitIndexOfElement (.array n t) i
      unflattenBitsToValue t (bits.slice start t.flatBitCount)) (range n)
    makeArray elements
  | .token, bits => do
    checkFlatBitCount bits .token
    .error (.status "Invalid type: token")

/-- The loop over the element types of a tuple, from an index on. -/
def unflattenElements (tupleType : IrType) (bits : Bits) (i : Nat) :
    List IrType → Result (List KindedValue)
  | [] => .ok []
  | t :: ts => do
    let start ← getFlatBitIndexOfElement tupleType i
    let element ← unflattenBitsToValue t (bits.slice start t.flatBitCount)
    let elements ← unflattenElements tupleType bits (i + 1) ts
    return element :: elements

end

/-! ### Verilog -/

/-- The expressions that the helpers build, over one input. -/
inductive Expression
  | ref
  | index (subject : Expression) (i : Nat)
  | slice (subject : Expression) (hi lo : Int)
  | concat (elements : List Expression)
  | arrayAssignmentPattern (elements : List Expression)

/-- `VerilogFile::Slice`. -/
def slice (subject : Expression) (hi lo : Int) : Result Expression := do
  checkThat (decide (0 ≤ hi))
  checkThat (decide (0 ≤ lo))
  return .slice subject hi lo

/-- `UnflattenArrayHelper`, by the element type of the array. -/
def unflattenArrayHelper (input : Expression) (flatIndexOffset size : Nat) :
    IrType → Result Expression
  | .array n t => do
    let elements ← forEach (fun i =>
      unflattenArrayHelper input (flatIndexOffset + i * (IrType.array n t).flatBitCount) n t)
      (range size)
    return .arrayAssignmentPattern elements
  | t => do
    let elements ← forEach (fun i =>
      let elementStart : Int := ((flatIndexOffset + i * t.flatBitCount : Nat) : Int)
      slice input (elementStart + t.flatBitCount - 1) elementStart) (range size)
    return .arrayAssignmentPattern elements

/-- `UnflattenArray`. -/
def unflattenArray (input : Expression) (size : Nat) (element : IrType) : Result Expression :=
  unflattenArrayHelper input 0 size element

/-- `UnflattenArrayShapedTupleElement`. -/
def unflattenArrayShapedTupleElement (input : Expression) (ts : List IrType) (tupleIndex : Nat) :
    Result Expression :=
  match ts[tupleIndex]? with
  | some (.array n t) => do
    let start ← getFlatBitIndexOfElement (.tuple ts) tupleIndex
    unflattenArrayHelper input start n t
  | _ => .error .check

/-- `FlattenArray`. -/
def flattenArray (input : Expression) (size : Nat) : IrType → Expression
  | .array n t => .concat ((range size).reverse.map fun i =>
    flattenArray (.index input i) n t)
  | _ => .concat ((range size).reverse.map fun i => .index input i)

/-- A Verilog value: a vector of bits or an unpacked array. -/
inductive VerilogValue
  | packed (b : Bits)
  | unpacked (elements : List VerilogValue)

/-- The operands of a concatenation are vectors. -/
def packedBits : VerilogValue → Option Bits
  | .packed b => some b
  | .unpacked _ => none

/-- A part select of a vector `[n-1:0]`. The language has no select of no bits: one with the bounds
in the opposite order is illegal. -/
def selectBits (b : Bits) (hi lo : Int) : Option Bits :=
  if 0 ≤ lo ∧ lo ≤ hi ∧ hi < b.width then some (b.slice lo.toNat (hi + 1 - lo).toNat) else none

mutual

/-- The value of an expression on an input. -/
def evalExpression (v : VerilogValue) : Expression → Option VerilogValue
  | .ref => some v
  | .index subject i =>
    match evalExpression v subject with
    | some (.unpacked es) => es[i]?
    | _ => none
  | .slice subject hi lo =>
    match evalExpression v subject with
    | some (.packed b) => (selectBits b hi lo).map .packed
    | _ => none
  | .concat elements => do
    let vs ← evalExpressions v elements
    let bs ← LeafTree.collect packedBits vs
    return .packed (Bits.concat bs)
  | .arrayAssignmentPattern elements => (evalExpressions v elements).map .unpacked

def evalExpressions (v : VerilogValue) : List Expression → Option (List VerilogValue)
  | [] => some []
  | e :: es => do
    let r ← evalExpression v e
    let rs ← evalExpressions v es
    return r :: rs

end

/-! ### Types of values -/

mutual

/-- `ValueConformsToType`. -/
def HasType : IrType → KindedValue → Prop
  | .bits w, .bits b => b.width = w
  | .token, .token => True
  | .tuple ts, .tuple vs => HaveTypes ts vs
  | .array n t, .array v vs => vs.length + 1 = n ∧ HasType t v ∧ ∀ u ∈ vs, HasType t u
  | _, _ => False

def HaveTypes : List IrType → List KindedValue → Prop
  | [], [] => True
  | t :: ts, v :: vs => HasType t v ∧ HaveTypes ts vs
  | _, _ => False

end

mutual

/-- The type is built from bits, tuples and arrays that are not empty. -/
def Flattenable : IrType → Prop
  | .bits _ => True
  | .token => False
  | .tuple ts => AllFlattenable ts
  | .array n t => 0 < n ∧ Flattenable t

def AllFlattenable : List IrType → Prop
  | [] => True
  | t :: ts => Flattenable t ∧ AllFlattenable ts

end

/-- The elements of a tuple or an array. -/
def elements : KindedValue → List KindedValue
  | .tuple vs => vs
  | .array v vs => v :: vs
  | _ => []

/-- The type of an element of a tuple or an array. -/
def elementType : IrType → Nat → Option IrType
  | .tuple ts, i => ts[i]?
  | .array _ t, _ => some t
  | _, _ => none

end Xls.Flattening

import Xls.Graph
import Xls.BitsOps

/-!
# Xls.ArithSimplification

Division by a constant in `xls/passes/arith_simplification_pass.cc`. The pass replaces a
`udiv` or `sdiv` whose divisor is known by a multiplication with an approximation of the
reciprocal, shifts, and corrections for signs.

`chooseMultiplier` finds the approximation; `matchUnsignedDivide` and `matchSignedDivide`
build the nodes. A `BigInt` that is never negative is a natural number.
-/

namespace Xls

open Graph (Build getNode makeNode bitCountOrDie replaceUsesWith)

namespace ArithSimplification

/-! ### Constants -/

def makeLiteral (value : Bits) : Build Nat :=
  makeNode ⟨.literal (.leaf value), [], .bits value.width⟩

def makeBitSlice (operand start width : Nat) : Build Nat :=
  makeNode ⟨.bitSlice start width, [operand], .bits width⟩

/-- A `BinOp`; the node has the type of its left operand. -/
def makeBinOp (op : BinOp) (lhs rhs : Nat) : Build Nat := do
  let n ← getNode lhs
  makeNode ⟨.bin op, [lhs, rhs], n.type⟩

/-- The answers of the query engine about the divisor. -/
structure Engine where
  isFullyKnown : Nat → Bool
  knownValueAsBits : Nat → Option Bits

end ArithSimplification

end Xls

import Xls.Graph
import Xls.IntervalSet

/-!
# Xls.Narrowing

The part of the narrowing pass (`xls/passes/narrowing_pass.cc`) that turns an array index
into a chain of selects, if the intervals of its indices leave few tuples.

The interval sets are those that the query engine has for the index operands, with the bit
count of the operand.
-/

namespace Xls.Narrowing

open Graph (Build)

/-- An `IntervalSet` with its bit count. -/
abbrev Intervals := (w : Nat) × IntervalSet w

/-! ### The index space -/

/-- Arithmetic on `int64_t`. -/
def int64 (z : Int) : Int := Int.bmod z (2 ^ 64)

/-- `Interval::Size`. -/
def intervalSize {w : Nat} (i : ProperInterval w) : Option Int :=
  let size := i.upper - i.lower + 1
  if size < 2 ^ 63 then some size else none

/-- `IntervalSet::Size`. -/
def sizeFrom {w : Nat} : Int → List (ProperInterval w) → Option Int
  | total, [] => some total
  | total, i :: is => do
    let size ← intervalSize i
    sizeFrom (int64 (total + size)) is

/-- The number of index tuples, unless it is seen to be over the threshold. -/
def indexSpaceSize (threshold : Int) : Int → List Intervals → Option Int
  | size, [] => some size
  | size, s :: ss =>
    if threshold < size then none
    else do
      let n ← sizeFrom 0 s.2.intervals
      indexSpaceSize threshold (int64 (size * n)) ss

/-- There is more than one index tuple, and not too many. -/
def isSmallIndexSpace (threshold : Int) (intervals : List Intervals) : Bool :=
  match indexSpaceSize threshold 1 intervals with
  | none => false
  | some size => size != 1 && size ≤ threshold

/-! ### Possible indexes -/

/-- The dimension of the array, truncated to the number of indices. -/
def dimension : IrType → Nat → Result (List Nat)
  | _, 0 => .ok []
  | .array size element, n + 1 => do
    let rest ← dimension element n
    return size :: rest
  | _, _ + 1 => .error .check

/-- The numbers that `MixedRadixIterate` visits, the least significant digit first; a radix
of zero has the digit zero. -/
def mixedRadix : List Nat → List (List Nat)
  | [] => [[]]
  | r :: rs => (mixedRadix rs).flatMap fun digits => (List.range (max r 1)).map (· :: digits)

/-- The indexes as bits, if each fits and is in its interval set. -/
def indexesBits : List Nat → List Intervals → Option (List Bits)
  | [], _ => some []
  | _ :: _, [] => none
  | i :: is, s :: ss =>
    if Bits.minBitCountUnsigned i ≤ s.1 ∧ s.2.Covers i then
      (indexesBits is ss).map (Bits.ofNat s.1 i :: ·)
    else none

/-- The index tuples for which a case is made. -/
def possibleIndexes (dims : List Nat) (intervals : List Intervals) : List (List Bits) :=
  (mixedRadix dims).filterMap fun indexes => indexesBits indexes intervals

/-! ### The select chain -/

/-- One literal for each index. -/
def makeLiterals : List Bits → Build (List Nat)
  | [] => return []
  | b :: bs => do
    let literal ← Graph.makeNode ⟨.literal (.leaf b), [], .bits b.width⟩
    let literals ← makeLiterals bs
    return literal :: literals

/-- The comparison of each index expression with its literal. -/
def makeEqualityChecks : List Nat → List Nat → Build (List Nat)
  | index :: indices, literal :: literals => do
    let check ← Graph.makeNode ⟨.compare .eq, [index, literal], .bits 1⟩
    let checks ← makeEqualityChecks indices literals
    return check :: checks
  | _, _ => return []

/-- `handle_possible_index`: the element at the indexes and the condition that they are the
values of the index expressions. -/
def handlePossibleIndex (array : Nat) (indices : List Nat) (element : IrType)
    (indexes : List Bits) : Build (Nat × Nat) := do
  let literals ← makeLiterals indexes
  let case ← Graph.makeNode ⟨.arrayIndex, array :: literals, element⟩
  let checks ← makeEqualityChecks indices literals
  let condition ← Graph.makeNode ⟨.nary .and, checks, .bits 1⟩
  return (case, condition)

/-- The cases with their conditions. -/
def handlePossibleIndexes (array : Nat) (indices : List Nat) (element : IrType) :
    List (List Bits) → Build (List (Nat × Nat))
  | [] => return []
  | indexes :: rest => do
    let case ← handlePossibleIndex array indices element indexes
    let cases ← handlePossibleIndexes array indices element rest
    return case :: cases

/-- A select for each case, with the chain so far as the other case. -/
def makeSelects (element : IrType) : Nat → List (Nat × Nat) → Build Nat
  | restOfChain, [] => return restOfChain
  | restOfChain, (case, condition) :: cases => do
    let select ← Graph.makeNode ⟨.sel false, [condition, restOfChain, case], element⟩
    makeSelects element select cases

/-- The chain; its start is the first case, whatever its condition is. -/
def makeSelectChain (element : IrType) : List (Nat × Nat) → Build (Option Nat)
  | [] => return none
  | (case, _) :: cases => do
    let chain ← makeSelects element case cases
    return some chain

/-- The chain that stands for an array index with few possible indexes. -/
def arrayIndexSelectChain (getIntervals : Nat → Intervals) (threshold : Int) (array : Nat)
    (indices : List Nat) (element : IrType) : Build (Option Nat) := do
  let intervals := indices.map getIntervals
  if indices = [] ∨ ¬ isSmallIndexSpace threshold intervals then return none
  let a ← Graph.getNode array
  let dims ← (dimension a.type indices.length : Result (List Nat))
  let cases ← handlePossibleIndexes array indices element (possibleIndexes dims intervals)
  makeSelectChain element cases

/-- `MaybeConvertArrayIndexToSelect`. -/
def maybeConvertArrayIndexToSelect (getIntervals : Nat → Intervals) (threshold : Int) (id : Nat) :
    Build Bool := do
  let n ← Graph.getNode id
  match n.kind, n.operands with
  | .arrayIndex, array :: indices => do
    let chain ← arrayIndexSelectChain getIntervals threshold array indices n.type
    match chain with
    | none => return false
    | some root => do
      Graph.replaceUsesWith id root
      return true
  | _, _ => throw .check

end Xls.Narrowing

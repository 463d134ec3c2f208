import Xls.Graph

/-!
# Xls.SelectSimplification

The part of the select simplification pass (`xls/passes/select_simplification_pass.cc`) that
splits a one-hot select into one-hot selects of slices of its cases, and the worklist loop
that does so until nothing can be split.
-/

namespace Xls.SelectSimplification

open Graph (Build)

/-! ### Sources of bits -/

/-- What the query engine knows about the bits of the nodes of a graph. -/
structure QueryEngine where
  isKnown : Graph → Nat → Nat → Bool
  isOne : Graph → Nat → Nat → Bool

/-- `BitSource`: a constant, or a bit of a node. -/
inductive BitSource
  | constant (value : Bool)
  | bit (node index : Nat)
  deriving DecidableEq

/-- `BitCountOrDie`, of a node of a graph. -/
def bitCountOf (g : Graph) (id : Nat) : Result Nat := do
  let n ← derefOption g.nodes[id]?
  n.type.bitCountOrDie

/-- The operand of a concat that has a bit, and the index of the bit in it; the operands are
listed from the least significant one on. -/
def operandOfBit (g : Graph) : List Nat → Nat → Result (Nat × Nat)
  | [], _ => .error .check
  | o :: os, index => do
    let width ← bitCountOf g o
    if index < width then return (o, index) else operandOfBit g os (index - width)

/-- `GetBitSource`. The fuel is the number of nodes that a path through slices and concats
can have. -/
def getBitSource (e : QueryEngine) (g : Graph) : Nat → Nat → Nat → Result BitSource
  | 0, _, _ => .error .check
  | fuel + 1, id, bitIndex => do
    let n ← derefOption g.nodes[id]?
    match n.kind, n.operands with
    | .bitSlice start _, [a] => getBitSource e g fuel a (bitIndex + start)
    | .concat, operands => do
      let (operand, index) ← operandOfBit g operands.reverse bitIndex
      getBitSource e g fuel operand index
    | .literal value, _ => do
      let b ← value.bits
      return .constant (b.get bitIndex)
    | _, _ =>
      if n.type.isBits && e.isKnown g id bitIndex then
        return .constant (e.isOne g id bitIndex)
      else return .bit id bitIndex

/-- The sources of one bit of every node. -/
def bitSources (e : QueryEngine) (g : Graph) (bitIndex : Nat) : List Nat → Result (List BitSource)
  | [] => .ok []
  | id :: ids => do
    let source ← getBitSource e g (g.nodes.length + 1) id bitIndex
    let sources ← bitSources e g bitIndex ids
    return source :: sources

/-- The pairs of positions with the same source, in increasing order. -/
def matchingPairs (sources : List BitSource) : List (Nat × Nat) :=
  (List.range sources.length).flatMap fun i =>
    ((List.range sources.length).filter fun j => i < j ∧ sources[i]? = sources[j]?).map fun j =>
      (i, j)

/-- `PairsOfBitsWithSameSource`. -/
def pairsOfBitsWithSameSource (e : QueryEngine) (g : Graph) (nodes : List Nat) (bitIndex : Nat) :
    Result (List (Nat × Nat)) := do
  let sources ← bitSources e g bitIndex nodes
  return matchingPairs sources

/-! ### Runs -/

/-- The pairs that matched so far and match again; all pairs at the first index. -/
def stillMatching (pairs : List (Nat × Nat)) : Option (List (Nat × Nat)) → List (Nat × Nat)
  | none => pairs
  | some matched => pairs.filter (matched.contains ·)

/-- The run of bits from an index on at which some pair that matched so far still matches; the
first number counts the bits that are left. -/
def nonDistinctFrom (e : QueryEngine) (g : Graph) (cases : List Nat) :
    Nat → Nat → Option (List (Nat × Nat)) → Result Nat
  | 0, _, _ => .ok 0
  | left + 1, i, matched => do
    let pairs ← pairsOfBitsWithSameSource e g cases i
    if stillMatching pairs matched = [] then return 0
    else do
      let run ← nonDistinctFrom e g cases left (i + 1) (some (stillMatching pairs matched))
      return run + 1

/-- `RunOfNonDistinctCaseBits`. -/
def runOfNonDistinctCaseBits (e : QueryEngine) (g : Graph) (cases : List Nat) (width start : Nat) :
    Result Nat :=
  nonDistinctFrom e g cases (width - start) start none

/-- The run of bits from an index on without a pair that matches. -/
def distinctFrom (e : QueryEngine) (g : Graph) (cases : List Nat) : Nat → Nat → Result Nat
  | 0, _ => .ok 0
  | left + 1, i => do
    let pairs ← pairsOfBitsWithSameSource e g cases i
    if pairs = [] then do
      let run ← distinctFrom e g cases left (i + 1)
      return run + 1
    else return 0

/-- `RunOfDistinctCaseBits`. -/
def runOfDistinctCaseBits (e : QueryEngine) (g : Graph) (cases : List Nat) (width start : Nat) :
    Result Nat :=
  distinctFrom e g cases (width - start) start

/-- The next run: of distinct bits, or if there is none, of bits that are not distinct. -/
def nextRun (e : QueryEngine) (g : Graph) (cases : List Nat) (width start : Nat) : Result Nat := do
  let run ← runOfDistinctCaseBits e g cases width start
  let run ← (if run = 0 then runOfNonDistinctCaseBits e g cases width start else .ok run :
    Result Nat)
  if 0 < run then return run else .error (.status "XLS_RET_CHECK failure: run > 0")

/-! ### Splitting -/

/-- A slice of every case. -/
def sliceCases (start width : Nat) : List Nat → Build (List Nat)
  | [] => return []
  | c :: cs => do
    let slice ← Graph.makeNode ⟨.bitSlice start width, [c], .bits width⟩
    let slices ← sliceCases start width cs
    return slice :: slices

/-- `SliceOneHotSelect`. -/
def sliceOneHotSelect (selector : Nat) (cases : List Nat) (start width : Nat) : Build Nat := do
  let slices ← sliceCases start width cases
  Graph.makeNode ⟨.oneHotSel, selector :: slices, .bits width⟩

/-- The slices of a one-hot select from a bit on, the lowest first; none if one run has all
bits. -/
def sliceRuns (e : QueryEngine) (selector : Nat) (cases : List Nat) (width : Nat) :
    Nat → Nat → Build (Option (List (Nat × Nat)))
  | 0, _ => throw .check
  | fuel + 1, start =>
    if start < width then do
      let g ← get
      let run ← (nextRun e g cases width start : Result Nat)
      if run = width then return none
      else do
        let slice ← sliceOneHotSelect selector cases start run
        let slices ← sliceRuns e selector cases width fuel (start + run)
        return slices.map ((slice, run) :: ·)
    else return some []

/-- The selector, the cases and the width of a one-hot select of bits that is not too wide. -/
def splitOperands (n : Node) : Result (Option (Nat × List Nat × Nat)) :=
  match n.kind, n.operands, n.type with
  | .oneHotSel, selector :: cases, .bits width =>
    if 64 < width then .ok none else .ok (some (selector, cases, width))
  | .oneHotSel, _ :: _, _ => .ok none
  | _, _, _ => .error .check

/-- The new one-hot selects in place of one, lowest first. -/
def replaceBySlices (id : Nat) (slices : List (Nat × Nat)) : Build (List Nat) := do
  let concat ← Graph.makeNode
    ⟨.concat, (slices.map Prod.fst).reverse, .bits (slices.map Prod.snd).sum⟩
  Graph.replaceUsesWith id concat
  return slices.map Prod.fst

/-- `MaybeSplitOneHotSelect`: the new one-hot selects, lowest first. -/
def maybeSplitOneHotSelect (e : QueryEngine) (id : Nat) : Build (List Nat) := do
  let n ← Graph.getNode id
  let parts ← (splitOperands n : Result (Option (Nat × List Nat × Nat)))
  match parts with
  | none => return []
  | some (selector, cases, width) => do
    let slices ← sliceRuns e selector cases width (width + 1) 0
    match slices with
    | none => return []
    | some slices => replaceBySlices id slices

/-! ### The worklist -/

/-- The one-hot selects of a graph. -/
def oneHotSelects (g : Graph) : List Nat :=
  (List.range g.nodes.length).filter fun id => g.nodes[id]?.map Node.kind == some .oneHotSel

/-- The loop over the worklist: whether anything changed, and the graph. Nothing is returned
when the fuel runs out. -/
def splitLoop (e : QueryEngine) : Nat → List Nat → Bool → Graph → Option (Result (Bool × Graph))
  | 0, _, _, _ => none
  | _ + 1, [], changed, g => some (.ok (changed, g))
  | fuel + 1, ohs :: worklist, changed, g =>
    match maybeSplitOneHotSelect e ohs g with
    | .error failure => some (.error failure)
    | .ok (new, g) => splitLoop e fuel (worklist ++ new) (changed || !new.isEmpty) g

end Xls.SelectSimplification

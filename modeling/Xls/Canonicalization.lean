import Xls.Reassociation

/-!
# Xls.Canonicalization

`xls/passes/canonicalization_pass.cc`: simple rewrites of single nodes that are applied until no
node changes (`TransformNodesToFixedPoint` of `xls/passes/optimization_pass.cc`).

A rewrite of a node is given by the nodes that it makes, which go to the end of the list, and
the node that replaces it. The loop is a step function on its state, since it need not end.
-/

namespace Xls

/-- `OpIsCommutative`. -/
def NodeKind.isCommutative : NodeKind → Bool
  | .bin .add | .arith _ | .partialProduct _ _ | .nary _ | .afterAll => true
  | .compare .eq | .compare .ne => true
  | _ => false

/-- `ReverseComparisonOp`. -/
def CompareOp.reverse : CompareOp → CompareOp
  | .ule => .uge
  | .ult => .ugt
  | .uge => .ule
  | .ugt => .ult
  | .sle => .sge
  | .slt => .sgt
  | .sge => .sle
  | .sgt => .slt
  | .eq => .eq
  | .ne => .ne

namespace Canonicalization

/-! ### Queries -/

/-- `As<Literal>` succeeds. -/
def isLiteral (g : Graph) (id : Nat) : Bool :=
  match g.nodes[id]? with
  | some ⟨.literal _, _, _⟩ => true
  | _ => false

/-- `StatelessQueryEngine::IsFullyKnown`: literals. -/
def isFullyKnown (g : Graph) (id : Nat) : Bool := isLiteral g id

/-- `KnownValueAsBits`, of a node of a bits type. -/
def knownValueAsBits (g : Graph) (id : Nat) : Option Bits :=
  match g.nodes[id]? with
  | some n => Reassociation.knownValueAsBits g n
  | none => none

/-- Whether a node has a bits type. -/
def isBits (g : Graph) (id : Nat) : Bool :=
  match g.nodes[id]? with
  | some n => n.type.isBits
  | none => false

/-- `AreSequentialConstants`. -/
def areSequentialConstants (g : Graph) (m n : Nat) : Bool :=
  isBits g m && isBits g n &&
    match knownValueAsBits g m, knownValueAsBits g n with
    | some mBits, some nBits => (mBits.zeroExtend (mBits.width + 1)).increment.val == nBits.val
    | _, _ => false

/-- `AreEqualConstants`. -/
def areEqualConstants (g : Graph) (m n : Nat) : Bool :=
  isBits g m && isBits g n &&
    match knownValueAsBits g m, knownValueAsBits g n with
    | some mBits, some nBits => mBits.val == nBits.val
    | _, _ => false

/-! ### Rules -/

/-- The nodes that a rule makes, and the node that replaces the one it is applied to. -/
structure Replacement where
  made : List Node
  node : Nat

/-- Constants move to the right for commutative operators. -/
def moveConstantRight (g : Graph) (n : Node) : Option Replacement :=
  match n.operands with
  | [a, b] =>
    if n.kind.isCommutative && isFullyKnown g a && !isFullyKnown g b then
      some ⟨[{ n with operands := [b, a] }], g.nodes.length⟩
    else none
  | _ => none

/-- Constants move to the right for comparison operators. -/
def reverseComparison (g : Graph) (n : Node) : Option Replacement :=
  match n.kind, n.operands with
  | .compare op, [a, b] =>
    if isFullyKnown g a && !isFullyKnown g b then
      some ⟨[⟨.compare op.reverse, [b, a], .bits 1⟩], g.nodes.length⟩
    else none
  | _, _ => none

/-- Comparisons with constants become strict. -/
def strictComparison (g : Graph) (n : Node) : Result (Option Replacement) :=
  match n.kind, n.operands with
  | .compare op, [a, b] =>
    if isBits g b && isFullyKnown g b then do
      let constant ← derefOption (knownValueAsBits g b)
      if op = .uge ∧ !constant.isZero then
        return some ⟨[⟨.literal (.leaf constant.decrement), [], .bits constant.width⟩,
          ⟨.compare .ugt, [a, g.nodes.length], .bits 1⟩], g.nodes.length + 1⟩
      else if op = .ule ∧ !constant.isAllOnes then
        return some ⟨[⟨.literal (.leaf constant.increment), [], .bits constant.width⟩,
          ⟨.compare .ult, [a, g.nodes.length], .bits 1⟩], g.nodes.length + 1⟩
      else return none
    else .ok none
  | _, _ => .ok none

/-- A value `x` that is kept at most, or at least, at the value of `k`. -/
structure Clamp where
  x : Nat
  k : Nat
  isHigh : Bool

/-- The six forms `a cmp b ? c : d` of a clamp. -/
def clampOf (g : Graph) (cmp : CompareOp) (a b c d : Nat) : Option Clamp :=
  if cmp = .ugt ∧ a = d ∧ areSequentialConstants g b c then some ⟨a, c, true⟩
  else if cmp = .ult ∧ a = c ∧ areEqualConstants g b d then some ⟨a, d, true⟩
  else if cmp = .ult ∧ a = c ∧ areSequentialConstants g d b then some ⟨a, d, true⟩
  else if cmp = .ult ∧ a = d ∧ areSequentialConstants g c b then some ⟨a, c, false⟩
  else if cmp = .ugt ∧ a = c ∧ areEqualConstants g b d then some ⟨a, d, false⟩
  else if cmp = .ugt ∧ a = c ∧ areSequentialConstants g b d then some ⟨a, d, false⟩
  else none

/-- The clamp that a node is, with the constant that was found. -/
def findClamp (g : Graph) (n : Node) : Option Clamp :=
  if !n.type.isBits then none
  else
    match n.kind, n.operands with
    | .sel hasDefault, selector :: rest =>
      match if hasDefault then rest.dropLast else rest, g.nodes[selector]? with
      | [d, c], some s =>
        match s.kind, s.operands with
        | .compare cmp, [a, b] => clampOf g cmp a b c d
        | _, _ => none
      | _, _ => none
    | _, _ => none

/-- `MaybeCanonicalizeClamp`. -/
def maybeCanonicalizeClamp (g : Graph) (n : Node) : Result (Option Replacement) :=
  match findClamp g n with
  | none => .ok none
  | some clamp => do
    checkThat (isLiteral g clamp.k)
    return some ⟨[⟨.compare (if clamp.isHigh then .ugt else .ult), [clamp.x, clamp.k], .bits 1⟩,
      ⟨.sel false, [g.nodes.length, clamp.x, clamp.k], n.type⟩], g.nodes.length + 1⟩

/-- A subtraction of a constant becomes an addition. -/
def addNegated (g : Graph) (n : Node) : Result (Option Replacement) :=
  match n.kind, n.operands with
  | .bin .sub, [a, b] =>
    if isFullyKnown g b then do
      let constant ← derefOption (knownValueAsBits g b)
      return some ⟨[⟨.literal (.leaf constant.negate), [], .bits constant.width⟩,
        ⟨.bin .add, [a, g.nodes.length], n.type⟩], g.nodes.length + 1⟩
    else .ok none
  | _, _ => .ok none

/-- `BitCountOrDie` of a node. -/
def bitCountOrDie (g : Graph) (id : Nat) : Result Nat := do
  let n ← derefOption g.nodes[id]?
  n.type.bitCountOrDie

/-- An extension by no bits is removed, and one by zeros becomes a concatenation. -/
def removeExtension (g : Graph) (n : Node) : Result (Option Replacement) :=
  match n.kind, n.operands with
  | .extend op _, [a] => do
    let bitCount ← n.type.bitCountOrDie
    let operandBitCount ← bitCountOrDie g a
    if bitCount = operandBitCount then return some ⟨[], a⟩
    else if op = .zeroExt then do
      checkThat (decide (operandBitCount < bitCount))
      return some ⟨[⟨.literal (.leaf (Bits.zero (bitCount - operandBitCount))), [],
          .bits (bitCount - operandBitCount)⟩,
        ⟨.concat, [g.nodes.length, a], .bits bitCount⟩], g.nodes.length + 1⟩
    else return none
  | _, _ => .ok none

/-- The cases of a two-way select with an inverted selector are interchanged. -/
def swapCases (g : Graph) (n : Node) : Option Replacement :=
  match n.kind, n.operands with
  | .sel false, [selector, a, b] =>
    match g.nodes[selector]? with
    | some ⟨.un .not, [p], _⟩ => some ⟨[⟨.sel false, [p, b, a], n.type⟩], g.nodes.length⟩
    | _ => none
  | _, _ => none

/-- A default that stands for one value of the selector becomes a case. -/
def defaultToCase (g : Graph) (n : Node) : Result (Option Replacement) :=
  match n.kind, n.operands with
  | .sel hasDefault, selector :: cases => do
    let selectorBitCount ← bitCountOrDie g selector
    if selectorBitCount < 63 ∧ hasDefault ∧ cases.length = 2 ^ selectorBitCount then
      return some ⟨[⟨.sel false, selector :: cases, n.type⟩], g.nodes.length⟩
    else return none
  | _, _ => .ok none

/-- The first rule that applies. -/
def firstOf : List (Result (Option Replacement)) → Result (Option Replacement)
  | [] => .ok none
  | rule :: rules =>
    match rule with
    | .ok none => firstOf rules
    | result => result

/-- `CanonicalizeNode`. -/
def canonicalizeNode (g : Graph) (id : Nat) : Result (Option Replacement) :=
  match g.nodes[id]? with
  | none => .error .check
  | some n =>
    firstOf [.ok (moveConstantRight g n), .ok (reverseComparison g n), strictComparison g n,
      maybeCanonicalizeClamp g n, addNegated g n, removeExtension g n, .ok (swapCases g n),
      defaultToCase g n]

/-- The graph with a node replaced. -/
def replace (g : Graph) (id : Nat) (r : Replacement) : Result Graph := do
  let (_, g) ← Graph.replaceUsesWith id r.node { g with nodes := g.nodes ++ r.made }
  return g

/-! ### The fixed point -/

/-- `IsDead`. -/
def isDead (g : Graph) (id : Nat) : Bool := (g.users id).isEmpty && !(g.returnValue == id)

/-- The state of `TransformNodesToFixedPoint`. The iterator is at a node or at the end. -/
structure Progress where
  graph : Graph
  simplifiedNodeIds : List Nat
  changedThisTime : Bool
  nodeIt : Option Nat

/-- `begin()`. -/
def first (g : Graph) : Option Nat := if 0 < g.nodes.length then some 0 else none

/-- `std::next`, of the list as it is before the node is simplified. -/
def next (g : Graph) (id : Nat) : Option Nat :=
  if id + 1 < g.nodes.length then some (id + 1) else none

/-- The state at the start. -/
def start (g : Graph) : Progress := ⟨g, [], false, first g⟩

/-- The node is not skipped. -/
def Progress.simplifies (s : Progress) (id : Nat) : Bool :=
  !isDead s.graph id || !s.simplifiedNodeIds.contains id

/-- One node, or the end of the list. Nothing is returned when the loop ends. -/
def step (s : Progress) : Result (Option Progress) :=
  match s.nodeIt with
  | none =>
    if s.changedThisTime then
      .ok (some { s with changedThisTime := false, nodeIt := first s.graph })
    else .ok none
  | some id =>
    if s.simplifies id then do
      let r ← canonicalizeNode s.graph id
      match r with
      | some r => do
        let g ← replace s.graph id r
        return some ⟨g, id :: s.simplifiedNodeIds, true, next s.graph id⟩
      | none => return some { s with nodeIt := next s.graph id }
    else .ok (some { s with nodeIt := next s.graph id })

/-- The states of the run from a state on. -/
inductive Reaches : Progress → Progress → Prop
  | refl (s : Progress) : Reaches s s
  | step {s s' s'' : Progress} (h : step s = .ok (some s')) (hrest : Reaches s' s'') :
      Reaches s s''

end Canonicalization

end Xls

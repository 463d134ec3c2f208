import Xls.ArithSimplification

/-!
# Xls.OneBitMux

The rules for a `sel` node up to the rewrite of a one-bit mux into gates, in `SimplifyNode`
(`xls/passes/select_simplification_pass.cc`) and in `StrengthReduceNode`
(`xls/passes/strength_reduction_pass.cc`). A result of `none` says that the function goes on
with the rules after these, or with the one for selects between tuples.
-/

namespace Xls.OneBitMux

open Graph (Build getNode bitCountOrDie makeNode replaceUsesWith)
open ArithSimplification (Engine makeLiteral)

/-! ### Selects -/

def narrowingEnabled (optLevel : Int) : Bool := decide (2 ≤ optLevel)
def splitsEnabled (optLevel : Int) : Bool := decide (3 ≤ optLevel)

/-- The operands of a `Select`. -/
structure Select where
  selector : Nat
  cases : List Nat
  defaultValue : Option Nat

/-- `As<Select>`. -/
def asSelect (n : Node) : Option Select :=
  match n.kind, n.operands with
  | .sel true, selector :: rest => some ⟨selector, rest.dropLast, rest.getLast?⟩
  | .sel false, selector :: rest => some ⟨selector, rest, none⟩
  | _, _ => none

namespace Select

/-- `AllCases`. -/
def allCases (sel : Select) (p : Nat → Bool) : Bool :=
  sel.cases.all p && sel.defaultValue.all p

/-- `any_case`. -/
def anyCase (sel : Select) : Option Nat := sel.cases.head? <|> sel.defaultValue

end Select

/-- `XLS_RET_CHECK`. -/
def retCheck (cond : Bool) (text : String) : Build Unit :=
  if cond then return () else throw (.status ("XLS_RET_CHECK failure: " ++ text))

/-! ### Gates -/

/-- A `NaryOp` on two operands; the node has the type of the first. -/
def makeNaryOp (op : NaryOp) (a b : Nat) : Build Nat := do
  let n ← getNode a
  makeNode ⟨.nary op, [a, b], n.type⟩

def makeNot (a : Nat) : Build Nat := do
  let n ← getNode a
  makeNode ⟨.un .not, [a], n.type⟩

/-- The gates that replace a one-bit mux. -/
def explodeMux (id : Nat) (sel : Select) : Build Unit := do
  retCheck sel.defaultValue.isNone "!select->default_value().has_value()"
  let onFalse ← derefOption sel.cases[0]?
  let onTrue ← derefOption sel.cases[1]?
  let lhs ← makeNaryOp .and sel.selector onTrue
  let sNot ← makeNot sel.selector
  let rhs ← makeNaryOp .and sNot onFalse
  let replacement ← makeNaryOp .or lhs rhs
  replaceUsesWith id replacement

/-- `is_one_bit_mux`, of a select. -/
def isOneBitMux (n : Node) (sel : Select) : Build Bool := do
  if n.type == .bits 1 then
    let width ← bitCountOrDie sel.selector
    return width == 1
  else return false

/-- One of the operands 1 and 2 is constant, or one of them is the selector. -/
def worthExploding (isConstant : Nat → Bool) (n : Node) : Build Bool := do
  let s ← derefOption n.operands[0]?
  let a ← derefOption n.operands[1]?
  let b ← derefOption n.operands[2]?
  return isConstant a || isConstant b || s == a || s == b

/-- The rule for one-bit muxes, where it is enabled. -/
def maybeExplodeMux (enabled : Bool) (isConstant : Nat → Bool) (id : Nat) (n : Node)
    (sel : Select) : Build (Option Bool) := do
  if enabled then
    let mux ← isOneBitMux n sel
    if mux then
      let worth ← worthExploding isConstant n
      if worth then
        explodeMux id sel
        return some true
      else return none
    else return none
  else return none

/-! ### The two functions -/

/-- A select whose selector is known is replaced by the case, or by the default. -/
def replaceByCase (id : Nat) (sel : Select) (selector : Bits) : Build Unit := do
  checkThat (decide (sel.cases.length - 1 < 2 ^ selector.width))
  if sel.cases.length - 1 < selector.val then
    retCheck sel.defaultValue.isSome "sel->default_value().has_value()"
    let replacement ← derefOption sel.defaultValue
    replaceUsesWith id replacement
  else
    let replacement ← derefOption sel.cases[selector.val]?
    replaceUsesWith id replacement

/-- The rules of `SimplifyNode` for a select. -/
def simplifySelect (e : Engine) (optLevel : Int) (id : Nat) (n : Node) (sel : Select) :
    Build (Option Bool) := do
  if e.isFullyKnown sel.selector then
    let selector ← derefOption (e.knownValueAsBits sel.selector)
    replaceByCase id sel selector
    return some true
  else
    let anyCase ← derefOption sel.anyCase
    if sel.allCases (· == anyCase) then
      replaceUsesWith id anyCase
      return some true
    else maybeExplodeMux (narrowingEnabled optLevel) e.isFullyKnown id n sel

/-- `SimplifyNode`, up to the rewrite of one-bit muxes. -/
def simplifyNode (e : Engine) (optLevel : Int) (id : Nat) : Build (Option Bool) := do
  let n ← getNode id
  match asSelect n with
  | some sel => simplifySelect e optLevel id n sel
  | none => return none

/-- `Is<Literal>`. -/
def isLiteral (g : Graph) (id : Nat) : Bool :=
  match g.nodes[id]? with
  | some ⟨.literal _, _, _⟩ => true
  | _ => false

/-- The rules of `StrengthReduceNode` for a select. -/
def strengthReduceSelect (e : Engine) (optLevel : Int) (g : Graph) (id : Nat) (n : Node)
    (sel : Select) : Build (Option Bool) := do
  if !(n.operands.all fun o => (g.nodes[o]?.map Node.type).all IrType.isBits) ||
      !n.type.isBits then return some false
  else if narrowingEnabled optLevel && e.isFullyKnown id then
    let value ← derefOption (e.knownValueAsBits id)
    let literal ← makeLiteral value
    replaceUsesWith id literal
    return some true
  else maybeExplodeMux (splitsEnabled optLevel) (isLiteral g) id n sel

/-- `StrengthReduceNode`, up to the rewrite of one-bit muxes. -/
def strengthReduceNode (e : Engine) (optLevel : Int) (id : Nat) : Build (Option Bool) := do
  let n ← getNode id
  match asSelect n with
  | some sel => do
    let g ← get
    strengthReduceSelect e optLevel g id n sel
  | none => return none

end Xls.OneBitMux

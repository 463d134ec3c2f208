import Xls.Ir
import Xls.Lib.ListIndex
import Xls.ValueProto

/-!
# Xls.ProcState

The state elements of a proc (`ir/proc.cc`): their parameters, initial values and old-style
next state, with the index of the next state that `HasImplicitUse` reads.

Nodes are addresses. A call that makes a parameter is given the address that the allocator
returns for it; the allocator returns no address of a node that exists.
-/

namespace Xls

namespace KindedValue

mutual

/-- `TypeManager::GetTypeForValue`. -/
def typeForValue : KindedValue → Result IrType
  | .bits b => .ok (.bits b.width)
  | .tuple elements => do
    let types ← typesForValues elements
    return .tuple types
  | .array first rest => do
    let type ← typeForValue first
    return .array (rest.length + 1) type
  | .token => .ok .token
  | .invalid => .error .check

/-- The loop over the elements of a tuple. -/
def typesForValues : List KindedValue → Result (List IrType)
  | [] => .ok []
  | v :: rest => do
    let type ← typeForValue v
    let types ← typesForValues rest
    return type :: types

end

mutual

/-- `ValueConformsToType`. -/
def conformsToType : KindedValue → IrType → Result Bool
  | .bits b, .bits width => .ok (b.width == width)
  | .array first rest, .array size element =>
    if size = rest.length + 1 then conformsToType first element else .ok false
  | .tuple elements, .tuple types =>
    if types.length = elements.length then conformToTypes elements types else .ok false
  | .token, .token => .ok true
  | .invalid, _ => .error .check
  | _, _ => .ok false

/-- The loop over the elements of a tuple. -/
def conformToTypes : List KindedValue → List IrType → Result Bool
  | v :: vs, t :: ts => do
    let conforms ← conformsToType v t
    if conforms then conformToTypes vs ts else return false
  | _, _ => .ok true

end

end KindedValue

/-- A node of a proc, where the calls on the state look at it. -/
structure ProcNode where
  name : String
  type : IrType
  users : List Nat

/-- The state elements of a proc. -/
structure ProcState where
  name : String
  /-- The nodes of the proc, by address. -/
  node : Nat → Option ProcNode
  /-- `params()`, which are the state parameters. -/
  params : List Nat
  initValues : List KindedValue
  nextState : List Nat
  nextStateIndices : Nat → Finset Nat

namespace ProcState

/-- A proc without state elements and nodes. -/
def new (name : String) : ProcState := ⟨name, fun _ => none, [], [], [], fun _ => ∅⟩

/-- A failing `XLS_RET_CHECK`. -/
def retCheck (cond : Bool) (text : String) : Result Unit :=
  if cond then .ok () else .error (.status s!"XLS_RET_CHECK failure: {text}")

/-- `HasImplicitUse`. -/
def hasImplicitUse (p : ProcState) (n : Nat) : Bool := decide (p.nextStateIndices n ≠ ∅)

/-- `RemoveNode`, of a parameter. -/
def removeNode (p : ProcState) (n : Nat) : Result ProcState := do
  let data ← derefOption (p.node n)
  retCheck data.users.isEmpty "node->users().empty()"
  retCheck (!p.hasImplicitUse n) "!HasImplicitUse(node)"
  return { p with
    node := Function.update p.node n none
    params := p.params.filter (· ≠ n) }

/-- `MakeNodeWithName<Param>`; `uniqueName` is what `UniquifyNodeName` makes of the given name. -/
def makeParam (p : ProcState) (address : Nat) (uniqueName : String) (initValue : KindedValue) :
    Result ProcState := do
  let type ← initValue.typeForValue
  checkThat (p.node address).isNone
  return { p with
    node := Function.update p.node address (some ⟨uniqueName, type, []⟩)
    params := p.params ++ [address] }

/-- `MoveParamToIndex`. The index is compared as a `size_t`, so that a negative one is greater than
every size. -/
def moveParamToIndex (p : ProcState) (param : Nat) (index : Int) : Result ProcState := do
  retCheck (decide (0 ≤ index ∧ index < p.params.length)) "index < params_.size()"
  if param ∉ p.params then
    .error (.status "Given param is not a member of this function base")
  else return { p with params := (p.params.erase param).insertIdx index.toNat param }

variable (typeText : IrType → String) (valueText : KindedValue → String)

/-- The check that a next state fits the initial value. -/
def checkNextState (p : ProcState) (index : Int) (initValue : KindedValue) :
    Option Nat → Result Unit
  | none => .ok ()
  | some next => do
    let data ← derefOption (p.node next)
    let conforms ← initValue.conformsToType data.type
    if conforms then return ()
    else .error (.status (s!"Cannot add state element at {index}, next state value " ++
      s!"{data.name} (type {typeText data.type}) does not match type of initial value: " ++
      s!"{valueText initValue}"))

/-- `SetNextStateElement`. -/
def setNextStateElement (p : ProcState) (index next : Nat) : Result ProcState := do
  let data ← derefOption (p.node next)
  let param ← derefOption p.params[index]?
  let paramData ← derefOption (p.node param)
  if data.type ≠ paramData.type then
    .error (.status (s!"Cannot set next state element {index} to \"{data.name}\"; type " ++
      s!"{typeText data.type} does not match proc state element type " ++
      s!"{typeText paramData.type}"))
  else do
    let old ← derefOption p.nextState[index]?
    return { p with
      nextState := p.nextState.set index next
      nextStateIndices := ListIndex.insert (ListIndex.erase p.nextStateIndices old index)
        next index }

/-- `ReplaceStateElement`. Between the erasure of the index and the new next state the element
is null, which nothing reads. -/
def replaceStateElement (p : ProcState) (index address : Nat) (name : String)
    (initValue : KindedValue) (nextState : Option Nat) : Result ProcState := do
  retCheck (index < p.params.length) "index < GetStateElementCount()"
  let oldParam ← derefOption p.params[index]?
  let oldData ← derefOption (p.node oldParam)
  if oldData.users ≠ [] then
    .error (.status (s!"Cannot remove state element {index} of proc {p.name}, existing state " ++
      s!"param {oldData.name} has uses"))
  else do
    let old ← derefOption p.nextState[index]?
    let p := { p with nextStateIndices := ListIndex.erase p.nextStateIndices old index }
    let p ← p.removeNode oldParam
    let p ← p.makeParam address name initValue
    let p ← p.moveParamToIndex address index
    p.checkNextState typeText valueText index initValue nextState
    let next := nextState.getD address
    return { p with
      initValues := p.initValues.set index initValue
      nextState := p.nextState.set index next
      nextStateIndices := ListIndex.insert p.nextStateIndices next index }

/-- `RemoveStateElement`. -/
def removeStateElement (p : ProcState) (index : Nat) : Result ProcState := do
  retCheck (index < p.params.length) "index < GetStateElementCount()"
  let relabeled :=
    if index + 1 < p.params.length then
      ListIndex.relabel p.nextStateIndices fun i => if i ≤ index then i else i - 1
    else p.nextStateIndices
  let next ← derefOption p.nextState[index]?
  let p := { p with
    nextStateIndices := ListIndex.erase relabeled next index
    nextState := p.nextState.eraseIdx index }
  let oldParam ← derefOption p.params[index]?
  let oldData ← derefOption (p.node oldParam)
  if oldData.users ≠ [] then
    .error (.status (s!"Cannot remove state element {index} of proc {p.name}, existing state " ++
      s!"param {oldData.name} has uses"))
  else do
    let p ← p.removeNode oldParam
    return { p with initValues := p.initValues.eraseIdx index }

/-- What `InsertStateElement` does after its last check. -/
def insertNext (p : ProcState) (index address : Nat) (isAppend : Bool) (initValue : KindedValue)
    (nextState : Option Nat) : ProcState :=
  let relabeled :=
    if isAppend then p.nextStateIndices
    else ListIndex.relabel p.nextStateIndices fun i => if i < index then i else i + 1
  let next := nextState.getD address
  { p with
    nextState := p.nextState.insertIdx index next
    nextStateIndices := ListIndex.insert relabeled next index
    initValues := p.initValues.insertIdx index initValue }

/-- `InsertStateElement`. The index is compared with an `int64_t` first, so that a negative one is
found by `MoveParamToIndex` only. -/
def insertStateElement (p : ProcState) (index : Int) (address : Nat) (name : String)
    (initValue : KindedValue) (nextState : Option Nat) : Result ProcState := do
  retCheck (index ≤ p.params.length) "index <= GetStateElementCount()"
  let isAppend := decide (index = p.params.length)
  let p ← p.makeParam address name initValue
  let p ← p.moveParamToIndex address index
  p.checkNextState typeText valueText index initValue nextState
  return p.insertNext index.toNat address isAppend initValue nextState

/-- `AppendStateElement`. -/
def appendStateElement (p : ProcState) (address : Nat) (name : String) (initValue : KindedValue)
    (nextState : Option Nat) : Result ProcState :=
  p.insertStateElement typeText valueText p.params.length address name initValue nextState

/-- The loop that removes the state elements, the last one first. -/
def removeAll : Nat → ProcState → Result ProcState
  | 0, p => .ok p
  | count + 1, p => do
    let p ← p.removeStateElement count
    removeAll count p

/-- The loop that appends state elements. -/
def appendAll : List (Nat × String × KindedValue × Option Nat) → ProcState → Result ProcState
  | [], p => .ok p
  | (address, name, initValue, nextState) :: rest, p => do
    let p ← p.appendStateElement typeText valueText address name initValue nextState
    appendAll rest p

/-- `ReplaceState`, with the addresses of the parameters. The next state is left out or given
for every element. -/
def replaceState (p : ProcState) (addresses : List Nat) (names : List String)
    (initValues : List KindedValue) (nextState : Option (List Nat)) : Result ProcState := do
  let p ← removeAll p.params.length p
  match nextState with
  | none =>
    if names.length ≠ initValues.length then
      .error (.status (s!"Must specify equal number of state parameter names " ++
        s!"({names.length}) and initial values ({initValues.length})"))
    else
      appendAll typeText valueText
        (addresses.zip (names.zip (initValues.map fun v => (v, none)))) p
  | some nextState =>
    if names.length ≠ nextState.length ∨ names.length ≠ initValues.length then
      .error (.status (s!"Must specify equal number of state parameter names " ++
        s!"({names.length}), next state values ({nextState.length}) and initial values " ++
        s!"({initValues.length})"))
    else
      appendAll typeText valueText
        (addresses.zip (names.zip (initValues.zip (nextState.map some)))) p

/-- A call on the state of a proc. Between the calls the other nodes of the proc change. With a
negative index, the calls other than an insertion read `next_state_` out of its bounds, which the
language leaves undefined. -/
inductive Call
  | append (address : Nat) (name : String) (initValue : KindedValue) (nextState : Option Nat)
  | insert (index : Int) (address : Nat) (name : String) (initValue : KindedValue)
      (nextState : Option Nat)
  | setNext (index next : Nat)
  | replaceElement (index address : Nat) (name : String) (initValue : KindedValue)
      (nextState : Option Nat)
  | remove (index : Nat)
  | replace (addresses : List Nat) (names : List String) (initValues : List KindedValue)
      (nextState : Option (List Nat))
  /-- The nodes of the proc are others, the parameters among them. -/
  | editNodes (node : Nat → Option ProcNode)

/-- A call. -/
def call (p : ProcState) : Call → Result ProcState
  | .append address name initValue nextState =>
    p.appendStateElement typeText valueText address name initValue nextState
  | .insert index address name initValue nextState =>
    p.insertStateElement typeText valueText index address name initValue nextState
  | .setNext index next => p.setNextStateElement typeText index next
  | .replaceElement index address name initValue nextState =>
    p.replaceStateElement typeText valueText index address name initValue nextState
  | .remove index => p.removeStateElement index
  | .replace addresses names initValues nextState =>
    p.replaceState typeText valueText addresses names initValues nextState
  | .editNodes node => do
    checkThat (p.params.all fun n => (node n).isSome)
    return { p with node := node }

/-- A run of calls that succeed. -/
def run : ProcState → List Call → Result ProcState
  | p, [] => .ok p
  | p, c :: rest => do
    let p ← p.call typeText valueText c
    run p rest

end ProcState

end Xls

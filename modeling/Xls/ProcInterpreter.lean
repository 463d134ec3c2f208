import Xls.ChannelQueue
import Xls.Interpreter

/-!
# Xls.ProcInterpreter

The interpreter of procs (`xls/interpreter/proc_interpreter.cc`). A call of `tick` runs an
instance of a proc until its activation is complete, a value was sent, or a blocking
receive finds its channel empty. The continuation holds the values of the nodes that were
executed, so the next call resumes where the last one stopped.

The nodes of a proc are listed in the order of `TopoSort`, as those of a function, and the
operations of a function have the meaning of `Interpreter`.
-/

namespace Xls.ProcInterpreter

/-! ### Procs -/

/-- The operation of a node of a proc. Channels are known by a name within the proc; the
text of a trace is a function of the values of its arguments. -/
inductive ProcOp
  | ir (kind : NodeKind)
  | assert (message : String)
  | trace (text : List Value → Result String)
  | receive (channelName : Nat) (hasPredicate isBlocking : Bool)
  | send (channelName : Nat) (hasPredicate : Bool)
  | next (stateIndex : Nat) (hasPredicate : Bool)

/-- A node; the operands are positions in the node list. -/
structure ProcNode where
  op : ProcOp
  operands : List Nat
  type : IrType

/-- `Proc`: the nodes in execution order, and the position of the next value of every state
element. -/
structure Proc where
  nodes : List ProcNode
  initValues : List Value
  nextState : List Nat

/-- `ProcInstance`, with the channel instances that the names stand for. -/
structure ProcInstance where
  proc : Proc
  channelInstance : Nat → Option Nat

/-- The channel instances that an instance receives from. -/
def ProcInstance.receives (inst : ProcInstance) : List Nat :=
  inst.proc.nodes.filterMap fun n => match n.op with
    | .receive name _ _ => inst.channelInstance name
    | _ => none

/-- The channel instances that an instance sends on. -/
def ProcInstance.sends (inst : ProcInstance) : List Nat :=
  inst.proc.nodes.filterMap fun n => match n.op with
    | .send name _ => inst.channelInstance name
    | _ => none

/-- `InterpreterEvents`. -/
structure InterpreterEvents where
  traceMsgs : List String
  assertMsgs : List String

/-- `ProcElaboration`, with the functions that the procs call: what a run of a function on some
arguments returns, and its events. -/
structure Elaboration where
  env : Env
  callEvents : Nat → List Value → InterpreterEvents
  channels : List (Channel Value)
  instances : List ProcInstance

/-- The instance has a receive on the channel instance. -/
def Receives (e : Elaboration) (i ch : Nat) : Prop :=
  ∃ inst, e.instances[i]? = some inst ∧ ch ∈ inst.receives

/-- The instance has a send on the channel instance. -/
def Sends (e : Elaboration) (i ch : Nat) : Prop :=
  ∃ inst, e.instances[i]? = some inst ∧ ch ∈ inst.sends

/-- No two instances receive on the same channel. -/
def SingleReader (e : Elaboration) : Prop :=
  ∀ i j ch, Receives e i ch → Receives e j ch → i = j

/-- No two instances send on the same channel. -/
def SingleWriter (e : Elaboration) : Prop := ∀ i j ch, Sends e i ch → Sends e j ch → i = j

/-! ### Continuations -/

/-- `InterpreterEventsToStatus`. -/
def InterpreterEvents.toStatus (events : InterpreterEvents) : Result Unit :=
  match events.assertMsgs with
  | [] => .ok ()
  | message :: _ => .error (.status message)

/-- `ProcInterpreterContinuation`. The values are those of the nodes before the index; a
`next_value` has none. Active next values are pairs of a state element and the node of its
new value. -/
structure ProcContinuation where
  nodeIndex : Nat
  state : List Value
  nodeValues : List (Option Value)
  activeNextValues : List (Nat × Nat)
  events : InterpreterEvents

/-- `NewContinuation`. -/
def newContinuation (p : Proc) : ProcContinuation := ⟨0, p.initValues, [], [], ⟨[], []⟩⟩

/-- `AtStartOfTick`. -/
def ProcContinuation.atStartOfTick (c : ProcContinuation) : Bool := c.nodeIndex == 0

abbrev Queue := ChannelQueue (List Value) Value

/-- A continuation and the queues of all channel instances. -/
structure Execution where
  continuation : ProcContinuation
  queues : List Queue

/-! ### Nodes -/

/-- `NodeResult`. -/
inductive NodeResult
  | done
  | blocked (channel : Nat)
  | sent (channel : Nat)
  deriving DecidableEq

/-- `ResolveAsValue`. -/
def resolve (c : ProcContinuation) (id : Nat) : Result Value := derefOption (c.nodeValues[id]?.join)

/-- `ResolveAsBool` and `ResolveAsBits` of a condition. -/
def resolveAsBool (c : ProcContinuation) (id : Nat) : Result Bool := do
  let v ← resolve c id
  let b ← v.bits
  return !b.isZero

/-- The values of the operands. -/
def resolveAll (c : ProcContinuation) : List Nat → Result (List Value)
  | [] => .ok []
  | id :: ids => do
    let v ← resolve c id
    let vs ← resolveAll c ids
    return v :: vs

/-- `SetValueResult`. -/
def setValueResult (n : ProcNode) (c : ProcContinuation) (v : Value) : Result ProcContinuation :=
  if v.Conforms n.type then .ok { c with nodeValues := c.nodeValues ++ [some v] }
  else .error (.status "Expected value to match type of node")

/-- `GetChannelQueue`: the channel instance, its channel and its queue. -/
def getChannelQueue (e : Elaboration) (inst : ProcInstance) (queues : List Queue) (name : Nat) :
    Result (Nat × Channel Value × Queue) :=
  match inst.channelInstance name with
  | none => .error (.status "No channel with this name")
  | some id => do
    let channel ← derefOption e.channels[id]?
    let queue ← derefOption queues[id]?
    return (id, channel, queue)

/-- The predicate operand, if there is one. -/
def predicateHolds (c : ProcContinuation) (predicate : Option Nat) : Result Bool :=
  match predicate with
  | none => .ok true
  | some id => resolveAsBool c id

/-- The value of a receive that got data. -/
def receivedValue (isBlocking : Bool) (v : Value) : Value :=
  if isBlocking then .node [Value.token, v]
  else .node [Value.token, v, .leaf (Bits.ofNat 1 1)]

/-- `HandleReceive`; the operands are the token and the predicate. -/
def handleReceive (e : Elaboration) (inst : ProcInstance) (n : ProcNode) (name : Nat)
    (predicate : Option Nat) (isBlocking : Bool) (x : Execution) :
    Result (NodeResult × Execution) := do
  let (id, channel, queue) ← getChannelQueue e inst x.queues name
  let active ← predicateHolds x.continuation predicate
  if active then do
    let (value, queue) ← queue.read (ChannelQueue.deque channel.kind)
    let queues := x.queues.set id queue
    match value with
    | none =>
      if isBlocking then return (.blocked id, ⟨x.continuation, queues⟩)
      else do
        let c ← setValueResult n x.continuation (Value.zeroOfType n.type)
        return (.done, ⟨c, queues⟩)
    | some v => do
      let c ← setValueResult n x.continuation (receivedValue isBlocking v)
      return (.done, ⟨c, queues⟩)
  else do
    let c ← setValueResult n x.continuation (Value.zeroOfType n.type)
    return (.done, ⟨c, x.queues⟩)

/-- `HandleSend`; the operands are the token, the data and the predicate. -/
def handleSend (e : Elaboration) (inst : ProcInstance) (n : ProcNode) (name data : Nat)
    (predicate : Option Nat) (x : Execution) : Result (NodeResult × Execution) := do
  let (id, channel, queue) ← getChannelQueue e inst x.queues name
  let active ← predicateHolds x.continuation predicate
  if active then do
    let v ← resolve x.continuation data
    let (error, queue) ← queue.write channel (ChannelQueue.deque channel.kind) v
    match error with
    | some message => .error (.status message)
    | none => do
      let c ← setValueResult n x.continuation Value.token
      return (.sent id, ⟨c, x.queues.set id queue⟩)
  else do
    let c ← setValueResult n x.continuation Value.token
    return (.done, ⟨c, x.queues⟩)

/-! ### Calls of functions -/

/-- The arguments of the body in the iterations of a `counted_for` that remain. -/
def countedForCalls (env : Env) (body width stride : Nat) (invariants : List Value) :
    Nat → Nat → Value → List (List Value)
  | 0, _, _ => []
  | trips + 1, iv, state =>
    let args := .leaf (Bits.ofNat width iv) :: state :: invariants
    args :: match env.call body args with
      | .ok next => countedForCalls env body width stride invariants trips (iv + stride) next
      | .error _ => []

/-- The arguments of the body in the iterations of a `dynamic_counted_for`. -/
def dynamicCountedForCalls (env : Env) (body : Nat) (limit stride : Bits)
    (invariants : List Value) : Nat → Bits → Value → List (List Value)
  | 0, _, _ => []
  | fuel + 1, index, state =>
    if index.toInt = limit.toInt then []
    else
      let args := .leaf index :: state :: invariants
      args :: match env.call body args with
        | .ok next =>
          dynamicCountedForCalls env body limit stride invariants fuel (index.add stride) next
        | .error _ => []

/-- The functions that a node calls, with their arguments, in the order of the calls. -/
def callsOf (env : Env) (kind : NodeKind) (operands : List Value) :
    Result (List (Nat × List Value)) :=
  match kind, operands with
  | .invoke toApply, as => .ok [(toApply, as)]
  | .map toApply, [a] => .ok (a.children.map fun v => (toApply, [v]))
  | .countedFor tripCount stride body, state :: invariants => do
    let width ← Interpreter.indexWidth env body
    return (countedForCalls env body width stride invariants tripCount 0 state).map (body, ·)
  | .dynamicCountedFor body, state :: trip :: stride :: invariants => do
    let width ← Interpreter.indexWidth env body
    let t ← trip.bits
    let s ← stride.bits
    let limit := (t.zeroExtend (t.width + 1)).smul s
    return (dynamicCountedForCalls env body limit (s.signExtend width) invariants (2 ^ width + 1)
      (Bits.zero width) state).map (body, ·)
  | _, _ => .ok []

/-- `AddInterpreterEvents`. -/
def InterpreterEvents.add (events added : InterpreterEvents) : InterpreterEvents where
  traceMsgs := events.traceMsgs ++ added.traceMsgs
  assertMsgs := events.assertMsgs ++ added.assertMsgs

/-- The events after calls of functions: each adds those of its run. -/
def addCallEvents (e : Elaboration) (events : InterpreterEvents)
    (calls : List (Nat × List Value)) : InterpreterEvents :=
  calls.foldl (fun events call => events.add (e.callEvents call.1 call.2)) events

/-- Two iterations of a loop are two calls, with the running index and value. -/
example : callsOf ⟨fun _ => [.bits 8, .bits 8], fun _ _ => .ok (.leaf (Bits.ofNat 8 7))⟩
    (.countedFor 2 3 5) [.leaf (Bits.ofNat 8 1)] = .ok
      [(5, [.leaf (Bits.ofNat 8 0), .leaf (Bits.ofNat 8 1)]),
        (5, [.leaf (Bits.ofNat 8 3), .leaf (Bits.ofNat 8 7)])] := rfl

/-! ### Handlers -/

/-- The handlers that do not touch a channel. -/
def handleLocal (e : Elaboration) (n : ProcNode) (c : ProcContinuation) : Result ProcContinuation :=
  match n.op, n.operands with
  | .ir kind, operands => do
    let vs ← resolveAll c operands
    let v ← Interpreter.evalNode e.env c.state kind n.type vs
    let calls ← callsOf e.env kind vs
    setValueResult n { c with events := addCallEvents e c.events calls } v
  | .assert message, [_, condition] => do
    let holds ← resolveAsBool c condition
    let events := if holds then c.events
      else { c.events with assertMsgs := c.events.assertMsgs ++ [message] }
    setValueResult n { c with events := events } Value.token
  | .trace text, _ :: condition :: arguments => do
    let holds ← resolveAsBool c condition
    if holds then do
      let vs ← resolveAll c arguments
      let message ← text vs
      setValueResult n { c with events :=
        { c.events with traceMsgs := c.events.traceMsgs ++ [message] } } Value.token
    else setValueResult n c Value.token
  | .next stateIndex hasPredicate, _ :: value :: rest => do
    let active ← predicateHolds c (if hasPredicate then rest[0]? else none)
    return { c with
      nodeValues := c.nodeValues ++ [none]
      activeNextValues :=
        if active then c.activeNextValues ++ [(stateIndex, value)] else c.activeNextValues }
  | _, _ => .error .check

/-- `ExecuteNode`. -/
def executeNode (e : Elaboration) (inst : ProcInstance) (n : ProcNode) (x : Execution) :
    Result (NodeResult × Execution) :=
  match n.op, n.operands with
  | .receive name hasPredicate isBlocking, _ :: rest =>
    handleReceive e inst n name (if hasPredicate then rest[0]? else none) isBlocking x
  | .send name hasPredicate, _ :: data :: rest =>
    handleSend e inst n name data (if hasPredicate then rest[0]? else none) x
  | .receive .., _ | .send .., _ => .error .check
  | _, _ => do
    let c ← handleLocal e n x.continuation
    return (.done, ⟨c, x.queues⟩)

/-! ### Ticks -/

/-- `TickExecutionState` with the channel instance. -/
inductive TickExecutionState
  | completed
  | blockedOnReceive (channel : Nat)
  | sentOnChannel (channel : Nat)
  deriving DecidableEq

/-- `TickResult`. -/
structure TickResult where
  executionState : TickExecutionState
  progressMade : Bool
  deriving DecidableEq

/-- The value of a state element in the next activation: that of the next-state node, unless
there is an active next value. -/
def nextElement (c : ProcContinuation) (stateIndex nextNode : Nat) : Result Value := do
  let v ← resolve c nextNode
  match c.activeNextValues.filter fun p => p.1 == stateIndex with
  | [] => return v
  | [(_, value)] => resolve c value
  | _ => .error (.status "Multiple active next values for param in a single activation")

/-- The next state, from a state element on. -/
def nextElements (c : ProcContinuation) : Nat → List Nat → Result (List Value)
  | _, [] => .ok []
  | i, node :: nodes => do
    let v ← nextElement c i node
    let vs ← nextElements c (i + 1) nodes
    return v :: vs

/-- The end of an activation: `NextTick`. -/
def complete (p : Proc) (c : ProcContinuation) : Result ProcContinuation := do
  let state ← nextElements c 0 p.nextState
  return ⟨0, state, [], [], c.events⟩

/-- The loop of `Tick` over the nodes that are left. -/
def tickFrom (e : Elaboration) (inst : ProcInstance) (startingIndex : Nat) :
    List ProcNode → Nat → Execution → Result (TickResult × Execution)
  | [], _, x => do
    let c ← complete inst.proc x.continuation
    c.events.toStatus
    return (⟨.completed, true⟩, ⟨c, x.queues⟩)
  | n :: ns, i, x => do
    let (result, x) ← executeNode e inst n x
    match result with
    | .sent channel => do
      x.continuation.events.toStatus
      return (⟨.sentOnChannel channel, i + 1 != startingIndex⟩,
        ⟨{ x.continuation with nodeIndex := i + 1 }, x.queues⟩)
    | .blocked channel => do
      x.continuation.events.toStatus
      return (⟨.blockedOnReceive channel, i != startingIndex⟩,
        ⟨{ x.continuation with nodeIndex := i }, x.queues⟩)
    | .done => tickFrom e inst startingIndex ns (i + 1) x

/-- `Tick`. -/
def tick (e : Elaboration) (inst : ProcInstance) (x : Execution) :
    Result (TickResult × Execution) :=
  let startingIndex := x.continuation.nodeIndex
  tickFrom e inst startingIndex (inst.proc.nodes.drop startingIndex) startingIndex x

/-! ### Networks -/

/-- The continuations of all instances and the queues of all channel instances. -/
structure Network where
  continuations : List ProcContinuation
  queues : List Queue

/-- One call of `Tick` on an instance. -/
def tickInstance (e : Elaboration) (i : Nat) (s : Network) : Result (TickResult × Network) := do
  let inst ← derefOption e.instances[i]?
  let c ← derefOption s.continuations[i]?
  let (result, x) ← tick e inst ⟨c, s.queues⟩
  return (result, ⟨s.continuations.set i x.continuation, x.queues⟩)

end Xls.ProcInterpreter

import Xls.ProcInterpreter

/-!
# Xls.SerialProcRuntime

One tick of a network of procs (`SerialProcRuntime::TickInternal`,
`xls/interpreter/serial_proc_runtime.cc`). Instances wait in a queue; one that blocks on a
channel moves to a map from channels to instances, and a send on the channel moves it back.
-/

namespace Xls.SerialProcRuntime

open ProcInterpreter

/-- The state of the loop of `TickInternal`. -/
structure TickState where
  network : Network
  readyInstances : List Nat
  blockedInstances : List (Nat × Nat)
  progressMade : Bool
  progressMadeOnIoProcs : Bool

/-- `NetworkTickResult`. -/
structure NetworkTickResult where
  progressMade : Bool
  progressMadeOnIoProcs : Bool
  blockedChannelInstances : List Nat

/-- `ProcHasIoOperations`. -/
def procHasIoOperations (p : Proc) : Bool :=
  p.nodes.any fun n => match n.op with
    | .receive .. | .send .. => true
    | _ => false

/-- The instance that the map has for a channel. -/
def lookup (blocked : List (Nat × Nat)) (channel : Nat) : Option Nat :=
  (blocked.find? fun p => p.1 == channel).map Prod.snd

/-- The map without an entry for the channel. -/
def erase (blocked : List (Nat × Nat)) (channel : Nat) : List (Nat × Nat) :=
  blocked.filter fun p => p.1 != channel

/-- `blocked_instances[channel] = instance`. -/
def insert (blocked : List (Nat × Nat)) (channel inst : Nat) : List (Nat × Nat) :=
  (channel, inst) :: erase blocked channel

/-- Where an instance goes after its tick. -/
def dispatch (s : TickState) (i : Nat) : TickExecutionState → TickState
  | .sentOnChannel channel =>
    match lookup s.blockedInstances channel with
    | some woken =>
      { s with
        readyInstances := s.readyInstances ++ [woken, i]
        blockedInstances := erase s.blockedInstances channel }
    | none => { s with readyInstances := s.readyInstances ++ [i] }
  | .blockedOnReceive channel =>
    { s with blockedInstances := insert s.blockedInstances channel i }
  | .completed => s

/-- One iteration, on the instance at the front of the queue; the instance and the result of
its tick come with the new state. -/
def step (e : Elaboration) (s : TickState) : Result (Option (Nat × TickResult × TickState)) :=
  match s.readyInstances with
  | [] => .ok none
  | i :: rest => do
    let inst ← derefOption e.instances[i]?
    let (result, network) ← tickInstance e i s.network
    let c ← derefOption network.continuations[i]?
    c.events.toStatus
    let s' : TickState :=
      ⟨network, rest, s.blockedInstances, s.progressMade || result.progressMade,
        s.progressMadeOnIoProcs || (result.progressMade && procHasIoOperations inst.proc)⟩
    return some (i, result, dispatch s' i result.executionState)

/-- All instances are ready at the start. -/
def start (e : Elaboration) (network : Network) : TickState :=
  ⟨network, List.range e.instances.length, [], false, false⟩

/-- The result of the tick, in the order of the channel instances. -/
def networkTickResult (e : Elaboration) (s : TickState) : NetworkTickResult :=
  ⟨s.progressMade, s.progressMadeOnIoProcs,
    (List.range e.channels.length).filter fun channel => (lookup s.blockedInstances channel).isSome⟩

/-- The loop, with the ticks that were made. Nothing is returned when the fuel runs out. -/
def loop (e : Elaboration) : Nat → TickState → Option (Result (List (Nat × TickResult) × TickState))
  | 0, _ => none
  | fuel + 1, s =>
    match step e s with
    | .error failure => some (.error failure)
    | .ok none => some (.ok ([], s))
    | .ok (some (i, result, s')) =>
      match loop e fuel s' with
      | some (.ok (ticks, s'')) => some (.ok ((i, result) :: ticks, s''))
      | other => other

/-- `TickInternal`: the result and the network after it. -/
def tickInternal (e : Elaboration) (fuel : Nat) (network : Network) :
    Option (Result (NetworkTickResult × Network)) :=
  (loop e fuel (start e network)).map fun r => do
    let (_, s) ← r
    return (networkTickResult e s, s.network)

end Xls.SerialProcRuntime

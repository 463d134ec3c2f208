import Mathlib.Data.List.Chain
import Xls.Status

/-!
# Xls.RegisterChains

Chains of registers that hold one value after the other (`codegen/register_chaining_analysis.h`,
`register_chaining_analysis.cc`), and the groups of stages that are active at the same time
(`codegen/concurrent_stage_groups.h`).

Registers and nodes are addresses. A chain is a list with at least one register.
-/

namespace Xls.RegisterChains

/-- A register write and the node that it writes. -/
structure RegisterWrite where
  id : Nat
  data : Nat
  deriving DecidableEq

/-- `RegisterData`. -/
structure RegisterData where
  reg : Nat
  read : Nat
  readStage : Nat
  write : RegisterWrite
  writeStage : Nat
  deriving DecidableEq

/-- A chain of registers. -/
structure Chain where
  registers : List RegisterData
  ne_nil : registers ≠ []
  deriving DecidableEq

namespace Chain

/-- `front()`. -/
def front (c : Chain) : RegisterData := c.registers.head c.ne_nil

/-- `back()`. -/
def back (c : Chain) : RegisterData := c.registers.getLast c.ne_nil

/-- A chain of one register. -/
def singleton (reg : RegisterData) : Chain := ⟨[reg], List.cons_ne_nil _ _⟩

/-- `push_front`. -/
def pushFront (reg : RegisterData) (c : Chain) : Chain :=
  ⟨reg :: c.registers, List.cons_ne_nil _ _⟩

/-- A chain behind another. -/
def append (c d : Chain) : Chain :=
  ⟨c.registers ++ d.registers, List.append_ne_nil_of_left_ne_nil c.ne_nil _⟩

/-- `push_back`. -/
def pushBack (c : Chain) (reg : RegisterData) : Chain := c.append (singleton reg)

end Chain

/-- `IsChainable`. -/
def isChainable (first next : RegisterData) : Bool :=
  if first.readStage ≠ next.writeStage then false
  else if next.writeStage ≥ next.readStage then false -- a state loopback
  else if next.write.data ≠ first.read then false
  else true

/-- `IsClobbered`. -/
def isClobbered (chainStart chainEnd : RegisterData) : Bool :=
  if chainStart.readStage ≤ chainStart.writeStage then
    decide (chainEnd.writeStage ≥ chainStart.writeStage)
  else false

/-- The chains with the one that was modified last: the chains before it, itself, and the
chains after it. -/
structure Modified where
  before : List Chain
  chain : Chain
  after : List Chain

/-- The loop of `InsertIntoChain` over the chains, some of which were visited. -/
def findChain (reg : RegisterData) : List Chain → List Chain → Option Modified
  | _, [] => none
  | visited, it :: rest =>
    if isChainable reg it.front && !isClobbered reg it.back then
      some ⟨visited, it.pushFront reg, rest⟩
    else if isChainable it.back reg && !isClobbered it.front reg then
      some ⟨visited, it.pushBack reg, rest⟩
    else findChain reg (visited ++ [it]) rest

/-- `InsertIntoChain`. -/
def insertIntoChain (chains : List Chain) (reg : RegisterData) : Modified :=
  (findChain reg [] chains).getD ⟨[], Chain.singleton reg, chains⟩

/-- One chain can be put behind another. -/
def canMerge (c d : Chain) : Bool := isChainable c.back d.front && !isClobbered c.front d.back

/-- The first chain that a chain can be put behind, with it. -/
def mergeBehind (d : Chain) : List Chain → Option (List Chain)
  | [] => none
  | it :: rest =>
    if canMerge it d then some (it.append d :: rest)
    else (mergeBehind d rest).map (it :: ·)

/-- The first chain that can be put behind a chain, which is taken out of the list. -/
def takeBehind (c : Chain) : List Chain → Option (Chain × List Chain)
  | [] => none
  | it :: rest =>
    if canMerge c it then some (it, rest)
    else (takeBehind c rest).map fun (found, rest) => (found, it :: rest)

/-- `ReduceChains`. -/
def reduceChains (m : Modified) (isFrontModified : Bool) : List Chain :=
  if isFrontModified then
    match mergeBehind m.chain m.before with
    | some before => before ++ m.after
    | none =>
      match mergeBehind m.chain m.after with
      | some after => m.before ++ after
      | none => m.before ++ m.chain :: m.after
  else
    match takeBehind m.chain m.before with
    | some (it, before) => before ++ m.chain.append it :: m.after
    | none =>
      match takeBehind m.chain m.after with
      | some (it, after) => m.before ++ m.chain.append it :: after
      | none => m.before ++ m.chain :: m.after

/-- `InsertAndReduce`. -/
def insertAndReduce (chains : List Chain) (data : RegisterData) : List Chain :=
  let m := insertIntoChain chains data
  if m.chain.registers.length = 1 then m.before ++ m.chain :: m.after
  else reduceChains m (m.chain.front = data)

/-- The calls of `InsertAndReduce` in some order. -/
def insertAll (registers : List RegisterData) : List Chain := registers.foldl insertAndReduce []

/-! ### Groups of stages -/

/-- `ConcurrentStageGroups`: a bitmap for every stage. -/
structure ConcurrentStageGroups where
  concurrentStages : List (List Bool)

namespace ConcurrentStageGroups

/-- All stages are active at the same time. -/
def new (numStages : Nat) : ConcurrentStageGroups :=
  ⟨List.replicate numStages (List.replicate numStages true)⟩

/-- `concurrent_stages_[a].Get(b)`, of stages that exist. -/
def get (g : ConcurrentStageGroups) (a b : Nat) : Result Bool := do
  let bitmap ← derefOption g.concurrentStages[a]?
  derefOption bitmap[b]?

/-- `concurrent_stages_[a].Set(b, false)`. -/
def clear (g : ConcurrentStageGroups) (a b : Nat) : ConcurrentStageGroups :=
  ⟨g.concurrentStages.modify a fun bitmap => bitmap.set b false⟩

/-- `MarkMutuallyExclusive`, of stages that exist. -/
def markMutuallyExclusive (g : ConcurrentStageGroups) (a b : Nat) :
    Result ConcurrentStageGroups := do
  checkThat (a ≠ b)
  checkThat (a < g.concurrentStages.length ∧ b < g.concurrentStages.length)
  return (g.clear a b).clear b a

/-- The groups with some pairs of stages marked. -/
def markAll : List (Nat × Nat) → ConcurrentStageGroups → Result ConcurrentStageGroups
  | [], g => .ok g
  | (a, b) :: rest, g => do
    let g ← g.markMutuallyExclusive a b
    markAll rest g

/-- `IsConcurrent`. -/
def isConcurrent (g : ConcurrentStageGroups) (a b : Nat) : Result Bool := do
  let ab ← g.get a b
  let ba ← g.get b a
  checkThat (ab == ba)
  return ab

/-- `IsMutuallyExclusive`. -/
def isMutuallyExclusive (g : ConcurrentStageGroups) (a b : Nat) : Result Bool := do
  let concurrent ← g.isConcurrent a b
  return !concurrent

end ConcurrentStageGroups

/-! ### The runs of a chain -/

variable (groups : ConcurrentStageGroups)

/-- `is_mutex_with_current`. -/
def isMutexWith (cur v : RegisterData) : Result Bool := do
  let reads ← groups.isMutuallyExclusive v.readStage cur.readStage
  if reads then groups.isMutuallyExclusive v.writeStage cur.writeStage else return false

/-- `all_of` over a run. -/
def allMutexWith (cur : RegisterData) : List RegisterData → Result Bool
  | [] => .ok true
  | v :: rest => do
    let mutex ← isMutexWith groups cur v
    if mutex then allMutexWith cur rest else return false

/-- `maybe_remove_singleton`. The runs stand with the last one first. -/
def maybeRemoveSingleton : List (List RegisterData) → List (List RegisterData)
  | [_] :: results => results
  | results => results

/-- Whether a register starts a run of its own. -/
def startsRun (cur : RegisterData) : List (List RegisterData) → Result Bool
  | [] => .ok true
  | last :: _ => do
    let concurrent ← groups.isConcurrent cur.writeStage cur.readStage
    if concurrent then return true
    else do
      let mutex ← allMutexWith groups cur last
      return !mutex

/-- The loop of `SplitOneChain`, with the last run first. -/
def splitLoop : List RegisterData → List (List RegisterData) → Result (List (List RegisterData))
  | [], results => .ok (maybeRemoveSingleton results)
  | cur :: rest, results => do
    let starts ← startsRun groups cur results
    if starts then splitLoop rest ([cur] :: maybeRemoveSingleton results)
    else
      match results with
      | [] => .error .check
      | last :: results => splitLoop rest ((last ++ [cur]) :: results)

/-- `SplitOneChain`. -/
def splitOneChain (chain : Chain) : Result (List (List RegisterData)) := do
  let results ← splitLoop groups chain.registers []
  return results.reverse

/-- `SplitBetweenMutexRegions`. -/
def splitBetweenMutexRegions : List Chain → Result (List (List RegisterData))
  | [] => .ok []
  | chain :: rest => do
    let runs ← splitOneChain groups chain
    let results ← splitBetweenMutexRegions rest
    return runs ++ results

end Xls.RegisterChains

import Mathlib.Data.List.AList
import Xls.TopoSort

/-!
# Xls.PipelineSchedule

The schedule of a function base (`scheduling/pipeline_schedule.cc`): how it is constructed
from a map from nodes to cycles, and how it is written to a proto and read back. The reader
constructs the schedule without a length, so the stages after the last one with a node are
not read back (`proto_roundTrips_iff`).
-/

namespace Xls

open Result List

namespace PipelineSchedule

/-- What schedules read of a function or a proc. -/
structure FunctionBase (V : Type) extends TopoSort.FunctionBase V where
  name : String
  /-- `Node::GetName`. -/
  nodeName : V → String

/-- `ScheduleCycleMap`, whose entries are visited in an order that is not specified. -/
abbrev ScheduleCycleMap (V : Type) := AList fun _ : V => Int

end PipelineSchedule

open PipelineSchedule in
/-- `PipelineSchedule`. -/
structure PipelineSchedule (V : Type) where
  cycleMap : ScheduleCycleMap V
  cycleToNodes : List (List V)

namespace PipelineSchedule

variable {V : Type}

/-- `MaximumCycle`. -/
def maximumCycle (cycleMap : ScheduleCycleMap V) : Int :=
  cycleMap.entries.foldl (fun maxCycle pair => max maxCycle pair.2) 0

/-- The loop that puts the nodes into `cycle_to_nodes_`. A negative cycle is no index. -/
def placeNodes : List (Sigma fun _ : V => Int) → List (List V) → Result (List (List V))
  | [], cycleToNodes => .ok cycleToNodes
  | ⟨node, cycle⟩ :: rest, cycleToNodes => do
    checkThat (decide (0 ≤ cycle) && decide (cycle.toNat < cycleToNodes.length))
    placeNodes rest (cycleToNodes.modify cycle.toNat (· ++ [node]))

variable [DecidableEq V]

/-- Sorts nodes by their index in the topological order. -/
def sortNodes (order : List V) (nodes : List V) : List V :=
  nodes.insertionSort fun a b => order.idxOf a ≤ order.idxOf b

/-- The last cycle of the schedule: the latest cycle of a node, or that of the given length. -/
def lastCycle (cycleMap : ScheduleCycleMap V) : Option Int → Result Int
  | none => .ok (maximumCycle cycleMap)
  | some length => do
    checkThat (decide (maximumCycle cycleMap < length))
    return length - 1

/-- The constructor. -/
def construct (f : FunctionBase V) (cycleMap : ScheduleCycleMap V) (length : Option Int) :
    Result (PipelineSchedule V) := do
  let maxCycle ← lastCycle cycleMap length
  let cycleToNodes ← placeNodes cycleMap.entries (replicate (maxCycle + 1).toNat [])
  let order ← TopoSort.topoSort f.toFunctionBase
  return ⟨cycleMap, cycleToNodes.map (sortNodes order)⟩

/-- `cycle`. -/
def cycle (s : PipelineSchedule V) (node : V) : Result Int := derefOption (s.cycleMap.lookup node)

omit [DecidableEq V] in
/-- `length`. -/
def length (s : PipelineSchedule V) : Nat := s.cycleToNodes.length

/-- `nodes_in_cycle`. -/
def nodesInCycle (s : PipelineSchedule V) (cycle : Nat) : List V := s.cycleToNodes.getD cycle []

/-! ### Protos -/

/-- `TimedNodeProto`. -/
structure TimedNodeProto where
  node : String
  nodeDelayPs : Int
  pathDelayPs : Int

/-- `StageProto`. -/
structure StageProto where
  stage : Int
  timedNodes : List TimedNodeProto

/-- `PipelineScheduleProto`. -/
structure PipelineScheduleProto where
  function : String
  stages : List StageProto

/-- `node_delays` and `node_path_delays`. -/
structure Delays (V : Type) where
  node : V → Option Int
  path : V → Option Int

/-- The loop over the operands of a node, with `delay_to_node_start`. -/
def delayToNodeStart (s : PipelineSchedule V) (delays : Delays V) (node : V) :
    List V → Int → Result Int
  | [], start => .ok start
  | operand :: rest, start => do
    let operandCycle ← s.cycle operand
    let nodeCycle ← s.cycle node
    if operandCycle = nodeCycle then
      let path ← derefOption (delays.path operand)
      delayToNodeStart s delays node rest (if start < path then path else start)
    else delayToNodeStart s delays node rest start

/-- The loop that computes the delays of nodes and paths. -/
def computeDelays (f : FunctionBase V) (delayInPs : V → Result Int) (s : PipelineSchedule V) :
    List V → Delays V → Result (Delays V)
  | [], delays => .ok delays
  | node :: rest, delays => do
    let start ← delayToNodeStart s delays node (f.operands node) 0
    let nodeDelay ← delayInPs node
    computeDelays f delayInPs s rest ⟨Function.update delays.node node (some nodeDelay),
      Function.update delays.path node (some (start + nodeDelay))⟩

/-- An `int32_t` field. -/
def toInt32 (n : Int) : Int := Int.bmod n (2 ^ 32)

/-- The stages of the proto, from a number on. -/
def stageProtos (f : FunctionBase V) (delays : Delays V) : Nat → List (List V) → List StageProto
  | _, [] => []
  | i, nodes :: rest =>
    ⟨toInt32 i, nodes.map fun node => ⟨f.nodeName node, (delays.node node).getD 0,
      (delays.path node).getD 0⟩⟩ :: stageProtos f delays (i + 1) rest

/-- `ToProto`. -/
def toProto (f : FunctionBase V) (delayInPs : V → Result Int) (s : PipelineSchedule V) :
    Result PipelineScheduleProto := do
  let order ← TopoSort.topoSort f.toFunctionBase
  let delays ← computeDelays f delayInPs s order ⟨fun _ => none, fun _ => none⟩
  return ⟨f.name, stageProtos f delays 0 s.cycleToNodes⟩

/-- `FunctionBase::GetNode`. -/
def getNode (f : FunctionBase V) (name : String) : Result V :=
  match f.nodes.find? fun node => f.nodeName node = name with
  | some node => .ok node
  | none => .error (.status s!"GetNode({name}) failed.")

/-- The loop over the nodes of a stage. -/
def readNodes (f : FunctionBase V) (stage : Int) :
    List TimedNodeProto → ScheduleCycleMap V → Result (ScheduleCycleMap V)
  | [], cycleMap => .ok cycleMap
  | timedNode :: rest, cycleMap => do
    let node ← getNode f timedNode.node
    readNodes f stage rest (cycleMap.insert node stage)

/-- The loop over the stages. -/
def readStages (f : FunctionBase V) :
    List StageProto → ScheduleCycleMap V → Result (ScheduleCycleMap V)
  | [], cycleMap => .ok cycleMap
  | stage :: rest, cycleMap => do
    let cycleMap ← readNodes f stage.stage stage.timedNodes cycleMap
    readStages f rest cycleMap

/-- `FromProto`. The schedules of the package are found by the names of their functions. -/
def fromProto (f : FunctionBase V) (schedules : AList fun _ : String => PipelineScheduleProto) :
    Result (PipelineSchedule V) :=
  match schedules.lookup f.name with
  | none => .error (.status "Function does not have a schedule.")
  | some proto => do
    let cycleMap ← readStages f proto.stages ∅
    construct f cycleMap none

/-! ### The schedule that is constructed -/

/-- A function base whose nodes are distinct, refer to its own nodes without cycles, and have
names of their own. -/
structure FunctionBase.Valid (f : FunctionBase V) : Prop where
  nodup : f.nodes.Nodup
  closed : ∀ n ∈ f.nodes, ∀ o ∈ f.operands n, o ∈ f.nodes
  acyclic : ∀ n, ¬Relation.TransGen f.Uses n n
  names : ∀ n ∈ f.nodes, ∀ m ∈ f.nodes, f.nodeName n = f.nodeName m → n = m

variable {f : FunctionBase V} {cycleMap : ScheduleCycleMap V} {s : PipelineSchedule V}
  {order : List V}

omit [DecidableEq V] in
/-- The fold finds the maximum of the start and all cycles. -/
theorem foldl_max_spec (entries : List (Sigma fun _ : V => Int)) (start : Int) :
    start ≤ entries.foldl (fun maxCycle pair => max maxCycle pair.2) start ∧
      (∀ pair ∈ entries, pair.2 ≤ entries.foldl (fun maxCycle pair => max maxCycle pair.2) start) ∧
      (entries.foldl (fun maxCycle pair => max maxCycle pair.2) start = start ∨
        ∃ pair ∈ entries, pair.2 =
          entries.foldl (fun maxCycle pair => max maxCycle pair.2) start) := by
  induction entries generalizing start with
  | nil => simp
  | cons pair entries ih =>
    obtain ⟨hstart, hall, hattained⟩ := ih (max start pair.2)
    rw [foldl_cons]
    refine ⟨(le_max_left _ _).trans hstart, fun pair' hpair => ?_, ?_⟩
    · rcases mem_cons.mp hpair with rfl | hpair
      · exact (le_max_right _ _).trans hstart
      · exact hall pair' hpair
    · rcases hattained with heq | ⟨pair', hpair, heq⟩
      · rcases max_choice start pair.2 with hmax | hmax
        · exact .inl (heq.trans hmax)
        · exact .inr ⟨pair, mem_cons_self, (heq.trans hmax).symm⟩
      · exact .inr ⟨pair', mem_cons_of_mem pair hpair, heq⟩

/-- The latest cycle of a node, or zero. -/
theorem maximumCycle_spec (cycleMap : ScheduleCycleMap V) :
    0 ≤ maximumCycle cycleMap ∧ (∀ n c, cycleMap.lookup n = some c → c ≤ maximumCycle cycleMap) ∧
      (maximumCycle cycleMap = 0 ∨ ∃ n, cycleMap.lookup n = some (maximumCycle cycleMap)) := by
  obtain ⟨hstart, hall, hattained⟩ := foldl_max_spec cycleMap.entries 0
  refine ⟨hstart, fun n c h => hall ⟨n, c⟩ (AList.mem_lookup_iff.mp h), hattained.imp_right ?_⟩
  intro h
  obtain ⟨⟨n, c⟩, hmem, hc⟩ := h
  exact ⟨n, AList.mem_lookup_iff.mpr (by rw [maximumCycle, ← hc]; exact hmem)⟩

omit [DecidableEq V] in
/-- The nodes that are put into the vectors of their cycles. -/
theorem placeNodes_eq_ok {entries : List (Sigma fun _ : V => Int)}
    {cycleToNodes placed : List (List V)} :
    placeNodes entries cycleToNodes = .ok placed ↔
      (∀ pair ∈ entries, 0 ≤ pair.2 ∧ pair.2.toNat < cycleToNodes.length) ∧
      placed = cycleToNodes.mapIdx fun i nodes =>
        nodes ++ (entries.filter fun pair => pair.2.toNat = i).map Sigma.fst := by
  induction entries generalizing cycleToNodes with
  | nil =>
    have hid : (cycleToNodes.mapIdx fun i nodes => nodes ++ ([] : List V)) = cycleToNodes := by
      refine ext_getElem? fun i => ?_
      simp
    simp only [placeNodes, filter_nil, map_nil, hid]
    exact ⟨fun h => by cases h; simp, fun h => by rw [h.2]⟩
  | cons pair entries ih =>
    obtain ⟨node, cycle⟩ := pair
    rw [placeNodes, Result.bind_eq_ok]
    have hplace : ((cycleToNodes.modify cycle.toNat (· ++ [node])).mapIdx fun i nodes =>
        nodes ++ (entries.filter fun pair => pair.2.toNat = i).map Sigma.fst) =
        cycleToNodes.mapIdx fun i nodes => nodes ++
          ((⟨node, cycle⟩ :: entries).filter fun pair => pair.2.toNat = i).map Sigma.fst := by
      refine ext_getElem? fun i => ?_
      by_cases hi : cycle.toNat = i
      · simp [hi, Function.comp_def]
      · simp [hi]
    simp only [checkThat_eq_ok, Bool.and_eq_true, decide_eq_true_eq, ih, forall_mem_cons,
      length_modify, hplace]
    constructor
    · intro h
      obtain ⟨-, hhead, hrest, hplaced⟩ := h
      exact ⟨⟨hhead, hrest⟩, hplaced⟩
    · exact fun h => ⟨(), h.1.1, h.1.2, h.2⟩

/-- Sorting puts nodes into the order of the function. -/
theorem sortNodes_eq {nodes : List V} (horder : order.Nodup) (hnodes : nodes.Nodup)
    (hsub : ∀ n ∈ nodes, n ∈ order) : sortNodes order nodes = order.filter (· ∈ nodes) := by
  have hperm : (sortNodes order nodes).Perm (order.filter (· ∈ nodes)) := by
    refine (perm_insertionSort _ _).trans ?_
    refine (perm_ext_iff_of_nodup hnodes (horder.filter _)).mpr fun n => ?_
    rw [mem_filter, decide_eq_true_eq]
    exact ⟨fun h => ⟨hsub n h, h⟩, And.right⟩
  have hsorted : (sortNodes order nodes).Pairwise fun a b => order.idxOf a ≤ order.idxOf b := by
    have : Std.Total fun a b : V => order.idxOf a ≤ order.idxOf b := ⟨fun a b => Nat.le_total _ _⟩
    have : IsTrans V fun a b => order.idxOf a ≤ order.idxOf b := ⟨fun a b c => Nat.le_trans⟩
    exact pairwise_insertionSort _ nodes
  have hindex : order.Pairwise fun a b => order.idxOf a ≤ order.idxOf b := by
    refine pairwise_iff_getElem.mpr fun i j hi hj hij => ?_
    rw [horder.idxOf_getElem i hi, horder.idxOf_getElem j hj]
    exact hij.le
  refine hperm.eq_of_pairwise (fun a b ha hb hab hba => ?_) hsorted (hindex.filter _)
  have ha : a ∈ order := (mem_filter.mp (hperm.mem_iff.mp ha)).1
  exact (idxOf_inj ha).mp (Nat.le_antisymm hab hba)

/-- The nodes of every cycle, in the order of the function. -/
def stages (order : List V) (cycleMap : ScheduleCycleMap V) (length : Nat) : List (List V) :=
  (range length).map fun (i : Nat) => order.filter fun n => cycleMap.lookup n = some (i : Int)

omit [DecidableEq V] in
/-- The last cycle is at least the maximum of the cycle map. -/
theorem maximumCycle_le_lastCycle {length : Option Int} {maxCycle : Int}
    (h : lastCycle cycleMap length = .ok maxCycle) : maximumCycle cycleMap ≤ maxCycle := by
  cases length with
  | none =>
    cases h
    exact le_refl _
  | some length =>
    obtain ⟨_, hcheck, h⟩ := Result.bind_eq_ok.mp h
    cases h
    have : maximumCycle cycleMap < length := of_decide_eq_true (checkThat_eq_ok.mp hcheck)
    omega

/-- The vectors of the constructor, sorted. -/
theorem map_sortNodes (horder : order.Nodup) (hkeys : ∀ n, n ∈ cycleMap → n ∈ order)
    (hnonneg : ∀ n c, cycleMap.lookup n = some c → 0 ≤ c) (length : Nat) :
    (((replicate length []).mapIdx fun i (nodes : List V) => nodes ++
      (cycleMap.entries.filter fun pair => pair.2.toNat = i).map Sigma.fst).map
        (sortNodes order)) = stages order cycleMap length := by
  refine ext_getElem (by simp [stages]) fun i hi hi' => ?_
  have hnodup : ((cycleMap.entries.filter fun pair => pair.2.toNat = i).map Sigma.fst).Nodup :=
    cycleMap.nodupKeys.sublist filter_sublist
  have hmem : ∀ n, n ∈ (cycleMap.entries.filter fun pair => pair.2.toNat = i).map Sigma.fst ↔
      cycleMap.lookup n = some (i : Int) := by
    intro n
    rw [mem_map]
    constructor
    · intro h
      obtain ⟨⟨m, c⟩, hpair, rfl⟩ := h
      obtain ⟨hpair, hc⟩ := mem_filter.mp hpair
      have hlookup : cycleMap.lookup m = some c := AList.mem_lookup_iff.mpr hpair
      have := hnonneg m c hlookup
      rw [hlookup, Option.some.injEq]
      have := of_decide_eq_true hc
      simp only at this
      omega
    · exact fun h => ⟨⟨n, i⟩, mem_filter.mpr ⟨AList.mem_lookup_iff.mp h, by simp⟩, rfl⟩
  have hsub : ∀ n ∈ (cycleMap.entries.filter fun pair => pair.2.toNat = i).map Sigma.fst,
      n ∈ order := fun n hn => hkeys n (AList.lookup_isSome.mp (by rw [(hmem n).mp hn]; rfl))
  simp only [getElem_map, getElem_mapIdx, getElem_replicate, nil_append, stages, getElem_range]
  rw [sortNodes_eq horder hnodup hsub]
  exact filter_congr fun n _ => by rw [decide_eq_decide, hmem]

/-- What the constructor returns. -/
theorem construct_eq_ok (htopo : TopoSort.topoSort f.toFunctionBase = .ok order)
    (horder : order.Nodup) (hkeys : ∀ n, n ∈ cycleMap → n ∈ order) {length : Option Int} :
    construct f cycleMap length = .ok s ↔ (∀ n c, cycleMap.lookup n = some c → 0 ≤ c) ∧ ∃ maxCycle,
        lastCycle cycleMap length = .ok maxCycle ∧
        s = ⟨cycleMap, stages order cycleMap (maxCycle + 1).toNat⟩ := by
  simp only [construct, Result.bind_eq_ok, placeNodes_eq_ok, htopo, Except.ok.injEq,
    exists_eq_left', pure_eq_ok]
  constructor
  · intro h
    obtain ⟨maxCycle, hlast, placed, ⟨hrange, rfl⟩, rfl⟩ := h
    have hnonneg : ∀ n c, cycleMap.lookup n = some c → 0 ≤ c :=
      fun n c h => (hrange ⟨n, c⟩ (AList.mem_lookup_iff.mp h)).1
    exact ⟨hnonneg, maxCycle, hlast, by rw [map_sortNodes horder hkeys hnonneg]⟩
  · intro h
    obtain ⟨hnonneg, maxCycle, hlast, rfl⟩ := h
    refine ⟨maxCycle, hlast, _, ⟨fun pair hpair => ?_, rfl⟩, ?_⟩
    · have hlookup : cycleMap.lookup pair.1 = some pair.2 := AList.mem_lookup_iff.mpr hpair
      have hpos := hnonneg _ _ hlookup
      have hle := (maximumCycle_spec cycleMap).2.1 _ _ hlookup
      have hlast := maximumCycle_le_lastCycle hlast
      rw [length_replicate]
      omega
    · rw [map_sortNodes horder hkeys hnonneg]

/-! ### The delays are computed -/

/-- Delays are summed over operands that have a cycle and a path. -/
theorem delayToNodeStart_ok (delays : Delays V) {node : V} (hnode : ∃ c, s.cycle node = .ok c)
    (operands : List V) (hoperands : ∀ o ∈ operands, (∃ c, s.cycle o = .ok c) ∧
      ∃ path, delays.path o = some path) (start : Int) :
    ∃ start', delayToNodeStart s delays node operands start = .ok start' := by
  induction operands generalizing start with
  | nil => exact ⟨start, rfl⟩
  | cons o rest ih =>
    obtain ⟨⟨c, hc⟩, path, hpath⟩ := hoperands o mem_cons_self
    obtain ⟨c', hc'⟩ := hnode
    have hrest := fun start => ih (fun o ho => hoperands o (mem_cons_of_mem _ ho)) start
    rw [delayToNodeStart, hc, hc']
    simp only [ok_bind, hpath, derefOption]
    split
    · exact hrest _
    · exact hrest _

/-- Operands come before their users in the order, so their delays are known. -/
theorem computeDelays_ok (delayInPs : V → Result Int) (rest : List V) (delays : Delays V)
    (hcycle : ∀ n ∈ rest, (∃ c, s.cycle n = .ok c) ∧ ∀ o ∈ f.operands n, ∃ c, s.cycle o = .ok c)
    (hdelay : ∀ n ∈ rest, ∃ delay, delayInPs n = .ok delay)
    (hsorted : rest.Pairwise fun a b => b ∉ f.operands a) (hself : ∀ n ∈ rest, n ∉ f.operands n)
    (hknown : ∀ n ∈ rest, ∀ o ∈ f.operands n, o ∈ rest ∨ ∃ path, delays.path o = some path) :
    ∃ delays', computeDelays f delayInPs s rest delays = .ok delays' := by
  induction rest generalizing delays with
  | nil => exact ⟨delays, rfl⟩
  | cons n rest ih =>
    obtain ⟨hlater, hsorted⟩ := pairwise_cons.mp hsorted
    obtain ⟨hcn, hco⟩ := hcycle n mem_cons_self
    have hpaths : ∀ o ∈ f.operands n, ∃ path, delays.path o = some path := by
      intro o ho
      refine (hknown n mem_cons_self o ho).resolve_left fun hmem => ?_
      rcases mem_cons.mp hmem with rfl | hmem
      · exact hself o mem_cons_self ho
      · exact hlater o hmem ho
    obtain ⟨start, hstart⟩ := delayToNodeStart_ok delays hcn (f.operands n)
      (fun o ho => ⟨hco o ho, hpaths o ho⟩) 0
    obtain ⟨delay, hd⟩ := hdelay n mem_cons_self
    rw [computeDelays, hstart, ok_bind, hd, ok_bind]
    refine ih _ (fun m hm => hcycle m (mem_cons_of_mem n hm))
      (fun m hm => hdelay m (mem_cons_of_mem n hm)) hsorted
      (fun m hm => hself m (mem_cons_of_mem n hm)) fun m hm o ho => ?_
    by_cases hon : o = n
    · subst hon
      exact .inr ⟨_, Function.update_self ..⟩
    · rcases hknown m (mem_cons_of_mem n hm) o ho with hmem | ⟨path, hpath⟩
      · exact .inl ((mem_cons.mp hmem).resolve_left hon)
      · exact .inr ⟨path, (Function.update_of_ne hon _ _).trans hpath⟩

/-- Printing succeeds for a valid function with cycles and delays for all nodes. -/
theorem toProto_ok {delayInPs : V → Result Int} (hf : f.Valid)
    (htopo : TopoSort.topoSort f.toFunctionBase = .ok order) (hperm : order.Perm f.nodes)
    (hsorted : order.Pairwise fun a b => b ∉ f.operands a)
    (hcycle : ∀ n ∈ f.nodes, ∃ c, s.cycle n = .ok c)
    (hdelay : ∀ n ∈ f.nodes, ∃ delay, delayInPs n = .ok delay) :
    ∃ delays, toProto f delayInPs s = .ok ⟨f.name, stageProtos f delays 0 s.cycleToNodes⟩ := by
  have hmem : ∀ n, n ∈ order ↔ n ∈ f.nodes := fun n => hperm.mem_iff
  obtain ⟨delays, hdelays⟩ := computeDelays_ok (f := f) (s := s) delayInPs order
    ⟨fun _ => none, fun _ => none⟩
    (fun n hn => ⟨hcycle n ((hmem n).mp hn),
      fun o ho => hcycle o (hf.closed n ((hmem n).mp hn) o ho)⟩)
    (fun n hn => hdelay n ((hmem n).mp hn)) hsorted
    (fun n hn ho => hf.acyclic n (.single ⟨(hmem n).mp hn, ho⟩))
    (fun n hn o ho => .inl ((hmem o).mpr (hf.closed n ((hmem n).mp hn) o ho)))
  exact ⟨delays, by rw [toProto, htopo, ok_bind, hdelays]; rfl⟩

/-! ### The cycles that are read -/

omit [DecidableEq V] in
theorem getNode_nodeName (hf : f.Valid) {n : V} (hn : n ∈ f.nodes) :
    getNode f (f.nodeName n) = .ok n := by
  rw [getNode]
  cases hfind : f.nodes.find? fun node => f.nodeName node = f.nodeName n with
  | none => exact absurd (find?_eq_none.mp hfind n hn) (by simp)
  | some m =>
    have hname : f.nodeName m = f.nodeName n := by simpa using find?_some hfind
    simp only [hf.names m (mem_of_find?_eq_some hfind) n hn hname]

/-- Reading a stage gives its nodes the cycle of the stage and leaves the others. -/
theorem readNodes_spec (hf : f.Valid) (stage : Int) (delays : Delays V) (nodes : List V)
    (hnodes : ∀ n ∈ nodes, n ∈ f.nodes) (cycleMap : ScheduleCycleMap V) :
    ∃ cycleMap', readNodes f stage (nodes.map fun node => ⟨f.nodeName node,
        (delays.node node).getD 0, (delays.path node).getD 0⟩) cycleMap = .ok cycleMap' ∧
      ∀ n, cycleMap'.lookup n = if n ∈ nodes then some stage else cycleMap.lookup n := by
  induction nodes generalizing cycleMap with
  | nil => exact ⟨cycleMap, rfl, by simp⟩
  | cons node rest ih =>
    obtain ⟨cycleMap', hrun, hlookup⟩ :=
      ih (fun n hn => hnodes n (mem_cons_of_mem node hn)) (cycleMap.insert node stage)
    refine ⟨cycleMap', ?_, fun n => ?_⟩
    · rw [map_cons, readNodes, getNode_nodeName hf (hnodes node mem_cons_self)]
      exact hrun
    · rw [hlookup]
      by_cases hn : n = node
      · subst hn
        simp
      · simp [hn, AList.lookup_insert_ne hn]

/-- The nodes of a stage are read with the number of the stage. -/
theorem readStages_spec (hf : f.Valid) (delays : Delays V) (cycleOf : V → Option Int)
    (bins : List (List V)) (i : Nat) (hbins : ∀ bin ∈ bins, ∀ n ∈ bin, n ∈ f.nodes)
    (hcycle : ∀ k bin, bins[k]? = some bin → ∀ n ∈ bin, cycleOf n = some ((i + k : Nat) : Int))
    (cycleMap : ScheduleCycleMap V) :
    ∃ cycleMap', readStages f (stageProtos f delays i bins) cycleMap = .ok cycleMap' ∧
      ∀ n, cycleMap'.lookup n =
        if ∃ bin ∈ bins, n ∈ bin then (cycleOf n).map toInt32 else cycleMap.lookup n := by
  induction bins generalizing i cycleMap with
  | nil => exact ⟨cycleMap, rfl, by simp⟩
  | cons bin rest ih =>
    rw [forall_mem_cons] at hbins
    obtain ⟨cycleMap₁, hrun₁, hlookup₁⟩ :=
      readNodes_spec hf (toInt32 i) delays bin hbins.1 cycleMap
    obtain ⟨cycleMap', hrun, hlookup⟩ := ih (i + 1) hbins.2 (fun k bin' hk n hn => by
      rw [hcycle (k + 1) bin' hk n hn]
      congr 2
      omega) cycleMap₁
    refine ⟨cycleMap', ?_, fun n => ?_⟩
    · rw [stageProtos, readStages, hrun₁]
      exact hrun
    · rw [hlookup, hlookup₁]
      by_cases hrest : ∃ bin' ∈ rest, n ∈ bin'
      · have : ∃ bin' ∈ bin :: rest, n ∈ bin' := by
          obtain ⟨bin', hbin', hn⟩ := hrest
          exact ⟨bin', mem_cons_of_mem bin hbin', hn⟩
        rw [if_pos hrest, if_pos this]
      · rw [if_neg hrest]
        by_cases hbin : n ∈ bin
        · rw [if_pos hbin, if_pos ⟨bin, mem_cons_self, hbin⟩, hcycle 0 bin rfl n hbin]
          rfl
        · have : ¬∃ bin' ∈ bin :: rest, n ∈ bin' := by
            rw [exists_mem_cons_iff]
            exact not_or.mpr ⟨hbin, hrest⟩
          rw [if_neg hbin, if_neg this]

/-! ### The round trip -/

/-- What is read back from the proto of a schedule is the schedule. -/
def RoundTrips (f : FunctionBase V) (delayInPs : V → Result Int) (s : PipelineSchedule V) : Prop :=
  ∃ proto s', toProto f delayInPs s = .ok proto ∧
    fromProto f (AList.singleton proto.function proto) = .ok s' ∧
    (∀ n ∈ f.nodes, s'.cycle n = s.cycle n) ∧
    (∀ c, s'.nodesInCycle c = s.nodesInCycle c) ∧ s'.length = s.length

theorem toInt32_of_lt {c : Nat} (h : c < 2 ^ 31) : toInt32 c = c :=
  Int.bmod_eq_of_le (by omega) (by omega)

theorem toInt32_lt (n : Int) : toInt32 n < 2 ^ 31 := by
  have := Int.bmod_lt (x := n) (m := 2 ^ 32) (by decide)
  rw [toInt32]
  omega

theorem cycle_eq_ok {n : V} {c : Int} : s.cycle n = .ok c ↔ s.cycleMap.lookup n = some c := by
  rw [cycle, derefOption_eq_ok]

theorem mem_stages {length : Nat} {n : V} :
    (∃ bin ∈ stages order cycleMap length, n ∈ bin) ↔
      n ∈ order ∧ ∃ i < length, cycleMap.lookup n = some ((i : Nat) : Int) := by
  simp only [stages, mem_map, mem_range, exists_exists_and_eq_and, mem_filter, decide_eq_true_eq]
  constructor
  · intro h
    obtain ⟨i, hi, hn, hlookup⟩ := h
    exact ⟨hn, i, hi, hlookup⟩
  · intro h
    obtain ⟨hn, i, hi, hlookup⟩ := h
    exact ⟨i, hi, hn, hlookup⟩

/-- What is read back: every node in the cycle of the number of its stage. -/
theorem fromProto_eq_ok (hf : f.Valid) (htopo : TopoSort.topoSort f.toFunctionBase = .ok order)
    (hperm : order.Perm f.nodes) {length : Nat} (delays : Delays V)
    (hkeys : ∀ n c, cycleMap.lookup n = some c →
      n ∈ f.nodes ∧ ∃ i < length, c = ((i : Nat) : Int)) :
    ∃ read : ScheduleCycleMap V, (∀ n, read.lookup n = (cycleMap.lookup n).map toInt32) ∧
      ∀ s', fromProto f (AList.singleton f.name ⟨f.name, stageProtos f delays 0
          (stages order cycleMap length)⟩) = .ok s' ↔ (∀ n c, read.lookup n = some c → 0 ≤ c) ∧
          s' = ⟨read, stages order read (maximumCycle read + 1).toNat⟩ := by
  obtain ⟨read, hrun, hlookup⟩ := readStages_spec hf delays (fun n => cycleMap.lookup n)
    (stages order cycleMap length) 0
    (fun bin hbin n hn => hperm.mem_iff.mp (mem_stages.mp ⟨bin, hbin, hn⟩).1)
    (fun k bin hk n hn => by
      obtain ⟨hlt, rfl⟩ := List.getElem?_eq_some_iff.mp hk
      simp only [stages, getElem_map, getElem_range, mem_filter, decide_eq_true_eq] at hn
      rw [hn.2, Nat.zero_add]) ∅
  have hread : ∀ n, read.lookup n = (cycleMap.lookup n).map toInt32 := by
    intro n
    rw [hlookup]
    split
    · rfl
    · rename_i hnot
      cases hn : cycleMap.lookup n with
      | none => rfl
      | some c =>
        obtain ⟨hnode, i, hi, rfl⟩ := hkeys n c hn
        exact absurd (mem_stages.mpr ⟨hperm.mem_iff.mpr hnode, i, hi, hn⟩) hnot
  refine ⟨read, hread, fun s' => ?_⟩
  have hmem : ∀ n, n ∈ read → n ∈ order := by
    intro n hn
    obtain ⟨c, hc⟩ := Option.isSome_iff_exists.mp (AList.lookup_isSome.mpr hn)
    rw [hread, Option.map_eq_some_iff] at hc
    obtain ⟨c', hc', -⟩ := hc
    exact hperm.mem_iff.mpr (hkeys n c' hc').1
  have hnodup : order.Nodup := hperm.nodup_iff.mpr hf.nodup
  have hfind : ∀ proto : PipelineScheduleProto,
      (AList.singleton f.name proto : AList fun _ : String => PipelineScheduleProto).lookup f.name =
        some proto := fun proto => dlookup_cons_eq ..
  rw [fromProto, hfind]
  simp only [hrun, ok_bind]
  rw [construct_eq_ok htopo hnodup hmem]
  simp [lastCycle]

variable {read : ScheduleCycleMap V}

/-- The cycles that are read are those of the schedule when its stages are numbered by an
`int32_t`. -/
theorem lookup_read {length : Nat}
    (hcover : ∀ n c, cycleMap.lookup n = some c → ∃ i < length, c = ((i : Nat) : Int))
    (hread : ∀ n, read.lookup n = (cycleMap.lookup n).map toInt32) (hlength : length ≤ 2 ^ 31)
    (n : V) : read.lookup n = cycleMap.lookup n := by
  rw [hread]
  cases hn : cycleMap.lookup n with
  | none => rfl
  | some c =>
    obtain ⟨i, hi, rfl⟩ := hcover n c hn
    rw [Option.map_some, toInt32_of_lt (by omega)]

/-- As many stages are read as the schedule has exactly if they are numbered by an `int32_t`
and the last one, unless it is the only one, has a node. -/
theorem maximumCycle_read_iff {length : Nat} (hpos : 0 < length)
    (hcover : ∀ n c, cycleMap.lookup n = some c → ∃ i < length, c = ((i : Nat) : Int))
    (hread : ∀ n, read.lookup n = (cycleMap.lookup n).map toInt32) :
    (maximumCycle read + 1).toNat = length ↔
      length ≤ 2 ^ 31 ∧ (length = 1 ∨ ∃ n, cycleMap.lookup n = some ((length : Int) - 1)) := by
  obtain ⟨hzero, hle, hattained⟩ := maximumCycle_spec read
  constructor
  · intro h
    have hfits : length ≤ 2 ^ 31 := by
      rcases hattained with h0 | ⟨n, hn⟩
      · omega
      · rw [hread, Option.map_eq_some_iff] at hn
        obtain ⟨c, -, hc⟩ := hn
        have := toInt32_lt c
        omega
    refine ⟨hfits, hattained.imp (fun h0 => by omega) fun h => ?_⟩
    obtain ⟨n, hn⟩ := h
    rw [lookup_read hcover hread hfits] at hn
    refine ⟨n, hn.trans (congrArg some ?_)⟩
    omega
  · intro h
    obtain ⟨hfits, hused⟩ := h
    have hsame := lookup_read hcover hread hfits
    have hlt : maximumCycle read < length := by
      rcases hattained with h0 | ⟨n, hn⟩
      · omega
      · rw [hsame] at hn
        obtain ⟨i, hi, hc⟩ := hcover n _ hn
        omega
    rcases hused with h1 | ⟨n, hn⟩
    · omega
    · have := hle n _ ((hsame n).trans hn)
      omega

/-- A schedule round-trips exactly if its stages are numbered by an `int32_t` and the last
stage, unless it is the only one, has a node. -/
theorem proto_roundTrips_iff (hf : f.Valid) {delayInPs : V → Result Int}
    (hdelay : ∀ n ∈ f.nodes, ∃ delay, delayInPs n = .ok delay)
    (hkeys : ∀ n, n ∈ cycleMap ↔ n ∈ f.nodes) {length : Option Int}
    (hs : construct f cycleMap length = .ok s) :
    RoundTrips f delayInPs s ↔ s.length ≤ 2 ^ 31 ∧
      (s.length = 1 ∨ ∃ n ∈ f.nodes, s.cycle n = .ok ((s.length : Int) - 1)) := by
  obtain ⟨order, htopo, hperm, hsorted⟩ := TopoSort.topoSort_ok hf.nodup hf.closed hf.acyclic
  obtain ⟨hnonneg, maxCycle, hlast, rfl⟩ := (construct_eq_ok htopo
    (hperm.nodup_iff.mpr hf.nodup) fun n hn => hperm.mem_iff.mpr ((hkeys n).mp hn)).mp hs
  have hmax := maximumCycle_le_lastCycle hlast
  obtain ⟨hzero, hle, -⟩ := maximumCycle_spec cycleMap
  have hpos : 0 < (maxCycle + 1).toNat := by omega
  generalize hL : (maxCycle + 1).toNat = L at hpos
  have hnode : ∀ n c, cycleMap.lookup n = some c → n ∈ f.nodes := fun n c hc =>
    (hkeys n).mp (AList.lookup_isSome.mp (by rw [hc]; rfl))
  have hcover : ∀ n c, cycleMap.lookup n = some c → ∃ i < L, c = ((i : Nat) : Int) := by
    intro n c hc
    have hnonneg := hnonneg n c hc
    have := hle n c hc
    exact ⟨c.toNat, by omega, by omega⟩
  have hcycle : ∀ n ∈ f.nodes, ∃ c,
      cycle ⟨cycleMap, stages order cycleMap L⟩ n = .ok c := by
    intro n hn
    obtain ⟨c, hc⟩ := Option.isSome_iff_exists.mp (AList.lookup_isSome.mpr ((hkeys n).mpr hn))
    exact ⟨c, cycle_eq_ok.mpr hc⟩
  obtain ⟨delays, hproto⟩ := toProto_ok (s := ⟨cycleMap, stages order cycleMap L⟩) hf htopo hperm
    hsorted hcycle hdelay
  obtain ⟨read, hread, hfrom⟩ := fromProto_eq_ok hf htopo hperm delays
    fun n c hc => ⟨hnode n c hc, hcover n c hc⟩
  have hlength : ∀ m L, PipelineSchedule.length ⟨m, stages order m L⟩ = L := by
    simp [PipelineSchedule.length, stages]
  have hused : (∃ n, cycleMap.lookup n = some ((L : Int) - 1)) ↔
      ∃ n ∈ f.nodes, cycle ⟨cycleMap, stages order cycleMap L⟩ n = .ok ((L : Int) - 1) := by
    refine exists_congr fun n => ?_
    rw [cycle_eq_ok]
    exact ⟨fun hn => ⟨hnode n _ hn, hn⟩, fun hn => hn.2⟩
  rw [RoundTrips, hlength, ← hused, ← maximumCycle_read_iff hpos hcover hread]
  simp only [hproto, Except.ok.injEq, exists_and_left, exists_eq_left', hfrom]
  constructor
  · intro h
    obtain ⟨s', ⟨-, rfl⟩, -, -, hlen⟩ := h
    rwa [hlength] at hlen
  · intro hmaxL
    have hsame := lookup_read hcover hread ((maximumCycle_read_iff hpos hcover hread).mp hmaxL).1
    have hstages : stages order read L = stages order cycleMap L := by simp only [stages, hsame]
    refine ⟨_, ⟨fun n c hc => hnonneg n c ((hsame n).symm.trans hc), rfl⟩, fun n _ => ?_,
      fun c => ?_, by rw [hlength, hmaxL]⟩
    · rw [cycle, cycle, hsame]
    · rw [nodesInCycle, nodesInCycle, hmaxL, hstages]

/-- A node and its user. -/
def twoNodes : FunctionBase Bool where
  nodes := [false, true]
  operands n := if n then [false] else []
  returnValue := some true
  name := "f"
  nodeName n := if n then "y" else "x"

/-- The function of the example has its operands and users in step. -/
theorem twoNodes_valid : twoNodes.Valid where
  nodup := by decide
  closed := by decide
  acyclic n h := by
    have hne : ∀ u n, twoNodes.Uses u n → u ≠ n := by decide
    have hone : ∀ u n, twoNodes.Uses u n → ∀ m, ¬twoNodes.Uses n m := by decide
    cases h with
    | single h => exact hne _ _ h rfl
    | tail h hlast =>
      cases h with
      | single h => exact hone _ _ h _ hlast
      | tail _ h => exact hone _ _ h _ hlast
  names := by decide

/-- The schedule that has the user three stages after the node. -/
def twoNodesSchedule : PipelineSchedule Bool :=
  ⟨(AList.singleton true 3).insert false 0, [[false], [], [], [true]]⟩

theorem proto_roundTrips_iff_twoNodes :
    RoundTrips twoNodes (fun n => .ok n.toNat) twoNodesSchedule := by
  have hkeys : ∀ n, n ∈ twoNodesSchedule.cycleMap ↔ n ∈ twoNodes.nodes := by decide
  have hs : construct twoNodes twoNodesSchedule.cycleMap (some 4) = .ok twoNodesSchedule := rfl
  exact (proto_roundTrips_iff twoNodes_valid (fun n _ => ⟨n.toNat, rfl⟩) hkeys hs).mpr
    ⟨by decide, .inr ⟨true, by decide, rfl⟩⟩

/-- A function with one node. -/
def oneNode : FunctionBase (Fin 1) where
  nodes := [0]
  operands _ := []
  returnValue := some 0
  name := "f"
  nodeName _ := "x"

theorem oneNode_valid : oneNode.Valid where
  nodup := by decide
  closed := by decide
  acyclic n h := by
    have hnone : ∀ u n, ¬oneNode.Uses u n := by decide
    cases h with
    | single h => exact hnone _ _ h
    | tail _ h => exact hnone _ _ h
  names _ _ _ _ _ := Subsingleton.elim _ _

/-- A second stage without nodes is lost. -/
theorem not_roundTrips_emptyStage :
    oneNode.Valid ∧
      construct oneNode (AList.singleton 0 0) (some 2) = .ok ⟨AList.singleton 0 0, [[0], []]⟩ ∧
      ¬RoundTrips oneNode (fun _ => .ok 0) ⟨AList.singleton 0 0, [[0], []]⟩ := by
  refine ⟨oneNode_valid, rfl, fun h => ?_⟩
  obtain ⟨proto, s', hproto, hread, -, -, hlength⟩ := h
  cases hproto
  cases hread
  exact absurd hlength (by decide)

end PipelineSchedule

end Xls

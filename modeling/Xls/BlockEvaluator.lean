import Xls.Ir

/-!
# Xls.BlockEvaluator

The endpoints that simulate the channels of a block (`interpreter/block_evaluator.cc`), over
whole runs. A run takes the random decisions, the given inputs and the outputs of the block
cycle by cycle, so it is a run with any block. What a source transfers are its elements in
their order, and a sink records what it receives (`endpoints_faithful`); but a reset can drop
an element that waits (`waiting_element_dropped`).
-/

namespace Xls.BlockEvaluator

open Result List

/-- The values at the ports. -/
abbrev PortValues := String → Option Value

/-- `ResetProto`, as far as it is read. -/
structure ResetProto where
  name : String
  activeLow : Bool

/-- `IsResetAsserted`. -/
def isResetAsserted (inputs : PortValues) : Option ResetProto → Bool
  | some reset => match inputs reset.name with
    | some (.leaf b) => b == Bits.ofBool !reset.activeLow
    | _ => false
  | none => false

/-- `BehaviorDuringReset`: the source's `kIgnoreReady` and `kAttendReady`, and the sink's
`kIgnoreValid` and `kAttendValid`. -/
inductive BehaviorDuringReset
  | ignore
  | attend
  deriving DecidableEq

/-- A cycle: the inputs that the endpoints are given, the draws of the random engine, and the
outputs of the block. -/
structure Cycle where
  inputs : PortValues
  sendNextData : Bool
  sendOneDuringStall : Bool
  signalledReady : Bool
  outputs : PortValues

/-- Whether an endpoint takes part in a cycle, in spite of the reset or without it. -/
def attends (reset : Option ResetProto) (resetBehavior : BehaviorDuringReset)
    (inputs : PortValues) : Bool :=
  resetBehavior = .attend || !isResetAsserted inputs reset

/-- A port of a block, an input with its type. -/
inductive Port
  | input (type : IrType)
  | output

/-- `Block`: its name and its ports by name. -/
structure Block where
  name : String
  portsByName : String → Option Port

/-- `GetInputPort`. -/
def Block.getInputPort (block : Block) (name : String) : Result IrType :=
  match block.portsByName name with
  | none => .error (.status s!"Input port {name} not found")
  | some (.input type) => .ok type
  | some .output => .error (.status s!"Port {name} is not an input port")

/-- A handshake output of the block that is all ones. -/
def portHigh (block : Block) (dataName : String) (outputs : PortValues) (name : String) :
    Result Bool :=
  match outputs name with
  | some v => do
    let b ← v.bits
    return b.isAllOnes
  | none => .error (.status
    (s!"Block {block.name} Channel {dataName} Port {name} value not found" ++
      " in interpreter output"))

/-! ### Sources -/

/-- `ChannelSource`. -/
structure ChannelSource where
  block : Block
  dataName : String
  readyName : String
  resetBehavior : BehaviorDuringReset
  dataSequence : List Value
  currentIndex : Int
  isValid : Bool

/-- The values that a source puts at its data and its valid port. -/
structure Driven where
  data : Value
  valid : Bool

namespace ChannelSource

def new (block : Block) (dataName readyName : String) (resetBehavior : BehaviorDuringReset)
    (dataSequence : List Value) : ChannelSource :=
  ⟨block, dataName, readyName, resetBehavior, dataSequence, -1, false⟩

/-- `HasMoreData`. -/
def hasMoreData (s : ChannelSource) : Bool := s.currentIndex + 1 < s.dataSequence.length

/-- The element at `current_index_`, with the checks before the access. -/
def elementAt (dataSequence : List Value) (currentIndex : Int) : Result Value := do
  checkThat (0 ≤ currentIndex)
  checkThat (currentIndex < dataSequence.length)
  derefOption dataSequence[currentIndex.toNat]?

/-- Ones or zeros with valid low. -/
def stall (s : ChannelSource) (c : Cycle) : Result (ChannelSource × Driven) := do
  let type ← s.block.getInputPort s.dataName
  let data := if c.sendOneDuringStall then type.shape.map Bits.allOnes else Value.zeroOfType type
  return (s, ⟨data, false⟩)

variable (reset : Option ResetProto)

def attends (s : ChannelSource) (c : Cycle) : Bool :=
  BlockEvaluator.attends reset s.resetBehavior c.inputs

/-- `SetBlockInputs`. -/
def setBlockInputs (s : ChannelSource) (c : Cycle) : Result (ChannelSource × Driven) :=
  if s.attends reset c && s.isValid then do
    let data ← elementAt s.dataSequence s.currentIndex
    return (s, ⟨data, true⟩)
  else if s.attends reset c && s.hasMoreData && c.sendNextData then do
    let currentIndex := s.currentIndex + 1
    let data ← elementAt s.dataSequence currentIndex
    return ({ s with currentIndex, isValid := true }, ⟨data, true⟩)
  else s.stall c

/-- `GetBlockOutputs`. -/
def getBlockOutputs (s : ChannelSource) (ready : Bool) : ChannelSource :=
  if s.isValid && ready then { s with isValid := false } else s

/-- The ready port of the block, as `GetBlockOutputs` reads it. -/
def portHigh (s : ChannelSource) (c : Cycle) : Result Bool :=
  BlockEvaluator.portHigh s.block s.dataName c.outputs s.readyName

/-- A cycle: the source after it, what it drove, and what it transferred. -/
def cycle (s : ChannelSource) (c : Cycle) : Result (ChannelSource × Driven × List Value) := do
  let (s, driven) ← s.setBlockInputs reset c
  let ready ← s.portHigh c
  return (s.getBlockOutputs ready, driven, if driven.valid && ready then [driven.data] else [])

/-- A run: the source after it and the transferred elements. -/
def run (s : ChannelSource) : List Cycle → Result (ChannelSource × List Value)
  | [] => .ok (s, [])
  | c :: cycles => do
    let (s, _, transferred) ← s.cycle reset c
    let (s, rest) ← s.run cycles
    return (s, transferred ++ rest)

/-- The block does not report ready while the reset keeps a waiting element back. -/
def Heeded (s : ChannelSource) (c : Cycle) : Prop :=
  s.isValid = true → s.attends reset c = false → s.portHigh c ≠ .ok true

/-- Every cycle of a run is heeded. -/
def AllHeeded (s : ChannelSource) : List Cycle → Prop
  | [] => True
  | c :: cycles => s.Heeded reset c ∧
    ∀ s' driven transferred, s.cycle reset c = .ok (s', driven, transferred) → s'.AllHeeded cycles

variable {reset} {s s' : ChannelSource} {c : Cycle} {cycles : List Cycle} {driven : Driven}
  {transferred : List Value}

/-- The index is in its range, and that of a waiting element is not before the first. -/
structure InRange (s : ChannelSource) : Prop where
  lower : -1 ≤ s.currentIndex
  upper : s.currentIndex < s.dataSequence.length
  waiting : s.isValid = true → 0 ≤ s.currentIndex

/-- How many elements the source has moved past. -/
def passed (s : ChannelSource) : Nat := (s.currentIndex + if s.isValid then 0 else 1).toNat

theorem elementAt_eq {data : List Value} {i : Int} (h0 : 0 ≤ i) (h : i < data.length) :
    ∃ v, elementAt data i = .ok v ∧ data[i.toNat]? = some v := by
  have hlt : i.toNat < data.length := by omega
  refine ⟨data[i.toNat], ?_, getElem?_eq_getElem hlt⟩
  simp [elementAt, h0, h, hlt, derefOption]

/-- A stall leaves the source as it is, or the block has no such input port. -/
theorem stall_cases (s : ChannelSource) (c : Cycle) :
    (∃ v, s.stall c = .ok (s, ⟨v, false⟩)) ∨ ∃ text, s.stall c = .error (.status text) := by
  unfold stall Block.getInputPort
  cases s.block.portsByName s.dataName with
  | none => exact .inr ⟨_, rfl⟩
  | some port => cases port with
    | input type => exact .inl ⟨_, rfl⟩
    | output => exact .inr ⟨_, rfl⟩

/-- The source drives the element that it has not moved past yet, or it stalls. -/
theorem InRange.setBlockInputs (hs : s.InRange) (c : Cycle) :
    (∃ i v,
      s.setBlockInputs reset c = .ok ({ s with currentIndex := i, isValid := true }, ⟨v, true⟩) ∧
      0 ≤ i ∧ i < s.dataSequence.length ∧ i.toNat = s.passed ∧
      s.dataSequence[s.passed]? = some v) ∨
    (s.isValid = true → s.attends reset c = false) ∧
      ((∃ v, s.setBlockInputs reset c = .ok (s, ⟨v, false⟩)) ∨
        ∃ text, s.setBlockInputs reset c = .error (.status text)) := by
  unfold ChannelSource.setBlockInputs
  cases ha : s.attends reset c with
  | false => exact .inr ⟨fun _ => rfl, by simpa using s.stall_cases c⟩
  | true =>
    cases hv : s.isValid with
    | true =>
      obtain ⟨v, hdata, hget⟩ := elementAt_eq (hs.waiting hv) hs.upper
      left
      refine ⟨s.currentIndex, v, ?_, hs.waiting hv, hs.upper, by simp [passed, hv], ?_⟩
      · simp [hdata, ← hv]
      · simpa [passed, hv] using hget
    | false =>
      by_cases hmore : s.hasMoreData && c.sendNextData
      · have hlower := hs.lower
        have hupper : s.currentIndex + 1 < s.dataSequence.length := by
          simpa [hasMoreData] using (Bool.and_eq_true_iff.mp hmore).1
        obtain ⟨v, hdata, hget⟩ := elementAt_eq (by omega) hupper
        left
        refine ⟨s.currentIndex + 1, v, ?_, by omega, hupper, by simp [passed, hv], ?_⟩
        · simp [hmore, hdata]
        · simpa [passed, hv] using hget
      · exact .inr ⟨nofun, by simpa [hmore] using s.stall_cases c⟩

/-- What a cycle does: the data and the index stay in range, an element that is not passed is
driven unchanged, and unless the block reports ready while the reset keeps a waiting element back,
the source passes an element exactly when it is transferred. -/
structure Moves (reset : Option ResetProto) (s : ChannelSource) (c : Cycle) (s' : ChannelSource)
    (driven : Driven) (transferred : List Value) : Prop where
  inRange : s'.InRange
  dataSequence : s'.dataSequence = s.dataSequence
  element : driven.valid = true → s.dataSequence[s.passed]? = some driven.data
  offered : s.isValid = true → s.attends reset c = true → driven.valid = true
  passes : s.Heeded reset c →
    s'.passed = s.passed ∧ transferred = [] ∧ s'.isValid = (s.isValid || driven.valid) ∨
    s'.passed = s.passed + 1 ∧ transferred = [driven.data] ∧ driven.valid = true

/-- A cycle of a source is one of its possible moves. -/
theorem InRange.cycle (hs : s.InRange) (h : s.cycle reset c = .ok (s', driven, transferred)) :
    s.Moves reset c s' driven transferred := by
  obtain ⟨⟨m, d⟩, hset, h⟩ := bind_eq_ok.mp h
  obtain ⟨ready, hready, h⟩ := bind_eq_ok.mp h
  cases h
  rcases @InRange.setBlockInputs reset s hs c with
    ⟨i, v, hok, h0, hi, hpassed, hget⟩ | ⟨hkept, ⟨v, hok⟩ | ⟨text, hok⟩⟩ <;>
    cases hset.symm.trans hok
  · have hlower : -1 ≤ i := le_trans (by decide) h0
    cases ready with
    | false =>
      refine ⟨⟨hlower, hi, fun _ => h0⟩, rfl, fun _ => hget, fun _ _ => rfl, fun _ => .inl ?_⟩
      simpa [passed, getBlockOutputs] using hpassed
    | true =>
      refine ⟨⟨hlower, hi, nofun⟩, rfl, fun _ => hget, fun _ _ => rfl, fun _ => .inr ⟨?_, rfl, rfl⟩⟩
      rw [← hpassed]
      change (i + 1).toNat = i.toNat + 1
      omega
  · by_cases hdrop : (s.isValid && ready) = true
    · obtain ⟨hvalid, rfl⟩ := Bool.and_eq_true_iff.mp hdrop
      have hheld := hkept hvalid
      rw [getBlockOutputs, if_pos hdrop]
      exact ⟨⟨hs.lower, hs.upper, nofun⟩, rfl, nofun, fun _ ha => by simp [hheld] at ha,
        fun h => absurd hready (h hvalid hheld)⟩
    · rw [getBlockOutputs, if_neg hdrop]
      exact ⟨hs, rfl, nofun, fun hv ha => by simp [hkept hv] at ha,
        fun _ => .inl ⟨rfl, rfl, by simp⟩⟩

/-- What was passed before, followed by what a run transfers, is what was passed after it. -/
theorem InRange.run (hs : s.InRange) (h : s.run reset cycles = .ok (s', transferred)) :
    s'.InRange ∧ s'.dataSequence = s.dataSequence ∧ (s.AllHeeded reset cycles →
      s.dataSequence.take s.passed ++ transferred = s.dataSequence.take s'.passed) := by
  induction cycles generalizing s transferred with
  | nil =>
    cases h
    exact ⟨hs, rfl, fun _ => append_nil _⟩
  | cons c cycles ih =>
    obtain ⟨⟨m, driven, moved⟩, hcycle, h⟩ := bind_eq_ok.mp h
    obtain ⟨⟨last, rest⟩, hrun, h⟩ := bind_eq_ok.mp h
    cases h
    have hm := hs.cycle hcycle
    obtain ⟨hlast, hdata, hrest⟩ := ih hm.inRange hrun
    refine ⟨hlast, hdata.trans hm.dataSequence, fun hheeded => ?_⟩
    have hrest := hrest (hheeded.2 m driven moved hcycle)
    rw [hm.dataSequence] at hrest
    rw [← hrest, ← append_assoc]
    congr 1
    rcases hm.passes hheeded.1 with ⟨hpassed, rfl, -⟩ | ⟨hpassed, rfl, hvalid⟩
    · rw [hpassed, append_nil]
    · rw [hpassed, take_add_one, hm.element hvalid]
      rfl

theorem inRange_new (block : Block) (dataName readyName : String)
    (resetBehavior : BehaviorDuringReset) (data : List Value) :
    (new block dataName readyName resetBehavior data).InRange :=
  ⟨le_refl _, by simp [new]; omega, nofun⟩

end ChannelSource

/-! ### Sinks -/

/-- `ChannelSink`. -/
structure ChannelSink where
  block : Block
  dataName : String
  validName : String
  readyName : String
  resetBehavior : BehaviorDuringReset
  isReady : Bool
  dataSequence : List Value
  dataPerCycle : List (Option Value)

namespace ChannelSink

variable (reset : Option ResetProto)

/-- `SetBlockInputs`, which has put what it signals at the ready port. -/
def setBlockInputs (s : ChannelSink) (c : Cycle) : ChannelSink :=
  let inputs := Function.update c.inputs s.readyName (some (.leaf (Bits.ofBool c.signalledReady)))
  { s with isReady := if attends reset s.resetBehavior inputs then c.signalledReady else false }

/-- The valid port of the block. -/
def portHigh (s : ChannelSink) (c : Cycle) : Result Bool :=
  BlockEvaluator.portHigh s.block s.dataName c.outputs s.validName

/-- `GetBlockOutputs`. -/
def getBlockOutputs (s : ChannelSink) (c : Cycle) : Result ChannelSink := do
  let valid ← s.portHigh c
  if s.isReady && valid then
    let data ← derefOption (c.outputs s.dataName)
    return { s with
      dataSequence := s.dataSequence ++ [data]
      dataPerCycle := s.dataPerCycle ++ [some data] }
  else return { s with dataPerCycle := s.dataPerCycle ++ [none] }

/-- A run: the sink after it. -/
def run (s : ChannelSink) : List Cycle → Result ChannelSink
  | [] => .ok s
  | c :: cycles => do
    let s ← (s.setBlockInputs reset c).getBlockOutputs c
    s.run cycles

/-- The data of a cycle in which the sink counts itself ready and the block reports valid. -/
def received (s : ChannelSink) (c : Cycle) : Option Value :=
  if (s.setBlockInputs reset c).isReady ∧ s.portHigh c = .ok true then
    c.outputs s.dataName
  else none

variable {reset} {s s' : ChannelSink} {c : Cycle} {cycles : List Cycle}

/-- What a sink receives in a run, appended to what it had. -/
theorem run_eq (h : s.run reset cycles = .ok s') :
    s'.dataPerCycle = s.dataPerCycle ++ cycles.map (s.received reset) ∧
      s'.dataSequence = s.dataSequence ++ cycles.filterMap (s.received reset) := by
  induction cycles generalizing s with
  | nil =>
    cases h
    exact ⟨(append_nil _).symm, (append_nil _).symm⟩
  | cons c cycles ih =>
    obtain ⟨m, hcycle, hrun⟩ := bind_eq_ok.mp h
    obtain ⟨valid, hvalid, hcycle⟩ := bind_eq_ok.mp hcycle
    change s.portHigh c = .ok valid at hvalid
    rw [map_cons, filterMap_cons, received, hvalid]
    by_cases hready : ((s.setBlockInputs reset c).isReady && valid) = true
    · rw [if_pos hready] at hcycle
      obtain ⟨data, hdata, hcycle⟩ := bind_eq_ok.mp hcycle
      cases hcycle
      obtain ⟨hper, hseq⟩ := ih hrun
      obtain ⟨hcounted, rfl⟩ := Bool.and_eq_true_iff.mp hready
      have houtput : c.outputs s.dataName = some data := derefOption_eq_ok.mp hdata
      rw [if_pos ⟨hcounted, rfl⟩, houtput]
      exact ⟨hper.trans (append_assoc ..), hseq.trans (append_assoc ..)⟩
    · rw [if_neg hready] at hcycle
      cases hcycle
      obtain ⟨hper, hseq⟩ := ih hrun
      rw [if_neg fun h => hready (by simp [h.1, Except.ok.inj h.2])]
      exact ⟨hper.trans (append_assoc ..), hseq⟩

end ChannelSink

/-! ### Whole runs -/

section

variable {reset : Option ResetProto} {block : Block} {dataName readyName : String}
  {resetBehavior : BehaviorDuringReset} {data : List Value} {cycles cycles' : List Cycle}
  {source : ChannelSource} {transferred : List Value} {sink sink' : ChannelSink}

/-- In every state that a run of a source reaches, no check of `current_index_` fails. When the
block never reports ready while the reset keeps a waiting element back, the transferred elements
are those that the source has moved past, in their order, and every next cycle drives the first of
the others until it transfers it. A sink records what it receives. -/
theorem endpoints_faithful
    (hrun : (ChannelSource.new block dataName readyName resetBehavior data).run reset cycles =
      .ok (source, transferred)) (hsink : sink.run reset cycles' = .ok sink') :
    (∀ c, source.setBlockInputs reset c ≠ .error .check) ∧
    ((ChannelSource.new block dataName readyName resetBehavior data).AllHeeded reset cycles →
      source.dataSequence = data ∧ transferred = data.take source.passed ∧
      ∀ c next driven moved, source.cycle reset c = .ok (next, driven, moved) →
        source.Moves reset c next driven moved) ∧
    sink'.dataPerCycle = sink.dataPerCycle ++ cycles'.map (sink.received reset) ∧
    sink'.dataSequence = sink.dataSequence ++ cycles'.filterMap (sink.received reset) := by
  have hnew := ChannelSource.inRange_new block dataName readyName resetBehavior data
  obtain ⟨hrange, hdata, hmoved⟩ := hnew.run hrun
  refine ⟨fun c hcheck => ?_,
    fun hheeded => ⟨hdata, hmoved hheeded, fun c next driven moved => hrange.cycle⟩,
    ChannelSink.run_eq hsink⟩
  rcases @ChannelSource.InRange.setBlockInputs reset source hrange c with
    ⟨i, v, hok, -⟩ | ⟨-, ⟨v, hok⟩ | ⟨text, hok⟩⟩ <;> cases hcheck.symm.trans hok

end

def oneBit (b : Bool) : Value := .leaf (Bits.ofBool b)

/-- A cycle of a block with a reset and one ready port. -/
def cycleAt (resetHigh ready : Bool) : Cycle :=
  { inputs := fun _ => some (oneBit resetHigh)
    sendNextData := true
    sendOneDuringStall := false
    signalledReady := true
    outputs := fun _ => some (oneBit ready) }

/-- A block with one bit of data in and out. -/
def exampleBlock : Block where
  name := "my_block"
  portsByName name := if name = "in" then some (.input (.bits 1)) else some .output

/-- The first element waits, also during a reset without ready, and both are transferred after it.
The sink receives the data of the two cycles that are valid. -/
theorem endpoints_faithful_reset :
    let source := ChannelSource.new exampleBlock "in" "in_rdy" .ignore [oneBit true, oneBit false]
    let sink : ChannelSink := ⟨exampleBlock, "out", "out_vld", "out_rdy", .attend, false, [], []⟩
    let cycles := [cycleAt false false, cycleAt true false, cycleAt false true, cycleAt false true]
    (∃ source' sink', source.run (some ⟨"rst", false⟩) cycles =
        .ok (source', [oneBit true, oneBit false]) ∧ source'.passed = 2 ∧
      sink.run (some ⟨"rst", false⟩) cycles = .ok sink' ∧
      sink'.dataSequence = [oneBit true, oneBit true]) ∧
    [oneBit true, oneBit false] = [oneBit true, oneBit false].take 2 := by
  intro source sink cycles
  have hheeded : source.AllHeeded (some ⟨"rst", false⟩) cycles := by
    refine ⟨fun _ hkept => absurd hkept (by decide), ?_⟩
    rintro _ _ _ h
    cases h
    -- in the reset, ready is low
    refine ⟨fun _ _ hready => absurd (Except.ok.inj hready) (by decide), ?_⟩
    rintro _ _ _ h
    cases h
    refine ⟨fun _ hkept => absurd hkept (by decide), ?_⟩
    rintro _ _ _ h
    cases h
    exact ⟨fun _ hkept => absurd hkept (by decide), fun _ _ _ _ => trivial⟩
  have h := @endpoints_faithful (some ⟨"rst", false⟩) exampleBlock "in" "in_rdy" .ignore
    [oneBit true, oneBit false] cycles cycles _ _ sink _ rfl rfl
  exact ⟨⟨_, _, rfl, rfl, rfl, h.2.2.2⟩, (h.2.1 hheeded).2.1⟩

/-- The first element is driven, then kept back by the reset while the block reports ready, and the
next element to be transferred is the second. -/
theorem waiting_element_dropped : ∃ source transferred,
    (ChannelSource.new exampleBlock "in" "in_rdy" .ignore [oneBit true, oneBit false]).run
        (some ⟨"rst", false⟩) [cycleAt false false, cycleAt true true, cycleAt false true] =
      .ok (source, transferred) ∧ ∀ n, transferred ≠ [oneBit true, oneBit false].take n := by
  refine ⟨_, _, rfl, fun n h => ?_⟩
  cases n with
  | zero => cases h
  | succ n => exact absurd (List.cons.inj h).1 (by decide)

end Xls.BlockEvaluator

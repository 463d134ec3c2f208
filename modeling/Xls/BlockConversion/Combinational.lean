import Xls.Ir
import Mathlib.Data.List.Pairwise

/-!
# Xls.BlockConversion.Combinational

The flow control of a proc that becomes a combinational block
(`codegen/block_conversion.cc`), in one cycle: the predicates are what the data of the cycle
makes them. `atomic_procToCombinationalBlock_iff` says in which cycles the transfer is
atomic, and `half_valid_transfers` shows one in which it is not.
-/

namespace Xls.BlockConversion

/-- A streaming input or output in a cycle. The signal is the one that comes from outside: the
valid of an input, the ready of an output. -/
structure StreamingPort where
  predicate : Option Bool
  signal : Bool

namespace StreamingPort

/-- Whether the receive or the send of a port runs. -/
def active (p : StreamingPort) : Bool := p.predicate.getD true

/-- `active_valid` of an input, `active_ready` of an output. -/
def activeSignal (p : StreamingPort) : Bool :=
  match p.predicate with
  | some predicate => !predicate || p.signal
  | none => p.signal

end StreamingPort

/-- `MakeInputReadyPortsForOutputChannels`: `all_active_outputs_ready`. -/
def makeInputReadyPortsForOutputChannels (outputs : List StreamingPort) : Bool :=
  outputs.all StreamingPort.activeSignal

/-- `MakeInputValidPortsForInputChannels`: `all_active_inputs_valid`. -/
def makeInputValidPortsForInputChannels (inputs : List StreamingPort) : Bool :=
  inputs.all StreamingPort.activeSignal

/-- `MakeOutputValidPortsForOutputChannels`: the valid of one output. -/
def makeOutputValidPortsForOutputChannels (allActiveInputsValid pipelinedValid nextStageOpen : Bool)
    (output : StreamingPort) : Bool :=
  allActiveInputsValid && pipelinedValid && nextStageOpen && output.predicate.getD true

/-- `MakeOutputReadyPortsForInputChannels`: the ready of one input. -/
def makeOutputReadyPortsForInputChannels (allActiveOutputsReady : Bool) (input : StreamingPort) :
    Bool :=
  match input.predicate with
  | some predicate => predicate && allActiveOutputsReady
  | none => allActiveOutputsReady

/-- The block drives these ready and valid ports. -/
structure FlowControl where
  ready : StreamingPort → Bool
  valid : StreamingPort → Bool

/-- `AddCombinationalFlowControl`. -/
def addCombinationalFlowControl (inputs outputs : List StreamingPort) : FlowControl where
  ready := makeOutputReadyPortsForInputChannels (makeInputReadyPortsForOutputChannels outputs)
  valid := makeOutputValidPortsForOutputChannels (makeInputValidPortsForInputChannels inputs) true
    true

/-! ### The conversion -/

/-- A state element of a proc, and whether `next_value` nodes write it. -/
structure StateElement where
  type : IrType
  hasNextValue : Bool

namespace StateElement

/-- `HandleStateParam`: an element with bits becomes a register. -/
def hasRegister (e : StateElement) : Bool := decide (0 < e.type.flatBitCount)

/-- `HandleNextValue`, for the element with an index. The error has the type of the `next_value`
node, which is an empty tuple, and not the type of the element. -/
def handleNextValue (index : Nat) (e : StateElement) : Result Unit :=
  if e.hasNextValue && !e.hasRegister && e.type != .token && e.type != .tuple [] then
    .error (.status (s!"Proc has zero-width state element {index}, but type is not token or " ++
      "empty tuple, instead got ()."))
  else .ok ()

end StateElement

/-- What the conversion reads of a proc: its state, and the predicates of its receives and sends on
streaming channels. -/
structure Proc (Data : Type) where
  stateElements : List StateElement
  receives : List (Option (Data → Bool))
  sends : List (Option (Data → Bool))

variable {Data : Type}

/-- The ports of a cycle. -/
def ports (predicates : List (Option (Data → Bool))) (data : Data) (signal : Nat → Bool) :
    List StreamingPort :=
  predicates.zipIdx.map fun (predicate, i) => ⟨predicate.map fun p => p data, signal i⟩

/-- The state has at most one element, or all its elements are empty tuples. -/
def checkState (proc : Proc Data) : Result Unit :=
  let types := proc.stateElements.map StateElement.type
  if types.length > 1 && !types.all (· == .tuple []) then
    .error (.status ("Proc must have no state (or state type is all empty tuples) when lowering " ++
      "to a combinational block. Proc state type is: \x7b" ++
      ", ".intercalate (types.map IrType.toString) ++ "\x7d"))
  else .ok ()

/-- `CloneProcNodesIntoBlock`, as far as the state goes. -/
def cloneStateElements : Nat → List StateElement → Result Unit
  | _, [] => .ok ()
  | index, e :: elements => do
    e.handleNextValue index
    cloneStateElements (index + 1) elements

/-- More than one output has to pass `mutex`, which is `AreStreamingOutputsMutuallyExclusive`. -/
def checkOutputs (mutex : Proc Data → Result Bool) (proc : Proc Data) : Result Unit :=
  if proc.sends.length > 1 then do
    let exclusive ← mutex proc
    if exclusive then return ()
    else
      .error (.status ("Proc combinational generator only supports streaming output channels " ++
        "which can be determined to be mutually exclusive, got " ++
        s!"{proc.sends.length} output channels which were not proven to be mutually exclusive"))
  else .ok ()

/-- The checks before the passes of `RemoveDeadTokenNodes`: `CheckStreamingIO` looks for the write
of every state register, and `VerifyBlock` for the clock port, which this block has not. -/
def codegenChecker (proc : Proc Data) : Result Unit :=
  let registers := proc.stateElements.filter StateElement.hasRegister
  if !registers.all StateElement.hasNextValue then
    .error (.status "nodes.contains(state_register->reg_write)")
  else if !registers.isEmpty then .error (.status "Block has registers but no clock port")
  else .ok ()

/-- `ProcToCombinationalBlock`: the flow control in a cycle with some data, valids and readys. -/
def procToCombinationalBlock (mutex : Proc Data → Result Bool) (proc : Proc Data) :
    Result (Data → (Nat → Bool) → (Nat → Bool) → FlowControl) := do
  checkState proc
  cloneStateElements 0 proc.stateElements
  checkOutputs mutex proc
  codegenChecker proc
  return fun data valid ready =>
    addCombinationalFlowControl (ports proc.receives data valid) (ports proc.sends data ready)

/-! ### One cycle -/

/-- A port transfers when what it drives meets the signal from outside. -/
def transfers (driven : StreamingPort → Bool) (p : StreamingPort) : Bool := driven p && p.signal

/-- Every active receive is valid and every active send is ready. -/
def Fires (inputs outputs : List StreamingPort) : Prop :=
  ∀ p, p ∈ inputs ∨ p ∈ outputs → p.active = true → p.signal = true

/-- A port transfers only in a cycle that fires, and then exactly the active ones do. -/
def Atomic (inputs outputs : List StreamingPort) (flow : FlowControl) : Prop :=
  ((∃ p ∈ inputs, transfers flow.ready p = true) ∨ (∃ p ∈ outputs, transfers flow.valid p = true) →
    Fires inputs outputs) ∧
  (Fires inputs outputs → (∀ p ∈ inputs, transfers flow.ready p = p.active) ∧
    ∀ p ∈ outputs, transfers flow.valid p = p.active)

/-- The active outputs are ready, and an active input is valid while another one is not. -/
def HalfValid (inputs outputs : List StreamingPort) : Prop :=
  (∀ p ∈ outputs, p.active = true → p.signal = true) ∧
    (∃ p ∈ inputs, p.active = true ∧ p.signal = true) ∧
    ∃ p ∈ inputs, p.active = true ∧ p.signal = false

/-- At most one of two ports is active. -/
def Exclusive (p q : StreamingPort) : Prop := ¬(p.active = true ∧ q.active = true)

instance : Std.Symm Exclusive := ⟨fun _ _ h h' => h h'.symm⟩

variable {inputs outputs : List StreamingPort} {p : StreamingPort}

theorem activeSignal_iff : p.activeSignal = true ↔ (p.active = true → p.signal = true) := by
  obtain ⟨_ | predicate, signal⟩ := p <;> simp [StreamingPort.activeSignal, StreamingPort.active]
  cases predicate <;> simp

theorem all_activeSignal {l : List StreamingPort} :
    l.all StreamingPort.activeSignal = true ↔ ∀ p ∈ l, p.active = true → p.signal = true := by
  simp [activeSignal_iff]

theorem transfers_ready : transfers (addCombinationalFlowControl inputs outputs).ready p = true ↔
    (p.active = true ∧ p.signal = true) ∧ ∀ q ∈ outputs, q.active = true → q.signal = true := by
  rw [← all_activeSignal]
  obtain ⟨_ | predicate, signal⟩ := p <;> simp [transfers, addCombinationalFlowControl,
    makeOutputReadyPortsForInputChannels, makeInputReadyPortsForOutputChannels,
    StreamingPort.active] <;> tauto

theorem transfers_valid : transfers (addCombinationalFlowControl inputs outputs).valid p = true ↔
    (p.active = true ∧ p.signal = true) ∧ ∀ q ∈ inputs, q.active = true → q.signal = true := by
  rw [← all_activeSignal]
  simp [transfers, addCombinationalFlowControl, makeOutputValidPortsForOutputChannels,
    makeInputValidPortsForInputChannels, StreamingPort.active]
  tauto

/-- With at most one active output, a cycle is atomic unless the inputs are valid by halves. -/
theorem atomic_iff (hexclusive : outputs.Pairwise Exclusive) :
    Atomic inputs outputs (addCombinationalFlowControl inputs outputs) ↔
      ¬HalfValid inputs outputs := by
  constructor
  · rintro ⟨hfires, -⟩ ⟨hout, ⟨p, hp, hactive⟩, q, hq, hqactive, hqsignal⟩
    have h := hfires (.inl ⟨p, hp, transfers_ready.mpr ⟨hactive, hout⟩⟩) q (.inl hq) hqactive
    simp [hqsignal] at h
  · intro hhalf
    refine ⟨?_, fun hfires => ⟨fun p hp => ?_, fun p hp => ?_⟩⟩
    · rintro (⟨p, hp, h⟩ | ⟨p, hp, h⟩)
      · obtain ⟨hactive, hout⟩ := transfers_ready.mp h
        rintro q (hq | hq) hqactive
        · by_contra hqsignal
          exact hhalf ⟨hout, ⟨p, hp, hactive⟩, q, hq, hqactive, Bool.not_eq_true _ ▸ hqsignal⟩
        · exact hout q hq hqactive
      · obtain ⟨hactive, hin⟩ := transfers_valid.mp h
        rintro q (hq | hq) hqactive
        · exact hin q hq hqactive
        · -- The only active output is the one that transfers.
          by_contra hqsignal
          have hne : p ≠ q := fun heq => hqsignal (heq ▸ hactive.2)
          exact hexclusive.forall hp hq hne ⟨hactive.1, hqactive⟩
    · rw [Bool.eq_iff_iff, transfers_ready]
      exact ⟨fun h => h.1.1, fun h => ⟨⟨h, hfires p (.inl hp) h⟩, fun q hq => hfires q (.inr hq)⟩⟩
    · rw [Bool.eq_iff_iff, transfers_valid]
      exact ⟨fun h => h.1.1, fun h => ⟨⟨h, hfires p (.inr hp) h⟩, fun q hq => hfires q (.inl hq)⟩⟩

theorem checkState_eq_ok {proc : Proc Data} {u : Unit} (h : checkState proc = .ok u) :
    proc.stateElements.length ≤ 1 ∨ ∀ e ∈ proc.stateElements, e.type = .tuple [] := by
  unfold checkState at h
  dsimp only at h
  split at h
  · cases h
  · rename_i hstate
    rcases Nat.lt_or_ge 1 proc.stateElements.length with hlen | hlen
    · exact .inr (by simpa [hlen] using hstate)
    · exact .inl hlen

theorem checkOutputs_eq_ok {proc : Proc Data} {mutex : Proc Data → Result Bool} {u : Unit}
    (h : checkOutputs mutex proc = .ok u) : proc.sends.length ≤ 1 ∨ mutex proc = .ok true := by
  unfold checkOutputs at h
  split at h
  · obtain ⟨exclusive, hmutex, h⟩ := Result.bind_eq_ok.mp h
    cases exclusive with
    | false => cases h
    | true => exact .inr hmutex
  · exact .inl (by omega)

/-- A state element that the conversion accepts has no register. -/
theorem codegenChecker_eq_ok {proc : Proc Data} {u : Unit} (h : codegenChecker proc = .ok u) :
    ∀ e ∈ proc.stateElements, e.type.flatBitCount = 0 := by
  unfold codegenChecker at h
  dsimp only at h
  split at h
  · cases h
  · split at h
    · cases h
    · rename_i hregisters
      simpa [StateElement.hasRegister, List.filter_eq_nil_iff] using hregisters

/-- What the conversion has checked of a proc that it accepts. -/
theorem of_procToCombinationalBlock {proc : Proc Data} {mutex : Proc Data → Result Bool}
    {block : Data → (Nat → Bool) → (Nat → Bool) → FlowControl}
    (h : procToCombinationalBlock mutex proc = .ok block) :
    (proc.stateElements.length ≤ 1 ∨ ∀ e ∈ proc.stateElements, e.type = .tuple []) ∧
    (∀ e ∈ proc.stateElements, e.type.flatBitCount = 0) ∧
    (proc.sends.length ≤ 1 ∨ mutex proc = .ok true) ∧ block = fun data valid ready =>
      addCombinationalFlowControl (ports proc.receives data valid)
        (ports proc.sends data ready) := by
  unfold procToCombinationalBlock at h
  obtain ⟨_, hstate, h⟩ := Result.bind_eq_ok.mp h
  obtain ⟨_, -, h⟩ := Result.bind_eq_ok.mp h
  obtain ⟨_, houtputs, h⟩ := Result.bind_eq_ok.mp h
  obtain ⟨_, hchecker, h⟩ := Result.bind_eq_ok.mp h
  cases h
  exact ⟨checkState_eq_ok hstate, codegenChecker_eq_ok hchecker, checkOutputs_eq_ok houtputs, rfl⟩

/-- For a proc that the conversion accepts: its state is all empty tuples, and a cycle is atomic,
unless it has one state element of another type without bits (a token, or an element without width
that no `next_value` writes), or the cycle has its inputs valid by halves. The analysis of the sends
is relied on to accept only predicates that exclude each other. -/
theorem atomic_procToCombinationalBlock_iff {proc : Proc Data} {mutex : Proc Data → Result Bool}
    {block : Data → (Nat → Bool) → (Nat → Bool) → FlowControl}
    (hblock : procToCombinationalBlock mutex proc = .ok block)
    (hmutex : mutex proc = .ok true → ∀ data ready,
      (ports proc.sends data ready).Pairwise Exclusive) (data : Data) (valid ready : Nat → Bool) :
    (∀ e ∈ proc.stateElements, e.type = .tuple []) ∧
        Atomic (ports proc.receives data valid) (ports proc.sends data ready)
          (block data valid ready) ↔
      ¬(∃ e, proc.stateElements = [e] ∧ e.type.flatBitCount = 0 ∧ e.type ≠ .tuple []) ∧
        ¬HalfValid (ports proc.receives data valid) (ports proc.sends data ready) := by
  obtain ⟨hstate, hwidth, hsends, rfl⟩ := of_procToCombinationalBlock hblock
  have hexclusive : (ports proc.sends data ready).Pairwise Exclusive := by
    rcases hsends with h | h
    · unfold ports
      match hs : proc.sends with
      | [] => exact .nil
      | [_] => exact List.pairwise_singleton _ _
      | _ :: _ :: _ => simp [hs] at h
    · exact hmutex h data ready
  rw [atomic_iff hexclusive]
  refine and_congr_left' ?_
  constructor
  · rintro hall ⟨e, he, -, hne⟩
    exact hne (hall e (by simp [he]))
  · intro hone e he
    by_contra hne
    rcases hstate with h | h
    · obtain ⟨e', hs⟩ := List.length_eq_one_iff.mp (h.antisymm (List.length_pos_of_mem he))
      rw [hs, List.mem_singleton] at he
      subst he
      exact hone ⟨e, hs, hwidth e (by simp [hs]), hne⟩
    · exact hne (h e he)

/-- Two unconditional receives, no sends, and an empty state. -/
def exampleProc : Proc Unit := ⟨[⟨.tuple [], true⟩], [none, none], []⟩

theorem atomic_procToCombinationalBlock_iff_example : ∃ block,
    procToCombinationalBlock (fun _ => .ok true) exampleProc = .ok block ∧
    Atomic [⟨none, true⟩, ⟨none, true⟩] [] (block () (fun _ => true) fun _ => true) := by
  have h := atomic_procToCombinationalBlock_iff
    (rfl : procToCombinationalBlock (fun _ => .ok true) exampleProc = .ok _)
    (fun _ _ _ => .nil) () (fun _ => true) fun _ => true
  refine ⟨_, rfl, (h.mpr ⟨?_, ?_⟩).2⟩
  · rintro ⟨e, he, -, hne⟩
    cases he
    exact hne rfl
  · rintro ⟨-, -, p, hp, -, hsignal⟩
    simp [ports, exampleProc] at hp
    simp [hp] at hsignal

/-- Only the first input is valid, and it transfers. -/
theorem half_valid_transfers : ∃ block,
    procToCombinationalBlock (fun _ => .ok true) exampleProc = .ok block ∧
    transfers (block () (· == 0) fun _ => true).ready ⟨none, true⟩ = true ∧
    ¬Fires [⟨none, true⟩, ⟨none, false⟩] [] := by
  refine ⟨_, rfl, rfl, fun h => ?_⟩
  exact absurd (h ⟨none, false⟩ (.inl (by simp)) rfl) (by decide)

end Xls.BlockConversion

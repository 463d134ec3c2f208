import Mathlib.Data.List.Basic

/-!
# Xls.BlockConversion.Buffers

The buffers of a channel's ports (`codegen/block_conversion.cc`): the registers and the gates
that `AddSkidBufferToRDVNodes`, `AddRegisterToRDVNodes` and `AddZeroLatencyBufferToRDVNodes`
put between a data, valid and ready node and what used them. Each is a FIFO that loses no
word (`isFifo_buffers`).
-/

namespace Xls.BlockConversion

open List

variable {α : Type}

/-- The nodes around a buffer in one cycle: `to_is_ready` is the operand that `from_rdy` had. -/
structure RDVNodes (α : Type) where
  fromData : α
  fromValid : Bool
  toIsReady : Bool

/-- What a buffer drives in one cycle: the uses of the data and the valid node are replaced by
`to_data` and `to_valid`, and the operand of `from_rdy` by `fromRdy`. -/
structure Driven (α : Type) where
  toData : α
  toValid : Bool
  fromRdy : Bool

/-- What a register holds next. -/
def load {β : Type} (loadEnable : Bool) (data register : β) : β :=
  if loadEnable then data else register

/-- Registers with what they drive and how they are loaded. -/
structure Buffer (α : Type) where
  Registers : Type
  reset : Registers
  step : Registers → RDVNodes α → Driven α × Registers

/-! ### The three buffers -/

structure SkidRegisters (α : Type) where
  data : α
  dataSkid : α
  dataValid : Bool
  dataValidSkid : Bool

/-- `AddSkidBufferToRDVNodes`. -/
def addSkidBufferToRDVNodes (zero : α) : Buffer α where
  Registers := SkidRegisters α
  reset := ⟨zero, zero, false, false⟩
  step r nodes :=
    let toValid := r.dataValid || r.dataValidSkid
    let toData := if r.dataValidSkid then r.dataSkid else r.data
    let fromSkidRdy := !r.dataValidSkid
    let inputReadyAndValid := nodes.fromValid && fromSkidRdy
    let dataIsSentTo := r.dataValid && nodes.toIsReady && fromSkidRdy
    let validLoadEn := dataIsSentTo || inputReadyAndValid
    let toIsNotRdy := !nodes.toIsReady
    let skidDataLoadEn := r.dataValid && inputReadyAndValid && toIsNotRdy
    let skidValidSetZero := r.dataValidSkid && nodes.toIsReady
    let skidValidLoadEn := skidDataLoadEn || skidValidSetZero
    (⟨toData, toValid, fromSkidRdy⟩,
      { data := load inputReadyAndValid nodes.fromData r.data
        dataSkid := load skidDataLoadEn r.data r.dataSkid
        dataValid := load validLoadEn nodes.fromValid r.dataValid
        -- The skid's valid register is toggled: its data operand is `from_skid_rdy`.
        dataValidSkid := load skidValidLoadEn fromSkidRdy r.dataValidSkid })

structure DataValid (α : Type) where
  data : α
  valid : Bool

/-- `AddRegisterToRDVNodes`. -/
def addRegisterToRDVNodes (zero : α) : Buffer α where
  Registers := DataValid α
  reset := ⟨zero, false⟩
  step r nodes :=
    let notValid := !r.valid
    let validLoadEn := nodes.toIsReady || notValid
    let dataLoadEn := nodes.fromValid && validLoadEn
    (⟨r.data, r.valid, dataLoadEn⟩,
      { data := load dataLoadEn nodes.fromData r.data
        valid := load validLoadEn nodes.fromValid r.valid })

/-- `AddZeroLatencyBufferToRDVNodes`: the registers are the skid's. -/
def addZeroLatencyBufferToRDVNodes (zero : α) : Buffer α where
  Registers := DataValid α
  reset := ⟨zero, false⟩
  step skid nodes :=
    let toValid := nodes.fromValid || skid.valid
    let toData := if skid.valid then skid.data else nodes.fromData
    let fromSkidRdy := !skid.valid
    let toIsNotRdy := !nodes.toIsReady
    let skidDataLoadEn := nodes.fromValid && fromSkidRdy && toIsNotRdy
    let skidValidSetZero := skid.valid && nodes.toIsReady
    let skidValidLoadEn := skidDataLoadEn || skidValidSetZero
    (⟨toData, toValid, fromSkidRdy⟩,
      { data := load skidDataLoadEn nodes.fromData skid.data
        valid := load skidValidLoadEn fromSkidRdy skid.valid })

/-! ### Runs -/

/-- The value that a cycle accepts upstream, if it accepts one. -/
def accepted (nodes : RDVNodes α) (driven : Driven α) : List α :=
  if nodes.fromValid && driven.fromRdy then [nodes.fromData] else []

/-- The value that a buffer offers downstream, if it offers one. -/
def Driven.offer (driven : Driven α) : Option α :=
  if driven.toValid then some driven.toData else none

/-- The value that a cycle transfers downstream, if it transfers one. -/
def delivered (nodes : RDVNodes α) (driven : Driven α) : List α :=
  if nodes.toIsReady then driven.offer.toList else []

namespace Buffer

variable {b : Buffer α} {depth : Nat} {content : b.Registers → List α}

/-- The registers after some cycles, and the values that the cycles accepted and delivered. -/
def run (b : Buffer α) : List (RDVNodes α) → b.Registers → b.Registers × List α × List α
  | [], r => (r, [], [])
  | nodes :: cycles, r =>
    let (driven, r) := b.step r nodes
    let (r, accepts, delivers) := b.run cycles r
    (r, accepted nodes driven ++ accepts, delivered nodes driven ++ delivers)

/-- The step of a FIFO that holds `content`: what it held and accepts is what it delivers and
holds next, and an offer that is not taken is made again. -/
structure Steps (b : Buffer α) (depth : Nat) (content : b.Registers → List α) : Prop where
  reset : content b.reset = []
  length (r : b.Registers) : (content r).length ≤ depth
  moved (r : b.Registers) (nodes : RDVNodes α) :
    content r ++ accepted nodes (b.step r nodes).1 =
      delivered nodes (b.step r nodes).1 ++ content (b.step r nodes).2
  offered (r : b.Registers) (nodes nodes' : RDVNodes α) (v : α) :
    (b.step r nodes).1.offer = some v → nodes.toIsReady = false →
      (b.step (b.step r nodes).2 nodes').1.offer = some v

theorem Steps.run_moved (h : Steps b depth content) (cycles : List (RDVNodes α))
    (r : b.Registers) : content r ++ (b.run cycles r).2.1 =
      (b.run cycles r).2.2 ++ content (b.run cycles r).1 := by
  induction cycles generalizing r with
  | nil => simp [run]
  | cons nodes cycles ih =>
    simp only [run]
    rw [← append_assoc, h.moved, append_assoc, ih, append_assoc]

theorem Steps.run_offered (h : Steps b depth content) {stalls : List (RDVNodes α)}
    (hstalls : ∀ nodes ∈ stalls, nodes.toIsReady = false) (nodes' : RDVNodes α) {r : b.Registers}
    {v : α} (hoffer : ∀ nodes, (b.step r nodes).1.offer = some v) :
    (b.step (b.run stalls r).1 nodes').1.offer = some v := by
  induction stalls generalizing r with
  | nil => exact hoffer nodes'
  | cons stall stalls ih =>
    rw [forall_mem_cons] at hstalls
    exact ih hstalls.2 fun nodes => h.offered r stall nodes v (hoffer stall) hstalls.1

/-- A FIFO of a depth, over every run from reset. What is offered in a cycle and not taken is
offered after every number of stalls. -/
def IsFifo (b : Buffer α) (depth : Nat) : Prop :=
  ∀ cycles, ∃ r accepts delivers, b.run cycles b.reset = (r, accepts, delivers) ∧
    delivers <+: accepts ∧ accepts.length ≤ delivers.length + depth ∧
    ∀ nodes v, (b.step r nodes).1.offer = some v → nodes.toIsReady = false →
      ∀ stalls, (∀ stall ∈ stalls, stall.toIsReady = false) → ∀ nodes',
        (b.step (b.run stalls (b.step r nodes).2).1 nodes').1.offer = some v

theorem Steps.isFifo (h : Steps b depth content) : b.IsFifo depth := by
  intro cycles
  have hmoved := h.run_moved cycles b.reset
  rw [h.reset, nil_append] at hmoved
  refine ⟨_, _, _, rfl, ⟨_, hmoved.symm⟩, ?_, ?_⟩
  · rw [hmoved, length_append]
    exact Nat.add_le_add_left (h.length _) _
  · intro nodes v hoffer hstall stalls hstalls nodes'
    exact h.run_offered hstalls nodes' fun next => h.offered _ nodes next v hoffer hstall

end Buffer

/-! ### What each buffer holds -/

/-- The oldest value of a skid buffer is in the skid. -/
def SkidRegisters.content (r : SkidRegisters α) : List α :=
  (if r.dataValidSkid then [r.dataSkid] else []) ++ if r.dataValid then [r.data] else []

def DataValid.content (r : DataValid α) : List α :=
  if r.valid then [r.data] else []

theorem DataValid.length_content (r : DataValid α) : r.content.length ≤ 1 := by
  cases hv : r.valid <;> simp [DataValid.content, hv]

theorem steps_addSkidBufferToRDVNodes (zero : α) :
    Buffer.Steps (addSkidBufferToRDVNodes zero) 2 SkidRegisters.content where
  reset := rfl
  length := fun ⟨_, _, valid, skid⟩ => by
    cases valid <;> cases skid <;> simp [SkidRegisters.content]
  moved := fun ⟨_, _, valid, skid⟩ ⟨_, fromValid, ready⟩ => by
    cases valid <;> cases skid <;> cases fromValid <;> cases ready <;> rfl
  offered := fun ⟨_, _, valid, skid⟩ ⟨_, fromValid, _⟩ nodes' v hoffer hstall => by
    cases hstall
    cases valid <;> cases skid <;> cases fromValid <;> first | exact hoffer | cases hoffer

theorem steps_addRegisterToRDVNodes (zero : α) :
    Buffer.Steps (addRegisterToRDVNodes zero) 1 DataValid.content where
  reset := rfl
  length := DataValid.length_content
  moved := fun ⟨_, valid⟩ ⟨_, fromValid, ready⟩ => by
    cases valid <;> cases fromValid <;> cases ready <;> rfl
  offered := fun ⟨_, valid⟩ ⟨_, fromValid, _⟩ nodes' v hoffer hstall => by
    cases hstall
    cases valid <;> cases fromValid <;> first | exact hoffer | cases hoffer

theorem steps_addZeroLatencyBufferToRDVNodes (zero : α) :
    Buffer.Steps (addZeroLatencyBufferToRDVNodes zero) 1 DataValid.content where
  reset := rfl
  length := DataValid.length_content
  moved := fun ⟨_, valid⟩ ⟨_, fromValid, ready⟩ => by
    cases valid <;> cases fromValid <;> cases ready <;> rfl
  -- An offer that comes straight from the upstream is accepted, and made again from the skid.
  offered := fun ⟨_, valid⟩ ⟨_, fromValid, _⟩ ⟨_, fromValid', _⟩ v hoffer hstall => by
    cases hstall
    cases valid <;> cases fromValid <;> cases fromValid' <;> first | exact hoffer | cases hoffer

/-- The three buffers of the ports are FIFOs of their depths. -/
theorem isFifo_buffers (zero : α) :
    (addSkidBufferToRDVNodes zero).IsFifo 2 ∧ (addRegisterToRDVNodes zero).IsFifo 1 ∧
      (addZeroLatencyBufferToRDVNodes zero).IsFifo 1 :=
  ⟨(steps_addSkidBufferToRDVNodes zero).isFifo, (steps_addRegisterToRDVNodes zero).isFifo,
    (steps_addZeroLatencyBufferToRDVNodes zero).isFifo⟩

end Xls.BlockConversion

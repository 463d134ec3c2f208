import Xls.ValueProto

/-!
# Xls.FifoModel

The FIFO of the block interpreter (`interpreter/block_interpreter.cc`), over whole runs: in a
cycle its ports are handled in any order, and the next cycle starts from the elements that
the inputs left. What was pushed is what was popped and what is stored, in order
(`run_lossless`).
-/

namespace Xls

open Result List

/-- `Value::IsAllOnes`, of the bits that the handshake ports carry. -/
def KindedValue.isAllOnes : KindedValue → Bool
  | .bits b => b.isAllOnes
  | _ => false

/-- `FifoConfig`. -/
structure FifoConfig where
  depth : Nat
  bypass : Bool

/-- `FifoModel`, which is made anew in every cycle. -/
structure FifoModel where
  elements : KindedValue
  nextElements : Option KindedValue
  pushData : Option KindedValue
  pushValid : Option KindedValue
  popReady : Option KindedValue

namespace FifoModel

def new (elements : KindedValue) : FifoModel := ⟨elements, none, none, none, none⟩

def retCheck (cond : Bool) (text : String) : Result Unit :=
  if cond then .ok () else .error (.status s!"XLS_RET_CHECK failure: {text}")

variable (config : FifoConfig)

/-- The elements that the inputs leave. -/
def next (elements : List KindedValue) (pushValid pushData popReady : KindedValue) :
    List KindedValue :=
  let empty := elements.isEmpty
  let full := elements.length == config.depth
  let popElement := !empty && popReady.isAllOnes
  let pushedElementImmediatelyPopped :=
    empty && config.bypass && popReady.isAllOnes && pushValid.isAllOnes
  let pushElement := pushValid.isAllOnes && !pushedElementImmediatelyPopped &&
    (!full || (config.bypass && popReady.isAllOnes))
  (if popElement then elements.drop 1 else elements) ++ if pushElement then [pushData] else []

/-- The end of `HandleInput`, when every input is there. -/
def update (m : FifoModel) : Result FifoModel :=
  match m.pushValid, m.pushData, m.popReady with
  | some pushValid, some pushData, some popReady =>
    match m.elements with
    | .tuple elements => do
      let nextElements := next config elements pushValid pushData popReady
      retCheck (nextElements.length ≤ config.depth) "next_elements.size() <= config_.depth()"
      return { m with nextElements := some (.tuple nextElements) }
    | _ => .error (.status "XLS_RET_CHECK failure: Elements().IsTuple()")
  | _, _, _ => return m

/-- `HandleInput`. -/
def handleInput (m : FifoModel) (portName : String) (value : KindedValue) : Result FifoModel :=
  if portName = "push_valid" then update config { m with pushValid := some value }
  else if portName = "push_data" then update config { m with pushData := some value }
  else if portName = "pop_ready" then update config { m with popReady := some value }
  else .error (.status s!"Unexpected port '{portName}'")

/-- An input that a bypass needs. -/
def given : Option KindedValue → Result KindedValue
  | some value => .ok value
  | none => .error (.status "XLS_RET_CHECK failure: has_value()")

def bit (b : Bool) : KindedValue := .bits (Bits.ofNat 1 b.toNat)

variable (zeroOfType : KindedValue)

/-- `HandleOutput`. -/
def handleOutput (m : FifoModel) (portName : String) : Result KindedValue :=
  match m.elements with
  | .tuple elements => do
    retCheck (elements.length ≤ config.depth) "elements.size() <= config_.depth()"
    if portName = "pop_valid" then
      if elements.isEmpty && config.bypass then given m.pushValid
      else return bit !elements.isEmpty
    else if portName = "pop_data" then
      match elements with
      | first :: _ => return first
      | [] => if config.bypass then given m.pushData else return zeroOfType
    else if portName = "push_ready" then
      if elements.length == config.depth && config.bypass then given m.popReady
      else return bit !(elements.length == config.depth)
    else .error (.status s!"Unexpected port '{portName}'")
  | _ => .error (.status "XLS_RET_CHECK failure: Elements().IsTuple()")

/-! ### Cycles and runs -/

/-- The inputs of a cycle. -/
structure Inputs where
  pushValid : Bool
  pushData : KindedValue
  popReady : Bool

/-- The value at a port. -/
def Inputs.value (i : Inputs) (portName : String) : KindedValue :=
  if portName = "push_valid" then bit i.pushValid
  else if portName = "push_data" then i.pushData
  else bit i.popReady

/-- A port that is handled. -/
inductive Event
  | input (portName : String)
  | output (portName : String)
  deriving DecidableEq

def inputPorts : List String := ["push_valid", "push_data", "pop_ready"]

def outputPorts : List String := ["pop_valid", "pop_data", "push_ready"]

/-- The input that a bypass of an output reads. -/
def dependency (portName : String) : String :=
  if portName = "pop_valid" then "push_valid"
  else if portName = "pop_data" then "push_data"
  else "pop_ready"

/-- Every port is handled once, and an output after the input that its bypass reads. -/
structure Scheduled (events : List Event) : Prop where
  perm : events.Perm (inputPorts.map .input ++ outputPorts.map .output)
  after : config.bypass = true → ∀ before portName rest,
    events = before ++ .output portName :: rest → .input (dependency portName) ∈ before

/-- The ports of a cycle in their order, with what the outputs report. -/
def handle (i : Inputs) : List Event → FifoModel → Result (FifoModel × List (String × KindedValue))
  | [], m => .ok (m, [])
  | .input portName :: events, m => do
    let m ← m.handleInput config portName (i.value portName)
    handle i events m
  | .output portName :: events, m => do
    let value ← m.handleOutput config zeroOfType portName
    let (m, reports) ← handle i events m
    return (m, (portName, value) :: reports)

/-- A cycle: the stored elements after it, and what the outputs reported. -/
def cycle (i : Inputs) (events : List Event) (elements : KindedValue) :
    Result (KindedValue × List (String × KindedValue)) := do
  let (m, reports) ← handle config zeroOfType i events (new elements)
  let nextElements ← derefOption m.nextElements
  return (nextElements, reports)

/-- A port that is reported high. -/
def high (reports : List (String × KindedValue)) (portName : String) : Bool :=
  (reports.lookup portName).any KindedValue.isAllOnes

/-- The value that a cycle pushes, if it pushes one. -/
def pushed (i : Inputs) (reports : List (String × KindedValue)) : List KindedValue :=
  if i.pushValid && high reports "push_ready" then [i.pushData] else []

/-- The value that a cycle pops, if it pops one. -/
def popped (i : Inputs) (reports : List (String × KindedValue)) : List KindedValue :=
  if i.popReady && high reports "pop_valid" then (reports.lookup "pop_data").toList else []

/-- The inputs of a cycle and an order of its ports. -/
structure Cycle where
  inputs : Inputs
  events : List Event
  scheduled : Scheduled config events

/-- A run of cycles from stored elements: the elements after it and the values that it pushed
and popped. -/
def run : List (Cycle config) → KindedValue →
    Result (KindedValue × List KindedValue × List KindedValue)
  | [], elements => .ok (elements, [], [])
  | c :: cycles, elements => do
    let (elements, reports) ← cycle config zeroOfType c.inputs c.events elements
    let (elements, pushes, pops) ← run cycles elements
    return (elements, pushed c.inputs reports ++ pushes, popped c.inputs reports ++ pops)

/-! ### One cycle -/

variable {config zeroOfType} {i : Inputs} {m : FifoModel} {es : List KindedValue}
  {seen events : List Event} {portName : String}

@[simp] theorem isAllOnes_bit (b : Bool) : (bit b).isAllOnes = b := by cases b <;> rfl

/-- The elements that a cycle leaves. -/
def after (config : FifoConfig) (i : Inputs) (es : List KindedValue) : List KindedValue :=
  next config es (bit i.pushValid) i.pushData (bit i.popReady)

/-- What an output reports. -/
def report (config : FifoConfig) (zeroOfType : KindedValue) (i : Inputs) (es : List KindedValue)
    (portName : String) : KindedValue :=
  if portName = "pop_valid" then
    bit (if es.isEmpty && config.bypass then i.pushValid else !es.isEmpty)
  else if portName = "pop_data" then
    es.headD (if config.bypass then i.pushData else zeroOfType)
  else bit (if es.length == config.depth && config.bypass then i.popReady
    else !(es.length == config.depth))

theorem length_after (hes : es.length ≤ config.depth) :
    (after config i es).length ≤ config.depth := by
  cases es with
  | nil => cases hv : i.pushValid <;> cases hr : i.popReady <;> cases hb : config.bypass <;>
      simp [after, next, hv, hr, hb] <;> grind
  | cons e es => cases hv : i.pushValid <;> cases hr : i.popReady <;> cases hb : config.bypass <;>
      simp [after, next, hv, hr, hb] <;> grind

/-- Whether an input has been handled. -/
def handled (seen : List Event) (portName : String) : Bool := .input portName ∈ seen

/-- The model when some ports have been handled, each once. -/
def known (config : FifoConfig) (i : Inputs) (es : List KindedValue) (seen : List Event) :
    FifoModel where
  elements := .tuple es
  nextElements :=
    if handled seen "push_valid" && handled seen "push_data" && handled seen "pop_ready" then
      some (.tuple (after config i es))
    else none
  pushData := if handled seen "push_data" then some i.pushData else none
  pushValid := if handled seen "push_valid" then some (bit i.pushValid) else none
  popReady := if handled seen "pop_ready" then some (bit i.popReady) else none

@[simp] theorem handled_input (p q : String) :
    handled (.input q :: seen) p = (p == q || handled seen p) := by
  simp [handled, Bool.beq_eq_decide_eq, Bool.decide_or]

@[simp] theorem handled_output (p q : String) :
    handled (.output q :: seen) p = handled seen p := by simp [handled]

theorem handleInput_known (hes : es.length ≤ config.depth) (hport : portName ∈ inputPorts)
    (hfirst : handled seen portName = false) :
    (known config i es seen).handleInput config portName (i.value portName) =
      .ok (known config i es (.input portName :: seen)) := by
  have hle := length_after (i := i) hes
  rw [after] at hle
  simp only [inputPorts, mem_cons, not_mem_nil, or_false] at hport
  rcases hport with rfl | rfl | rfl <;>
    cases hv : handled seen "push_valid" <;> cases hd : handled seen "push_data" <;>
    cases hr : handled seen "pop_ready" <;>
    simp_all [known, handleInput, update, Inputs.value, retCheck, after]

theorem handleOutput_known (hes : es.length ≤ config.depth) (hport : portName ∈ outputPorts)
    (hafter : config.bypass = true → handled seen (dependency portName) = true) :
    (known config i es seen).handleOutput config zeroOfType portName =
      .ok (report config zeroOfType i es portName) := by
  simp only [outputPorts, mem_cons, not_mem_nil, or_false] at hport
  rcases hport with rfl | rfl | rfl <;> cases hb : config.bypass <;> cases es <;>
    simp_all [known, handleOutput, report, retCheck, dependency, given]
  all_goals split <;> rfl

/-- The outputs that are handled, in their order. -/
def outputs (events : List Event) : List String :=
  events.filterMap fun e => match e with
    | .output portName => some portName
    | .input _ => none

/-- The events of a cycle, in any order that handles what a bypass reads first. -/
theorem handle_spec (hes : es.length ≤ config.depth) (hnodup : (seen.reverse ++ events).Nodup)
    (hports : ∀ e ∈ events, e ∈ inputPorts.map Event.input ++ outputPorts.map Event.output)
    (hafter : config.bypass = true → ∀ before portName rest,
      seen.reverse ++ events = before ++ .output portName :: rest →
        .input (dependency portName) ∈ before) :
    handle config zeroOfType i events (known config i es seen) =
      .ok (known config i es (events.reverse ++ seen),
        (outputs events).map fun p => (p, report config zeroOfType i es p)) := by
  induction events generalizing seen with
  | nil => rfl
  | cons e events ih =>
    rw [forall_mem_cons] at hports
    have hrest := @ih (e :: seen) (by simpa using hnodup) hports.2 (by simpa using hafter)
    cases e with
    | input portName =>
      have hport : portName ∈ inputPorts := by simpa using hports.1
      have hfirst : handled seen portName = false := by
        simp [nodup_append, handled] at hnodup ⊢
        exact fun h => (hnodup.2.2 _ h).1 rfl
      rw [handle, handleInput_known hes hport hfirst, ok_bind, hrest]
      simp [outputs]
    | output portName =>
      have hport : portName ∈ outputPorts := by simpa using hports.1
      have hknown : known config i es (.output portName :: seen) = known config i es seen := by
        simp [known]
      rw [hknown] at hrest
      rw [handle, handleOutput_known hes hport fun hb => by
        simpa [handled] using hafter hb seen.reverse portName events rfl, ok_bind, hrest]
      simp [outputs]

/-- Looking up a port in the table made from the list of ports. -/
theorem lookup_map {β : Type} (f : String → β) {l : List String} {p : String} (hp : p ∈ l) :
    (l.map fun p => (p, f p)).lookup p = some (f p) := by
  induction l with
  | nil => cases hp
  | cons q l ih =>
    rw [map_cons, lookup_cons]
    split
    · rename_i h
      rw [beq_iff_eq.mp h]
    · rename_i h
      exact ih ((mem_cons.mp hp).resolve_left fun heq => by simp [heq] at h)

/-- What a cycle does with the stored elements. -/
theorem cycle_spec (hes : es.length ≤ config.depth) (h : Scheduled config events) :
    ∃ es' reports, cycle config zeroOfType i events (.tuple es) = .ok (.tuple es', reports) ∧
      es'.length ≤ config.depth ∧ es ++ pushed i reports = popped i reports ++ es' := by
  have hmem : ∀ e, e ∈ events ↔ e ∈ inputPorts.map Event.input ++ outputPorts.map Event.output :=
    fun e => h.perm.mem_iff
  have hrun := @handle_spec config zeroOfType i es [] events hes
    (h.perm.nodup_iff.mpr (by decide)) (fun e he => (hmem e).mp he) (by simpa using h.after)
  have hnew : new (.tuple es) = known config i es [] := by simp [new, known, handled]
  have hnext : (known config i es (events.reverse ++ [])).nextElements =
      some (.tuple (after config i es)) := by
    simp [known, handled, hmem, inputPorts, outputPorts]
  have hreport : ∀ p ∈ outputPorts, ((outputs events).map fun p =>
      (p, report config zeroOfType i es p)).lookup p = some (report config zeroOfType i es p) := by
    intro p hp
    refine lookup_map _ (mem_filterMap.mpr ⟨.output p, (hmem _).mpr ?_, rfl⟩)
    exact mem_append_right _ (mem_map_of_mem hp)
  refine ⟨after config i es, _, by rw [cycle, hnew, hrun, ok_bind]; simp only [hnext]; rfl,
    length_after hes, ?_⟩
  simp only [pushed, popped, high, hreport "push_ready" (by decide),
    hreport "pop_valid" (by decide), hreport "pop_data" (by decide)]
  cases es <;> cases hv : i.pushValid <;> cases hr : i.popReady <;> cases hb : config.bypass <;>
    simp [report, after, next, hv, hr, hb]

/-! ### Runs -/

theorem run_spec (cycles : List (Cycle config)) (hes : es.length ≤ config.depth) :
    ∃ es' pushes pops, run config zeroOfType cycles (.tuple es) = .ok (.tuple es', pushes, pops) ∧
      es'.length ≤ config.depth ∧ es ++ pushes = pops ++ es' := by
  induction cycles generalizing es with
  | nil => exact ⟨es, [], [], rfl, hes, append_nil es⟩
  | cons c cycles ih =>
    obtain ⟨es₁, reports, hcycle, hes₁, hmoved⟩ := cycle_spec (i := c.inputs) hes c.scheduled
    obtain ⟨es', pushes, pops, hrun, hes', hrest⟩ := ih hes₁
    refine ⟨es', _, _, by rw [run, hcycle, ok_bind]; simp only [hrun]; rfl, hes', ?_⟩
    rw [← append_assoc, hmoved, append_assoc, hrest, append_assoc]

/-- In every run the checks of the depth hold, the stored elements are the pushed values that are
not popped yet, and a cycle whose push is refused takes at most the first element. -/
theorem run_lossless (config : FifoConfig) (zeroOfType : KindedValue)
    (cycles : List (Cycle config)) : ∃ elements pushes pops,
      run config zeroOfType cycles (.tuple []) = .ok (.tuple elements, pushes, pops) ∧
      pushes = pops ++ elements ∧ elements.length ≤ config.depth ∧
      ∀ next : Cycle config, ∃ elements' reports,
        cycle config zeroOfType next.inputs next.events (.tuple elements) =
          .ok (.tuple elements', reports) ∧ (high reports "push_ready" = false →
          elements = popped next.inputs reports ++ elements') := by
  obtain ⟨elements, pushes, pops, hrun, hlength, hmoved⟩ :=
    @run_spec config zeroOfType [] cycles (Nat.zero_le config.depth)
  refine ⟨elements, pushes, pops, hrun, hmoved, hlength, fun next => ?_⟩
  obtain ⟨elements', reports, hcycle, -, hmoved⟩ :=
    cycle_spec (i := next.inputs) hlength next.scheduled
  refine ⟨elements', reports, hcycle, fun hrefused => ?_⟩
  rw [← hmoved, pushed, hrefused, Bool.and_false, if_neg (by decide), append_nil]

/-- The inputs first, then the outputs, of a FIFO of one element. -/
def inOrder (inputs : Inputs) : Cycle ⟨1, false⟩ where
  inputs := inputs
  events := inputPorts.map .input ++ outputPorts.map .output
  scheduled := ⟨.refl _, nofun⟩

/-- Every output right after the input that its bypass reads. -/
def interleaved : List Event :=
  [.input "push_valid", .output "pop_valid", .input "push_data", .output "pop_data",
    .input "pop_ready", .output "push_ready"]

/-- An order in which inputs and outputs alternate is allowed even with a bypass. -/
theorem scheduled_interleaved (config : FifoConfig) : Scheduled config interleaved where
  perm := by decide
  after := by
    intro _ before portName rest h
    have hlength : before.length < 6 := by
      have := congrArg length h
      simp only [interleaved, length_append, length_cons, length_nil] at this
      omega
    have hget : interleaved[before.length]? = some (.output portName) := by
      rw [h, getElem?_append_right (le_refl _), Nat.sub_self, getElem?_cons_zero]
    have htake : interleaved.take before.length = before := by rw [h, take_left]
    rw [← htake]
    generalize before.length = k at hlength hget
    -- Each place has an input, or an output whose input is at the place before.
    interval_cases k <;> cases hget <;> decide

/-- An empty FIFO with a bypass hands the pushed value on, and a full one takes a value in the
cycle in which it gives one. -/
example : run ⟨1, true⟩ (bit false)
    [⟨⟨true, bit true, true⟩, _, scheduled_interleaved _⟩,
      ⟨⟨true, bit true, false⟩, _, scheduled_interleaved _⟩,
      ⟨⟨true, bit false, true⟩, _, scheduled_interleaved _⟩] (.tuple []) =
    .ok (.tuple [bit false], [bit true, bit true, bit false], [bit true, bit true]) := rfl

/-- A refused push in a cycle that pops: the stored elements change. -/
theorem refused_changes : ∃ elements pushes reports,
    run ⟨1, false⟩ (bit false) [inOrder ⟨true, bit true, false⟩] (.tuple []) =
      .ok (.tuple elements, pushes, []) ∧
    cycle ⟨1, false⟩ (bit false) ⟨true, bit true, true⟩ (inOrder ⟨true, bit true, true⟩).events
      (.tuple elements) = .ok (.tuple [], reports) ∧
    high reports "push_ready" = false ∧ elements ≠ [] :=
  ⟨[bit true], _, _, rfl, rfl, rfl, cons_ne_nil _ _⟩

end FifoModel

end Xls

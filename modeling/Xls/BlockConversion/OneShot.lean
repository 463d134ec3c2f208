import Xls.BlockConversion.Buffers
import Xls.BlockConversion.Combinational
import Mathlib.Data.List.OfFn

/-!
# Xls.BlockConversion.OneShot

The one-shot logic of the outputs of a stage (`codegen/block_conversion.cc`), over whole
runs. A cycle has its own predicates: they may read a non-blocking receive or a single-value
channel. While no output loses its predicate between its transfer and the advance of the
stage, each transfers once in an activation (`once_run`).
-/

namespace Xls.BlockConversion

/-- A stage in a cycle: its conditions, and the predicate and the ready of each output. -/
structure StageCycle (n : Nat) where
  allActiveInputsValid : Bool
  stageValid : Bool
  nextStageOpen : Bool
  outputs : Fin n → StreamingPort

variable {n : Nat}

namespace StageCycle

variable (c : StageCycle n) (hasBeenSent : Fin n → Bool) (k : Fin n)

/-- `all_active_outputs_ready`, where the ready of an output is `has_sent_or_is_ready`. -/
def allActiveOutputsReady : Bool :=
  makeInputReadyPortsForOutputChannels (List.ofFn fun k =>
    { c.outputs k with signal := (c.outputs k).signal || hasBeenSent k })

/-- `data_enable`: the stage is done and the next one is open, so it advances. -/
def dataEnable : Bool :=
  c.nextStageOpen &&
    (c.stageValid && c.allActiveInputsValid && c.allActiveOutputsReady hasBeenSent)

/-- `from_valid`. -/
def fromValid : Bool :=
  makeOutputValidPortsForOutputChannels c.allActiveInputsValid c.stageValid c.nextStageOpen
    (c.outputs k)

/-- `valid_and_not_has_been_sent`, which the valid port of the output drives. -/
def validAndNotHasBeenSent : Bool := c.fromValid k && !hasBeenSent k

/-- `valid_and_ready_txfr`: the output transfers. -/
def validAndReadyTxfr : Bool := c.validAndNotHasBeenSent hasBeenSent k && (c.outputs k).signal

/-- `AddOneShotLogicToRVNodes`: the `has_been_sent` register in the next cycle. -/
def addOneShotLogicToRVNodes : Bool :=
  let validAndAllActiveOutputsReady := c.fromValid k && c.allActiveOutputsReady hasBeenSent
  let loadEnable := c.validAndReadyTxfr hasBeenSent k || validAndAllActiveOutputsReady
  let notStageLoad := !validAndAllActiveOutputsReady
  load loadEnable notStageLoad (hasBeenSent k)

end StageCycle

/-- The registers, and how often each output has transferred since the stage advanced. -/
structure Activation (n : Nat) where
  hasBeenSent : Fin n → Bool
  transferred : Fin n → Nat

namespace Activation

/-- After the reset. -/
def start : Activation n := ⟨fun _ => false, fun _ => 0⟩

def step (s : Activation n) (c : StageCycle n) : Activation n where
  hasBeenSent := c.addOneShotLogicToRVNodes s.hasBeenSent
  transferred k := if c.dataEnable s.hasBeenSent then 0
    else s.transferred k + (c.validAndReadyTxfr s.hasBeenSent k).toNat

/-- In a cycle in which the stage advances, an output that has sent is still active. -/
def Keeps (s : Activation n) (c : StageCycle n) : Prop :=
  c.dataEnable s.hasBeenSent = true →
    ∀ k, s.hasBeenSent k = true → (c.outputs k).active = true

def AllKeep (s : Activation n) : List (StageCycle n) → Prop
  | [] => True
  | c :: cycles => s.Keeps c ∧ (s.step c).AllKeep cycles

/-- An output in a cycle: by the end of the activation it has transferred once if it is active and
not at all if it is not, and its register follows its own transfer and the advance. -/
structure Once (s : Activation n) (c : StageCycle n) (k : Fin n) : Prop where
  atMostOnce : s.transferred k + (c.validAndReadyTxfr s.hasBeenSent k).toNat ≤ 1
  active : c.validAndReadyTxfr s.hasBeenSent k = true → (c.outputs k).active = true
  exactly : c.dataEnable s.hasBeenSent = true →
    s.transferred k + (c.validAndReadyTxfr s.hasBeenSent k).toNat = (c.outputs k).active.toNat
  set : s.hasBeenSent k = false → (s.step c).hasBeenSent k = true →
    c.validAndReadyTxfr s.hasBeenSent k = true
  cleared : s.hasBeenSent k = true →
    ((s.step c).hasBeenSent k = false ↔ c.dataEnable s.hasBeenSent = true)

variable {s : Activation n} {c : StageCycle n} {k : Fin n}

theorem ready_or_sent (h : c.allActiveOutputsReady s.hasBeenSent = true)
    (hactive : (c.outputs k).active = true) :
    (c.outputs k).signal = true ∨ s.hasBeenSent k = true := by
  have hready := all_activeSignal.mp h _ (List.mem_ofFn.mpr ⟨k, rfl⟩) hactive
  simpa using hready

/-- The stage has its inputs and its data, and the next one is open. -/
def fires (c : StageCycle n) : Bool := c.allActiveInputsValid && c.stageValid && c.nextStageOpen

theorem dataEnable_eq : c.dataEnable s.hasBeenSent =
    (fires c && c.allActiveOutputsReady s.hasBeenSent) := by
  rw [fires, StageCycle.dataEnable]
  ac_rfl

/-- A step keeps the count and the register of an output in agreement. -/
theorem once_of_keeps (hc : s.Keeps c) (hs : s.transferred k = (s.hasBeenSent k).toNat) :
    s.Once c k ∧ (s.step c).transferred k = ((s.step c).hasBeenSent k).toNat := by
  have hkeeps := fun h => hc h k
  have hready := @ready_or_sent n s c k
  have hvalid : c.fromValid k = (fires c && (c.outputs k).active) := rfl
  rw [dataEnable_eq] at hkeeps
  refine ⟨⟨?_, ?_, ?_, ?_, ?_⟩, ?_⟩
  all_goals
    simp only [step, StageCycle.addOneShotLogicToRVNodes, StageCycle.validAndReadyTxfr,
      StageCycle.validAndNotHasBeenSent, hvalid, hs, dataEnable_eq, load]
    revert hkeeps hready
    cases fires c <;> cases c.allActiveOutputsReady s.hasBeenSent <;>
      cases (c.outputs k).active <;> cases (c.outputs k).signal <;> cases s.hasBeenSent k <;>
      decide

theorem transferred_run (cycles : List (StageCycle n)) (hrun : s.AllKeep cycles)
    (hs : ∀ k, s.transferred k = (s.hasBeenSent k).toNat) (k : Fin n) :
    (cycles.foldl step s).transferred k = ((cycles.foldl step s).hasBeenSent k).toNat := by
  induction cycles generalizing s with
  | nil => exact hs k
  | cons c cycles ih => exact ih hrun.2 fun k => (once_of_keeps hrun.1 (hs k)).2

/-- In every run from the reset in which no output loses its predicate between its transfer and the
advance of the stage: an output transfers once in an activation if it is active, and not at all if
it is not. -/
theorem once_run (cycles : List (StageCycle n)) (hrun : start.AllKeep cycles) (c : StageCycle n)
    (hc : (cycles.foldl step start).Keeps c) (k : Fin n) : (cycles.foldl step start).Once c k :=
  (once_of_keeps hc (transferred_run cycles hrun (fun _ => rfl) k)).1

/-- A cycle of a stage with two outputs, the second without a predicate. -/
def twoOutputs (predicate ready ready' : Bool) : StageCycle 2 where
  allActiveInputsValid := true
  stageValid := true
  nextStageOpen := true
  outputs k := if k.val = 0 then ⟨some predicate, ready⟩ else ⟨none, ready'⟩

/-- The first output transfers, the second one stalls, and when the stage advances the register of
the first is set. -/
theorem once_run_two : ∃ s : Activation 2, s = [twoOutputs true true false].foldl step start ∧
    s.hasBeenSent 0 = true ∧ (twoOutputs true false true).dataEnable s.hasBeenSent = true ∧
    ∀ k, s.Once (twoOutputs true false true) k := by
  have hfirst : start.Keeps (twoOutputs true true false) := fun hadvance =>
    absurd hadvance (by decide)
  have hlast : ∀ k, ((twoOutputs true false true).outputs k).active = true := by decide
  exact ⟨_, rfl, by decide, by decide,
    once_run [twoOutputs true true false] ⟨hfirst, trivial⟩ _ fun _ k _ => hlast k⟩

/-- The first output transfers, loses its predicate before the stage advances, and is dropped in the
next activation. -/
theorem next_send_dropped : ∃ (cycles : List (StageCycle 2)) (c : StageCycle 2),
    c.dataEnable (cycles.foldl step start).hasBeenSent = true ∧ (c.outputs 0).active = true ∧
    (cycles.foldl step start).transferred 0 = 0 ∧
    c.validAndReadyTxfr (cycles.foldl step start).hasBeenSent 0 = false :=
  ⟨[twoOutputs true true false, twoOutputs false false true], twoOutputs true true true, by decide⟩

end Activation

end Xls.BlockConversion

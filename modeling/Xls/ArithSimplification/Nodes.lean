import Xls.Canonicalization.Rules
import Xls.Graph.Emits
import Xls.ArithSimplification.Multiplier
import Xls.ArithSimplification.Shifts

/-!
# Xls.ArithSimplification.Nodes

What the nodes of a division are worth. Each helper of the pass adds nodes whose slices
are never empty, and the value of its result is the operation on bits that it stands for.
-/

namespace Xls

open Interpreter Bits Canonicalization
open Graph (World)
open Graph.World

namespace ArithSimplification

/-- A slice takes at least one bit. -/
def SlicePositive (n : Node) : Prop := ∀ start width, n.kind = .bitSlice start width → 0 < width

variable {env : Env} {args : List Value} {w : World env args} {b : ℚ}

variable {i : Nat} {x : Bits}

theorem emits_getNode {β : Type} {f : Node → Graph.Build β} {Q : World env args → β → Prop}
    (h : w.Holds b i x) (hf : ∀ n : Node, n.type = .bits x.width → Emits SlicePositive w (f n) Q) :
    Emits SlicePositive w (Graph.getNode i >>= f) Q := by
  intro w₁ h₁
  obtain ⟨n, hn, ht⟩ := (h.mono h₁).node
  obtain ⟨a, w₂, hrun, h₂, hmade, ha⟩ := hf n ht w₁ h₁
  refine ⟨a, w₂, ?_, h₂, hmade, ha⟩
  rw [run_getNode hn]
  exact hrun

variable {op : BinOp}

/-- The result of a shift by a number. -/
def shifted (op : BinOp) (x : Bits) (amount : Nat) : Bits :=
  if op = .shra then x.shiftRightArith amount else x.shiftRightLogical amount

end ArithSimplification

end Xls

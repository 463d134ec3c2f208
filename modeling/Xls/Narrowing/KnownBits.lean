import Xls.ArithSimplification.Nodes
import Xls.BitsOps.Narrow
import Xls.Graph.Nodes

/-!
# Xls.Narrowing.KnownBits

The query engines of the narrowing pass (`xls/passes/narrowing_pass.cc`) and the counts of
known bits on which its rules rest. With `kRangeWithContext` each node has an engine of its
own, that of its nearest predicate, and the bits of an operand may also be known from the
engine of the user.
-/

namespace Xls

open Nat
open Graph (Build World)
open Graph.World

/-! ### Loops that count -/

/-- The number of positions from `i` on over which a loop goes before its condition fails. -/
def countFrom (p : Nat → Bool) : Nat → Nat → Nat
  | _, 0 => 0
  | i, n + 1 => if p i then countFrom p (i + 1) n + 1 else 0

/-- The loop over the positions below `n`. -/
def countWhile (p : Nat → Bool) (n : Nat) : Nat := countFrom p 0 n

theorem countFrom_le (p : Nat → Bool) (i n : Nat) : countFrom p i n ≤ n := by
  induction n generalizing i with
  | zero => exact le_refl 0
  | succ n ih =>
    rw [countFrom]
    split
    · exact succ_le_succ (ih (i + 1))
    · exact Nat.zero_le _

variable {p : Nat → Bool} {i n : Nat}

/-- The bits that were counted have the property. -/
theorem countFrom_holds {j : Nat} (h : j < countFrom p i n) : p (i + j) = true := by
  induction n generalizing i j with
  | zero => exact absurd h (Nat.not_lt_zero j)
  | succ n ih =>
    rw [countFrom] at h
    split at h
    · rename_i hp
      cases j with
      | zero => exact hp
      | succ j =>
        rw [← Nat.add_assoc, Nat.add_right_comm]
        exact ih (lt_of_succ_lt_succ h)
    · exact absurd h (Nat.not_lt_zero j)

/-- The loop stops at a position where the condition fails. -/
theorem countFrom_stops (h : countFrom p i n < n) : p (i + countFrom p i n) = false := by
  induction n generalizing i with
  | zero => exact absurd h (Nat.not_lt_zero _)
  | succ n ih =>
    rw [countFrom] at h ⊢
    by_cases hp : p i = true
    · rw [if_pos hp] at h ⊢
      rw [← Nat.add_assoc, Nat.add_right_comm]
      exact ih (lt_of_succ_lt_succ h)
    · rw [if_neg hp]
      exact Bool.eq_false_iff.mpr hp

theorem countWhile_le (p : Nat → Bool) (n : Nat) : countWhile p n ≤ n := countFrom_le p 0 n

theorem countWhile_holds (h : i < countWhile p n) : p i = true := by
  have hp := countFrom_holds h
  rwa [Nat.zero_add] at hp

theorem countWhile_stops (h : countWhile p n < n) : p (countWhile p n) = false := by
  have hp := countFrom_stops h
  rwa [Nat.zero_add] at hp

namespace Narrowing

/-! ### Query engines -/

/-- The answers of a query engine: about the bits of nodes of a bits type, and the value of a
node of another type of which every bit is known. -/
structure Engine where
  isZero : Nat → Nat → Bool
  isOne : Nat → Nat → Bool
  knownEquals : Nat × Nat → Nat × Nat → Bool
  knownValueAsBits : Nat → Option Bits
  knownTree : Nat → Option Value

/-- `SpecializedQueryEngines`; with `kRangeWithContext`, the engine of the nearest predicate
of each node. -/
structure SpecializedQueryEngines where
  base : Engine
  context : Option (Nat → Engine)

namespace SpecializedQueryEngines

/-- `ForNode`. -/
def forNode (e : SpecializedQueryEngines) (node : Nat) : Engine :=
  match e.context with
  | none => e.base
  | some engines => engines node

/-- A bit of a node is known to be zero, by its engine or by that of its user. -/
def isZero (e : SpecializedQueryEngines) (node : Nat) (user : Option Nat) (bit : Nat) : Bool :=
  (e.forNode node).isZero node bit ||
    match e.context, user with
    | some engines, some u => (engines u).isZero node bit
    | _, _ => false

/-- A bit of a node is known to be one, by its engine or by that of its user. -/
def isOne (e : SpecializedQueryEngines) (node : Nat) (user : Option Nat) (bit : Nat) : Bool :=
  (e.forNode node).isOne node bit ||
    match e.context, user with
    | some engines, some u => (engines u).isOne node bit
    | _, _ => false

/-- `CountLeadingKnownZeros`. -/
def countLeadingKnownZeros (e : SpecializedQueryEngines) (node : Nat) (user : Option Nat) :
    Build Nat := do
  let bitCount ← Graph.bitCountOrDie node
  return countWhile (fun i => e.isZero node user (bitCount - 1 - i)) bitCount

/-- `CountLeadingKnownOnes`. -/
def countLeadingKnownOnes (e : SpecializedQueryEngines) (node : Nat) (user : Option Nat) :
    Build Nat := do
  let bitCount ← Graph.bitCountOrDie node
  return countWhile (fun i => e.isOne node user (bitCount - 1 - i)) bitCount

/-- `CountTrailingKnownZeros`. -/
def countTrailingKnownZeros (e : SpecializedQueryEngines) (node : Nat) (user : Option Nat) :
    Build Nat := do
  let bitCount ← Graph.bitCountOrDie node
  return countWhile (fun i => e.isZero node user i) bitCount

end SpecializedQueryEngines

/-! ### Soundness -/

variable {env : Env} {args : List Value} {w : World env args} {b : ℚ} {e : SpecializedQueryEngines}

/-- The bits of a node that are known to be zero are zero. -/
def ZeroSound (e : SpecializedQueryEngines) (w : World env args) (node : Nat)
    (user : Option Nat) : Prop :=
  ∀ x : Bits, w.vals[node]? = some (.leaf x) → ∀ i, e.isZero node user i = true → x.get i = false

variable {user : Option Nat} {x : Bits}

/-- Leading zeros bound the value. -/
theorem ensures_countLeadingKnownZeros {node : Nat} (h : w.Holds b node x)
    (hsound : ZeroSound e w node user) :
    w.Ensures (e.countLeadingKnownZeros node user) fun _ k =>
      k ≤ x.width ∧ x.val < 2 ^ (x.width - k) := by
  refine ensures_bind (ensures_bitCountOrDie h) fun w' bitCount hle hbitCount => ?_
  subst hbitCount
  refine ensures_pure fun w'' hle' => ⟨countWhile_le _ _, Bits.val_lt_of_get fun i hi => ?_⟩
  by_cases hiw : i < x.width
  · refine hsound x h.value i ?_
    have hcount := countWhile_holds
      (show x.width - 1 - i < countWhile (fun i => e.isZero node user (x.width - 1 - i)) x.width by
        omega)
    rwa [show x.width - 1 - (x.width - 1 - i) = i by omega] at hcount
  · exact Bits.get_of_width_le (by omega)

theorem ensures_countTrailingKnownZeros {node : Nat} (h : w.Holds b node x)
    (hsound : ZeroSound e w node user) :
    w.Ensures (e.countTrailingKnownZeros node user) fun _ k =>
      k ≤ x.width ∧ 2 ^ k ∣ x.val := by
  refine ensures_bind (ensures_bitCountOrDie h) fun w' bitCount hle hbitCount => ?_
  subst hbitCount
  refine ensures_pure fun w'' hle' => ⟨countWhile_le _ _, dvd_of_mod_eq_zero ?_⟩
  refine (Bits.mod_eq_of_get (y := Bits.zero x.width) fun i hi => ?_).trans (zero_mod _)
  rw [hsound x h.value i (countWhile_holds hi)]
  exact (zero_testBit i).symm

/-! ### Slices -/

/-- A slice of a node, which may be empty. -/
theorem ensures_makeBitSlice {i start width : Nat} (h : w.Holds b i x)
    (hle : start + width ≤ x.width) :
    w.Ensures (ArithSimplification.makeBitSlice i start width) fun w' id =>
      w'.Holds b id (x.slice start width) := by
  have hoperands : Canonicalization.Operands w b [i] [.bits x.width] [.leaf x] := .cons h.has .nil
  refine ensures_makeBits hoperands.types (by simp [verifyNode, hle]) rfl hoperands.values ?_
    hoperands.rank
  show (checkThat (decide (start + width ≤ x.width)) >>= fun _ =>
    .ok (LeafTree.leaf (x.slice start width))) = _
  rw [decide_eq_true hle]
  rfl

end Narrowing

end Xls

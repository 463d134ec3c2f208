import Xls.Lib.CycleSchedule
import Xls.Status

/-!
# Xls.ScheduleBounds

Bounds on the cycles of nodes (`xls/scheduling/schedule_bounds.h`, `schedule_bounds.cc`).

The two propagations are one sweep (`propagate`) over a `Side`: the lower bounds with the
operands, and the upper bounds, negated, with the users. The bounds and the delays are
integers that are added in an `int64_t`; a delay estimator is a function that may fail.
-/

namespace Xls

/-- The nodes of a function in topological order, with their operands. -/
structure NodeGraph where
  size : Nat
  operands : Fin size → List (Fin size)
  operands_lt : ∀ n, ∀ o ∈ operands n, o < n
  /-- Nodes are counted in an `int64_t`. -/
  size_lt : size < 2 ^ 63

namespace NodeGraph

/-- `Node::users`. -/
def users (g : NodeGraph) (n : Fin g.size) : List (Fin g.size) :=
  (List.finRange g.size).filter fun m => (g.operands m).contains n

theorem mem_users {g : NodeGraph} {n m : Fin g.size} : m ∈ g.users n ↔ n ∈ g.operands m := by
  simp [users]

end NodeGraph

/-- `std::numeric_limits<int64_t>::max()`. -/
def int64Max : Int := 2 ^ 63 - 1

/-- The sum of two `int64_t`. -/
def addInt64 (a b : Int) : Int := Int.bmod (a + b) (2 ^ 64)

theorem addInt64_of_le {a b : Int} (hmin : -int64Max ≤ a + b) (hmax : a + b ≤ int64Max) :
    addInt64 a b = a + b := by
  simp only [int64Max] at hmin hmax
  exact Int.bmod_eq_of_le (by omega) (by omega)

theorem int64Max_nonneg : 0 ≤ int64Max := by
  rw [int64Max]
  decide

theorem addInt64_of_nonneg {a b : Int} (hnonneg : 0 ≤ a + b) (hmax : a + b ≤ int64Max) :
    addInt64 a b = a + b := by
  have := int64Max_nonneg
  exact addInt64_of_le (by omega) hmax

/-- The bounds of the nodes. -/
structure ScheduleBounds (g : NodeGraph) where
  lb : Fin g.size → Int
  ub : Fin g.size → Int
  maxLowerBound : Int
  minUpperBound : Int

namespace ScheduleBounds

variable {g : NodeGraph}

/-- `Reset`. -/
def reset (g : NodeGraph) : ScheduleBounds g where
  lb _ := 0
  ub _ := int64Max
  maxLowerBound := 0
  minUpperBound := if g.size = 0 then 0 else int64Max

/-- `TightenNodeLb`. -/
def tightenNodeLb (s : ScheduleBounds g) (node : Fin g.size) (value : Int) :
    Result (ScheduleBounds g) :=
  if s.ub node < value then
    .error (.status s!"Unable to tighten the lower bound of node {node} to {value}.")
  else .ok { s with
    lb := Function.update s.lb node (max (s.lb node) value)
    maxLowerBound := max s.maxLowerBound value }

/-- `TightenNodeUb`. -/
def tightenNodeUb (s : ScheduleBounds g) (node : Fin g.size) (value : Int) :
    Result (ScheduleBounds g) :=
  if value < s.lb node then
    .error (.status s!"Unable to tighten the upper bound of node {node} to {value}.")
  else .ok { s with
    ub := Function.update s.ub node (min (s.ub node) value)
    minUpperBound := min s.minUpperBound value }

/-- Bounds that are not crossed, as the operations keep them. -/
def Ordered (s : ScheduleBounds g) : Prop :=
  ∀ n, 0 ≤ s.lb n ∧ s.lb n ≤ s.ub n ∧ s.ub n ≤ int64Max

/-- Tightening a lower bound keeps the bounds ordered. -/
theorem ordered_tightenNodeLb {s s' : ScheduleBounds g} {node : Fin g.size} {value : Int}
    (hs : Ordered s) (h : s.tightenNodeLb node value = .ok s') : Ordered s' := by
  unfold tightenNodeLb at h
  split at h
  · cases h
  · cases h
    intro n
    have := hs n
    by_cases hn : n = node
    · subst hn
      simp only [Function.update_self]
      omega
    · simpa only [Function.update_of_ne hn] using this

/-- Tightening an upper bound keeps the bounds ordered. -/
theorem ordered_tightenNodeUb {s s' : ScheduleBounds g} {node : Fin g.size} {value : Int}
    (hs : Ordered s) (h : s.tightenNodeUb node value = .ok s') : Ordered s' := by
  unfold tightenNodeUb at h
  split at h
  · cases h
  · cases h
    intro n
    have := hs n
    by_cases hn : n = node
    · subst hn
      simp only [Function.update_self]
      omega
    · simpa only [Function.update_of_ne hn] using this

/-- What distinguishes the propagation of lower bounds from that of upper bounds. The bound
is one that grows when it is tightened. -/
structure Side (g : NodeGraph) where
  /-- The nodes whose bounds a bound follows. -/
  neighbours : Fin g.size → List (Fin g.size)
  bound : ScheduleBounds g → Fin g.size → Int
  tighten : ScheduleBounds g → Fin g.size → Int → Result (ScheduleBounds g)
  /-- A bound that has not been set. -/
  unbounded : Int → Bool
  /-- The bound one cycle further. -/
  later : Int → Int
  bound_tighten : ∀ {s node value s'}, tighten s node value = .ok s' →
    bound s' = Function.update (bound s) node (max (bound s node) value)
  ordered_tighten : ∀ {s node value s'}, Ordered s → tighten s node value = .ok s' → Ordered s'
  /-- The last cycle has no next one: the sum overflows to a bound that tightens nothing. -/
  later_eq : ∀ {s}, Ordered s → ∀ n, later (bound s n) = bound s n + 1 ∨
    later (bound s n) ≤ bound s n

/-- The side of `PropagateLowerBounds`. -/
def lowerSide (g : NodeGraph) : Side g where
  neighbours := g.operands
  bound s node := s.lb node
  tighten := tightenNodeLb
  unbounded _ := false
  later bound := addInt64 bound 1
  bound_tighten := by
    intro s node value s' h
    unfold tightenNodeLb at h
    split at h
    · cases h
    · cases h
      rfl
  ordered_tighten := ordered_tightenNodeLb
  later_eq := by
    intro s hs n
    have hn := hs n
    by_cases hlast : s.lb n < int64Max
    · exact .inl (addInt64_of_nonneg (by omega) (by omega))
    · obtain hn : s.lb n = int64Max := by omega
      rw [hn]
      exact .inr (by decide)

/-- The side of `PropagateUpperBounds`. -/
def upperSide (g : NodeGraph) : Side g where
  neighbours := g.users
  bound s node := -s.ub node
  tighten s node value := tightenNodeUb s node (-value)
  unbounded bound := bound == -int64Max
  later bound := -addInt64 (-bound) (-1)
  bound_tighten := by
    intro s node value s' h
    unfold tightenNodeUb at h
    split at h
    · cases h
    · cases h
      funext m
      by_cases hm : m = node
      · subst hm
        simp only [Function.update_self]
        omega
      · simp [Function.update_of_ne hm]
  ordered_tighten := ordered_tightenNodeUb
  later_eq := by
    intro s hs n
    have hn := hs n
    have hmax : 1 ≤ int64Max := by decide
    rw [neg_neg, addInt64_of_le (by omega) (by omega)]
    omega

variable (delayEstimator : Fin g.size → Result Int) (clockPeriodPs : Int)

/-- The loop over the operands or users of a node. `inCycleDelay` has the delays of the nodes
that have been visited, and `delay` is `node_in_cycle_delay`. -/
def visitNeighbours (side : Side g) (inCycleDelay : Fin g.size → Int) (node : Fin g.size) :
    List (Fin g.size) → ScheduleBounds g → Int → Result (ScheduleBounds g × Int)
  | [], s, delay => .ok (s, delay)
  | other :: rest, s, delay =>
    let otherBound := side.bound s other
    if side.unbounded otherBound || decide (otherBound < side.bound s node) then
      visitNeighbours side inCycleDelay node rest s delay
    else do
      let otherDelay ← delayEstimator other
      if side.bound s node < otherBound then do
        let s ← side.tighten s node otherBound
        visitNeighbours side inCycleDelay node rest s (addInt64 (inCycleDelay other) otherDelay)
      else
        visitNeighbours side inCycleDelay node rest s
          (max delay (addInt64 (inCycleDelay other) otherDelay))

/-- The visit of a node. -/
def visitNode (side : Side g) (node : Fin g.size) (s : ScheduleBounds g)
    (inCycleDelay : Fin g.size → Int) : Result (ScheduleBounds g × (Fin g.size → Int)) := do
  let (s, delay) ← visitNeighbours delayEstimator side inCycleDelay node (side.neighbours node) s 0
  let nodeDelay ← delayEstimator node
  if clockPeriodPs < nodeDelay then
    .error (.status (s!"Node {node} has a greater delay ({nodeDelay}ps) " ++
      s!"than the clock period ({clockPeriodPs}ps)"))
  else if clockPeriodPs < addInt64 delay nodeDelay then do
    -- The node does not fit in this cycle and moves to the next one.
    let s ← side.tighten s node (side.later (side.bound s node))
    return (s, Function.update inCycleDelay node 0)
  else return (s, Function.update inCycleDelay node delay)

/-- The loop over the nodes. -/
def visitNodes (side : Side g) : List (Fin g.size) → ScheduleBounds g → (Fin g.size → Int) →
    Result (ScheduleBounds g × (Fin g.size → Int))
  | [], s, inCycleDelay => .ok (s, inCycleDelay)
  | node :: rest, s, inCycleDelay => do
    let (s, inCycleDelay) ← visitNode delayEstimator clockPeriodPs side node s inCycleDelay
    visitNodes side rest s inCycleDelay

/-- The sweep of both propagations. -/
def propagate (side : Side g) (order : List (Fin g.size)) (s : ScheduleBounds g) :
    Result (ScheduleBounds g) := do
  let (s, _) ← visitNodes delayEstimator clockPeriodPs side order s fun _ => 0
  return s

/-- `PropagateLowerBounds`. -/
def propagateLowerBounds (s : ScheduleBounds g) : Result (ScheduleBounds g) :=
  propagate delayEstimator clockPeriodPs (lowerSide g) (List.finRange g.size) s

/-- `PropagateUpperBounds`. -/
def propagateUpperBounds (s : ScheduleBounds g) : Result (ScheduleBounds g) :=
  propagate delayEstimator clockPeriodPs (upperSide g) (List.finRange g.size).reverse s

/-- The loop that sets all upper bounds. -/
def tightenAllUb (value : Int) : List (Fin g.size) → ScheduleBounds g → Result (ScheduleBounds g)
  | [], s => .ok s
  | node :: rest, s => do
    let s ← s.tightenNodeUb node value
    tightenAllUb value rest s

/-- `ComputeAsapAndAlapBounds`. -/
def computeAsapAndAlapBounds : Result (ScheduleBounds g) := do
  let s ← propagateLowerBounds delayEstimator clockPeriodPs (reset g)
  let s ← tightenAllUb s.maxLowerBound (List.finRange g.size) s
  propagateUpperBounds delayEstimator clockPeriodPs s

end ScheduleBounds

end Xls

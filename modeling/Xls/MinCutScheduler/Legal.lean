import Xls.FunctionPartition.Dicut
import Xls.MinCutScheduler
import Xls.ScheduleBounds.Propagated

/-!
# Xls.MinCutScheduler.Legal

The scheduler succeeds with a legal schedule (`minCutScheduler_legal`). Each cut leaves
bounds between which there is a legal schedule: the lower bounds below the cut and the upper
bounds above it, which the directed cut keeps in order.
-/

namespace Xls.MinCutScheduler

open CycleSchedule ScheduleBounds FunctionPartition Result List

variable {g : NodeGraph} {f : FunctionBase g} {delayEstimator : Fin g.size → Result Int}
  {clockPeriodPs last : Int} {s s' : ScheduleBounds g}

/-- No node can be scheduled both up to a cycle and after it. -/
def SplitAfter (cycle : Int) (s : ScheduleBounds g) : Prop :=
  ∀ n, s.ub n ≤ cycle ∨ cycle + 1 ≤ s.lb n

/-- Bounds that are tighter than others. -/
structure Narrows (s s' : ScheduleBounds g) : Prop where
  lb : ∀ n, s.lb n ≤ s'.lb n
  ub : ∀ n, s'.ub n ≤ s.ub n

theorem Narrows.refl (s : ScheduleBounds g) : Narrows s s :=
  ⟨fun _ => le_refl _, fun _ => le_refl _⟩

theorem Narrows.trans {s'' : ScheduleBounds g} (h : Narrows s s') (h' : Narrows s' s'') :
    Narrows s s'' :=
  ⟨fun n => le_trans (h.lb n) (h'.lb n), fun n => le_trans (h'.ub n) (h.ub n)⟩

theorem SplitAfter.narrow {cycle : Int} (h : SplitAfter cycle s) (hnarrows : Narrows s s') :
    SplitAfter cycle s' := by
  intro n
  rcases h n with hub | hlb
  · exact .inl (le_trans (hnarrows.ub n) hub)
  · exact .inr (le_trans hlb (hnarrows.lb n))

/-! ### A cut -/

/-- A write to one node and then to the rest, by an operation that may be repeated. -/
theorem update_then {op : Int → Int} (hop : ∀ b, op (op b) = op b) {bound bound' : Fin g.size → Int}
    {node : Fin g.size} {rest : List (Fin g.size)}
    (hmem : ∀ n ∈ rest, bound' n = op (Function.update bound node (op (bound node)) n))
    (hnot : ∀ n, n ∉ rest → bound' n = Function.update bound node (op (bound node)) n) :
    (∀ n ∈ node :: rest, bound' n = op (bound n)) ∧ ∀ n, n ∉ node :: rest → bound' n = bound n := by
  refine ⟨fun n hn => ?_, fun n hn => ?_⟩
  · by_cases hrest : n ∈ rest
    · rw [hmem n hrest]
      by_cases heq : n = node
      · rw [heq, Function.update_self, hop]
      · rw [Function.update_of_ne heq]
    · obtain rfl : n = node := (mem_cons.mp hn).resolve_right hrest
      rw [hnot n hrest, Function.update_self]
  · rw [mem_cons, not_or] at hn
    rw [hnot n hn.2, Function.update_of_ne hn.1]

/-- Upper bounds are tightened for the nodes of the list only. -/
theorem tightenAllUb_ok {value : Int} (nodes : List (Fin g.size)) {s : ScheduleBounds g}
    (h : ∀ n ∈ nodes, s.lb n ≤ value) :
    ∃ s', tightenAllUb value nodes s = .ok s' ∧ s'.lb = s.lb ∧
      (∀ n ∈ nodes, s'.ub n = min (s.ub n) value) ∧ ∀ n, n ∉ nodes → s'.ub n = s.ub n := by
  induction nodes generalizing s with
  | nil => exact ⟨s, rfl, rfl, by simp, fun _ _ => rfl⟩
  | cons node rest ih =>
    have hnode := h node mem_cons_self
    obtain ⟨s', hrun, hlb, hmem, hnot⟩ := ih (s := { s with
      ub := Function.update s.ub node (min (s.ub node) value)
      minUpperBound := min s.minUpperBound value }) fun n hn => h n (mem_cons_of_mem _ hn)
    have hop : ∀ b, min (min b value) value = min b value := fun b => by
      rw [min_assoc, min_self]
    refine ⟨s', ?_, hlb, @update_then _ (fun b => min b value) hop _ _ _ _ hmem hnot⟩
    rw [tightenAllUb, tightenNodeUb, if_neg (not_lt.mpr hnode), ok_bind]
    exact hrun

/-- Lower bounds are tightened for the nodes of the list only. -/
theorem tightenAllLb_ok {value : Int} (nodes : List (Fin g.size)) {s : ScheduleBounds g}
    (h : ∀ n ∈ nodes, value ≤ s.ub n) :
    ∃ s', tightenAllLb value nodes s = .ok s' ∧ s'.ub = s.ub ∧
      (∀ n ∈ nodes, s'.lb n = max (s.lb n) value) ∧ ∀ n, n ∉ nodes → s'.lb n = s.lb n := by
  induction nodes generalizing s with
  | nil => exact ⟨s, rfl, rfl, by simp, fun _ _ => rfl⟩
  | cons node rest ih =>
    have hnode := h node mem_cons_self
    obtain ⟨s', hrun, hub, hmem, hnot⟩ := ih (s := { s with
      lb := Function.update s.lb node (max (s.lb node) value)
      maxLowerBound := max s.maxLowerBound value }) fun n hn => h n (mem_cons_of_mem _ hn)
    have hop : ∀ b, max (max b value) value = max b value := fun b => by
      rw [max_assoc, max_self]
    refine ⟨s', ?_, hub, @update_then _ (fun b => max b value) hop _ _ _ _ hmem hnot⟩
    rw [tightenAllLb, tightenNodeLb, if_neg (not_lt.mpr hnode), ok_bind]
    exact hrun

theorem mem_partitionableNodes {cycle : Int} {n : Fin g.size} :
    n ∈ partitionableNodes f cycle s ↔ s.lb n ≤ cycle ∧ cycle + 1 ≤ s.ub n := by
  rw [partitionableNodes, mem_filter, decide_eq_true_iff]
  exact and_iff_right (f.mem_nodes n)

/-- The nodes that can be scheduled up to a cycle are closed under operands, and have all
partitionable nodes but no other users of them. -/
theorem separates_partitionableNodes (hs : Feasible delayEstimator clockPeriodPs last s)
    (cycle : Int) : Separates (partitionableNodes f cycle s) fun n => decide (s.lb n ≤ cycle) where
  cuttable p hp := decide_eq_true (mem_partitionableNodes.mp hp).1
  users p hp u hu hnot := by
    have horder := hs.upper.legal.order u p (NodeGraph.mem_users.mp hu)
    have hpart := mem_partitionableNodes.mp hp
    rw [mem_partitionableNodes] at hnot
    exact decide_eq_false (by omega)
  operands v hv u hu := by
    have horder := hs.lower.legal.order v u hu
    have hle := of_decide_eq_true hv
    exact decide_eq_true (by omega)

/-- A cut succeeds, and a legal schedule is left. -/
theorem splitAfterCycle_spec (hs : Feasible delayEstimator clockPeriodPs last s)
    (htotal : totalWeight g f.toNodeInfo < int64Max) (cycle : Int) :
    ∃ s', splitAfterCycle f cycle s = .ok s' ∧ Narrows s s' ∧ SplitAfter cycle s' ∧
      ∃ schedule, Legal g.operands (delayOf delayEstimator) clockPeriodPs schedule ∧
        ∀ n, s'.lb n ≤ schedule n ∧ schedule n ≤ s'.ub n := by
  have hnodup : (partitionableNodes f cycle s).Nodup := f.nodup_nodes.filter _
  obtain ⟨first, second, hcut, hcover, hdisjoint, hdicut⟩ := minCostFunctionPartition_spec
    hnodup (separates_partitionableNodes (f := f) hs cycle)
    f.flatBitCount_nonneg htotal
  have hmem : ∀ n, (s.lb n ≤ cycle ∧ cycle + 1 ≤ s.ub n) ↔ n ∈ first ∨ n ∈ second := fun n =>
    mem_partitionableNodes.symm.trans (hcover n)
  obtain ⟨s₁, hrun₁, hlb₁, hfirst, hnotFirst⟩ := tightenAllUb_ok first (s := s)
    fun n hn => ((hmem n).mpr (.inl hn)).1
  have hsecondUb : ∀ n ∈ second, s₁.ub n = s.ub n := fun n hn =>
    hnotFirst n fun hn' => hdisjoint n hn' hn
  obtain ⟨s', hrun', hub', hsecond, hnotSecond⟩ := tightenAllLb_ok second
    (s := s₁) fun n hn => by
      rw [hsecondUb n hn]
      exact ((hmem n).mpr (.inr hn)).2
  rw [hlb₁] at hsecond hnotSecond
  -- What the cut does to the bounds of a node.
  have hbounds : ∀ n, (n ∈ first ∧ s'.lb n = s.lb n ∧ s'.ub n = cycle ∧ s.lb n ≤ cycle ∧
        cycle + 1 ≤ s.ub n) ∨
      (n ∉ first ∧ s'.lb n = cycle + 1 ∧ s'.ub n = s.ub n ∧ s.lb n ≤ cycle ∧
        cycle + 1 ≤ s.ub n) ∨
      (n ∉ first ∧ s'.lb n = s.lb n ∧ s'.ub n = s.ub n ∧
        (s.ub n ≤ cycle ∨ cycle + 1 ≤ s.lb n)) := by
    intro n
    have hn := hmem n
    by_cases hin : n ∈ first
    · have hout : n ∉ second := hdisjoint n hin
      have := hfirst n hin
      have := hnotSecond n hout
      have := hn.mpr (.inl hin)
      rw [hub']
      exact .inl ⟨hin, by omega, by omega, by omega, by omega⟩
    · by_cases hin' : n ∈ second
      · have := hsecondUb n hin'
        have := hsecond n hin'
        have := hn.mpr (.inr hin')
        rw [hub']
        exact .inr (.inl ⟨hin, by omega, by omega, by omega, by omega⟩)
      · have := hnotFirst n hin
        have := hnotSecond n hin'
        have hnot : ¬(s.lb n ≤ cycle ∧ cycle + 1 ≤ s.ub n) := fun h =>
          (hn.mp h).elim hin hin'
        rw [hub']
        exact .inr (.inr ⟨hin, by omega, by omega, by omega⟩)
  have hclosed : ∀ n, decide (s'.ub n ≤ cycle) = true → ∀ p ∈ g.operands n,
      decide (s'.ub p ≤ cycle) = true := by
    intro n hn p hp
    have hlbOrder := hs.lower.legal.order n p hp
    have hubOrder := hs.upper.legal.order n p hp
    have hlow := of_decide_eq_true hn
    have hlower := hs.le n
    refine decide_eq_true ?_
    by_contra hhigh
    rcases hbounds n with ⟨hin, h⟩ | ⟨hin, h⟩ | ⟨hin, h⟩
    · -- The operand is partitionable, and the cut puts it with the node.
      have hpFirst : p ∉ first := by
        intro hpIn
        have := hfirst p hpIn
        rw [hub'] at hhigh
        omega
      have hpUb := hnotFirst p hpFirst
      rw [hub'] at hhigh
      exact hpFirst (hdicut n hin p hp (mem_partitionableNodes.mpr (by omega)))
    · omega
    · rcases hbounds p with ⟨-, h'⟩ | ⟨-, h'⟩ | ⟨-, h'⟩
      · omega
      · omega
      · omega
  have hlegal := hs.lower.legal.glue hs.upper.legal hs.le hclosed (c := cycle)
    (fun n hn => by
      have := of_decide_eq_true hn
      have := hs.le n
      have := hbounds n
      omega)
    (fun n hn => by
      have := of_decide_eq_false hn
      have := hbounds n
      omega)
  refine ⟨s', ?_, ⟨fun n => ?_, fun n => ?_⟩, fun n => ?_, _, hlegal, fun n => ?_⟩
  · simp only [splitAfterCycle, hcut, ok_bind, hrun₁]
    exact hrun'
  · have := hbounds n
    omega
  · have := hbounds n
    omega
  · have := hbounds n
    omega
  · have := hbounds n
    have := hs.le n
    simp only [decide_eq_true_iff]
    split <;> omega

/-! ### The cuts of an order -/

section

variable (hdelays : DelaysFit delayEstimator clockPeriodPs)
  (htotal : totalWeight g f.toNodeInfo < int64Max) (hlast : last < int64Max)
include hdelays htotal hlast

/-- Cutting after one cycle at a time ends with bounds that split after each of them. -/
theorem cutInOrder_spec (order : List Int) {s : ScheduleBounds g}
    (hs : Feasible delayEstimator clockPeriodPs last s) :
    ∃ s', cutInOrder f delayEstimator clockPeriodPs order s = .ok s' ∧
      Feasible delayEstimator clockPeriodPs last s' ∧ Narrows s s' ∧
      ∀ cycle ∈ order, SplitAfter cycle s' := by
  induction order generalizing s with
  | nil => exact ⟨s, rfl, hs, Narrows.refl s, by simp⟩
  | cons cycle rest ih =>
    obtain ⟨s₁, hsplit, hnarrows₁, hafter, schedule, hlegal, hbounds⟩ :=
      splitAfterCycle_spec hs htotal cycle
    obtain ⟨s₂, s₃, hlower, hupper, hs₃, hlb, hub⟩ := propagate_feasible hdelays hs.delay
      (fun n => le_trans (hs.lower.range n).1 (hnarrows₁.lb n))
      (fun n => le_trans (hnarrows₁.ub n) (hs.upper.range n).2) hlast hlegal hbounds
    have hnarrows₃ : Narrows s₁ s₃ := ⟨hlb, hub⟩
    obtain ⟨s', hrun, hs', hnarrows', hall⟩ := ih hs₃
    refine ⟨s', ?_, hs', (hnarrows₁.trans hnarrows₃).trans hnarrows', ?_⟩
    · rw [cutInOrder, hsplit, ok_bind, hlower, ok_bind, hupper, ok_bind]
      exact hrun
    · exact forall_mem_cons.mpr ⟨(hafter.narrow hnarrows₃).narrow hnarrows', hall⟩

omit hdelays htotal hlast in
/-- Where all cycles are split, every node has one cycle. -/
theorem fixed_of_split (hs : Feasible delayEstimator clockPeriodPs last s)
    (hsplit : ∀ cycle, 0 ≤ cycle → cycle < last → SplitAfter cycle s) (n : Fin g.size) :
    s.lb n = s.ub n := by
  have hle := hs.le n
  have hrange := hs.lower.range n
  have hrange' := hs.upper.range n
  by_contra hne
  rcases hsplit (s.lb n) hrange.1 (by omega) n with hub | hlb
  · omega
  · omega

/-! ### The orders -/

omit hdelays htotal hlast in
/-- The order from the middle has all cycles. -/
theorem mem_middleFirstOrder {first last cycle : Int} (hfirst : first ≤ cycle)
    (hlast : cycle ≤ last) : cycle ∈ middleFirstOrder first last := by
  induction first, last using middleFirstOrder.induct with
  | case1 first last hlt => omega
  | case2 last hlt =>
    rw [middleFirstOrder, if_neg hlt, if_pos rfl, mem_singleton]
    omega
  | case3 last hlt hne =>
    rw [middleFirstOrder, if_neg hlt, if_neg hne, if_pos rfl]
    simp only [mem_cons, not_mem_nil, or_false]
    omega
  | case4 first last hlt hne hnext middle ihHead ihTail =>
    rw [middleFirstOrder, if_neg hlt, if_neg hne, if_neg hnext]
    simp only [mem_cons, mem_append]
    rcases lt_trichotomy cycle middle with h | h | h
    · exact .inr (.inl (ihHead hfirst (by omega)))
    · exact .inl h
    · exact .inr (.inr (ihTail (by omega) hlast))

omit hdelays htotal hlast in
/-- The cuts of each order are at all cycles. -/
theorem getMinCutCycleOrders_spec {length : Int} (hlength : 0 ≤ length) :
    ∃ orders, getMinCutCycleOrders length = .ok orders ∧ orders ≠ [] ∧
      ∀ order ∈ orders, ∀ cycle, 0 ≤ cycle → cycle < length → cycle ∈ order := by
  unfold getMinCutCycleOrders
  by_cases h0 : length = 0
  · rw [if_pos h0]
    exact ⟨_, rfl, by simp, fun _ _ cycle _ _ => by omega⟩
  rw [if_neg h0]
  by_cases h1 : length = 1
  · rw [if_pos h1]
    refine ⟨_, rfl, by simp, fun order horder cycle _ _ => ?_⟩
    rw [mem_singleton.mp horder, mem_singleton]
    omega
  rw [if_neg h1]
  by_cases h2 : length = 2
  · rw [if_pos h2]
    refine ⟨_, rfl, by simp, fun order horder cycle _ _ => ?_⟩
    simp only [mem_cons, not_mem_nil, or_false] at horder
    rcases horder with rfl | rfl
    · simp only [mem_cons, not_mem_nil, or_false]
      omega
    · simp only [mem_cons, not_mem_nil, or_false]
      omega
  rw [if_neg h2, if_neg (by omega)]
  have hforward : ∀ cycle : Int, 0 ≤ cycle → cycle < length →
      cycle ∈ (range length.toNat).map fun cycle : Nat => (cycle : Int) := by
    intro cycle hnonneg hlt
    have hmem : cycle.toNat ∈ range length.toNat := mem_range.mpr (by omega)
    exact mem_map.mpr ⟨cycle.toNat, hmem, Int.toNat_of_nonneg hnonneg⟩
  refine ⟨_, rfl, by simp, fun order horder cycle hnonneg hlt => ?_⟩
  simp only [mem_cons, not_mem_nil, or_false] at horder
  rcases horder with rfl | rfl | rfl
  · exact hforward cycle hnonneg hlt
  · exact mem_reverse.mpr (hforward cycle hnonneg hlt)
  · exact mem_middleFirstOrder hnonneg (by omega)

omit hdelays htotal hlast in
theorem countInteriorPipelineRegisters_ok (hfixed : ∀ n, s.lb n = s.ub n)
    (nodes : List (Fin g.size)) (registers : Int) :
    ∃ total, countInteriorPipelineRegisters f s nodes registers = .ok total := by
  induction nodes generalizing registers with
  | nil => exact ⟨registers, rfl⟩
  | cons node rest ih =>
    rw [countInteriorPipelineRegisters, if_neg (not_not.mpr (hfixed node))]
    exact ih _

/-! ### The scheduler -/

/-- Bounds that leave every node one cycle, inside other bounds. -/
structure Scheduled (delayEstimator : Fin g.size → Result Int) (clockPeriodPs last : Int)
    (s s' : ScheduleBounds g) : Prop where
  schedule : IsSchedule delayEstimator clockPeriodPs last s'.lb
  fixed : ∀ n, s'.lb n = s'.ub n
  narrows : Narrows s s'

/-- Every order of all cycles leads to a schedule. -/
theorem cutInOrder_scheduled (hs : Feasible delayEstimator clockPeriodPs last s)
    {order : List Int} (horder : ∀ cycle, 0 ≤ cycle → cycle < last → cycle ∈ order) :
    ∃ s', cutInOrder f delayEstimator clockPeriodPs order s = .ok s' ∧
      Scheduled delayEstimator clockPeriodPs last s s' := by
  obtain ⟨s', hrun, hs', hnarrows, hsplit⟩ := cutInOrder_spec hdelays htotal hlast order hs
  refine ⟨s', hrun, hs'.lower, ?_, hnarrows⟩
  exact fixed_of_split hs' fun cycle hnonneg hlt => hsplit cycle (horder cycle hnonneg hlt)

/-- Of the schedules of all orders, the best is one of them. -/
theorem tryCutOrders_spec (hs : Feasible delayEstimator clockPeriodPs last s)
    (orders : List (List Int))
    (horders : ∀ order ∈ orders, ∀ cycle, 0 ≤ cycle → cycle < last → cycle ∈ order)
    (best : Option (ScheduleBounds g × Int)) (hne : orders ≠ [] ∨ best.isSome = true)
    (hbest : ∀ b ∈ best, Scheduled delayEstimator clockPeriodPs last s b.1) :
    ∃ b, tryCutOrders f delayEstimator clockPeriodPs s orders best = .ok (some b) ∧
      Scheduled delayEstimator clockPeriodPs last s b.1 := by
  induction orders generalizing best with
  | nil =>
    cases best with
    | none => simp at hne
    | some b => exact ⟨b, rfl, hbest b rfl⟩
  | cons order rest ih =>
    obtain ⟨trial, hrun, htrial⟩ := cutInOrder_scheduled hdelays htotal hlast hs
      (horders order mem_cons_self)
    obtain ⟨registers, hcount⟩ :=
      countInteriorPipelineRegisters_ok (f := f) htrial.fixed f.nodes 0
    have hrest := fun order ho => horders order (mem_cons_of_mem _ ho)
    rw [tryCutOrders, hrun, ok_bind, hcount, ok_bind]
    cases best with
    | none =>
      refine ih hrest _ (.inr rfl) fun b hb => ?_
      cases hb
      exact htrial
    | some b =>
      refine ih hrest _ (.inr (by split <;> rfl)) fun b' hb' => ?_
      split at hb'
      · cases hb'
        exact htrial
      · cases hb'
        exact hbest b rfl

end

/-- The scheduler yields a legal schedule, where the weights of the cuts and the delays inside
a cycle fit an `int64_t`. -/
theorem minCutScheduler_legal (g : NodeGraph) (f : FunctionBase g)
    (delayEstimator : Fin g.size → Result Int) (clockPeriodPs pipelineStages : Int)
    (bounds : ScheduleBounds g) (hfunction : f.proc = none)
    (hminDelay : ∀ n, f.isMinDelay n = false)
    (hdelays : DelaysFit delayEstimator clockPeriodPs) (hstages : 0 < pipelineStages)
    (hint64 : pipelineStages ≤ int64Max) (hbounds : Propagated delayEstimator clockPeriodPs bounds)
    (hub : ∀ n, bounds.ub n < pipelineStages) (hweights : totalWeight g f.toNodeInfo < int64Max) :
    (∃ orders, getMinCutCycleOrders (pipelineStages - 1) = .ok orders ∧ ∀ order ∈ orders, ∃ trial,
        cutInOrder f delayEstimator clockPeriodPs order bounds = .ok trial ∧
        ∀ n, trial.lb n = trial.ub n) ∧
      ∃ bounds', minCutScheduler f delayEstimator clockPeriodPs pipelineStages bounds [] =
          .ok (bounds', bounds'.lb) ∧ (∀ n, bounds'.lb n = bounds'.ub n) ∧
        (∀ n, bounds.lb n ≤ bounds'.lb n ∧ bounds'.ub n ≤ bounds.ub n) ∧
        IsSchedule delayEstimator clockPeriodPs (pipelineStages - 1) bounds'.lb := by
  have hlast : pipelineStages - 1 < int64Max := by omega
  have hfeasible : Feasible delayEstimator clockPeriodPs (pipelineStages - 1) bounds :=
    hbounds.feasible hdelays (fun n => by have := hub n; omega) hlast
  have hlength : 0 ≤ pipelineStages - 1 := by omega
  obtain ⟨orders, horders, hne, hcover⟩ := getMinCutCycleOrders_spec hlength
  constructor
  · refine ⟨orders, horders, fun order ho => ?_⟩
    obtain ⟨trial, hrun, htrial⟩ :=
      cutInOrder_scheduled hdelays hweights hlast hfeasible (hcover order ho)
    exact ⟨trial, hrun, htrial.fixed⟩
  · obtain ⟨⟨bounds', registers⟩, hbest, hscheduled⟩ := tryCutOrders_spec hdelays hweights hlast
      hfeasible orders hcover none (.inl hne) (by simp)
    have hnoDelay : f.nodes.any f.isMinDelay = false := by simp [hminDelay]
    have hnone : stateNodes f = [] := by rw [stateNodes, hfunction]
    have hall : ∀ n, bounds'.lb n = bounds'.ub n := hscheduled.fixed
    have hfixed : (f.nodes.any fun node => bounds'.lb node ≠ bounds'.ub node) = false := by
      simp [hall]
    refine ⟨bounds', ?_, hall,
      fun n => ⟨hscheduled.narrows.lb n, hscheduled.narrows.ub n⟩, hscheduled.schedule⟩
    rw [minCutScheduler, applyConstraints, ok_bind, hnoDelay, if_neg (by decide), hnone,
      tightenAllToFirst, ok_bind, horders, ok_bind, hbest, ok_bind,
      derefOption, ok_bind]
    simp only [hfixed]
    rfl

/-- A parameter and a node that uses it, both of a type of some number of bits. -/
def paramWithUser (bits : Nat) : FunctionBase chainOfTwo where
  isParam n := n.val = 0
  flatBitCount _ := bits
  flatBitCount_nonneg _ := Int.natCast_nonneg bits
  nodes := finRange 2
  nodup_nodes := nodup_finRange 2
  mem_nodes := mem_finRange
  isMinDelay _ := false
  isReceive _ := false
  isSend _ := false
  proc := none

/-- The bounds of two stages, between which both nodes can move. -/
def boundsOfTwoStages : ScheduleBounds chainOfTwo where
  lb _ := 0
  ub _ := 1
  maxLowerBound := 0
  minUpperBound := 1

/-- The bounds that the propagations find for two stages. -/
theorem propagated_boundsOfTwoStages :
    Propagated (g := chainOfTwo) (fun _ => .ok 1) 5 boundsOfTwoStages := by
  have htighten : tightenAllUb 1 (finRange 2) (ScheduleBounds.reset chainOfTwo) =
      .ok boundsOfTwoStages := by
    refine congrArg Except.ok ?_
    simp only [boundsOfTwoStages, ScheduleBounds.mk.injEq]
    refine ⟨rfl, funext fun n => ?_, rfl, rfl⟩
    revert n
    decide
  exact ⟨(reached_tightenAllUb _ Reached.reset htighten).1, rfl, rfl⟩

/-- Two nodes of a bit. -/
theorem minCutScheduler_legal_paramWithUser : ∃ bounds',
    minCutScheduler (paramWithUser 1) (fun _ => .ok 1) 5 2 boundsOfTwoStages [] =
      .ok (bounds', bounds'.lb) ∧ ∀ n, bounds'.lb n = bounds'.ub n := by
  obtain ⟨-, bounds', hrun, hfixed, -⟩ := minCutScheduler_legal chainOfTwo (paramWithUser 1)
    (fun _ => .ok 1) 5 2 boundsOfTwoStages rfl (fun _ => rfl)
    (delaysFit_chainOfTwo (by decide) (by decide)) (by decide) (by decide)
    propagated_boundsOfTwoStages
    (fun _ => Int.lt_succ 1) (by decide)
  exact ⟨bounds', hrun, hfixed⟩

/-- The bounds of one stage. -/
def boundsOfOneStage : ScheduleBounds chainOfTwo where
  lb _ := 0
  ub _ := 0
  maxLowerBound := 0
  minUpperBound := 0

theorem propagated_boundsOfOneStage :
    Propagated (g := chainOfTwo) (fun _ => .ok (2 ^ 62)) int64Max boundsOfOneStage := by
  have htighten : tightenAllUb 0 (finRange 2) (ScheduleBounds.reset chainOfTwo) =
      .ok boundsOfOneStage := by
    refine congrArg Except.ok ?_
    simp only [boundsOfOneStage, ScheduleBounds.mk.injEq]
    refine ⟨rfl, funext fun n => ?_, rfl, rfl⟩
    revert n
    decide
  exact ⟨(reached_tightenAllUb _ Reached.reset htighten).1, rfl, rfl⟩

/-- Nodes of `2 ^ 43` bits have an edge between them of negative weight, at which the search
for a path stops. Two delays of `2 ^ 62` overflow, and the schedule exceeds the period. -/
theorem minCutScheduler_wide_error :
    (Propagated (g := chainOfTwo) (fun _ => .ok 1) 5 boundsOfTwoStages ∧
      (∀ n, boundsOfTwoStages.ub n < 2) ∧
      minCutScheduler (paramWithUser (2 ^ 43)) (fun _ => .ok 1) 5 2 boundsOfTwoStages [] =
        .error .check) ∧
    Propagated (g := chainOfTwo) (fun _ => .ok (2 ^ 62)) int64Max boundsOfOneStage ∧
      (∀ n, boundsOfOneStage.ub n < 1) ∧ ∃ bounds',
        minCutScheduler (paramWithUser 1) (fun _ => .ok (2 ^ 62)) int64Max 1 boundsOfOneStage [] =
          .ok (bounds', bounds'.lb) ∧
        ¬ IsSchedule (g := chainOfTwo) (fun _ => .ok (2 ^ 62)) int64Max 0 bounds'.lb := by
  refine ⟨⟨propagated_boundsOfTwoStages, fun _ => Int.lt_succ 1, rfl⟩,
    propagated_boundsOfOneStage, fun _ => Int.lt_succ 0, _, rfl, fun h => ?_⟩
  have hperiod := h.legal.period (1 : Fin 2) [(0 : Fin 2)]
    (isChain_cons_cons.mpr ⟨⟨mem_singleton_self _, rfl⟩, isChain_singleton _⟩)
  exact absurd hperiod (by decide)

end Xls.MinCutScheduler

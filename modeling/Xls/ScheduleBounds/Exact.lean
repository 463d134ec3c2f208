import Mathlib.Data.List.FinRange
import Xls.ScheduleBounds.Sweep

/-!
# Xls.ScheduleBounds.Exact

The bounds of `ComputeAsapAndAlapBounds` are exact (`bounds_exact`): they are schedules
themselves, and every schedule lies between them. The delays must not overflow the `int64_t`
in which the sweeps add them up.
-/

namespace Xls.ScheduleBounds

open CycleSchedule Result List

variable {g : NodeGraph} {delayEstimator : Fin g.size → Result Int} {clockPeriodPs : Int}

/-! ### The orders of the two sweeps -/

/-- Operands come before the nodes that use them. -/
theorem topological_lower (g : NodeGraph) : Topological (lowerSide g) (List.finRange g.size) where
  nodup := nodup_finRange _
  before := by
    intro done node rest horder p hp
    have hlt := g.operands_lt node p hp
    have hsorted := pairwise_lt_finRange g.size
    have hmem : p ∈ done ++ node :: rest := horder ▸ mem_finRange p
    rw [horder] at hsorted
    rcases mem_append.mp hmem with h | h
    · exact h
    · rcases mem_cons.mp h with rfl | h
      · exact absurd hlt (lt_irrefl _)
      · have := (pairwise_cons.mp (pairwise_append.mp hsorted).2.1).1 p h
        exact absurd hlt (lt_asymm this)

/-- Users come first in the reversed order. -/
theorem topological_upper (g : NodeGraph) :
    Topological (upperSide g) (List.finRange g.size).reverse where
  nodup := nodup_reverse.mpr (nodup_finRange _)
  before := by
    intro done node rest horder p hp
    have hlt := g.operands_lt p node (NodeGraph.mem_users.mp hp)
    have hsorted := pairwise_reverse.mpr (pairwise_lt_finRange g.size)
    have hmem : p ∈ done ++ node :: rest := horder ▸ mem_reverse.mpr (mem_finRange p)
    rw [horder] at hsorted
    rcases mem_append.mp hmem with h | h
    · exact h
    · rcases mem_cons.mp h with rfl | h
      · exact absurd hlt (lt_irrefl _)
      · have := (pairwise_cons.mp (pairwise_append.mp hsorted).2.1).1 p h
        exact absurd hlt (lt_asymm this)

theorem lowerSide_open {s : ScheduleBounds g} (hs : Ordered s) (h : ∀ n, s.lb n < int64Max)
    (n : Fin g.size) :
    (lowerSide g).bound s n < (lowerSide g).later ((lowerSide g).bound s n) := by
  have hn := hs n
  have hlast := h n
  simp only [lowerSide]
  rw [addInt64_of_nonneg (by omega) (by omega)]
  omega

theorem upperSide_open {s : ScheduleBounds g} (hs : Ordered s) (n : Fin g.size) :
    (upperSide g).bound s n < (upperSide g).later ((upperSide g).bound s n) := by
  have hn := hs n
  have hmax : 1 ≤ int64Max := by decide
  simp only [upperSide]
  rw [neg_neg, addInt64_of_le (by omega) (by omega)]
  omega

/-! ### Delays -/

/-- Delays that the sweeps can add up: none is negative, and no path that fits in the clock
period without its first or without its last node takes longer than an `int64_t` counts. -/
structure DelaysFit (delayEstimator : Fin g.size → Result Int) (clockPeriodPs : Int) : Prop where
  nonneg : ∀ n d, delayEstimator n = .ok d → 0 ≤ d
  total_le : ∀ path, path.IsChain (fun n p => p ∈ g.operands n) →
    total (delayOf delayEstimator) path.tail ≤ clockPeriodPs ∨
      total (delayOf delayEstimator) path.dropLast ≤ clockPeriodPs →
    total (delayOf delayEstimator) path ≤ int64Max

theorem delayOf_nonneg (hdelay : ∀ n d, delayEstimator n = .ok d → 0 ≤ d) (n : Fin g.size) :
    0 ≤ delayOf delayEstimator n := by
  unfold delayOf
  split
  · rename_i d hd
    exact hdelay n d hd
  · exact le_refl _

/-- It is enough that no node takes the clock period past the last `int64_t`. -/
theorem delaysFit_of_le (hdelay : ∀ n d, delayEstimator n = .ok d → 0 ≤ d)
    (hmax : ∀ n, clockPeriodPs + delayOf delayEstimator n ≤ int64Max) :
    DelaysFit delayEstimator clockPeriodPs where
  nonneg := hdelay
  total_le := by
    rintro path - (h | h)
    · cases path with
      | nil => exact int64Max_nonneg
      | cons n path =>
        have := hmax n
        rw [tail_cons] at h
        rw [total_cons]
        omega
    · rcases eq_nil_or_concat path with rfl | ⟨path, n, rfl⟩
      · exact int64Max_nonneg
      · have := hmax n
        rw [concat_eq_append] at h ⊢
        rw [dropLast_concat] at h
        rw [← total_reverse, reverse_concat, total_cons, total_reverse]
        omega

section

variable (hdelays : DelaysFit delayEstimator clockPeriodPs)
include hdelays

theorem DelaysFit.lower : SumsFit (lowerSide g) delayEstimator clockPeriodPs where
  nonneg := delayOf_nonneg hdelays.nonneg
  total_le n path hchain h := hdelays.total_le (n :: path) hchain (.inl h)

theorem DelaysFit.upper : SumsFit (upperSide g) delayEstimator clockPeriodPs where
  nonneg := delayOf_nonneg hdelays.nonneg
  total_le n path hchain h := by
    have hrev : (n :: path).reverse.IsChain fun n p => p ∈ g.operands n :=
      isChain_reverse.mpr (hchain.imp fun a b hb => NodeGraph.mem_users.mp hb)
    rw [← total_reverse]
    refine hdelays.total_le _ hrev (.inr ?_)
    rwa [reverse_cons, dropLast_concat, total_reverse]

end

/-! ### Bounds that are reached -/

/-- Bounds that the operations on bounds lead to. -/
inductive Reached (delayEstimator : Fin g.size → Result Int) (clockPeriodPs : Int) :
    ScheduleBounds g → Prop
  | reset : Reached delayEstimator clockPeriodPs (reset g)
  | tightenNodeLb {s s' node value} : Reached delayEstimator clockPeriodPs s →
      s.tightenNodeLb node value = .ok s' → Reached delayEstimator clockPeriodPs s'
  | tightenNodeUb {s s' node value} : Reached delayEstimator clockPeriodPs s →
      s.tightenNodeUb node value = .ok s' → Reached delayEstimator clockPeriodPs s'
  | propagateLowerBounds {s s'} : Reached delayEstimator clockPeriodPs s →
      propagateLowerBounds delayEstimator clockPeriodPs s = .ok s' →
      Reached delayEstimator clockPeriodPs s'
  | propagateUpperBounds {s s'} : Reached delayEstimator clockPeriodPs s →
      propagateUpperBounds delayEstimator clockPeriodPs s = .ok s' →
      Reached delayEstimator clockPeriodPs s'

/-- What both tightenings keep holds of the bounds that are reached. -/
theorem Reached.keeps {P : ScheduleBounds g → Prop} {s : ScheduleBounds g}
    (hreset : P (ScheduleBounds.reset g))
    (hlower : ∀ {s node value s'}, P s → s.tightenNodeLb node value = .ok s' → P s')
    (hupper : ∀ {s node value s'}, P s → s.tightenNodeUb node value = .ok s' → P s')
    (h : Reached delayEstimator clockPeriodPs s) : P s := by
  induction h with
  | reset => exact hreset
  | tightenNodeLb _ hstep ih => exact hlower ih hstep
  | tightenNodeUb _ hstep ih => exact hupper ih hstep
  | propagateLowerBounds _ hstep ih => exact propagate_keeps hlower _ ih hstep
  | propagateUpperBounds _ hstep ih => exact propagate_keeps hupper _ ih hstep

theorem ordered_reset (g : NodeGraph) : Ordered (reset g) :=
  fun _ => ⟨le_refl _, int64Max_nonneg, le_refl _⟩

theorem Reached.ordered {s : ScheduleBounds g} (h : Reached delayEstimator clockPeriodPs s) :
    Ordered s :=
  h.keeps (ordered_reset g) ordered_tightenNodeLb ordered_tightenNodeUb

/-- The maximal lower bound is never negative. -/
theorem Reached.maxLowerBound_nonneg {s : ScheduleBounds g}
    (h : Reached delayEstimator clockPeriodPs s) : 0 ≤ s.maxLowerBound := by
  refine h.keeps (P := fun s => 0 ≤ s.maxLowerBound) (le_refl _) ?_ ?_
  · intro s node value s' hs h
    unfold ScheduleBounds.tightenNodeLb at h
    split at h
    · cases h
    · cases h
      exact le_trans hs (le_max_left _ _)
  · intro s node value s' hs h
    unfold ScheduleBounds.tightenNodeUb at h
    split at h
    · cases h
    · cases h
      exact hs

/-- A lower bound that has no next cycle stays. -/
theorem tighten_later_eq {s : ScheduleBounds g} (hs : Ordered s) (hmax : 0 ≤ s.maxLowerBound)
    {n : Fin g.size} (h : (lowerSide g).later (s.lb n) ≤ s.lb n) :
    (lowerSide g).tighten s n ((lowerSide g).later (s.lb n)) = .ok s := by
  have hn := hs n
  have hlast : s.lb n = int64Max := by
    by_contra hne
    simp only [lowerSide] at h
    rw [addInt64_of_nonneg (by omega) (by omega)] at h
    omega
  have hlater : addInt64 (s.lb n) 1 = -int64Max - 1 := by
    rw [hlast]
    decide
  simp only [lowerSide, tightenNodeLb, hlater]
  rw [if_neg (by omega), max_eq_left (by omega), max_eq_left (by omega), Function.update_eq_self]

/-! ### What the sweeps keep -/

/-- The greatest lower bound is kept in step with the lower bounds. -/
structure LowerInv (s : ScheduleBounds g) : Prop where
  le : ∀ n, s.lb n ≤ s.maxLowerBound
  attained : s.maxLowerBound = 0 ∨ ∃ n, s.maxLowerBound ≤ s.lb n
  nonneg : 0 ≤ s.maxLowerBound
  ub : ∀ n, s.ub n = int64Max

/-- Tightening keeps what is known of the lower bounds. -/
theorem lowerInv_tighten {s s' : ScheduleBounds g} {node : Fin g.size} {value : Int}
    (hs : LowerInv s) (h : (lowerSide g).tighten s node value = .ok s') :
    LowerInv s' := by
  have hgrow : ∀ n, s.lb n ≤ s'.lb n := by
    intro n
    have hb := congrFun ((lowerSide g).bound_tighten h) n
    simp only [lowerSide] at hb
    by_cases hn : n = node
    · subst hn
      rw [hb, Function.update_self]
      omega
    · rw [hb, Function.update_of_ne hn]
  simp only [lowerSide, tightenNodeLb] at h
  split at h
  · cases h
  · cases h
    constructor
    · intro n
      have := hs.le n
      by_cases hn : n = node
      · subst hn
        simp only [Function.update_self]
        omega
      · simp only [Function.update_of_ne hn]
        omega
    · rcases le_total value s.maxLowerBound with hv | hv
      · simp only [max_eq_left hv]
        rcases hs.attained with hzero | ⟨n, hn⟩
        · exact .inl hzero
        · exact .inr ⟨n, le_trans hn (hgrow n)⟩
      · refine .inr ⟨node, ?_⟩
        simp only [Function.update_self, max_eq_right hv]
        omega
    · have := hs.nonneg
      simp only
      omega
    · exact hs.ub

/-- Upper bounds do not pass the lower bounds, which stay. -/
structure UpperInv (lb : Fin g.size → Int) (maxLowerBound : Int) (s : ScheduleBounds g) : Prop where
  lb_eq : s.lb = lb
  max_eq : s.maxLowerBound = maxLowerBound
  le : ∀ n, lb n ≤ s.ub n

variable {lb : Fin g.size → Int} {maxLowerBound : Int} {s s' : ScheduleBounds g}

/-- Tightening keeps what is known of the upper bounds. -/
theorem upperInv_tighten {s s' : ScheduleBounds g} {node : Fin g.size} {value : Int}
    (hs : UpperInv lb maxLowerBound s) (h : tightenNodeUb s node value = .ok s') :
    UpperInv lb maxLowerBound s' := by
  unfold tightenNodeUb at h
  split at h
  · cases h
  · rename_i hv
    cases h
    refine ⟨hs.lb_eq, hs.max_eq, fun n => ?_⟩
    have := hs.le n
    by_cases hn : n = node
    · subst hn
      rw [hs.lb_eq] at hv
      simp only [Function.update_self]
      omega
    · simpa only [Function.update_of_ne hn] using this

/-- Tightening all upper bounds to one value. -/
theorem tightenAllUb_spec {value : Int} (nodes : List (Fin g.size))
    (hs : UpperInv lb maxLowerBound s) (h : tightenAllUb value nodes s = .ok s') :
    UpperInv lb maxLowerBound s' ∧ (∀ n, s'.ub n ≤ s.ub n) ∧ ∀ n ∈ nodes, s'.ub n ≤ value := by
  induction nodes generalizing s with
  | nil =>
    cases h
    exact ⟨hs, fun _ => le_refl _, by simp⟩
  | cons node rest ih =>
    obtain ⟨s₁, hs₁, h⟩ := bind_eq_ok.mp h
    obtain ⟨hinv, hle, hall⟩ := ih (upperInv_tighten hs hs₁) h
    have hstep : (∀ n, s₁.ub n ≤ s.ub n) ∧ s₁.ub node ≤ value := by
      unfold tightenNodeUb at hs₁
      split at hs₁
      · cases hs₁
      · cases hs₁
        refine ⟨fun n => ?_, by simp⟩
        by_cases hn : n = node
        · subst hn
          simp
        · simp [Function.update_of_ne hn]
    exact ⟨hinv, fun n => le_trans (hle n) (hstep.1 n),
      forall_mem_cons.mpr ⟨le_trans (hle node) hstep.2, hall⟩⟩

/-- All upper bounds are set to a value that is not above them. -/
theorem tightenAllUb_eq {value : Int} (nodes : List (Fin g.size)) (hle : ∀ n, value ≤ s.ub n)
    (h : tightenAllUb value nodes s = .ok s') (n : Fin g.size) : value ≤ s'.ub n := by
  induction nodes generalizing s with
  | nil =>
    cases h
    exact hle n
  | cons node rest ih =>
    obtain ⟨s₁, hs₁, h⟩ := bind_eq_ok.mp h
    refine ih (fun m => ?_) h
    unfold tightenNodeUb at hs₁
    split at hs₁
    · cases hs₁
    · cases hs₁
      have := hle m
      by_cases hm : m = node
      · subst hm
        simp only [Function.update_self]
        omega
      · simpa only [Function.update_of_ne hm] using this

/-! ### Schedules -/

/-- A schedule of the cycles from 0 to `last` that respects the order of operands and in which
no path inside a cycle exceeds the clock period. -/
structure IsSchedule (delayEstimator : Fin g.size → Result Int) (clockPeriodPs last : Int)
    (cycle : Fin g.size → Int) : Prop where
  range : ∀ n, 0 ≤ cycle n ∧ cycle n ≤ last
  legal : Legal g.operands (delayOf delayEstimator) clockPeriodPs cycle

/-- A lower bound is at most the number of the node: each cycle has a node before. -/
theorem lb_le {before start cycle : Fin g.size → Int} (hstart : ∀ n, start n = 0)
    (hsol : ∀ n, NodeSolved delayEstimator clockPeriodPs (lowerSide g) start cycle before n)
    (n : Fin g.size) : cycle n ≤ (n.val : Int) := by
  induction hn : n.val using Nat.strongRecOn generalizing n with
  | ind k ih =>
    have hpred : ∀ p ∈ g.operands n, cycle p ≤ (p.val : Int) ∧ p.val < n.val := by
      intro p hp
      have hlt : p.val < n.val := g.operands_lt n p hp
      exact ⟨ih p.val (by omega) p rfl, hlt⟩
    rcases (hsol n).solved with hs | hs
    · rcases hs.least with h | ⟨p, hp, -, h⟩ | ⟨p, hp, -, h, -⟩
      · rw [h, hstart]
        omega
      · obtain ⟨hle, hlt⟩ := hpred p hp
        omega
      · obtain ⟨hle, hlt⟩ := hpred p hp
        omega
    · obtain ⟨p, hp, -, h, -⟩ := hs.exceeds
      obtain ⟨hle, hlt⟩ := hpred p hp
      omega

section

variable (hdelays : DelaysFit delayEstimator clockPeriodPs)
include hdelays

variable {s s' : ScheduleBounds g}

theorem lb_lt_int64Max (h : propagateLowerBounds delayEstimator clockPeriodPs (reset g) = .ok s)
    (n : Fin g.size) : s.lb n < int64Max := by
  obtain ⟨before, hsol⟩ := propagate_nodeSolved hdelays.lower (topological_lower g) mem_finRange
    (ordered_reset g) h
  have hsize := g.size_lt
  have hle := lb_le (fun _ => rfl) hsol n
  have hlt := n.isLt
  simp only [lowerSide] at hle
  unfold int64Max
  omega

theorem lower_solved (hs : Ordered s)
    (h : propagateLowerBounds delayEstimator clockPeriodPs s = .ok s')
    (hlast : ∀ n, s'.lb n < int64Max) :
    ∃ before, ∀ n, SolvedAt g.operands (delayOf delayEstimator) clockPeriodPs (fun _ => false)
      s.lb s'.lb before n :=
  propagate_solved hdelays.lower (topological_lower g) mem_finRange hs h
    (lowerSide_open (propagate_keeps (lowerSide g).ordered_tighten _ hs h) hlast)

theorem upper_solved (hs : Ordered s)
    (h : propagateUpperBounds delayEstimator clockPeriodPs s = .ok s') :
    ∃ before, ∀ n, SolvedAt g.users (delayOf delayEstimator) clockPeriodPs
      (fun bound => bound == -int64Max) (fun n => -s.ub n) (fun n => -s'.ub n) before n :=
  propagate_solved hdelays.upper (topological_upper g) (fun n => mem_reverse.mpr (mem_finRange n))
    hs h (upperSide_open (propagate_keeps (upperSide g).ordered_tighten _ hs h))

/-- The lower bounds after the first sweep. -/
theorem lower_spec (h : propagateLowerBounds delayEstimator clockPeriodPs (reset g) = .ok s) :
    IsSchedule delayEstimator clockPeriodPs s.maxLowerBound s.lb ∧
      (∀ last cycle, IsSchedule delayEstimator clockPeriodPs last cycle → ∀ n, s.lb n ≤ cycle n) ∧
      (∀ n, s.ub n = int64Max) ∧ s.maxLowerBound < int64Max := by
  have hlt := lb_lt_int64Max hdelays h
  obtain ⟨before, hsol⟩ := lower_solved hdelays (ordered_reset g) h hlt
  have hinv : LowerInv s := by
    refine propagate_keeps lowerInv_tighten _ ?_ h
    exact ⟨fun _ => le_refl _, .inl rfl, le_refl _, fun _ => rfl⟩
  refine ⟨⟨fun n => ⟨(hsol n).start_le, hinv.le n⟩, ?_⟩, ?_, hinv.ub, ?_⟩
  · exact legal_of_solved hsol fun _ => rfl
  · intro last cycle hcycle n
    exact (solved_le (fun m : Fin g.size => m.val) (fun m p hp => g.operands_lt m p hp)
      hsol hcycle.legal (fun m => (hcycle.range m).1) n).1
  · rcases hinv.attained with hzero | ⟨n, hn⟩
    · rw [hzero]
      decide
    · exact lt_of_le_of_lt hn (hlt n)

/-- The upper bounds after the second sweep. -/
theorem upper_spec {last : Int} (hlast : last < int64Max)
    (hub : ∀ n, s.ub n = last) (hlb : ∀ n, s.lb n ≤ s.ub n) (hnonneg : ∀ n, 0 ≤ s.lb n)
    (h : propagateUpperBounds delayEstimator clockPeriodPs s = .ok s') :
    s'.lb = s.lb ∧ s'.maxLowerBound = s.maxLowerBound ∧
      IsSchedule delayEstimator clockPeriodPs last s'.ub ∧
      ∀ cycle, IsSchedule delayEstimator clockPeriodPs last cycle → ∀ n, cycle n ≤ s'.ub n := by
  have hordered : Ordered s := fun n => ⟨hnonneg n, hlb n, (hub n).trans_le hlast.le⟩
  obtain ⟨before, hsol⟩ := upper_solved hdelays hordered h
  have hkeeps : ∀ {t : ScheduleBounds g} {node value t'}, UpperInv s.lb s.maxLowerBound t →
      (upperSide g).tighten t node value = .ok t' → UpperInv s.lb s.maxLowerBound t' :=
    fun ht h => upperInv_tighten ht h
  have hinv : UpperInv s.lb s.maxLowerBound s' := propagate_keeps hkeeps _ ⟨rfl, rfl, hlb⟩ h
  have hle : ∀ n, s'.ub n ≤ last := by
    intro n
    have := (hsol n).start_le
    rw [hub] at this
    omega
  have hlegal := legal_of_solved hsol (fun n => by
    have := hle n
    simp only [beq_eq_false_iff_ne]
    omega)
  refine ⟨hinv.lb_eq, hinv.max_eq, ⟨fun n => ⟨?_, hle n⟩, ?_⟩, ?_⟩
  · exact le_trans (hnonneg n) (hinv.le n)
  · -- Turning the edges round again gives the graph of the operands.
    have hrev : Legal g.operands _ _ _ := hlegal.reverse fun n p => NodeGraph.mem_users.symm
    simpa only [neg_neg] using hrev
  · intro cycle hcycle n
    have hrev : Legal g.users _ _ _ := hcycle.legal.reverse fun n p => NodeGraph.mem_users
    have hrank : ∀ m, ∀ p ∈ g.users m, g.size - p.val < g.size - m.val := by
      intro m p hp
      have hlt : m.val < p.val := g.operands_lt p m (NodeGraph.mem_users.mp hp)
      have := p.isLt
      omega
    have hbound := (solved_le (fun m : Fin g.size => g.size - m.val) hrank hsol
      hrev (fun m => by
        have := (hcycle.range m).2
        rw [hub]
        omega) n).1
    omega

/-- A second propagation changes nothing. -/
theorem propagateLowerBounds_idempotent (hs : Reached delayEstimator clockPeriodPs s)
    (h : propagateLowerBounds delayEstimator clockPeriodPs s = .ok s') :
    propagateLowerBounds delayEstimator clockPeriodPs s' = .ok s' := by
  have hs' := hs.propagateLowerBounds h
  exact propagate_idempotent hdelays.lower (topological_lower g) mem_finRange hs.ordered h
    fun n hle => tighten_later_eq hs'.ordered hs'.maxLowerBound_nonneg hle

theorem propagateUpperBounds_idempotent (hs : Reached delayEstimator clockPeriodPs s)
    (h : propagateUpperBounds delayEstimator clockPeriodPs s = .ok s') :
    propagateUpperBounds delayEstimator clockPeriodPs s' = .ok s' := by
  have hopen := upperSide_open (hs.propagateUpperBounds h).ordered
  exact propagate_idempotent hdelays.upper (topological_upper g)
    (fun n => mem_reverse.mpr (mem_finRange n)) hs.ordered h
    fun n hle => absurd hle (not_le.mpr (hopen n))

end

/-- The bounds are exact, and the propagations are idempotent. -/
theorem bounds_exact (g : NodeGraph) (delayEstimator : Fin g.size → Result Int)
    (clockPeriodPs : Int) (hdelays : DelaysFit delayEstimator clockPeriodPs) :
    (∀ s, computeAsapAndAlapBounds delayEstimator clockPeriodPs = .ok s →
      IsSchedule delayEstimator clockPeriodPs s.maxLowerBound s.lb ∧
        IsSchedule delayEstimator clockPeriodPs s.maxLowerBound s.ub ∧
        ∀ cycle, IsSchedule delayEstimator clockPeriodPs s.maxLowerBound cycle →
          ∀ n, s.lb n ≤ cycle n ∧ cycle n ≤ s.ub n) ∧
      (∀ s s', Reached delayEstimator clockPeriodPs s →
        propagateLowerBounds delayEstimator clockPeriodPs s = .ok s' →
        propagateLowerBounds delayEstimator clockPeriodPs s' = .ok s') ∧
      ∀ s s', Reached delayEstimator clockPeriodPs s →
        propagateUpperBounds delayEstimator clockPeriodPs s = .ok s' →
        propagateUpperBounds delayEstimator clockPeriodPs s' = .ok s' := by
  refine ⟨?_, fun s s' => propagateLowerBounds_idempotent hdelays,
    fun s s' => propagateUpperBounds_idempotent hdelays⟩
  intro s h
  obtain ⟨s₁, hlower, h⟩ := bind_eq_ok.mp h
  obtain ⟨s₂, htighten, hupper⟩ := bind_eq_ok.mp h
  obtain ⟨hsched, hleast, hub, hlast⟩ := lower_spec hdelays hlower
  have hinv : UpperInv s₁.lb s₁.maxLowerBound s₁ := by
    refine ⟨rfl, rfl, fun n => ?_⟩
    rw [hub]
    exact le_trans (hsched.range n).2 hlast.le
  obtain ⟨hinv₂, -, hall⟩ := tightenAllUb_spec _ hinv htighten
  have hub₂ : ∀ n, s₂.ub n = s₁.maxLowerBound := by
    intro n
    refine le_antisymm (hall n (mem_finRange n)) (tightenAllUb_eq _ (fun m => ?_) htighten n)
    rw [hub]
    exact hlast.le
  have hlb₂ : ∀ n, s₂.lb n ≤ s₂.ub n := by
    intro n
    rw [hinv₂.lb_eq]
    exact hinv₂.le n
  have hnonneg₂ : ∀ n, 0 ≤ s₂.lb n := by
    intro n
    rw [hinv₂.lb_eq]
    exact (hsched.range n).1
  obtain ⟨hlb, hmax, hsched', hgreatest⟩ := upper_spec hdelays hlast hub₂ hlb₂ hnonneg₂ hupper
  rw [hmax, hinv₂.max_eq, hlb, hinv₂.lb_eq]
  exact ⟨hsched, hsched', fun cycle hcycle n => ⟨hleast _ cycle hcycle n, hgreatest cycle hcycle n⟩⟩

/-- Two nodes, the second with the first as its operand. -/
def chainOfTwo : NodeGraph where
  size := 2
  operands n := if n = 1 then [0] else []
  operands_lt := by decide
  size_lt := by decide

theorem delaysFit_chainOfTwo {delay clockPeriodPs : Int} (hdelay : 0 ≤ delay)
    (hmax : clockPeriodPs + delay ≤ int64Max) :
    DelaysFit (g := chainOfTwo) (fun _ => .ok delay) clockPeriodPs := by
  refine delaysFit_of_le (fun n d h => ?_) fun n => hmax
  cases h
  exact hdelay

/-- Each node takes the whole clock period, so there are two cycles. -/
theorem bounds_exact_chainOfTwo :
    ∃ s, computeAsapAndAlapBounds (g := chainOfTwo) (fun _ => .ok 5) 5 = .ok s ∧
      s.maxLowerBound = 1 ∧ IsSchedule (g := chainOfTwo) (fun _ => .ok 5) 5 s.maxLowerBound s.lb :=
  ⟨_, rfl, rfl, ((bounds_exact chainOfTwo (fun _ => .ok 5) 5
    (delaysFit_chainOfTwo (by decide) (by decide))).1 _ rfl).1⟩

/-- Two delays of `2 ^ 62` overflow, and both nodes stay in the first cycle. -/
theorem not_isSchedule_wideDelays :
    ∃ s, computeAsapAndAlapBounds (g := chainOfTwo) (fun _ => .ok (2 ^ 62)) int64Max = .ok s ∧
      s.maxLowerBound = 0 ∧
      ¬ IsSchedule (g := chainOfTwo) (fun _ => .ok (2 ^ 62)) int64Max s.maxLowerBound s.lb := by
  refine ⟨_, rfl, rfl, fun h => ?_⟩
  have hperiod := h.legal.period (1 : Fin 2) [(0 : Fin 2)]
    (isChain_cons_cons.mpr ⟨⟨mem_singleton_self _, rfl⟩, isChain_singleton _⟩)
  exact absurd hperiod (by decide)

end Xls.ScheduleBounds

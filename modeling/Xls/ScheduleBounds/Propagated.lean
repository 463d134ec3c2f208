import Xls.ScheduleBounds.Exact
import Xls.ScheduleBounds.Progress

/-!
# Xls.ScheduleBounds.Propagated

Bounds that both propagations leave as they are (`propagated_of_asapAlap`). Their lower and
their upper bounds are legal schedules, and where they are tightened around a legal schedule
they can be propagated again.
-/

namespace Xls.ScheduleBounds

open CycleSchedule List

variable {g : NodeGraph}

/-- Bounds that are propagated. -/
structure Propagated (delayEstimator : Fin g.size → Result Int) (clockPeriodPs : Int)
    (s : ScheduleBounds g) : Prop where
  reached : Reached delayEstimator clockPeriodPs s
  lower : propagateLowerBounds delayEstimator clockPeriodPs s = .ok s
  upper : propagateUpperBounds delayEstimator clockPeriodPs s = .ok s

/-- Bounds between which there are schedules of the cycles from 0 to `last`. -/
structure Feasible (delayEstimator : Fin g.size → Result Int) (clockPeriodPs last : Int)
    (s : ScheduleBounds g) : Prop where
  lower : IsSchedule delayEstimator clockPeriodPs last s.lb
  upper : IsSchedule delayEstimator clockPeriodPs last s.ub
  le : ∀ n, s.lb n ≤ s.ub n
  delay : ∀ n, ∃ d, delayEstimator n = .ok d

variable {delayEstimator : Fin g.size → Result Int} {clockPeriodPs last : Int}
  {s s' : ScheduleBounds g}

variable {value : Int}

/-- Tightening the upper bounds stays within what can be reached. -/
theorem reached_tightenAllUb (nodes : List (Fin g.size)) {s s' : ScheduleBounds g}
    (hs : Reached delayEstimator clockPeriodPs s) (h : tightenAllUb value nodes s = .ok s') :
    Reached delayEstimator clockPeriodPs s' ∧ s'.lb = s.lb := by
  induction nodes generalizing s with
  | nil =>
    cases h
    exact ⟨hs, rfl⟩
  | cons node rest ih =>
    obtain ⟨s₁, hs₁, h⟩ := Result.bind_eq_ok.mp h
    obtain ⟨hreached, hlb⟩ := ih (hs.tightenNodeUb hs₁) h
    refine ⟨hreached, hlb.trans ?_⟩
    unfold tightenNodeUb at hs₁
    split at hs₁
    · cases hs₁
    · cases hs₁
      rfl

/-! ### The sweeps -/

section

variable (hdelays : DelaysFit delayEstimator clockPeriodPs)
include hdelays

/-- The lower bounds of a sweep are legal. -/
theorem legal_lb (hs : Ordered s)
    (h : propagateLowerBounds delayEstimator clockPeriodPs s = .ok s')
    (hset : ∀ n, s'.lb n < int64Max) :
    Legal g.operands (delayOf delayEstimator) clockPeriodPs s'.lb ∧ ∀ n, s.lb n ≤ s'.lb n := by
  obtain ⟨before, hsol⟩ := lower_solved hdelays hs h hset
  exact ⟨legal_of_solved hsol fun _ => rfl, fun n => (hsol n).start_le⟩

theorem ub_le (hs : Ordered s)
    (h : propagateUpperBounds delayEstimator clockPeriodPs s = .ok s') (n : Fin g.size) :
    s'.ub n ≤ s.ub n := by
  obtain ⟨before, hsol⟩ := upper_solved hdelays hs h
  have := (hsol n).start_le
  omega

/-- The upper bounds of a sweep are legal, where all are set. -/
theorem legal_ub (hs : Ordered s)
    (h : propagateUpperBounds delayEstimator clockPeriodPs s = .ok s')
    (hset : ∀ n, s'.ub n < int64Max) :
    Legal g.operands (delayOf delayEstimator) clockPeriodPs s'.ub := by
  obtain ⟨before, hsol⟩ := upper_solved hdelays hs h
  have hlegal := legal_of_solved hsol fun n => by
    have := hset n
    simp only [beq_eq_false_iff_ne]
    omega
  have hrev : Legal g.operands _ _ _ := hlegal.reverse fun n p => NodeGraph.mem_users.symm
  simpa only [neg_neg] using hrev

theorem known_of_propagate (hs : Ordered s)
    (h : propagateLowerBounds delayEstimator clockPeriodPs s = .ok s') (n : Fin g.size) :
    ∃ d, delayEstimator n = .ok d := by
  obtain ⟨before, hsol⟩ := propagate_nodeSolved hdelays.lower (topological_lower g) mem_finRange
    hs h
  exact (hsol n).known

/-- Propagated bounds are feasible. -/
theorem Propagated.feasible (h : Propagated delayEstimator clockPeriodPs s)
    (hub : ∀ n, s.ub n ≤ last) (hlast : last < int64Max) :
    Feasible delayEstimator clockPeriodPs last s := by
  have hordered := h.reached.ordered
  have hcross : ∀ n, 0 ≤ s.lb n ∧ s.lb n ≤ s.ub n := fun n => ⟨(hordered n).1, (hordered n).2.1⟩
  have hset : ∀ n, s.ub n < int64Max := fun n => lt_of_le_of_lt (hub n) hlast
  have hlower := (legal_lb hdelays hordered h.lower
    fun n => lt_of_le_of_lt (hcross n).2 (hset n)).1
  have hupper := legal_ub hdelays hordered h.upper hset
  refine ⟨⟨fun n => ⟨(hcross n).1, ?_⟩, hlower⟩, ⟨fun n => ⟨?_, hub n⟩, hupper⟩,
    fun n => (hcross n).2, known_of_propagate hdelays hordered h.lower⟩
  · exact le_trans (hcross n).2 (hub n)
  · exact le_trans (hcross n).1 (hcross n).2

/-- Bounds around a legal schedule can be propagated. -/
theorem propagate_feasible (hknown : ∀ n, ∃ d, delayEstimator n = .ok d)
    (hnonneg : ∀ n, 0 ≤ s.lb n) (hlast : ∀ n, s.ub n ≤ last) (hmax : last < int64Max)
    {schedule : Fin g.size → Int}
    (hlegal : Legal g.operands (delayOf delayEstimator) clockPeriodPs schedule)
    (hbounds : ∀ n, s.lb n ≤ schedule n ∧ schedule n ≤ s.ub n) :
    ∃ s₁ s₂, propagateLowerBounds delayEstimator clockPeriodPs s = .ok s₁ ∧
      propagateUpperBounds delayEstimator clockPeriodPs s₁ = .ok s₂ ∧
      Feasible delayEstimator clockPeriodPs last s₂ ∧
      (∀ n, s.lb n ≤ s₂.lb n) ∧ ∀ n, s₂.ub n ≤ s.ub n := by
  have hset : ∀ n, s.ub n < int64Max := fun n => lt_of_le_of_lt (hlast n) hmax
  have hordered : Ordered s := fun n =>
    ⟨hnonneg n, le_trans (hbounds n).1 (hbounds n).2, (hset n).le⟩
  obtain ⟨s₁, hrun₁, hub₁, hle₁⟩ := propagate_progress
    (show Legal (lowerSide g).neighbours _ _ _ from hlegal)
    (Q := fun t => t.ub = s.ub) (fun t node value ht hvalue => by
      have := (hbounds node).2
      simp only [lowerSide, tightenNodeLb]
      rw [ht, if_neg (by omega)]
      exact ⟨_, rfl, rfl⟩) hknown hdelays.lower (topological_lower g) rfl hordered fun n =>
        (hbounds n).1
  have hrun₁' : propagateLowerBounds delayEstimator clockPeriodPs s = .ok s₁ := hrun₁
  have hordered₁ : Ordered s₁ := propagate_keeps (lowerSide g).ordered_tighten _ hordered hrun₁
  have hcross : ∀ n, s₁.lb n ≤ s₁.ub n := fun n => (hordered₁ n).2.1
  obtain ⟨hlegal₁, hge₁⟩ := legal_lb hdelays hordered hrun₁' fun n => by
    have := hcross n
    rw [hub₁] at this
    exact lt_of_le_of_lt this (hset n)
  have hrev : Legal (upperSide g).neighbours _ _ _ :=
    hlegal₁.reverse fun n p => NodeGraph.mem_users
  obtain ⟨s₂, hrun₂, hlb₂, hle₂⟩ := propagate_progress hrev
    (Q := fun t => t.lb = s₁.lb) (fun t node value ht hvalue => by
      simp only [upperSide, tightenNodeUb]
      rw [ht, if_neg (by omega)]
      exact ⟨_, rfl, rfl⟩) hknown hdelays.upper (topological_upper g) rfl hordered₁ fun n => by
        have := hcross n
        simp only [upperSide]
        omega
  have hrun₂' : propagateUpperBounds delayEstimator clockPeriodPs s₁ = .ok s₂ := hrun₂
  have hub₂ : ∀ n, s₂.ub n ≤ s.ub n := by
    intro n
    have := ub_le hdelays hordered₁ hrun₂' n
    rwa [hub₁] at this
  have hcross₂ : ∀ n, s₁.lb n ≤ s₂.ub n := by
    intro n
    have := hle₂ n
    simp only [upperSide] at this
    omega
  have hlegal₂ := legal_ub hdelays hordered₁ hrun₂' fun n => lt_of_le_of_lt (hub₂ n) (hset n)
  have hrange : ∀ n, 0 ≤ s₁.lb n ∧ s₂.ub n ≤ last := fun n =>
    ⟨le_trans (hnonneg n) (hge₁ n), le_trans (hub₂ n) (hlast n)⟩
  refine ⟨s₁, s₂, hrun₁', hrun₂', ⟨⟨fun n => ?_, ?_⟩, ⟨fun n => ?_, hlegal₂⟩, fun n => ?_, hknown⟩,
    fun n => ?_, hub₂⟩
  · rw [hlb₂]
    exact ⟨(hrange n).1, le_trans (hcross₂ n) (hrange n).2⟩
  · rw [hlb₂]
    exact hlegal₁
  · exact ⟨le_trans (hrange n).1 (hcross₂ n), (hrange n).2⟩
  · rw [hlb₂]
    exact hcross₂ n
  · rw [hlb₂]
    exact hge₁ n

/-! ### The bounds of the propagations from the start -/

/-- The bounds that the ASAP and then the ALAP propagation find are propagated, for any last
cycle. -/
theorem propagated_of_asapAlap {s₁ s₂ s₃ : ScheduleBounds g}
    (h₁ : propagateLowerBounds delayEstimator clockPeriodPs (reset g) = .ok s₁)
    (h₂ : tightenAllUb last (finRange g.size) s₁ = .ok s₂)
    (h₃ : propagateUpperBounds delayEstimator clockPeriodPs s₂ = .ok s₃) :
    Propagated delayEstimator clockPeriodPs s₃ := by
  obtain ⟨hreached, hlb₂⟩ := reached_tightenAllUb _ (Reached.reset.propagateLowerBounds h₁) h₂
  have hlb₃ : s₃.lb = s₁.lb := by
    have hkeeps : ∀ {t : ScheduleBounds g} {node value t'}, t.lb = s₁.lb →
        (upperSide g).tighten t node value = .ok t' → t'.lb = s₁.lb := by
      intro t node value t' ht h
      simp only [upperSide, tightenNodeUb] at h
      split at h
      · cases h
      · cases h
        exact ht
    exact propagate_keeps (P := fun t => t.lb = s₁.lb) hkeeps _ hlb₂ h₃
  have hreached₃ := hreached.propagateUpperBounds h₃
  refine ⟨hreached₃, ?_, propagateUpperBounds_idempotent hdelays hreached h₃⟩
  -- The lower bounds, which the rest leaves as they are, are solved by the first propagation.
  obtain ⟨before, hsol⟩ := propagate_nodeSolved hdelays.lower (topological_lower g) mem_finRange
    (ordered_reset g) h₁
  have hsol₃ : ∀ n, NodeSolved delayEstimator clockPeriodPs (lowerSide g)
      ((lowerSide g).bound (reset g)) ((lowerSide g).bound s₃) before n := by
    intro n
    simp only [lowerSide, hlb₃]
    exact hsol n
  have horder : finRange g.size = [] ++ finRange g.size := rfl
  obtain ⟨inCycleDelay, heq⟩ := visitNodes_stable hdelays.lower
    (fun n => tighten_later_eq hreached₃.ordered hreached₃.maxLowerBound_nonneg) hsol₃
    (topological_lower g) _ horder (fun _ => 0) fun n hn => absurd hn not_mem_nil
  rw [propagateLowerBounds, propagate, heq]
  rfl

end

theorem propagated_of_asapAlap_chainOfTwo :
    ∃ s, Propagated (g := chainOfTwo) (fun _ => .ok 5) 5 s ∧ s.maxLowerBound = 1 :=
  ⟨_, @propagated_of_asapAlap chainOfTwo _ _ 1 (delaysFit_chainOfTwo (by decide) (by decide))
    _ _ _ rfl rfl rfl, rfl⟩

end Xls.ScheduleBounds

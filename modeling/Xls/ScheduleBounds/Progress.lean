import Xls.ScheduleBounds.Sweep

/-!
# Xls.ScheduleBounds.Progress

A propagation succeeds where there is a legal schedule that the bounds allow: the sweep never
tightens a bound beyond it (`propagate_progress`).
-/

namespace Xls.ScheduleBounds

open CycleSchedule List Result

variable {g : NodeGraph} {delayEstimator : Fin g.size → Result Int} {clockPeriodPs : Int}
  {side : Side g} {schedule : Fin g.size → Int}

/-- A bound that a schedule respects. Where it is attained, the schedule has a path in the
cycle that takes as long as the delay before the node. -/
structure Respected (delayEstimator : Fin g.size → Result Int) (side : Side g)
    (schedule : Fin g.size → Int) (bound before : Int) (n : Fin g.size) : Prop where
  le : bound ≤ schedule n
  path : bound = schedule n → ∃ path, InCycle side.neighbours schedule (n :: path) ∧
    total (delayOf delayEstimator) (n :: path) = before + delayOf delayEstimator n

theorem respected_zero {bound : Int} {n : Fin g.size} (hle : bound ≤ schedule n) :
    Respected delayEstimator side schedule bound 0 n where
  le := hle
  path _ := ⟨[], isChain_singleton _, by simp [total]⟩

section

variable (hlegal : Legal side.neighbours (delayOf delayEstimator) clockPeriodPs schedule)
include hlegal

/-- A node in the cycle of a neighbour, after it. -/
theorem Respected.follow {bound before : Int} {n p : Fin g.size} (hp : p ∈ side.neighbours n)
    (h : Respected delayEstimator side schedule bound before p) :
    Respected delayEstimator side schedule bound (before + delayOf delayEstimator p) n where
  le := le_trans h.le (hlegal.order n p hp)
  path heq := by
    have horder := hlegal.order n p hp
    have hle := h.le
    obtain ⟨path, hpath, htotal⟩ := h.path (by omega)
    refine ⟨p :: path, isChain_cons_cons.mpr ⟨⟨hp, by omega⟩, hpath⟩, ?_⟩
    simp only [total, map_cons, sum_cons] at htotal ⊢
    omega

variable {Q : ScheduleBounds g → Prop} (htighten : ∀ s node value, Q s → value ≤ schedule node →
    ∃ s', side.tighten s node value = .ok s' ∧ Q s')
  (hdelay : ∀ n, ∃ d, delayEstimator n = .ok d)
include htighten hdelay

variable {s : ScheduleBounds g}
  {inCycleDelay : Fin g.size → Int} {node : Fin g.size} {order : List (Fin g.size)}

/-- No neighbour pushes the bound beyond the schedule. -/
theorem visitNeighbours_progress (others : List (Fin g.size))
    (hothers : ∀ p ∈ others, p ∈ side.neighbours node ∧ p ≠ node) {d : Int} (hQ : Q s)
    (hexact : SumsExact delayEstimator inCycleDelay others)
    (hpreds : ∀ p ∈ others,
      Respected delayEstimator side schedule (side.bound s p) (inCycleDelay p) p)
    (hnode : Respected delayEstimator side schedule (side.bound s node) d node) :
    ∃ s' d', visitNeighbours delayEstimator side inCycleDelay node others s d = .ok (s', d') ∧
      Q s' ∧ (∀ m, m ≠ node → side.bound s' m = side.bound s m) ∧
      Respected delayEstimator side schedule (side.bound s' node) d' node := by
  induction others generalizing s d with
  | nil => exact ⟨s, d, rfl, hQ, fun _ _ => rfl, hnode⟩
  | cons other rest ih =>
    obtain ⟨hmem, hne⟩ := hothers other mem_cons_self
    have hrest := fun p hp => hothers p (mem_cons_of_mem _ hp)
    have hpredsRest := fun p hp => hpreds p (mem_cons_of_mem _ hp)
    have hfollow := (hpreds other mem_cons_self).follow hlegal hmem
    obtain ⟨hsum, hexact⟩ := forall_mem_cons.mp hexact
    rw [visitNeighbours]
    by_cases hskip : (side.unbounded (side.bound s other) ||
        decide (side.bound s other < side.bound s node)) = true
    · rw [if_pos hskip]
      exact ih hrest hQ hexact hpredsRest hnode
    · rw [if_neg hskip]
      obtain ⟨otherDelay, hother⟩ := hdelay other
      rw [hother, ok_bind, ← delayOf_eq hother, hsum]
      rw [Bool.or_eq_true, not_or, decide_eq_true_iff] at hskip
      by_cases hlt : side.bound s node < side.bound s other
      · -- The bound follows that of the neighbour.
        rw [if_pos hlt]
        obtain ⟨s₁, hs₁, hQ₁⟩ := htighten s node _ hQ hfollow.le
        have hbound := side.bound_tighten hs₁
        have hself : side.bound s₁ node = side.bound s other := by
          rw [hbound, Function.update_self]
          omega
        have hframe : ∀ m, m ≠ node → side.bound s₁ m = side.bound s m := by
          intro m hm
          rw [hbound, Function.update_of_ne hm]
        rw [← hself] at hfollow
        obtain ⟨s', d', hrun, hQ', hframe', hnode'⟩ := ih hrest hQ₁ hexact (fun p hp => by
          rw [hframe p (hrest p hp).2]
          exact hpredsRest p hp) hfollow
        refine ⟨s', d', ?_, hQ', fun m hm => (hframe' m hm).trans (hframe m hm), hnode'⟩
        rw [hs₁, ok_bind]
        exact hrun
      · rw [if_neg hlt]
        have heq : side.bound s other = side.bound s node := by omega
        rw [heq] at hfollow
        refine ih hrest hQ hexact hpredsRest ?_
        rcases le_total d (inCycleDelay other + delayOf delayEstimator other) with hmax | hmax
        · rw [max_eq_right hmax]
          exact hfollow
        · rw [max_eq_left hmax]
          exact hnode

variable (hsums : SumsFit side delayEstimator clockPeriodPs)
include hsums

/-- Visiting a node succeeds and does not push its bound beyond the schedule. -/
theorem visitNode_progress (hnot : node ∉ side.neighbours node) (hQ : Q s) (hordered : Ordered s)
    (hpreds : ∀ p ∈ side.neighbours node,
      Respected delayEstimator side schedule (side.bound s p) (inCycleDelay p) p ∧
        Visited side delayEstimator clockPeriodPs p (inCycleDelay p))
    (hnode : side.bound s node ≤ schedule node) :
    ∃ s' inCycleDelay',
      visitNode delayEstimator clockPeriodPs side node s inCycleDelay = .ok (s', inCycleDelay') ∧
      Q s' ∧ (∀ m, m ≠ node → side.bound s' m = side.bound s m ∧ inCycleDelay' m = inCycleDelay m) ∧
      Respected delayEstimator side schedule (side.bound s' node) (inCycleDelay' node) node := by
  have hothers : ∀ p ∈ side.neighbours node, p ∈ side.neighbours node ∧ p ≠ node := by
    refine fun p hp => ⟨hp, ?_⟩
    rintro rfl
    exact hnot hp
  have hexact : SumsExact delayEstimator inCycleDelay (side.neighbours node) :=
    fun p hp => (hpreds p hp).2.before.addInt64_eq hsums
  obtain ⟨s₁, d, hloop, hQ₁, hframe, hnode₁⟩ := visitNeighbours_progress hlegal htighten hdelay
    (side.neighbours node) hothers hQ hexact (fun p hp => (hpreds p hp).1) (respected_zero hnode)
  have hordered₁ : Ordered s₁ := visitNeighbours_keeps side.ordered_tighten _ hordered hloop
  obtain ⟨nodeDelay, hnodeDelay⟩ := hdelay node
  have hfits : delayOf delayEstimator node ≤ clockPeriodPs := by
    have := hlegal.period node [] (isChain_singleton _)
    simpa [total] using this
  have hd : DelayBefore side delayEstimator clockPeriodPs node d := by
    have := hsums.nonneg node
    refine delayBefore_of_attained (by omega) (fun p hp => (hpreds p hp).2) ?_
    rcases (visitNeighbours_scanned hnot hexact hloop).attained with ⟨-, hd⟩ | ⟨p, hp, -, -, hd⟩
    · exact .inl hd
    · exact .inr ⟨p, hp, hd⟩
  rw [visitNode, hloop, ok_bind]
  simp only [hnodeDelay, ok_bind]
  rw [← delayOf_eq hnodeDelay, if_neg (not_lt.mpr hfits), hd.addInt64_eq hsums]
  by_cases hover : clockPeriodPs < d + delayOf delayEstimator node
  · -- The schedule has the node in a later cycle: a path would be too long.
    have hlater : side.bound s₁ node + 1 ≤ schedule node := by
      have hle := hnode₁.le
      by_contra hlt
      obtain ⟨path, hpath, htotal⟩ := hnode₁.path (by omega)
      have hperiod := hlegal.period node path hpath
      rw [htotal] at hperiod
      omega
    have hnext := side.later_eq hordered₁ node
    obtain ⟨s', hs', hQ'⟩ := htighten s₁ node (side.later (side.bound s₁ node)) hQ₁ (by omega)
    have hbound := side.bound_tighten hs'
    rw [if_pos hover, hs', ok_bind]
    refine ⟨s', _, rfl, hQ', fun m hm => ⟨?_, Function.update_of_ne hm _ _⟩, ?_⟩
    · rw [hbound, Function.update_of_ne hm, hframe m hm]
    · rw [Function.update_self, hbound, Function.update_self]
      exact respected_zero (by omega)
  · rw [if_neg hover]
    refine ⟨s₁, _, rfl, hQ₁, fun m hm => ⟨hframe m hm, Function.update_of_ne hm _ _⟩, ?_⟩
    rw [Function.update_self]
    exact hnode₁

/-- A sweep succeeds and pushes no bound beyond the schedule. -/
theorem visitNodes_progress (htopo : Topological side order) (rest : List (Fin g.size))
    {done : List (Fin g.size)} (horder : order = done ++ rest) (inCycleDelay : Fin g.size → Int)
    (hQ : Q s) (hordered : Ordered s) (hle : ∀ n, side.bound s n ≤ schedule n)
    (hdone : ∀ n ∈ done, Respected delayEstimator side schedule (side.bound s n)
        (inCycleDelay n) n ∧
      Visited side delayEstimator clockPeriodPs n (inCycleDelay n)) :
    ∃ s' inCycleDelay', visitNodes delayEstimator clockPeriodPs side rest s inCycleDelay =
        .ok (s', inCycleDelay') ∧ Q s' ∧ ∀ n, side.bound s' n ≤ schedule n := by
  induction rest generalizing done s inCycleDelay with
  | nil => exact ⟨s, inCycleDelay, rfl, hQ, hle⟩
  | cons node rest ih =>
    have hpreds := htopo.before done node rest horder
    have hnode : node ∉ done := by
      have hnodup := htopo.nodup
      rw [horder, nodup_append] at hnodup
      intro hmem
      exact hnodup.2.2 node hmem node mem_cons_self rfl
    have hnot : node ∉ side.neighbours node := fun hmem => hnode (hpreds node hmem)
    obtain ⟨s₁, inCycleDelay₁, hvisit, hQ₁, hframe, hself⟩ := visitNode_progress hlegal htighten
      hdelay hsums hnot hQ hordered (fun p hp => hdone p (hpreds p hp)) (hle node)
    have hordered₁ : Ordered s₁ := visitNode_keeps side.ordered_tighten hordered hvisit
    have hvisited := (visitNode_solved hsums hordered hnot
      (fun p hp => (hdone p (hpreds p hp)).2) hvisit).2.visited
    have horder' : order = (done ++ [node]) ++ rest := by
      rw [horder, append_assoc]
      rfl
    rw [visitNodes, hvisit, ok_bind]
    refine ih horder' inCycleDelay₁ hQ₁ hordered₁ ?_ ?_
    · intro n
      by_cases hn : n = node
      · rw [hn]
        exact hself.le
      · rw [(hframe n hn).1]
        exact hle n
    · intro n hn
      by_cases heq : n = node
      · rw [heq]
        exact ⟨hself, hvisited⟩
      · rw [(hframe n heq).1, (hframe n heq).2]
        refine hdone n ?_
        rcases mem_append.mp hn with hn | hn
        · exact hn
        · exact absurd (mem_singleton.mp hn) heq

/-- A propagation succeeds, and its bounds are ones that the schedule respects. -/
theorem propagate_progress (htopo : Topological side order) (hQ : Q s) (hordered : Ordered s)
    (hle : ∀ n, side.bound s n ≤ schedule n) :
    ∃ s', propagate delayEstimator clockPeriodPs side order s = .ok s' ∧ Q s' ∧
      ∀ n, side.bound s' n ≤ schedule n := by
  have horder : order = [] ++ order := rfl
  obtain ⟨s', inCycleDelay, hrun, hQ', hle'⟩ := visitNodes_progress hlegal htighten hdelay hsums
    htopo order horder (fun _ => 0) hQ hordered hle fun n hn => absurd hn not_mem_nil
  refine ⟨s', ?_, hQ', hle'⟩
  rw [propagate, hrun]
  rfl

end

end Xls.ScheduleBounds

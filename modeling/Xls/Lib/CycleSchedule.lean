import Mathlib.Data.List.Chain
import Mathlib.Algebra.BigOperators.Group.List.Basic
import Mathlib.Algebra.Order.Group.Int
import Mathlib.Tactic.Linarith

/-!
# Xls.Lib.CycleSchedule

Schedules of a graph in clock cycles. A schedule is legal if every node comes no earlier
than its predecessors and no path inside a cycle takes longer than the clock period.

`Solution` collects what a sweep over the graph establishes that gives every node the
earliest cycle, with the delay of the longest path before it in that cycle. Its cycles are a
legal schedule, and no legal schedule has an earlier one (`legal_of_solved` and `solved_le`).
-/

namespace Xls.CycleSchedule

open List

variable {ι : Type} (preds : ι → List ι) (delay : ι → Int) (clock : Int)

/-- The total delay of the nodes of a path. -/
def total (path : List ι) : Int := (path.map delay).sum

theorem total_cons (n : ι) (path : List ι) :
    total delay (n :: path) = delay n + total delay path := by
  rw [total, map_cons, sum_cons, total]

theorem total_reverse (path : List ι) : total delay path.reverse = total delay path := by
  simp only [total, map_reverse, sum_reverse]

/-- A path inside a cycle, from its last node back to its first. -/
def InCycle (cycle : ι → Int) (path : List ι) : Prop :=
  path.IsChain fun n p => p ∈ preds n ∧ cycle n = cycle p

/-- A legal schedule of the nodes. -/
structure Legal (cycle : ι → Int) : Prop where
  order : ∀ n, ∀ p ∈ preds n, cycle p ≤ cycle n
  period : ∀ n path, InCycle preds cycle (n :: path) → total delay (n :: path) ≤ clock

/-- The cycles and the delays before the nodes that a sweep finds, from cycles that the nodes
must not come before. Predecessors with an `unbounded` cycle are left out. -/
structure SolvedAt (unbounded : Int → Bool) (start cycle before : ι → Int) (n : ι) : Prop where
  start_le : start n ≤ cycle n
  order : ∀ p ∈ preds n, unbounded (cycle p) = false → cycle p ≤ cycle n
  before_le : ∀ p ∈ preds n, unbounded (cycle p) = false → cycle p = cycle n →
    before p + delay p ≤ before n
  before_eq : before n = 0 ∨ ∃ p ∈ preds n, unbounded (cycle p) = false ∧ cycle p = cycle n ∧
    before n = before p + delay p
  nonneg : 0 ≤ before n
  fits : before n + delay n ≤ clock
  /-- The cycle is forced by its start, by a predecessor in it, or by a predecessor in the
  cycle before with which the node does not fit. -/
  least : cycle n = start n ∨ (∃ p ∈ preds n, unbounded (cycle p) = false ∧ cycle p = cycle n) ∨
    ∃ p ∈ preds n, unbounded (cycle p) = false ∧ cycle p + 1 = cycle n ∧
      clock < before p + delay p + delay n

variable {preds delay clock} {unbounded : Int → Bool} {start cycle before : ι → Int}

/-- The equations of a node depend on the node and its neighbours only. -/
theorem SolvedAt.congr {cycle' before' : ι → Int} {n : ι}
    (h : SolvedAt preds delay clock unbounded start cycle before n)
    (hn : cycle' n = cycle n ∧ before' n = before n)
    (hp : ∀ p ∈ preds n, cycle' p = cycle p ∧ before' p = before p) :
    SolvedAt preds delay clock unbounded start cycle' before' n := by
  constructor
  case start_le => rw [hn.1]; exact h.start_le
  case order =>
      intro p hmem hlive
      rw [(hp p hmem).1] at hlive ⊢
      rw [hn.1]
      exact h.order p hmem hlive
  case before_le =>
      intro p hmem hlive heq
      rw [(hp p hmem).1] at hlive heq
      rw [hn.1] at heq
      rw [(hp p hmem).2, hn.2]
      exact h.before_le p hmem hlive heq
  case before_eq =>
      rcases h.before_eq with hzero | ⟨p, hmem, hlive, heq, hb⟩
      · exact .inl (hn.2.trans hzero)
      · refine .inr ⟨p, hmem, ?_⟩
        rw [(hp p hmem).1, (hp p hmem).2, hn.1, hn.2]
        exact ⟨hlive, heq, hb⟩
  case nonneg => rw [hn.2]; exact h.nonneg
  case fits => rw [hn.2]; exact h.fits
  case least =>
      rcases h.least with hs | ⟨p, hmem, hlive, heq⟩ | ⟨p, hmem, hlive, heq, hclock⟩
      · exact .inl (hn.1.trans hs)
      · refine .inr (.inl ⟨p, hmem, ?_⟩)
        rw [(hp p hmem).1, hn.1]
        exact ⟨hlive, heq⟩
      · refine .inr (.inr ⟨p, hmem, ?_⟩)
        rw [(hp p hmem).1, (hp p hmem).2, hn.1]
        exact ⟨hlive, heq, hclock⟩

section

variable (hsol : ∀ n, SolvedAt preds delay clock unbounded start cycle before n)
  (hbounded : ∀ n, unbounded (cycle n) = false)
include hsol hbounded

/-- The delay before a node bounds every path that ends at it. -/
theorem total_le (n : ι) (path : List ι) (hpath : InCycle preds cycle (n :: path)) :
    total delay (n :: path) ≤ before n + delay n := by
  induction path generalizing n with
  | nil =>
    have := (hsol n).nonneg
    simp only [total, map_cons, map_nil, sum_cons, sum_nil]
    omega
  | cons p path ih =>
    obtain ⟨⟨hmem, hcycle⟩, hrest⟩ := isChain_cons_cons.mp hpath
    have hp := ih p hrest
    have hbefore := (hsol n).before_le p hmem (hbounded p) hcycle.symm
    simp only [total, map_cons, sum_cons] at hp ⊢
    omega

/-- The cycles of a solution are a legal schedule. -/
theorem legal_of_solved : Legal preds delay clock cycle where
  order n p hp := (hsol n).order p hp (hbounded p)
  period n path hpath := le_trans (total_le hsol hbounded n path hpath) (hsol n).fits

end

/-- A legal schedule that respects the start comes no earlier than the solution; where it has
the same cycle, it has a path as long as the delay of the solution. -/
theorem solved_le (rank : ι → Nat) (hrank : ∀ n, ∀ p ∈ preds n, rank p < rank n)
    (hsol : ∀ n, SolvedAt preds delay clock unbounded start cycle before n)
    {other : ι → Int} (hlegal : Legal preds delay clock other) (hstart : ∀ n, start n ≤ other n)
    (n : ι) : cycle n ≤ other n ∧ (other n = cycle n → ∃ path, InCycle preds other (n :: path) ∧
      total delay (n :: path) = before n + delay n) := by
  -- The induction is on the rank: the predecessors come first.
  induction hr : rank n using Nat.strongRecOn generalizing n with
  | ind r ih =>
    have hpred : ∀ p ∈ preds n, cycle p ≤ other p ∧ (other p = cycle p →
        ∃ path, InCycle preds other (p :: path) ∧
          total delay (p :: path) = before p + delay p) :=
      fun p hp => ih (rank p) (by have := hrank n p hp; omega) p rfl
    constructor
    · rcases (hsol n).least with hc | ⟨p, hp, -, hc⟩ | ⟨p, hp, -, hc, hclock⟩
      · rw [hc]
        exact hstart n
      · have := hlegal.order n p hp
        have := (hpred p hp).1
        omega
      · have horder := hlegal.order n p hp
        obtain ⟨hle, hpath⟩ := hpred p hp
        by_contra hlt
        -- Then the predecessor is in the same cycle, and its path with the node is too long.
        obtain ⟨path, hin, htotal⟩ := hpath (by omega)
        have hperiod := hlegal.period n (p :: path)
          (isChain_cons_cons.mpr ⟨⟨hp, by omega⟩, hin⟩)
        simp only [total, map_cons, sum_cons] at htotal hperiod
        omega
    · intro hsame
      rcases (hsol n).before_eq with hzero | ⟨p, hp, -, hc, hb⟩
      · exact ⟨[], isChain_singleton _, by simp [total, hzero]⟩
      · have horder := hlegal.order n p hp
        obtain ⟨hle, hpath⟩ := hpred p hp
        obtain ⟨path, hin, htotal⟩ := hpath (by omega)
        refine ⟨p :: path, isChain_cons_cons.mpr ⟨⟨hp, by omega⟩, hin⟩, ?_⟩
        simp only [total, map_cons, sum_cons] at htotal ⊢
        omega

/-- A schedule is legal if and only if the schedule with the cycles counted back is legal for
the graph with its edges turned round. -/
theorem Legal.reverse {succs : ι → List ι} (hsuccs : ∀ n p, n ∈ succs p ↔ p ∈ preds n)
    (h : Legal preds delay clock cycle) : Legal succs delay clock fun n => -cycle n where
  order n p hp := by
    have := h.order p n ((hsuccs p n).mp hp)
    omega
  period n path hpath := by
    have hrev : InCycle preds cycle (n :: path).reverse := by
      refine isChain_reverse.mpr (hpath.imp ?_)
      rintro a b ⟨hmem, hcycle⟩
      exact ⟨(hsuccs b a).mp hmem, (neg_inj.mp hcycle).symm⟩
    have hne : (n :: path).reverse ≠ [] := by simp
    obtain ⟨m, path', hm⟩ := exists_cons_of_ne_nil hne
    rw [hm] at hrev
    have hperiod := h.period m path' hrev
    rw [← total_reverse, hm]
    exact hperiod

/-- Two legal schedules, the first up to a cycle and the second after it, for a set of nodes
that is closed under predecessors and the others. -/
theorem Legal.glue {lo hi : ι → Int} (hlo : Legal preds delay clock lo)
    (hhi : Legal preds delay clock hi) (hle : ∀ n, lo n ≤ hi n) {low : ι → Bool}
    (hclosed : ∀ n, low n = true → ∀ p ∈ preds n, low p = true) {c : Int}
    (hlow : ∀ n, low n = true → lo n ≤ c) (hhigh : ∀ n, low n = false → c < hi n) :
    Legal preds delay clock fun n => if low n = true then lo n else hi n where
  order n p hp := by
    by_cases hn : low n = true
    · rw [if_pos hn, if_pos (hclosed n hn p hp)]
      exact hlo.order n p hp
    · rw [if_neg hn]
      have := hhi.order n p hp
      have := hle p
      split <;> omega
  period n path hpath := by
    -- A path inside a cycle stays on one side.
    have hside : ∀ (path : List ι) (n : ι),
        InCycle preds (fun n => if low n = true then lo n else hi n) (n :: path) →
        (low n = true → InCycle preds lo (n :: path)) ∧
          (low n = false → InCycle preds hi (n :: path)) := by
      intro path
      induction path with
      | nil => exact fun n _ => ⟨fun _ => isChain_singleton _, fun _ => isChain_singleton _⟩
      | cons p path ih =>
        intro n hpath
        obtain ⟨⟨hp, hcycle⟩, hrest⟩ := isChain_cons_cons.mp hpath
        obtain ⟨ihLow, ihHigh⟩ := ih p hrest
        dsimp only at hcycle
        constructor
        · intro hn
          have hpLow := hclosed n hn p hp
          rw [if_pos hn, if_pos hpLow] at hcycle
          exact isChain_cons_cons.mpr ⟨⟨hp, hcycle⟩, ihLow hpLow⟩
        · intro hn
          have hpHigh : low p = false := by
            by_contra hpLow
            rw [Bool.not_eq_false] at hpLow
            rw [if_neg (by rw [hn]; decide), if_pos hpLow] at hcycle
            have := hlow p hpLow
            have := hhigh n hn
            omega
          rw [if_neg (by rw [hn]; decide), if_neg (by rw [hpHigh]; decide)] at hcycle
          exact isChain_cons_cons.mpr ⟨⟨hp, hcycle⟩, ihHigh hpHigh⟩
    obtain ⟨hpathLow, hpathHigh⟩ := hside path n hpath
    cases hn : low n with
    | true => exact hlo.period n path (hpathLow hn)
    | false => exact hhi.period n path (hpathHigh hn)

end Xls.CycleSchedule

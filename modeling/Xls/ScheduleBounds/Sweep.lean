import Mathlib.Algebra.Order.BigOperators.Group.List
import Xls.ScheduleBounds

/-!
# Xls.ScheduleBounds.Sweep

The sweep of `PropagateLowerBounds` and `PropagateUpperBounds` solves the equations of
`Xls.Lib.CycleSchedule` (`propagate_solved`), and leaves bounds that solve them as they are
(`propagate_idempotent`), where no sum of delays overflows.
-/

namespace Xls.ScheduleBounds

open CycleSchedule Result List

variable {g : NodeGraph} (delayEstimator : Fin g.size → Result Int)

/-- The delay of a node, where the estimator knows it. -/
def delayOf (n : Fin g.size) : Int :=
  match delayEstimator n with
  | .ok d => d
  | .error _ => 0

variable {delayEstimator} {clockPeriodPs : Int} {side : Side g}

theorem delayOf_eq {n : Fin g.size} {d : Int} (h : delayEstimator n = .ok d) :
    delayOf delayEstimator n = d := by
  rw [delayOf, h]

/-! ### What the sweeps keep -/

section

variable {P : ScheduleBounds g → Prop}
  (hP : ∀ {s node value s'}, P s → side.tighten s node value = .ok s' → P s')
include hP

variable {inCycleDelay : Fin g.size → Int} {s s' : ScheduleBounds g}
  {node : Fin g.size} {inCycleDelay' : Fin g.size → Int}

/-- What tightening keeps, the visit of the neighbours keeps. -/
theorem visitNeighbours_keeps (others : List (Fin g.size)) {d d' : Int} (hs : P s)
    (h : visitNeighbours delayEstimator side inCycleDelay node others s d = .ok (s', d')) :
    P s' := by
  induction others generalizing s d with
  | nil =>
    cases h
    exact hs
  | cons other rest ih =>
    rw [visitNeighbours] at h
    split at h
    · exact ih hs h
    · obtain ⟨otherDelay, -, h⟩ := bind_eq_ok.mp h
      split at h
      · obtain ⟨s₁, hs₁, h⟩ := bind_eq_ok.mp h
        exact ih (hP hs hs₁) h
      · exact ih hs h

/-- What tightening keeps, the visit of a node keeps. -/
theorem visitNode_keeps (hs : P s)
    (h : visitNode delayEstimator clockPeriodPs side node s inCycleDelay =
      .ok (s', inCycleDelay')) :
    P s' := by
  obtain ⟨⟨s₁, d₁⟩, hloop, h⟩ := bind_eq_ok.mp h
  obtain ⟨nodeDelay, -, h⟩ := bind_eq_ok.mp h
  have hs₁ := visitNeighbours_keeps hP _ hs hloop
  split at h
  · cases h
  · split at h
    · obtain ⟨s₂, hs₂, h⟩ := bind_eq_ok.mp h
      cases h
      exact hP hs₁ hs₂
    · cases h
      exact hs₁

theorem visitNodes_keeps (order : List (Fin g.size)) (hs : P s)
    (h : visitNodes delayEstimator clockPeriodPs side order s inCycleDelay =
      .ok (s', inCycleDelay')) : P s' := by
  induction order generalizing s inCycleDelay with
  | nil =>
    cases h
    exact hs
  | cons node rest ih =>
    obtain ⟨⟨s₁, d₁⟩, hnode, h⟩ := bind_eq_ok.mp h
    exact ih (visitNode_keeps hP hs hnode) h

/-- What every tightening keeps, the propagation keeps. -/
theorem propagate_keeps (order : List (Fin g.size)) (hs : P s)
    (h : propagate delayEstimator clockPeriodPs side order s = .ok s') : P s' := by
  obtain ⟨⟨s₁, d₁⟩, hvisit, h⟩ := bind_eq_ok.mp h
  cases h
  exact visitNodes_keeps hP order hs hvisit

end

/-! ### Delays that fit -/

/-- Delays that a sweep adds up in an `int64_t`: no path that fits in the clock period without
its first node takes longer than can be counted. -/
structure SumsFit (side : Side g) (delayEstimator : Fin g.size → Result Int)
    (clockPeriodPs : Int) : Prop where
  nonneg : ∀ n, 0 ≤ delayOf delayEstimator n
  total_le : ∀ n path, (n :: path).IsChain (fun n p => p ∈ side.neighbours n) →
    total (delayOf delayEstimator) path ≤ clockPeriodPs →
    total (delayOf delayEstimator) (n :: path) ≤ int64Max

/-- A delay before a node: that of a path to it, which fits in the clock period. -/
structure DelayBefore (side : Side g) (delayEstimator : Fin g.size → Result Int)
    (clockPeriodPs : Int) (n : Fin g.size) (d : Int) : Prop where
  le : d ≤ clockPeriodPs
  path : ∃ path, (n :: path).IsChain (fun n p => p ∈ side.neighbours n) ∧
    total (delayOf delayEstimator) path = d

/-- What holds of the delay of a node after its visit. -/
structure Visited (side : Side g) (delayEstimator : Fin g.size → Result Int)
    (clockPeriodPs : Int) (n : Fin g.size) (d : Int) : Prop where
  before : DelayBefore side delayEstimator clockPeriodPs n d
  fits : d + delayOf delayEstimator n ≤ clockPeriodPs

section

variable {n : Fin g.size} {d : Int}

theorem delayBefore_zero (hclock : 0 ≤ clockPeriodPs) :
    DelayBefore side delayEstimator clockPeriodPs n 0 :=
  ⟨hclock, [], isChain_singleton _, rfl⟩

/-- The delay before a node is zero, or that of a neighbour with the delay before it. -/
theorem delayBefore_of_attained {inCycleDelay : Fin g.size → Int} (hclock : 0 ≤ clockPeriodPs)
    (hvisited : ∀ p ∈ side.neighbours n,
      Visited side delayEstimator clockPeriodPs p (inCycleDelay p))
    (h : d = 0 ∨ ∃ p ∈ side.neighbours n, d = inCycleDelay p + delayOf delayEstimator p) :
    DelayBefore side delayEstimator clockPeriodPs n d := by
  rcases h with rfl | ⟨p, hp, rfl⟩
  · exact delayBefore_zero hclock
  · have hpred := hvisited p hp
    obtain ⟨path, hchain, htotal⟩ := hpred.before.path
    refine ⟨hpred.fits, p :: path, isChain_cons_cons.mpr ⟨hp, hchain⟩, ?_⟩
    rw [total_cons, htotal, Int.add_comm]

variable (hsums : SumsFit side delayEstimator clockPeriodPs)
include hsums

theorem total_nonneg (path : List (Fin g.size)) : 0 ≤ total (delayOf delayEstimator) path := by
  refine sum_nonneg fun d hd => ?_
  obtain ⟨n, -, rfl⟩ := mem_map.mp hd
  exact hsums.nonneg n

theorem DelayBefore.nonneg (h : DelayBefore side delayEstimator clockPeriodPs n d) : 0 ≤ d := by
  obtain ⟨path, -, rfl⟩ := h.path
  exact total_nonneg hsums path

/-- The delay of a node is added without overflow. -/
theorem DelayBefore.addInt64_eq (h : DelayBefore side delayEstimator clockPeriodPs n d) :
    addInt64 d (delayOf delayEstimator n) = d + delayOf delayEstimator n := by
  have hnonneg := h.nonneg hsums
  have hdelay := hsums.nonneg n
  obtain ⟨path, hchain, htotal⟩ := h.path
  have hmax := hsums.total_le n path hchain (htotal ▸ h.le)
  rw [total_cons, htotal] at hmax
  exact addInt64_of_nonneg (by omega) (by omega)

end

/-! ### The neighbours of a node -/

/-- What the loop over the neighbours of a node finds. -/
structure Scanned (side : Side g) (delay : Fin g.size → Int) (inCycleDelay : Fin g.size → Int)
    (node : Fin g.size) (others : List (Fin g.size)) (s : ScheduleBounds g) (d : Int)
    (s' : ScheduleBounds g) (d' : Int) : Prop where
  frame : ∀ m, m ≠ node → side.bound s' m = side.bound s m
  le : side.bound s node ≤ side.bound s' node
  others_le : ∀ p ∈ others, side.unbounded (side.bound s p) = false →
    side.bound s p ≤ side.bound s' node
  delay_le : ∀ p ∈ others, side.unbounded (side.bound s p) = false →
    side.bound s p = side.bound s' node → inCycleDelay p + delay p ≤ d'
  mono : side.bound s' node = side.bound s node → d ≤ d'
  attained : side.bound s' node = side.bound s node ∧ d' = d ∨
    ∃ p ∈ others, side.unbounded (side.bound s p) = false ∧
      side.bound s p = side.bound s' node ∧ d' = inCycleDelay p + delay p

variable {inCycleDelay start : Fin g.size → Int} {node : Fin g.size} {s s' : ScheduleBounds g}
  {order : List (Fin g.size)}
  {others done : List (Fin g.size)} {inCycleDelay' before : Fin g.size → Int}

/-- The sums with the neighbours of a node are exact. -/
def SumsExact (delayEstimator : Fin g.size → Result Int) (inCycleDelay : Fin g.size → Int)
    (others : List (Fin g.size)) : Prop :=
  ∀ p ∈ others, addInt64 (inCycleDelay p) (delayOf delayEstimator p) =
    inCycleDelay p + delayOf delayEstimator p

/-- The visit of the neighbours finds the latest bound and the delay of those that end with it. -/
theorem visitNeighbours_scanned {d d' : Int} (hnot : node ∉ others)
    (hexact : SumsExact delayEstimator inCycleDelay others)
    (h : visitNeighbours delayEstimator side inCycleDelay node others s d = .ok (s', d')) :
    Scanned side (delayOf delayEstimator) inCycleDelay node others s d s' d' := by
  induction others generalizing s d with
  | nil =>
    cases h
    exact ⟨fun _ _ => rfl, le_refl _, by simp, by simp, fun _ => le_refl _, .inl ⟨rfl, rfl⟩⟩
  | cons other rest ih =>
    have hrest : node ∉ rest := fun hmem => hnot (mem_cons_of_mem _ hmem)
    obtain ⟨hsum, hexact⟩ := forall_mem_cons.mp hexact
    rw [visitNeighbours] at h
    split at h
    · -- The neighbour is in an earlier cycle, or has no bound.
      rename_i hskip
      have hscan := ih hrest hexact h
      have hlow : side.unbounded (side.bound s other) = false →
          side.bound s other < side.bound s node := by
        intro hlive
        simpa [hlive] using hskip
      constructor
      case frame => exact hscan.frame
      case le => exact hscan.le
      case others_le =>
          refine forall_mem_cons.mpr ⟨fun hlive => ?_, hscan.others_le⟩
          exact le_trans (hlow hlive).le hscan.le
      case delay_le =>
          refine forall_mem_cons.mpr ⟨fun hlive heq => ?_, hscan.delay_le⟩
          have := hlow hlive
          have := hscan.le
          omega
      case mono => exact hscan.mono
      case attained =>
          refine hscan.attained.imp_right ?_
          rintro ⟨p, hp, hrest⟩
          exact ⟨p, mem_cons_of_mem _ hp, hrest⟩
    · rename_i hskip
      rw [Bool.or_eq_true, not_or, decide_eq_true_iff, Bool.not_eq_true] at hskip
      obtain ⟨hlive, hge⟩ := hskip
      obtain ⟨otherDelay, hdelay, h⟩ := bind_eq_ok.mp h
      rw [← delayOf_eq hdelay, hsum] at h
      split at h
      · -- The bound follows that of the neighbour, and the delay starts anew.
        rename_i hlt
        obtain ⟨s₁, hs₁, h⟩ := bind_eq_ok.mp h
        have hscan := ih hrest hexact h
        have hbound := side.bound_tighten hs₁
        have hnode : side.bound s₁ node = side.bound s other := by
          rw [hbound, Function.update_self]
          omega
        have hframe : ∀ m, m ≠ node → side.bound s₁ m = side.bound s m := by
          intro m hm
          rw [hbound, Function.update_of_ne hm]
        have hmem : ∀ p ∈ rest, side.bound s₁ p = side.bound s p := fun p hp =>
          hframe p (by rintro rfl; exact hrest hp)
        have hle := hscan.le
        constructor
        case frame => exact fun m hm => (hscan.frame m hm).trans (hframe m hm)
        case le => omega
        case others_le =>
            refine forall_mem_cons.mpr ⟨fun _ => by omega, fun p hp hp' => ?_⟩
            rw [← hmem p hp] at hp' ⊢
            exact hscan.others_le p hp hp'
        case delay_le =>
            refine forall_mem_cons.mpr ⟨fun _ heq => hscan.mono (by omega), ?_⟩
            intro p hp hp' heq
            rw [← hmem p hp] at hp' heq
            exact hscan.delay_le p hp hp' heq
        case mono => intro heq; omega
        case attained =>
            right
            rcases hscan.attained with ⟨heq, hd⟩ | ⟨p, hp, hp', heq, hd⟩
            · exact ⟨other, mem_cons_self, hlive, by omega, hd⟩
            · rw [hmem p hp] at hp' heq
              exact ⟨p, mem_cons_of_mem _ hp, hp', heq, hd⟩
      · -- The neighbour is in the same cycle: the longer delay counts.
        rename_i hlt
        have hscan := ih hrest hexact h
        have hle := hscan.le
        constructor
        case frame => exact hscan.frame
        case le => exact hle
        case others_le =>
            exact forall_mem_cons.mpr ⟨fun _ => by omega, hscan.others_le⟩
        case delay_le =>
            refine forall_mem_cons.mpr ⟨fun _ heq => ?_, hscan.delay_le⟩
            have := hscan.mono (by omega)
            omega
        case mono =>
            intro heq
            have := hscan.mono heq
            omega
        case attained =>
            rcases hscan.attained with ⟨heq, hd⟩ | ⟨p, hp, hrest⟩
            · rcases le_total (inCycleDelay other + delayOf delayEstimator other) d with hm | hm
              · exact .inl ⟨heq, by omega⟩
              · exact .inr ⟨other, mem_cons_self, hlive, by omega, by omega⟩
            · exact .inr ⟨p, mem_cons_of_mem _ hp, hrest⟩

/-! ### A node -/

/-- A node in the last cycle that an `int64_t` counts, in which it does not fit: its bound
stays. -/
structure Saturated (delayEstimator : Fin g.size → Result Int) (clockPeriodPs : Int)
    (side : Side g) (start cycle before : Fin g.size → Int) (n : Fin g.size) : Prop where
  start_le : start n ≤ cycle n
  order : ∀ p ∈ side.neighbours n, side.unbounded (cycle p) = false → cycle p ≤ cycle n
  later_le : side.later (cycle n) ≤ cycle n
  before_eq : before n = 0
  exceeds : ∃ p ∈ side.neighbours n, side.unbounded (cycle p) = false ∧ cycle p = cycle n ∧
    clockPeriodPs < before p + delayOf delayEstimator p + delayOf delayEstimator n

/-- What a visit establishes for its node. -/
structure NodeSolved (delayEstimator : Fin g.size → Result Int) (clockPeriodPs : Int)
    (side : Side g) (start cycle before : Fin g.size → Int) (n : Fin g.size) : Prop where
  solved : SolvedAt side.neighbours (delayOf delayEstimator) clockPeriodPs side.unbounded
      start cycle before n ∨ Saturated delayEstimator clockPeriodPs side start cycle before n
  visited : Visited side delayEstimator clockPeriodPs n (before n)
  known : ∃ d, delayEstimator n = .ok d

section

variable {s₁ : ScheduleBounds g} {d₁ : Int}
  (hscan : Scanned side (delayOf delayEstimator) inCycleDelay node (side.neighbours node) s 0
    s₁ d₁)
  (hnot : node ∉ side.neighbours node)
include hscan

/-- A node that does not fit has a neighbour in its cycle. -/
theorem Scanned.exceeds (hdelay : delayOf delayEstimator node ≤ clockPeriodPs)
    (hover : clockPeriodPs < d₁ + delayOf delayEstimator node) :
    ∃ p ∈ side.neighbours node, side.unbounded (side.bound s p) = false ∧
      side.bound s p = side.bound s₁ node ∧
      clockPeriodPs < inCycleDelay p + delayOf delayEstimator p + delayOf delayEstimator node := by
  rcases hscan.attained with ⟨-, hd⟩ | ⟨p, hp, hlive, heq, hd⟩
  · omega
  · exact ⟨p, hp, hlive, heq, by omega⟩

include hnot

/-- A node that fits stays where its neighbours put it. -/
theorem Scanned.solvedAt (hnonneg : 0 ≤ d₁)
    (hfits : d₁ + delayOf delayEstimator node ≤ clockPeriodPs) :
    SolvedAt side.neighbours (delayOf delayEstimator) clockPeriodPs side.unbounded
      (side.bound s) (side.bound s₁) (Function.update inCycleDelay node d₁) node := by
  have hframe : ∀ p ∈ side.neighbours node, side.bound s₁ p = side.bound s p ∧
      Function.update inCycleDelay node d₁ p = inCycleDelay p := by
    intro p hp
    have hne : p ≠ node := ne_of_mem_of_not_mem hp hnot
    exact ⟨hscan.frame p hne, Function.update_of_ne hne _ _⟩
  constructor
  case start_le => exact hscan.le
  case order =>
      intro p hp hlive
      rw [(hframe p hp).1] at hlive ⊢
      exact hscan.others_le p hp hlive
  case before_le =>
      intro p hp hlive heq
      rw [(hframe p hp).1] at hlive heq
      rw [Function.update_self, (hframe p hp).2]
      exact hscan.delay_le p hp hlive heq
  case before_eq =>
      rw [Function.update_self]
      rcases hscan.attained with ⟨-, hd⟩ | ⟨p, hp, hlive, heq, hd⟩
      · exact .inl hd
      · refine .inr ⟨p, hp, ?_⟩
        rw [(hframe p hp).1, (hframe p hp).2]
        exact ⟨hlive, heq, hd⟩
  case nonneg => rwa [Function.update_self]
  case fits => rwa [Function.update_self]
  case least =>
      rcases hscan.attained with ⟨heq, -⟩ | ⟨p, hp, hlive, heq, -⟩
      · exact .inl heq
      · refine .inr (.inl ⟨p, hp, ?_⟩)
        rw [(hframe p hp).1]
        exact ⟨hlive, heq⟩

variable (hdelay : delayOf delayEstimator node ≤ clockPeriodPs)
  (hover : clockPeriodPs < d₁ + delayOf delayEstimator node)
include hdelay hover

/-- A node that does not fit moves to the next cycle, where no neighbour is. -/
theorem Scanned.solvedAt_moved
    (hbound : side.bound s' = Function.update (side.bound s₁) node (side.bound s₁ node + 1)) :
    SolvedAt side.neighbours (delayOf delayEstimator) clockPeriodPs side.unbounded
      (side.bound s) (side.bound s') (Function.update inCycleDelay node 0) node := by
  have hself : side.bound s' node = side.bound s₁ node + 1 := by
    rw [hbound, Function.update_self]
  have hframe : ∀ p ∈ side.neighbours node, side.bound s' p = side.bound s p ∧
      Function.update inCycleDelay node 0 p = inCycleDelay p := by
    intro p hp
    have hne : p ≠ node := ne_of_mem_of_not_mem hp hnot
    rw [hbound, Function.update_of_ne hne, Function.update_of_ne hne]
    exact ⟨hscan.frame p hne, rfl⟩
  have hle := hscan.le
  constructor
  case start_le => omega
  case order =>
      intro p hp hlive
      rw [(hframe p hp).1] at hlive ⊢
      have := hscan.others_le p hp hlive
      omega
  case before_le =>
      intro p hp hlive heq
      rw [(hframe p hp).1] at hlive heq
      have := hscan.others_le p hp hlive
      omega
  case before_eq => exact .inl (Function.update_self _ _ _)
  case nonneg => rw [Function.update_self]
  case fits => rwa [Function.update_self, Int.zero_add]
  case least =>
      obtain ⟨p, hp, hlive, heq, hexceeds⟩ := hscan.exceeds hdelay hover
      refine .inr (.inr ⟨p, hp, ?_⟩)
      rw [(hframe p hp).1, (hframe p hp).2, heq, hself]
      exact ⟨heq ▸ hlive, rfl, hexceeds⟩

/-- In the last cycle that is counted, a node that does not fit stays. -/
theorem Scanned.saturated
    (hbound : side.bound s' = Function.update (side.bound s₁) node (side.bound s₁ node))
    (hlater : side.later (side.bound s₁ node) ≤ side.bound s₁ node) :
    Saturated delayEstimator clockPeriodPs side (side.bound s) (side.bound s')
      (Function.update inCycleDelay node 0) node := by
  rw [Function.update_eq_self] at hbound
  rw [hbound]
  have hframe : ∀ p ∈ side.neighbours node, side.bound s₁ p = side.bound s p ∧
      Function.update inCycleDelay node 0 p = inCycleDelay p := by
    intro p hp
    have hne : p ≠ node := ne_of_mem_of_not_mem hp hnot
    exact ⟨hscan.frame p hne, Function.update_of_ne hne _ _⟩
  constructor
  case start_le => exact hscan.le
  case order =>
      intro p hp hlive
      rw [(hframe p hp).1] at hlive ⊢
      exact hscan.others_le p hp hlive
  case later_le => exact hlater
  case before_eq => exact Function.update_self _ _ _
  case exceeds =>
      obtain ⟨p, hp, hlive, heq, hexceeds⟩ := hscan.exceeds hdelay hover
      refine ⟨p, hp, ?_⟩
      rw [(hframe p hp).1, (hframe p hp).2]
      exact ⟨hlive, heq, hexceeds⟩

end

/-- The visit of a node leaves the other nodes alone and solves the equations of the node. -/
theorem visitNode_solved (hsums : SumsFit side delayEstimator clockPeriodPs)
    (hordered : Ordered s) (hnot : node ∉ side.neighbours node)
    (hvisited : ∀ p ∈ side.neighbours node,
      Visited side delayEstimator clockPeriodPs p (inCycleDelay p))
    (h : visitNode delayEstimator clockPeriodPs side node s inCycleDelay =
      .ok (s', inCycleDelay')) :
    (∀ m, m ≠ node → side.bound s' m = side.bound s m ∧ inCycleDelay' m = inCycleDelay m) ∧
      NodeSolved delayEstimator clockPeriodPs side (side.bound s) (side.bound s') inCycleDelay'
        node := by
  obtain ⟨⟨s₁, d₁⟩, hloop, h⟩ := bind_eq_ok.mp h
  obtain ⟨nodeDelay, hnode, h⟩ := bind_eq_ok.mp h
  have hscan := visitNeighbours_scanned hnot
    (fun p hp => (hvisited p hp).before.addInt64_eq hsums) hloop
  have hordered₁ : Ordered s₁ := visitNeighbours_keeps side.ordered_tighten _ hordered hloop
  have hn := delayOf_eq hnode
  have hnonneg := hsums.nonneg node
  split at h
  · cases h
  · rename_i hdelay
    have hd₁ : DelayBefore side delayEstimator clockPeriodPs node d₁ := by
      refine delayBefore_of_attained (by omega) hvisited ?_
      rcases hscan.attained with ⟨-, hd⟩ | ⟨p, hp, -, -, hd⟩
      · exact .inl hd
      · exact .inr ⟨p, hp, hd⟩
    rw [← hn, hd₁.addInt64_eq hsums] at h
    rw [← hn, not_lt] at hdelay
    split at h
    · -- The node does not fit: it moves to the next cycle, as far as cycles are counted.
      rename_i hover
      obtain ⟨s₂, hs₂, h⟩ := bind_eq_ok.mp h
      cases h
      have hbound := side.bound_tighten hs₂
      refine ⟨fun m hm => ⟨?_, Function.update_of_ne hm _ _⟩, ?_, ?_, nodeDelay, hnode⟩
      · rw [hbound, Function.update_of_ne hm, hscan.frame m hm]
      · rcases side.later_eq hordered₁ node with hlater | hlater
        · refine .inl (hscan.solvedAt_moved hnot hdelay hover ?_)
          rw [hbound, hlater, max_eq_right (by omega)]
        · refine .inr (hscan.saturated hnot hdelay hover ?_ hlater)
          rw [hbound, max_eq_left hlater]
      · rw [Function.update_self]
        exact ⟨delayBefore_zero (by omega), by omega⟩
    · rename_i hover
      cases h
      have hfits := not_lt.mp hover
      refine ⟨fun m hm => ⟨hscan.frame m hm, Function.update_of_ne hm _ _⟩,
        .inl (hscan.solvedAt hnot (hd₁.nonneg hsums) hfits), ?_, nodeDelay, hnode⟩
      rw [Function.update_self]
      exact ⟨hd₁, hfits⟩

/-! ### The nodes in order -/

/-- The neighbours of every node come before it. -/
structure Topological (side : Side g) (order : List (Fin g.size)) : Prop where
  nodup : order.Nodup
  before : ∀ done node rest, order = done ++ node :: rest →
    ∀ p ∈ side.neighbours node, p ∈ done

/-- The equations of a node depend on the node and its neighbours only. -/
theorem NodeSolved.congr {cycle cycle' before' : Fin g.size → Int} {n : Fin g.size}
    (h : NodeSolved delayEstimator clockPeriodPs side start cycle before n)
    (hn : cycle' n = cycle n ∧ before' n = before n)
    (hp : ∀ p ∈ side.neighbours n, cycle' p = cycle p ∧ before' p = before p) :
    NodeSolved delayEstimator clockPeriodPs side start cycle' before' n := by
  refine ⟨h.solved.imp (fun hs => hs.congr hn hp) fun hs => ?_, hn.2.symm ▸ h.visited, h.known⟩
  constructor
  case start_le => rw [hn.1]; exact hs.start_le
  case order =>
      intro p hmem hlive
      rw [(hp p hmem).1] at hlive ⊢
      rw [hn.1]
      exact hs.order p hmem hlive
  case later_le => rw [hn.1]; exact hs.later_le
  case before_eq => rw [hn.2, hs.before_eq]
  case exceeds =>
      obtain ⟨p, hmem, hlive, heq, hclock⟩ := hs.exceeds
      refine ⟨p, hmem, ?_⟩
      rw [(hp p hmem).1, (hp p hmem).2, hn.1]
      exact ⟨hlive, heq, hclock⟩

theorem NodeSolved.congr_start {cycle start' : Fin g.size → Int} {n : Fin g.size}
    (h : NodeSolved delayEstimator clockPeriodPs side start cycle before n)
    (hn : start' n = start n) :
    NodeSolved delayEstimator clockPeriodPs side start' cycle before n := by
  refine ⟨h.solved.imp (fun hs => ?_) fun hs => ?_, h.visited, h.known⟩
  · exact { hs with
      start_le := hn ▸ hs.start_le
      least := hn ▸ hs.least }
  · exact { hs with start_le := hn ▸ hs.start_le }

/-- After a sweep all nodes are solved. -/
theorem visitNodes_solved (hsums : SumsFit side delayEstimator clockPeriodPs)
    (htopo : Topological side order) (rest : List (Fin g.size)) (horder : order = done ++ rest)
    (hordered : Ordered s)
    (hdone : ∀ n ∈ done, NodeSolved delayEstimator clockPeriodPs side start (side.bound s)
      inCycleDelay n) (hstart : ∀ n, n ∉ done → side.bound s n = start n)
    (h : visitNodes delayEstimator clockPeriodPs side rest s inCycleDelay =
      .ok (s', inCycleDelay')) :
    ∀ n ∈ order, NodeSolved delayEstimator clockPeriodPs side start (side.bound s')
      inCycleDelay' n := by
  induction rest generalizing done s inCycleDelay with
  | nil =>
    cases h
    rwa [horder, append_nil]
  | cons node rest ih =>
    obtain ⟨⟨s₁, inCycleDelay₁⟩, hvisit, h⟩ := bind_eq_ok.mp h
    have hpreds := htopo.before done node rest horder
    have hnode : node ∉ done := by
      have hnodup := htopo.nodup
      rw [horder, nodup_append] at hnodup
      intro hmem
      exact hnodup.2.2 node hmem node mem_cons_self rfl
    have hself : node ∉ side.neighbours node := fun hmem => hnode (hpreds node hmem)
    obtain ⟨hframe, hsolved⟩ := visitNode_solved hsums hordered hself
      (fun p hp => (hdone p (hpreds p hp)).visited) hvisit
    have hordered₁ : Ordered s₁ := visitNode_keeps side.ordered_tighten hordered hvisit
    have horder' : order = (done ++ [node]) ++ rest := by
      rw [horder, append_assoc]
      rfl
    refine ih horder' hordered₁ ?_ ?_ h
    · intro n hn
      rcases mem_append.mp hn with hn | hn
      · -- What was solved stays so: the visit changes the node only.
        have hclosed : ∀ p ∈ side.neighbours n, p ∈ done := by
          obtain ⟨pre, post, rfl⟩ := append_of_mem hn
          intro p hp
          have := htopo.before pre n (post ++ node :: rest) (by rw [horder]; simp) p hp
          exact mem_append_left _ this
        have hne : ∀ m ∈ done, m ≠ node := by
          rintro m hm rfl
          exact hnode hm
        exact (hdone n hn).congr (hframe n (hne n hn))
          fun p hp => hframe p (hne p (hclosed p hp))
      · obtain rfl := mem_singleton.mp hn
        exact hsolved.congr_start (hstart n hnode).symm
    · intro n hn
      rw [mem_append, not_or, mem_singleton] at hn
      rw [(hframe n hn.2).1]
      exact hstart n hn.1

/-! ### Bounds that are solved already -/

/-- A visit with no neighbour that is later changes nothing. -/
theorem visitNeighbours_stable (inCycleDelay : Fin g.size → Int) (d : Int)
    (hexact : SumsExact delayEstimator inCycleDelay others)
    (hle : ∀ p ∈ others, side.unbounded (side.bound s p) = false →
      side.bound s p ≤ side.bound s node) (hdelay : ∀ p ∈ others, ∃ d, delayEstimator p = .ok d) :
    ∃ d', visitNeighbours delayEstimator side inCycleDelay node others s d = .ok (s, d') ∧ d ≤ d' ∧
      (∀ p ∈ others, side.unbounded (side.bound s p) = false →
        side.bound s p = side.bound s node → inCycleDelay p + delayOf delayEstimator p ≤ d') ∧
      (d' = d ∨ ∃ p ∈ others, side.unbounded (side.bound s p) = false ∧
        side.bound s p = side.bound s node ∧ d' = inCycleDelay p + delayOf delayEstimator p) := by
  induction others generalizing d with
  | nil => exact ⟨d, rfl, le_refl _, by simp, .inl rfl⟩
  | cons other rest ih =>
    have hle' := fun p hp => hle p (mem_cons_of_mem _ hp)
    have hdelay' := fun p hp => hdelay p (mem_cons_of_mem _ hp)
    obtain ⟨hsum, hexact⟩ := forall_mem_cons.mp hexact
    by_cases hskip : (side.unbounded (side.bound s other) ||
        decide (side.bound s other < side.bound s node)) = true
    · obtain ⟨d', heq, hd, hall, hatt⟩ := ih d hexact hle' hdelay'
      refine ⟨d', by rw [visitNeighbours, if_pos hskip]; exact heq, hd, ?_, ?_⟩
      · refine forall_mem_cons.mpr ⟨fun hlive heq' => ?_, hall⟩
        have hlt : side.bound s other < side.bound s node := by simpa [hlive] using hskip
        omega
      · refine hatt.imp_right ?_
        rintro ⟨p, hp, hrest⟩
        exact ⟨p, mem_cons_of_mem _ hp, hrest⟩
    · have hskip' := hskip
      rw [Bool.or_eq_true, not_or, decide_eq_true_iff, Bool.not_eq_true] at hskip'
      obtain ⟨hlive, hge⟩ := hskip'
      have hsame : side.bound s other = side.bound s node := by
        have := hle other mem_cons_self hlive
        omega
      obtain ⟨otherDelay, hother⟩ := hdelay other mem_cons_self
      obtain ⟨d', heq, hd, hall, hatt⟩ :=
        ih (max d (inCycleDelay other + delayOf delayEstimator other)) hexact hle' hdelay'
      refine ⟨d', ?_, by omega, ?_, ?_⟩
      · rw [visitNeighbours, if_neg hskip, hother, ok_bind, if_neg (by omega), ← delayOf_eq hother,
          hsum]
        exact heq
      · exact forall_mem_cons.mpr ⟨fun _ _ => by omega, hall⟩
      · rcases hatt with hatt | ⟨p, hp, hrest⟩
        · rcases le_total (inCycleDelay other + delayOf delayEstimator other) d with hm | hm
          · exact .inl (by omega)
          · exact .inr ⟨other, mem_cons_self, hlive, hsame, by omega⟩
        · exact .inr ⟨p, mem_cons_of_mem _ hp, hrest⟩

/-- A second visit of a node leaves it as it is, and finds its delay again. -/
theorem visitNode_stable (hsums : SumsFit side delayEstimator clockPeriodPs)
    (hstay : ∀ n, side.later (side.bound s n) ≤ side.bound s n →
      side.tighten s n (side.later (side.bound s n)) = .ok s)
    (hsol : ∀ n, NodeSolved delayEstimator clockPeriodPs side start (side.bound s) before n)
    (hpreds : ∀ p ∈ side.neighbours node, inCycleDelay p = before p) :
    visitNode delayEstimator clockPeriodPs side node s inCycleDelay =
      .ok (s, Function.update inCycleDelay node (before node)) := by
  have hnode := hsol node
  obtain ⟨nodeDelay, hknown⟩ := hnode.known
  have hvisited : ∀ p ∈ side.neighbours node,
      Visited side delayEstimator clockPeriodPs p (inCycleDelay p) := by
    intro p hp
    rw [hpreds p hp]
    exact (hsol p).visited
  have horder : ∀ p ∈ side.neighbours node, side.unbounded (side.bound s p) = false →
      side.bound s p ≤ side.bound s node := by
    rcases hnode.solved with h | h
    · exact h.order
    · exact h.order
  obtain ⟨d, heq, hd, hall, hatt⟩ := visitNeighbours_stable inCycleDelay 0
    (fun p hp => (hvisited p hp).before.addInt64_eq hsums) horder fun p hp => (hsol p).known
  have hbefore := hnode.visited.before.nonneg hsums
  have hfits := hnode.visited.fits
  have hdelay := hsums.nonneg node
  have hd' : DelayBefore side delayEstimator clockPeriodPs node d := by
    refine delayBefore_of_attained (by omega) hvisited (hatt.imp_right ?_)
    rintro ⟨p, hp, -, -, hd⟩
    exact ⟨p, hp, hd⟩
  have hloop : visitNode delayEstimator clockPeriodPs side node s inCycleDelay =
      if clockPeriodPs < d + delayOf delayEstimator node then do
        let s ← side.tighten s node (side.later (side.bound s node))
        return (s, Function.update inCycleDelay node 0)
      else .ok (s, Function.update inCycleDelay node d) := by
    simp only [visitNode, heq, ok_bind, hknown]
    rw [← delayOf_eq hknown, if_neg (by omega), hd'.addInt64_eq hsums]
    rfl
  rcases hnode.solved with h | h
  · have heq : d = before node := by
      refine le_antisymm ?_ ?_
      · rcases hatt with rfl | ⟨p, hp, hlive, hsame, rfl⟩
        · exact h.nonneg
        · rw [hpreds p hp]
          exact h.before_le p hp hlive hsame
      · rcases h.before_eq with hzero | ⟨p, hp, hlive, hsame, hb⟩
        · omega
        · rw [hb, ← hpreds p hp]
          exact hall p hp hlive hsame
    rw [hloop, heq, if_neg (by omega)]
  · -- The node does not fit again, and its bound stays again.
    obtain ⟨p, hp, hlive, hsame, hclock⟩ := h.exceeds
    have hle := hall p hp hlive hsame
    rw [hpreds p hp] at hle
    rw [hloop, if_pos (by omega), hstay node h.later_le, h.before_eq]
    rfl

/-- Solved bounds are left as they are, and the delays are found again. -/
theorem visitNodes_stable (hsums : SumsFit side delayEstimator clockPeriodPs)
    (hstay : ∀ n, side.later (side.bound s n) ≤ side.bound s n →
      side.tighten s n (side.later (side.bound s n)) = .ok s)
    (hsol : ∀ n, NodeSolved delayEstimator clockPeriodPs side start (side.bound s) before n)
    (htopo : Topological side order) (rest : List (Fin g.size)) (horder : order = done ++ rest)
    (inCycleDelay : Fin g.size → Int) (hdone : ∀ n ∈ done, inCycleDelay n = before n) :
    ∃ inCycleDelay', visitNodes delayEstimator clockPeriodPs side rest s inCycleDelay =
      .ok (s, inCycleDelay') := by
  induction rest generalizing done inCycleDelay with
  | nil => exact ⟨inCycleDelay, rfl⟩
  | cons node rest ih =>
    have hpreds := htopo.before done node rest horder
    rw [visitNodes, visitNode_stable hsums hstay hsol fun p hp => hdone p (hpreds p hp),
      ok_bind]
    have horder' : order = (done ++ [node]) ++ rest := by
      rw [horder, append_assoc]
      rfl
    refine ih horder' _ ?_
    intro n hn
    by_cases hne : n = node
    · rw [hne, Function.update_self]
    · rw [Function.update_of_ne hne]
      rcases mem_append.mp hn with hn | hn
      · exact hdone n hn
      · exact absurd (mem_singleton.mp hn) hne

section

variable (hsums : SumsFit side delayEstimator clockPeriodPs) (htopo : Topological side order)
  (hall : ∀ n, n ∈ order) (hordered : Ordered s)
  (h : propagate delayEstimator clockPeriodPs side order s = .ok s')
include hsums htopo hall hordered h

/-- The propagation solves the equations of all nodes in its order. -/
theorem propagate_nodeSolved :
    ∃ before, ∀ n, NodeSolved delayEstimator clockPeriodPs side (side.bound s) (side.bound s')
      before n := by
  obtain ⟨⟨s₁, before⟩, hvisit, h⟩ := bind_eq_ok.mp h
  cases h
  have horder : order = [] ++ order := rfl
  have hsol := visitNodes_solved hsums htopo order horder hordered
    (fun n hn => absurd hn not_mem_nil) (fun _ _ => rfl) hvisit
  exact ⟨before, fun n => hsol n (hall n)⟩

/-- Where every bound has a next one, they are those of a legal schedule. -/
theorem propagate_solved (hopen : ∀ n, side.bound s' n < side.later (side.bound s' n)) :
    ∃ before, ∀ n, SolvedAt side.neighbours (delayOf delayEstimator) clockPeriodPs side.unbounded
      (side.bound s) (side.bound s') before n := by
  obtain ⟨before, hsol⟩ := propagate_nodeSolved hsums htopo hall hordered h
  refine ⟨before, fun n => (hsol n).solved.resolve_right fun hsat => ?_⟩
  exact absurd hsat.later_le (not_le.mpr (hopen n))

/-- The propagation is idempotent. -/
theorem propagate_idempotent (hstay : ∀ n, side.later (side.bound s' n) ≤ side.bound s' n →
      side.tighten s' n (side.later (side.bound s' n)) = .ok s') :
    propagate delayEstimator clockPeriodPs side order s' = .ok s' := by
  obtain ⟨before, hsol⟩ := propagate_nodeSolved hsums htopo hall hordered h
  have horder : order = [] ++ order := rfl
  obtain ⟨inCycleDelay, heq⟩ := visitNodes_stable hsums hstay hsol htopo order horder
    (fun _ => 0) (fun n hn => absurd hn not_mem_nil)
  rw [propagate, heq]
  rfl

end

end Xls.ScheduleBounds

import Mathlib.Data.Finset.Basic
import Mathlib.Logic.Relation

/-!
# Xls.Lib.Tarjan

The invariant of Tarjan's depth-first search for strongly connected components, and the three
steps that keep it: a vertex is entered, a vertex is left on the stack because it can reach an
earlier one, and the vertices above a vertex that cannot are taken off the stack as a component.

The path holds the vertices whose edges are still being followed, the last one first.
Vertices that were seen and are no longer on the stack are done: everything they can reach is
done. The components that were taken off are the classes of mutual reachability
(`Sound.same_component_iff`).
-/

namespace Xls.Tarjan

open List

variable {V : Type}

/-- What the search has found: the order in which vertices were seen, the stack with the last
vertex first, and the components so far. -/
structure Search (V : Type) where
  index : V → Option Nat
  stack : List V
  components : List (Finset V)

namespace Search

/-- The index of a vertex that was seen. -/
def idx (s : Search V) (v : V) : Nat := (s.index v).getD 0

def Seen (s : Search V) (v : V) : Prop := s.index v ≠ none

def Done (s : Search V) (v : V) : Prop := s.Seen v ∧ v ∉ s.stack

/-- A vertex is seen. -/
def enter [DecidableEq V] (s : Search V) (v : V) (i : Nat) : Search V :=
  { s with index := Function.update s.index v (some i), stack := v :: s.stack }

/-- A component is taken off the stack. -/
def pop (s : Search V) (base : List V) (c : Finset V) : Search V :=
  { s with stack := base, components := s.components ++ [c] }

end Search

/-- The invariant of the search. -/
structure Sound (E : V → V → Prop) (path : List V) (s : Search V) : Prop where
  sorted : s.stack.Pairwise fun u v => s.idx v < s.idx u
  pathSorted : path.Pairwise fun u v => s.idx v < s.idx u
  seen : ∀ v ∈ s.stack, s.Seen v
  onStack : ∀ x ∈ path, x ∈ s.stack
  closed : ∀ u v, s.Done u → E u v → s.Done v
  covered : ∀ v, s.Done v ↔ ∃ c ∈ s.components, v ∈ c
  component : ∀ c ∈ s.components, ∃ u, ∀ v, v ∈ c ↔
    Relation.ReflTransGen E u v ∧ Relation.ReflTransGen E v u
  /-- An earlier component reaches no later one. -/
  ordered : s.components.Pairwise fun c d => ∀ u ∈ c, ∀ v ∈ d, ¬Relation.ReflTransGen E u v
  /-- Every vertex of the stack reaches an earlier one of the path. -/
  lower : ∀ y ∈ s.stack, ∃ x ∈ path, s.idx x ≤ s.idx y ∧ Relation.ReflTransGen E y x
  /-- Every vertex of the path reaches the later ones of the stack. -/
  upper : ∀ x ∈ path, ∀ y ∈ s.stack, s.idx x ≤ s.idx y → Relation.ReflTransGen E x y
  explored : ∀ u v, s.Seen u → u ∉ path → E u v → s.Seen v

variable {E : V → V → Prop} {path : List V} {s : Search V} {v : V}

/-- The search that has seen nothing is sound. -/
theorem sound_start : Sound E [] (⟨fun _ => none, [], []⟩ : Search V) where
  sorted := .nil
  pathSorted := .nil
  seen _ hv := nomatch hv
  onStack _ hx := nomatch hx
  closed _ _ hdone := absurd rfl hdone.1
  covered _ := ⟨fun hdone => absurd rfl hdone.1, fun hex => by simp at hex⟩
  component _ hc := nomatch hc
  ordered := .nil
  lower _ hy := nomatch hy
  upper _ hx := nomatch hx
  explored _ _ hseen := absurd rfl hseen

/-- What a done vertex reaches is done. -/
theorem Sound.done_of_reach (h : Sound E path s) {u w : V} (hu : s.Done u)
    (hreach : Relation.ReflTransGen E u w) : s.Done w := by
  induction hreach with
  | refl => exact hu
  | tail _ hedge ih => exact h.closed _ _ ih hedge

section Enter

variable [DecidableEq V] {i : Nat}

@[simp] theorem index_enter_self : (s.enter v i).index v = some i := by simp [Search.enter]

theorem index_enter_of_ne {u : V} (hu : u ≠ v) : (s.enter v i).index u = s.index u := by
  simp [Search.enter, hu]

theorem seen_enter {u : V} : (s.enter v i).Seen u ↔ u = v ∨ s.Seen u := by
  by_cases hu : u = v
  · simp [Search.Seen, hu]
  · simp [Search.Seen, index_enter_of_ne, hu]

theorem idx_enter_self : (s.enter v i).idx v = i := by simp [Search.idx]

theorem idx_enter_of_ne {u : V} (hu : u ≠ v) : (s.enter v i).idx u = s.idx u := by
  simp [Search.idx, index_enter_of_ne hu]

/-- A vertex that all of the path reaches is entered. -/
theorem Sound.enter (h : Sound E path s) (hv : ¬s.Seen v)
    (hpath : ∀ x ∈ path, Relation.ReflTransGen E x v) (hi : ∀ u, s.Seen u → s.idx u < i) :
    Sound E (v :: path) (s.enter v i) := by
  have hne : ∀ u, s.Seen u → u ≠ v := fun u hu heq => hv (heq ▸ hu)
  have hidx : ∀ u, s.Seen u → (s.enter v i).idx u = s.idx u := fun u hu =>
    idx_enter_of_ne (hne u hu)
  have hstackSeen : ∀ x ∈ path, s.Seen x := fun x hx => h.seen x (h.onStack x hx)
  have hdone : ∀ u, (s.enter v i).Done u ↔ s.Done u := by
    intro u
    change (s.enter v i).Seen u ∧ u ∉ v :: s.stack ↔ s.Seen u ∧ u ∉ s.stack
    rw [seen_enter, mem_cons, not_or]
    constructor
    · intro hand
      exact ⟨hand.1.resolve_left hand.2.1, hand.2.2⟩
    · intro hand
      exact ⟨.inr hand.1, hne u hand.1, hand.2⟩
  constructor
  case sorted =>
      refine pairwise_cons.mpr ⟨fun u hu => ?_, h.sorted.imp_of_mem fun hu hw hlt => ?_⟩
      · rw [idx_enter_self, hidx u (h.seen u hu)]
        exact hi u (h.seen u hu)
      · rwa [hidx _ (h.seen _ hu), hidx _ (h.seen _ hw)]
  case pathSorted =>
      refine pairwise_cons.mpr ⟨fun u hu => ?_, h.pathSorted.imp_of_mem fun hu hw hlt => ?_⟩
      · rw [idx_enter_self, hidx u (hstackSeen u hu)]
        exact hi u (hstackSeen u hu)
      · rwa [hidx _ (hstackSeen _ hu), hidx _ (hstackSeen _ hw)]
  case seen =>
      intro u hu
      rw [seen_enter]
      exact (mem_cons.mp hu).imp_right (h.seen u)
  case onStack =>
      intro x hx
      rcases mem_cons.mp hx with rfl | hx
      · exact mem_cons_self
      · exact mem_cons_of_mem v (h.onStack x hx)
  case closed =>
      intro u w hu hedge
      rw [hdone] at hu ⊢
      exact h.closed u w hu hedge
  case covered => exact fun u => (hdone u).trans (h.covered u)
  case component => exact h.component
  case ordered => exact h.ordered
  case lower =>
      intro y hy
      rcases mem_cons.mp hy with rfl | hy
      · exact ⟨y, mem_cons_self, le_rfl, .refl⟩
      · obtain ⟨x, hx, hle, hreach⟩ := h.lower y hy
        refine ⟨x, mem_cons_of_mem v hx, ?_, hreach⟩
        rwa [hidx x (hstackSeen x hx), hidx y (h.seen y hy)]
  case upper =>
      intro x hx y hy hle
      rcases mem_cons.mp hx with hxv | hxp
      · rcases mem_cons.mp hy with hyv | hys
        · rw [hxv, hyv]
        · -- nothing on the stack is later than the new vertex
          rw [hxv, idx_enter_self, hidx y (h.seen y hys)] at hle
          exact absurd hle (hi y (h.seen y hys)).not_ge
      · rcases mem_cons.mp hy with hyv | hys
        · rw [hyv]
          exact hpath x hxp
        · rw [hidx x (hstackSeen x hxp), hidx y (h.seen y hys)] at hle
          exact h.upper x hxp y hys hle
  case explored =>
      intro u w hu hnot hedge
      rw [mem_cons, not_or] at hnot
      rw [seen_enter] at hu ⊢
      exact .inr (h.explored u w (hu.resolve_left hnot.1) hnot.2 hedge)

end Enter

/-- A vertex whose edges were followed is left on the stack when it reaches an earlier one. -/
theorem Sound.leave (h : Sound E (v :: path) s) (hv : ∀ w, E v w → s.Seen w) {z : V}
    (hz : z ∈ s.stack) (hlt : s.idx z < s.idx v) (hreach : Relation.ReflTransGen E v z) :
    Sound E path s where
  sorted := h.sorted
  pathSorted := (pairwise_cons.mp h.pathSorted).2
  seen := h.seen
  onStack x hx := h.onStack x (mem_cons_of_mem v hx)
  closed := h.closed
  covered := h.covered
  component := h.component
  ordered := h.ordered
  upper x hx := h.upper x (mem_cons_of_mem v hx)
  lower y hy := by
    -- what reaches the vertex reaches the earlier one, and with it the path before the vertex
    obtain ⟨x, hx, hle, hyx⟩ := h.lower y hy
    rcases mem_cons.mp hx with rfl | hx
    · obtain ⟨x', hx', hle', hzx⟩ := h.lower z hz
      rcases mem_cons.mp hx' with rfl | hx'
      · exact absurd hlt hle'.not_gt
      · exact ⟨x', hx', (hle'.trans hlt.le).trans hle, (hyx.trans hreach).trans hzx⟩
    · exact ⟨x, hx, hle, hyx⟩
  explored u w hu hnot hedge := by
    by_cases huv : u = v
    · rw [huv] at hedge
      exact hv w hedge
    · exact h.explored u w hu (by simp [huv, hnot]) hedge

/-! ### Taking a component off the stack -/

/-- The vertices of the stack down to a vertex of the path whose edges were followed, when none
of them has an edge further down. -/
structure Closing (E : V → V → Prop) (path : List V) (s : Search V) (v : V) (above base : List V) :
    Prop where
  sound : Sound E (v :: path) s
  stack_eq : s.stack = above ++ v :: base
  followed : ∀ w, E v w → s.Seen w
  noEscape : ∀ u ∈ above ++ [v], ∀ w ∈ base, ¬E u w

namespace Closing

variable {above base : List V} (h : Closing E path s v above base)

include h

variable {u : V}

theorem mem_stack : u ∈ s.stack ↔ u ∈ above ++ [v] ∨ u ∈ base := by
  rw [h.stack_eq]
  simp [or_assoc]

theorem idx_base_lt (hu : u ∈ base) : s.idx u < s.idx v := by
  have hsorted := h.sound.sorted
  rw [h.stack_eq, pairwise_append, pairwise_cons] at hsorted
  exact hsorted.2.1.1 u hu

theorem idx_le_above (hu : u ∈ above ++ [v]) : s.idx v ≤ s.idx u := by
  have hsorted := h.sound.sorted
  rw [h.stack_eq, pairwise_append] at hsorted
  rcases mem_append.mp hu with hu | hu
  · exact (hsorted.2.2 u hu v mem_cons_self).le
  · rw [mem_singleton.mp hu]

theorem notMem_base (hu : u ∈ above ++ [v]) : u ∉ base := fun hb =>
  absurd (h.idx_le_above hu) (h.idx_base_lt hb).not_ge

/-- The rest of the path is further down. -/
theorem path_mem_base {x : V} (hx : x ∈ path) : x ∈ base := by
  have hlt : s.idx x < s.idx v := (pairwise_cons.mp h.sound.pathSorted).1 x hx
  rcases h.mem_stack.mp (h.sound.onStack x (mem_cons_of_mem v hx)) with habove | hbase
  · exact absurd (h.idx_le_above habove) hlt.not_ge
  · exact hbase

/-- An edge out of the component leads into it or to what is done. -/
theorem step {u w : V} (hu : u ∈ above ++ [v]) (hedge : E u w) : w ∈ above ++ [v] ∨ s.Done w := by
  have hseen : s.Seen w := by
    by_cases huv : u = v
    · rw [huv] at hedge
      exact h.followed w hedge
    · refine h.sound.explored u w (h.sound.seen u (h.mem_stack.mpr (.inl hu))) ?_ hedge
      rw [mem_cons, not_or]
      exact ⟨huv, fun hp => h.notMem_base hu (h.path_mem_base hp)⟩
  by_cases hw : w ∈ s.stack
  · exact .inl ((h.mem_stack.mp hw).resolve_right fun hb => h.noEscape u hu w hb hedge)
  · exact .inr ⟨hseen, hw⟩

theorem reach {w : V} (hu : u ∈ above ++ [v]) (hreach : Relation.ReflTransGen E u w) :
    w ∈ above ++ [v] ∨ s.Done w := by
  induction hreach with
  | refl => exact .inl hu
  | tail _ hedge ih =>
    rcases ih with hmid | hdone
    · exact h.step hmid hedge
    · exact .inr (h.sound.closed _ _ hdone hedge)

theorem reach_from (hu : u ∈ above ++ [v]) : Relation.ReflTransGen E v u :=
  h.sound.upper v mem_cons_self u (h.mem_stack.mpr (.inl hu)) (h.idx_le_above hu)

theorem reach_to (hu : u ∈ above ++ [v]) : Relation.ReflTransGen E u v := by
  obtain ⟨x, hx, -, hux⟩ := h.sound.lower u (h.mem_stack.mpr (.inl hu))
  rcases mem_cons.mp hx with rfl | hx
  · exact hux
  · -- the path before the vertex cannot be reached without leaving through an edge
    have hbase := h.path_mem_base hx
    rcases h.reach hu hux with habove | hdone
    · exact absurd hbase (h.notMem_base habove)
    · exact absurd (h.mem_stack.mpr (.inr hbase)) hdone.2

/-- These vertices are the strongly connected component of the vertex. -/
theorem mem_iff {w : V} : w ∈ above ++ [v] ↔
    Relation.ReflTransGen E v w ∧ Relation.ReflTransGen E w v := by
  have hv : v ∈ above ++ [v] := by simp
  constructor
  · intro hw
    exact ⟨h.reach_from hw, h.reach_to hw⟩
  · intro hand
    refine (h.reach hv hand.1).resolve_right fun hdone => ?_
    exact (h.sound.done_of_reach hdone hand.2).2 (h.mem_stack.mpr (.inl hv))

/-- Taking off a component makes exactly its members done. -/
theorem done_pop {c : Finset V} (u : V) : (s.pop base c).Done u ↔ s.Done u ∨ u ∈ above ++ [v] := by
  change s.Seen u ∧ u ∉ base ↔ (s.Seen u ∧ u ∉ s.stack) ∨ u ∈ above ++ [v]
  constructor
  · intro hand
    by_cases hu : u ∈ above ++ [v]
    · exact .inr hu
    · refine .inl ⟨hand.1, fun hstack => ?_⟩
      exact (h.mem_stack.mp hstack).elim hu hand.2
  · intro hor
    rcases hor with ⟨hseen, hnot⟩ | hu
    · exact ⟨hseen, fun hb => hnot (h.mem_stack.mpr (.inr hb))⟩
    · exact ⟨h.sound.seen u (h.mem_stack.mpr (.inl hu)), h.notMem_base hu⟩

/-- The component is taken off the stack. -/
theorem pop {c : Finset V} (hc : ∀ u, u ∈ c ↔ u ∈ above ++ [v]) : Sound E path (s.pop base c) where
  sorted := by
    have hsorted := h.sound.sorted
    rw [h.stack_eq, pairwise_append, pairwise_cons] at hsorted
    exact hsorted.2.1.2
  pathSorted := (pairwise_cons.mp h.sound.pathSorted).2
  seen u hu := h.sound.seen u (h.mem_stack.mpr (.inr hu))
  onStack _ hx := h.path_mem_base hx
  closed u w hu hedge := by
    rw [h.done_pop] at hu ⊢
    rcases hu with hdone | habove
    · exact .inl (h.sound.closed u w hdone hedge)
    · exact (h.step habove hedge).symm
  covered u := by
    rw [h.done_pop, h.sound.covered, ← hc]
    simp [Search.pop, or_and_right, exists_or]
  component d hd := by
    rcases mem_append.mp hd with hd | hd
    · exact h.sound.component d hd
    · rw [mem_singleton.mp hd]
      exact ⟨v, fun w => (hc w).trans h.mem_iff⟩
  ordered := by
    refine pairwise_append.mpr ⟨h.sound.ordered, pairwise_singleton _ _, ?_⟩
    intro d hd e he u hu w hw hreach
    rw [mem_singleton.mp he, hc] at hw
    have hdone := h.sound.done_of_reach ((h.sound.covered u).mpr ⟨d, hd, hu⟩) hreach
    exact hdone.2 (h.mem_stack.mpr (.inl hw))
  lower y hy := by
    obtain ⟨x, hx, hle, hreach⟩ := h.sound.lower y (h.mem_stack.mpr (.inr hy))
    rcases mem_cons.mp hx with rfl | hx
    · exact absurd hle (h.idx_base_lt hy).not_ge
    · exact ⟨x, hx, hle, hreach⟩
  upper x hx y hy := h.sound.upper x (mem_cons_of_mem v hx) y (h.mem_stack.mpr (.inr hy))
  explored u w hu hnot hedge := by
    by_cases huv : u = v
    · rw [huv] at hedge
      exact h.followed w hedge
    · exact h.sound.explored u w hu (by simp [huv, hnot]) hedge

end Closing

/-! ### The end -/

/-- When the path is empty, everything that was seen is done. -/
theorem Sound.done_of_seen (h : Sound E [] s) (hv : s.Seen v) : s.Done v := by
  refine ⟨hv, fun hstack => ?_⟩
  obtain ⟨x, hx, -⟩ := h.lower v hstack
  cases hx

/-- A vertex is in one component at most. -/
theorem Sound.component_unique [DecidableEq V] (h : Sound E path s) (v : V) :
    (s.components.filter fun c => v ∈ c).length ≤ 1 := by
  have hpairwise : (s.components.filter fun c => v ∈ c).Pairwise fun _ _ => False := by
    refine (h.ordered.filter _).imp_of_mem fun hc hd hnot => ?_
    have hvc := of_decide_eq_true (mem_filter.mp hc).2
    have hvd := of_decide_eq_true (mem_filter.mp hd).2
    exact hnot v hvc v hvd .refl
  match hl : s.components.filter fun c => v ∈ c with
  | [] => rw [hl]; simp
  | [_] => rw [hl]; simp
  | c :: d :: rest =>
    rw [hl] at hpairwise
    exact ((pairwise_cons.mp hpairwise).1 d mem_cons_self).elim

/-- Vertices of one component are those that reach each other. -/
theorem Sound.same_component_iff (h : Sound E path s) {u w : V} (hu : s.Done u) :
    (∃ c ∈ s.components, u ∈ c ∧ w ∈ c) ↔
      Relation.ReflTransGen E u w ∧ Relation.ReflTransGen E w u := by
  constructor
  · intro hex
    obtain ⟨c, hc, huc, hwc⟩ := hex
    obtain ⟨r, hr⟩ := h.component c hc
    obtain ⟨hru, hur⟩ := (hr u).mp huc
    obtain ⟨hrw, hwr⟩ := (hr w).mp hwc
    exact ⟨hur.trans hrw, hwr.trans hru⟩
  · intro hand
    obtain ⟨c, hc, huc⟩ := (h.covered u).mp hu
    obtain ⟨r, hr⟩ := h.component c hc
    obtain ⟨hru, hur⟩ := (hr u).mp huc
    exact ⟨c, hc, huc, (hr w).mpr ⟨hru.trans hand.1, hand.2.trans hur⟩⟩

end Xls.Tarjan

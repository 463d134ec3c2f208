import Xls.Status
import Mathlib.Data.Finset.Sort

/-!
# Xls.GraphColoring

The recursive largest first colouring (`data_structures/graph_coloring.h`): every colour is a
maximal independent set of the vertices that are left. `recursiveLargestFirstColoring_proper`
collects what follows for the colouring.
-/

namespace Xls.GraphColoring

open Finset

variable {V : Type} [LinearOrder V]

/-! ### The two functions -/

section Choose

variable {M : Type} (skip : V → Bool) (measure : V → M) (improves : M → M → Bool)

/-- A vertex in a loop for the best one. -/
def consider (best : M × Option V) (vertex : V) : M × Option V :=
  if skip vertex then best
  else if improves (measure vertex) best.1 then (measure vertex, some vertex)
  else best

local instance leTrans : IsTrans V (· ≤ ·) := inferInstance

local instance leAntisymm : Std.Antisymm (α := V) (· ≤ ·) := inferInstance

/-- The loop, in the order of a `btree_set`. -/
def choose (start : M) (vertices : Finset V) : Option V :=
  ((vertices.sort (· ≤ ·)).foldl (consider skip measure improves) (start, none)).2

variable {skip measure improves} {start : M} {vertices : Finset V} {v : V}

theorem of_foldl_consider {l : List V} {best : M × Option V}
    (h : (l.foldl (consider skip measure improves) best).2 = some v) :
    v ∈ l ∧ skip v = false ∨ best.2 = some v := by
  induction l generalizing best with
  | nil => exact .inr h
  | cons u l ih =>
    rcases ih h with ⟨hv, hskip⟩ | h
    · exact .inl ⟨List.mem_cons_of_mem u hv, hskip⟩
    · unfold consider at h
      grind

theorem of_choose_eq_some (h : choose skip measure improves start vertices = some v) :
    v ∈ vertices ∧ skip v = false := by
  rcases of_foldl_consider h with ⟨hv, hskip⟩ | h
  · exact ⟨(mem_sort _).mp hv, hskip⟩
  · cases h

/-- A vertex that is not skipped and improves on the start is enough for a choice. -/
theorem foldl_consider_ne_none {l : List V} {best : M × Option V} (hskip : skip v = false)
    (hstart : improves (measure v) start = true) (hbest : best.2 = none → best.1 = start ∧ v ∈ l) :
    (l.foldl (consider skip measure improves) best).2 ≠ none := by
  induction l generalizing best with
  | nil => exact fun h => List.not_mem_nil (hbest h).2
  | cons u l ih =>
    refine ih ?_
    unfold consider
    grind

theorem choose_ne_none (hv : v ∈ vertices) (hskip : skip v = false)
    (hstart : improves (measure v) start = true) :
    choose skip measure improves start vertices ≠ none :=
  foldl_consider_ne_none hskip hstart fun _ => ⟨rfl, (mem_sort _).mpr hv⟩

end Choose

/-- `result`, `available` and `neighboring_result` of a search. -/
structure Search (V : Type) where
  result : Finset V
  available : Finset V
  neighboringResult : Finset V

variable (neighborhood : V → Finset V)

/-- `add_to_result`. -/
def Search.addToResult (s : Search V) (vertex : V) : Search V where
  result := insert vertex s.result
  available := s.available.erase vertex
  neighboringResult := s.neighboringResult ∪ neighborhood vertex

/-- The first vertex: one with the most neighbours. -/
def vertexWithMostNeighbors (available : Finset V) : Option V :=
  choose (fun _ => false) (fun vertex => (neighborhood vertex).card) (fun m best => best ≤ m) 0
    available

/-- `vertex_measure`: the neighbours in `neighboring_result`, and the available ones negated. -/
def vertexMeasure (s : Search V) (vertex : V) : Int × Int :=
  (((neighborhood vertex).filter (· ∈ s.neighboringResult)).card,
    -((neighborhood vertex).filter (· ∈ s.available)).card)

/-- `operator>` of pairs. -/
def pairGreater (m n : Int × Int) : Bool := n.1 < m.1 || (m.1 == n.1 && n.2 < m.2)

/-- The next vertex. -/
def best (s : Search V) : Option V :=
  choose (· ∈ s.neighboringResult) (vertexMeasure neighborhood s) pairGreater (-1, -1) s.available

variable {neighborhood} {s : Search V} {v : V}

theorem of_best_eq_some (h : best neighborhood s = some v) :
    v ∈ s.available ∧ v ∉ s.neighboringResult := by
  simpa using of_choose_eq_some h

/-- The first component of a measure is not negative, so every measure improves on the start. -/
theorem best_ne_none (hv : v ∈ s.available) (hn : v ∉ s.neighboringResult) :
    best neighborhood s ≠ none := by
  refine choose_ne_none hv (by simpa using hn) ?_
  have hpos : (-1 : Int) < ((neighborhood v).filter (· ∈ s.neighboringResult)).card := by omega
  simp [pairGreater, vertexMeasure, hpos]

variable (neighborhood)

/-- The `while` loop of `FindMaximalIndependentSet`. -/
def grow (s : Search V) : Finset V :=
  if s.available = ∅ then s.result
  else match h : best neighborhood s with
    | some vertex => grow (s.addToResult neighborhood vertex)
    | none => s.result
termination_by s.available.card
decreasing_by exact card_erase_lt_of_mem (of_best_eq_some h).1

/-- `FindMaximalIndependentSet`. -/
def findMaximalIndependentSet (vertices : Finset V) : Result (Finset V) := do
  checkThat (vertices ≠ ∅)
  let vertex ← derefOption (vertexWithMostNeighbors neighborhood vertices)
  return grow neighborhood (Search.addToResult neighborhood ⟨∅, vertices, ∅⟩ vertex)

theorem subset_grow (s : Search V) : s.result ⊆ grow neighborhood s := by
  fun_induction grow neighborhood s with
  | case1 s h => exact Subset.refl _
  | case2 s h v hv ih => exact (subset_insert v s.result).trans ih
  | case3 s h hv => exact Subset.refl _

variable {neighborhood} {vertices available chosen : Finset V}

/-- The first vertex is one of the vertices. -/
theorem exists_vertexWithMostNeighbors (neighborhood : V → Finset V) (h : vertices ≠ ∅) :
    ∃ v ∈ vertices, vertexWithMostNeighbors neighborhood vertices = some v := by
  obtain ⟨u, hu⟩ := nonempty_iff_ne_empty.mpr h
  obtain ⟨v, hv⟩ := Option.ne_none_iff_exists'.mp (choose_ne_none hu rfl (by simp) :
    vertexWithMostNeighbors neighborhood vertices ≠ none)
  exact ⟨v, (of_choose_eq_some hv).1, hv⟩

theorem findMaximalIndependentSet_eq (neighborhood : V → Finset V) (h : vertices ≠ ∅) :
    ∃ v ∈ vertices, findMaximalIndependentSet neighborhood vertices =
      .ok (grow neighborhood (Search.addToResult neighborhood ⟨∅, vertices, ∅⟩ v)) := by
  obtain ⟨v, hv, hfirst⟩ := exists_vertexWithMostNeighbors neighborhood h
  exact ⟨v, hv, by simp [findMaximalIndependentSet, h, hfirst, derefOption]⟩

theorem card_sdiff_lt (h : available ≠ ∅)
    (hchosen : findMaximalIndependentSet neighborhood available = .ok chosen) :
    (available \ chosen).card < available.card := by
  obtain ⟨v, hv, hfound⟩ := findMaximalIndependentSet_eq neighborhood h
  cases hfound.symm.trans hchosen
  have hmem := subset_grow neighborhood (.addToResult neighborhood ⟨∅, available, ∅⟩ v)
    (mem_insert_self v ∅)
  refine card_lt_card ⟨sdiff_subset, fun hsub => ?_⟩
  exact (mem_sdiff.mp (hsub hv)).2 hmem

variable (neighborhood)

/-- The neighbourhood in the subgraph that `available` induces. -/
def induced (available : Finset V) (v : V) : Finset V := (neighborhood v).filter (· ∈ available)

/-- `RecursiveLargestFirstColoring`. -/
def recursiveLargestFirstColoring (available : Finset V) : Result (List (Finset V)) :=
  if h : available = ∅ then .ok []
  else match hchosen : findMaximalIndependentSet (induced neighborhood available) available with
    | .ok chosen => (recursiveLargestFirstColoring (available \ chosen)).map (chosen :: ·)
    | .error e => .error e
termination_by available.card
decreasing_by exact card_sdiff_lt h hchosen

/-! ### What they return -/

/-- A set is a maximal independent set of the graph on `vertices`. -/
structure MaximalIndependent (vertices set : Finset V) : Prop where
  subset : set ⊆ vertices
  nonempty : set.Nonempty
  independent : ∀ u ∈ set, ∀ v ∈ set, v ∉ neighborhood u
  maximal : ∀ v ∈ vertices, v ∉ set → ∃ u ∈ set, v ∈ neighborhood u

/-- Between two vertices that `add_to_result` adds. -/
structure Search.Independent (vertices : Finset V) (s : Search V) : Prop where
  subset : s.result ⊆ vertices
  nonempty : s.result.Nonempty
  available (v : V) : v ∈ s.available ↔ v ∈ vertices ∧ v ∉ s.result
  neighboring (v : V) : v ∈ s.neighboringResult ↔ ∃ u ∈ s.result, v ∈ neighborhood u
  independent : ∀ u ∈ s.result, ∀ v ∈ s.result, v ∉ neighborhood u

/-- The neighbourhood on `vertices` is symmetric and irreflexive. -/
structure Simple (vertices : Finset V) : Prop where
  symm : ∀ u ∈ vertices, ∀ v ∈ vertices, v ∈ neighborhood u → u ∈ neighborhood v
  irrefl : ∀ v ∈ vertices, v ∉ neighborhood v

variable {neighborhood}

/-- Adding a vertex without neighbours in the result keeps the result independent. -/
theorem Search.Independent.addToResult (hg : Simple neighborhood vertices)
    (hs : s.Independent neighborhood vertices) (hv : v ∈ s.available)
    (hn : v ∉ s.neighboringResult) :
    (s.addToResult neighborhood v).Independent neighborhood vertices := by
  have hvv : v ∈ vertices := ((hs.available v).mp hv).1
  have hnot : ∀ u ∈ s.result, v ∉ neighborhood u := fun u hu hvu =>
    hn ((hs.neighboring v).mpr ⟨u, hu, hvu⟩)
  refine ⟨insert_subset hvv hs.subset, insert_nonempty _ _, fun u => ?_, fun u => ?_, ?_⟩
  · simp [Search.addToResult, hs.available]
    tauto
  · simp [Search.addToResult, hs.neighboring, or_comm]
  · simp only [Search.addToResult, mem_insert, forall_eq_or_imp]
    -- An edge back from the new vertex would be an edge to it.
    exact ⟨⟨hg.irrefl v hvv, fun u hu huv => hnot u hu (hg.symm v hvv u (hs.subset hu) huv)⟩,
      fun u hu => ⟨hnot u hu, hs.independent u hu⟩⟩

/-- When every available vertex is a neighbour of the result, the result is maximal. -/
theorem Search.Independent.maximal (hs : s.Independent neighborhood vertices)
    (hall : ∀ v ∈ s.available, v ∈ s.neighboringResult) :
    MaximalIndependent neighborhood vertices s.result :=
  ⟨hs.subset, hs.nonempty, hs.independent, fun v hv hr =>
    (hs.neighboring v).mp (hall v ((hs.available v).mpr ⟨hv, hr⟩))⟩

theorem Search.Independent.grow (hg : Simple neighborhood vertices)
    (hs : s.Independent neighborhood vertices) :
    MaximalIndependent neighborhood vertices (grow neighborhood s) := by
  fun_induction GraphColoring.grow neighborhood s with
  | case1 s h => exact hs.maximal fun v hv => by simp [h] at hv
  | case2 s h v hv ih =>
    obtain ⟨hv, hn⟩ := of_best_eq_some hv
    exact ih (hs.addToResult hg hv hn)
  | case3 s h hnone => exact hs.maximal fun v hv => by_contra fun hn => best_ne_none hv hn hnone

theorem findMaximalIndependentSet_spec (hg : Simple neighborhood vertices) (h : vertices ≠ ∅) :
    ∃ set, findMaximalIndependentSet neighborhood vertices = .ok set ∧
      MaximalIndependent neighborhood vertices set := by
  obtain ⟨v, hv, hfound⟩ := findMaximalIndependentSet_eq neighborhood h
  refine ⟨_, hfound, Search.Independent.grow hg ⟨?_, insert_nonempty _ _, fun u => ?_, ?_, ?_⟩⟩
  · simpa [Search.addToResult] using hv
  · simp [Search.addToResult, and_comm]
  · simp [Search.addToResult]
  · simpa [Search.addToResult] using hg.irrefl v hv

theorem Simple.induced (hg : Simple neighborhood vertices) (h : available ⊆ vertices) :
    Simple (induced neighborhood available) available where
  symm u hu v hv huv :=
    mem_filter.mpr ⟨hg.symm u (h hu) v (h hv) (mem_filter.mp huv).1, hu⟩
  irrefl v hv hvv := hg.irrefl v (h hv) (mem_filter.mp hvv).1

theorem MaximalIndependent.of_induced
    (h : MaximalIndependent (induced neighborhood available) available chosen) :
    MaximalIndependent neighborhood available chosen where
  subset := h.subset
  nonempty := h.nonempty
  independent u hu v hv huv := h.independent u hu v hv (mem_filter.mpr ⟨huv, h.subset hv⟩)
  maximal v hv hn := by
    obtain ⟨u, hu, huv⟩ := h.maximal v hv hn
    exact ⟨u, hu, (mem_filter.mp huv).1⟩

/-- Each colour is a maximal independent set of what the earlier ones leave. -/
def Coloring (neighborhood : V → Finset V) : Finset V → List (Finset V) → Prop
  | available, [] => available = ∅
  | available, color :: colors => MaximalIndependent neighborhood available color ∧
    Coloring neighborhood (available \ color) colors

variable {colors : List (Finset V)}

theorem Coloring.mem_iff (h : Coloring neighborhood available colors) (v : V) :
    v ∈ available ↔ ∃ color ∈ colors, v ∈ color := by
  induction colors generalizing available with
  | nil => simp [show available = ∅ from h]
  | cons color colors ih =>
    have hrest := ih h.2
    rw [mem_sdiff] at hrest
    rw [List.exists_mem_cons_iff, ← hrest]
    have hsub := @h.1.subset v
    tauto

theorem Coloring.pairwise (h : Coloring neighborhood available colors) :
    colors.Pairwise fun earlier later =>
      Disjoint earlier later ∧ ∀ v ∈ later, ∃ u ∈ earlier, v ∈ neighborhood u := by
  induction colors generalizing available with
  | nil => exact .nil
  | cons color colors ih =>
    refine .cons (fun later hlater => ?_) (ih h.2)
    have hleft (v : V) (hv : v ∈ later) : v ∈ available ∧ v ∉ color :=
      mem_sdiff.mp ((h.2.mem_iff v).mpr ⟨later, hlater, hv⟩)
    exact ⟨disjoint_right.mpr fun v hv => (hleft v hv).2,
      fun v hv => h.1.maximal v (hleft v hv).1 (hleft v hv).2⟩

theorem Coloring.forall_color (h : Coloring neighborhood available colors) :
    ∀ color ∈ colors, color.Nonempty ∧ ∀ u ∈ color, ∀ v ∈ color, v ∉ neighborhood u := by
  induction colors generalizing available with
  | nil => exact fun _ h => absurd h List.not_mem_nil
  | cons color colors ih =>
    exact List.forall_mem_cons.mpr ⟨⟨h.1.nonempty, h.1.independent⟩, ih h.2⟩

/-- The recursive colouring returns, and colours every vertex once. -/
theorem coloring_recursiveLargestFirstColoring (hg : Simple neighborhood vertices)
    (hsub : available ⊆ vertices) : ∃ colors,
      recursiveLargestFirstColoring neighborhood available = .ok colors ∧
        Coloring neighborhood available colors := by
  fun_induction recursiveLargestFirstColoring neighborhood available with
  | case1 => exact ⟨[], rfl, rfl⟩
  | case2 available h chosen hchosen ih =>
    obtain ⟨set, hset, hmax⟩ := findMaximalIndependentSet_spec (hg.induced hsub) h
    cases hset.symm.trans hchosen
    obtain ⟨colors, hcolors, hcoloring⟩ := ih (sdiff_subset.trans hsub)
    exact ⟨chosen :: colors, by rw [hcolors]; rfl, hmax.of_induced, hcoloring⟩
  | case3 available h e he =>
    obtain ⟨set, hset, -⟩ := findMaximalIndependentSet_spec (hg.induced hsub) h
    cases hset.symm.trans he

/-- The colouring is proper, it partitions the vertices, and a vertex of a later colour has a
neighbour in every earlier one. -/
theorem recursiveLargestFirstColoring_proper (hg : Simple neighborhood vertices) : ∃ colors,
    recursiveLargestFirstColoring neighborhood vertices = .ok colors ∧
      Coloring neighborhood vertices colors ∧ (∀ v, v ∈ vertices ↔ ∃ color ∈ colors, v ∈ color) ∧
      (colors.Pairwise fun earlier later =>
        Disjoint earlier later ∧ ∀ v ∈ later, ∃ u ∈ earlier, v ∈ neighborhood u) ∧
      ∀ color ∈ colors, color.Nonempty ∧ ∀ u ∈ color, ∀ v ∈ color, v ∉ neighborhood u := by
  obtain ⟨colors, hcolors, h⟩ := coloring_recursiveLargestFirstColoring hg (Subset.refl vertices)
  exact ⟨colors, hcolors, h, h.mem_iff, h.pairwise, h.forall_color⟩

/-- The edge of a graph on three vertices. -/
def edge (v : Nat) : Finset Nat := if v = 0 then {1} else if v = 1 then {0} else ∅

theorem recursiveLargestFirstColoring_proper_edge : ∃ colors,
    recursiveLargestFirstColoring edge {0, 1, 2} = .ok colors ∧ Coloring edge {0, 1, 2} colors := by
  obtain ⟨colors, hcolors, h, -⟩ := @recursiveLargestFirstColoring_proper Nat _ edge {0, 1, 2}
    ⟨by decide, by decide⟩
  exact ⟨colors, hcolors, h⟩

end Xls.GraphColoring

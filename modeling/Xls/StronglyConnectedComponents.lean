import Mathlib.Data.Finset.Sort
import Mathlib.Data.List.AList
import Xls.Lib.Tarjan
import Xls.Status

/-!
# Xls.StronglyConnectedComponents

`StronglyConnectedComponents` of `data_structures/strongly_connected_components.h`: Tarjan's
algorithm on a map from vertices to the sets of their out-neighbours. The vertices it starts
from are collected in the loop over the targets, so that a key without targets is not
collected as a key. `stronglyConnectedComponents_isPartition_iff` says on which maps the
result is the partition into components.
-/

namespace Xls

open List Result Option

namespace StronglyConnectedComponents

open Tarjan

variable {V : Type} [LinearOrder V]

/-- The adjacency map. Maps and sets are ordered. -/
abbrev AdjacencyMap (V : Type) := AList fun _ : V => Finset V

/-- The collection of `vertices`. -/
def vertices (graph : AdjacencyMap V) : Finset V :=
  graph.entries.foldl (fun vertices entry =>
    (entry.2.sort (· ≤ ·)).foldl (fun vertices target =>
      insert target (insert entry.1 vertices)) vertices) ∅

/-- `index`, `stack`, `result`, `indexes`, `low_links` and `on_stack`. The top of the stack is the
head of the list. -/
structure State (V : Type) where
  index : Nat
  stack : List V
  result : List (Finset V)
  indexes : V → Option Nat
  lowLinks : V → Option Nat
  onStack : Finset V

/-- The state before the first call. -/
def start : State V := ⟨0, [], [], fun _ => none, fun _ => none, ∅⟩

/-- The beginning of `strong_connect`. -/
def enter (vertex : V) (s : State V) : State V where
  index := s.index + 1
  stack := vertex :: s.stack
  result := s.result
  indexes := Function.update s.indexes vertex (some s.index)
  lowLinks := Function.update s.lowLinks vertex (some s.index)
  onStack := insert vertex s.onStack

/-- `low_links.at(vertex) = std::min(low_links.at(vertex), bound)`. -/
def lowerLink (vertex : V) (bound : Option Nat) (s : State V) : Result (State V) := do
  let old ← derefOption (s.lowLinks vertex)
  let bound ← derefOption bound
  return { s with lowLinks := Function.update s.lowLinks vertex (some (min old bound)) }

/-- The loop over the neighbours. -/
def visitNeighbors (strongConnect : V → State V → Result (State V)) (vertex : V) :
    List V → State V → Result (State V)
  | [], s => .ok s
  | neighbor :: rest, s =>
    if (s.indexes neighbor).isNone then do
      let s ← strongConnect neighbor s
      let s ← lowerLink vertex (s.lowLinks neighbor) s
      visitNeighbors strongConnect vertex rest s
    else if neighbor ∈ s.onStack then do
      let s ← lowerLink vertex (s.indexes neighbor) s
      visitNeighbors strongConnect vertex rest s
    else visitNeighbors strongConnect vertex rest s

/-- The loop that takes a component off the stack: the stack, `on_stack` and `scc`. -/
def popComponent (vertex : V) : List V → Finset V → Finset V → Result (List V × Finset V × Finset V)
  | [], _, _ => .error .check
  | v :: stack, onStack, scc =>
    if v = vertex then .ok (stack, onStack.erase v, insert v scc)
    else popComponent vertex stack (onStack.erase v) (insert v scc)

/-- The end of `strong_connect`. -/
def finish (vertex : V) (s : State V) : Result (State V) := do
  let low ← derefOption (s.lowLinks vertex)
  let index ← derefOption (s.indexes vertex)
  if low = index then do
    let (stack, onStack, scc) ← popComponent vertex s.stack s.onStack ∅
    return { s with stack := stack, onStack := onStack, result := s.result ++ [scc] }
  else return s

/-- `strong_connect`. Each call is of a vertex that has no index yet. -/
def strongConnect (graph : AdjacencyMap V) : Nat → V → State V → Result (State V)
  | 0, _, _ => .error .check
  | fuel + 1, vertex, s => do
    let s := enter vertex s
    let s ←
      match graph.lookup vertex with
      | some targets =>
        visitNeighbors (strongConnect graph fuel) vertex (targets.sort (· ≤ ·)) s
      | none => pure s
    finish vertex s

/-- The loop over `vertices`. -/
def connectAll (graph : AdjacencyMap V) (fuel : Nat) : List V → State V → Result (State V)
  | [], s => .ok s
  | vertex :: rest, s =>
    if (s.indexes vertex).isNone then do
      let s ← strongConnect graph fuel vertex s
      connectAll graph fuel rest s
    else connectAll graph fuel rest s

end StronglyConnectedComponents

open StronglyConnectedComponents in
/-- `StronglyConnectedComponents`. -/
def stronglyConnectedComponents {V : Type} [LinearOrder V] (graph : AdjacencyMap V) :
    Result (List (Finset V)) := do
  let s ← connectAll graph ((vertices graph).card + 1) ((vertices graph).sort (· ≤ ·)) start
  return s.result

namespace StronglyConnectedComponents

open Tarjan

variable {V : Type} [LinearOrder V] {graph : AdjacencyMap V}

/-! ## The graph -/

def Edge (graph : AdjacencyMap V) (u v : V) : Prop :=
  ∃ targets, graph.lookup u = some targets ∧ v ∈ targets

/-- A vertex occurs as a key or as a target. -/
def Occurs (graph : AdjacencyMap V) (v : V) : Prop := v ∈ graph ∨ ∃ u, Edge graph u v

variable {v : V} {s : State V}

/-- The targets of one source are inserted, with the source. -/
theorem mem_insertTargets {source : V} (targets : List V) (acc : Finset V) :
    v ∈ targets.foldl (fun vertices target => insert target (insert source vertices)) acc ↔
      v ∈ acc ∨ (v = source ∧ targets ≠ []) ∨ v ∈ targets := by
  induction targets generalizing acc with
  | nil => simp
  | cons target targets ih =>
    rw [foldl_cons, ih]
    simp only [Finset.mem_insert, mem_cons, ne_eq, reduceCtorEq, not_false_eq_true, and_true]
    tauto

theorem mem_insertEntries (entries : List (Sigma fun _ : V => Finset V)) (acc : Finset V) :
    v ∈ entries.foldl (fun vertices entry => (entry.2.sort (· ≤ ·)).foldl
      (fun vertices target => insert target (insert entry.1 vertices)) vertices) acc ↔
      v ∈ acc ∨ ∃ entry ∈ entries, (v = entry.1 ∧ entry.2.Nonempty) ∨ v ∈ entry.2 := by
  induction entries generalizing acc with
  | nil => simp
  | cons entry entries ih =>
    have hempty : entry.2.sort (· ≤ ·) ≠ [] ↔ entry.2.Nonempty := by
      rw [← length_pos_iff, Finset.length_sort, Finset.card_pos]
    rw [foldl_cons, ih, mem_insertTargets, hempty]
    simp only [Finset.mem_sort, mem_cons, exists_eq_or_imp]
    exact or_assoc

/-- The vertices are the sources and the targets of edges. -/
theorem mem_vertices : v ∈ vertices graph ↔ (∃ w, Edge graph v w) ∨ ∃ u, Edge graph u v := by
  rw [vertices, mem_insertEntries]
  simp only [Finset.notMem_empty, false_or, Edge]
  have hlookup : ∀ (u : V) (targets : Finset V), (⟨u, targets⟩ : Sigma fun _ : V => Finset V) ∈
      graph.entries ↔ graph.lookup u = some targets := fun u targets =>
    AList.mem_lookup_iff.symm
  constructor
  · intro hex
    obtain ⟨⟨u, targets⟩, hmem, hor⟩ := hex
    rcases hor with ⟨rfl, w, hw⟩ | hv
    · exact .inl ⟨w, targets, (hlookup v targets).mp hmem, hw⟩
    · exact .inr ⟨u, targets, (hlookup u targets).mp hmem, hv⟩
  · intro hor
    rcases hor with ⟨w, targets, hmem, hw⟩ | ⟨u, targets, hmem, hv⟩
    · exact ⟨⟨v, targets⟩, (hlookup v targets).mpr hmem, .inl ⟨rfl, w, hw⟩⟩
    · exact ⟨⟨u, targets⟩, (hlookup u targets).mpr hmem, .inr hv⟩

/-! ## One call of `strong_connect` -/

/-- What a state tells about the search. -/
def State.search (s : State V) : Search V := ⟨s.indexes, s.stack, s.result⟩

/-- `on_stack` is the stack, `index` is beyond all indexes, and only vertices have one. -/
structure Coherent (graph : AdjacencyMap V) (s : State V) : Prop where
  onStack_iff : ∀ v, v ∈ s.onStack ↔ v ∈ s.stack
  index_lt : ∀ v i, s.indexes v = some i → i < s.index
  mem : ∀ v i, s.indexes v = some i → v ∈ vertices graph

/-- What was known about vertices is kept. -/
structure Kept (s s' : State V) : Prop where
  index : ∀ u i, s.indexes u = some i → s'.indexes u = some i
  low : ∀ u, s.indexes u ≠ none → s'.lowLinks u = s.lowLinks u

omit [LinearOrder V] in
theorem Kept.trans {s' s'' : State V} (h : Kept s s') (h' : Kept s' s'') : Kept s s'' where
  index u i hu := h'.index u i (h.index u i hu)
  low u hu := by
    obtain ⟨i, hi⟩ := ne_none_iff_exists'.mp hu
    rw [h'.low u (by rw [h.index u i hi]; exact some_ne_none i), h.low u hu]

/-- A vertex that `strong_connect` is called for. -/
structure Ready (graph : AdjacencyMap V) (path : List V) (v : V) (s : State V) : Prop where
  sound : Sound (Edge graph) path s.search
  coherent : Coherent graph s
  unseen : s.indexes v = none
  mem : v ∈ vertices graph
  reach : ∀ x ∈ path, Relation.ReflTransGen (Edge graph) x v

/-- The low link that a vertex has: its index, or that of a vertex further down the stack that it
reaches; and no edge from the vertices above the old stack into the old stack goes further down. -/
structure LowLink (graph : AdjacencyMap V) (v : V) (s : State V) (above : List V) (l : Nat) :
    Prop where
  le : l ≤ s.index
  reach : l < s.index → ∃ z ∈ s.stack, s.indexes z = some l ∧
    Relation.ReflTransGen (Edge graph) v z
  bound : ∀ u ∈ above, ∀ w ∈ s.stack, Edge graph u w → ∀ j, s.indexes w = some j → l ≤ j

/-- The call of `strong_connect` for `v` in the state `s` left the state `s'`. -/
structure Connected (graph : AdjacencyMap V) (path : List V) (v : V) (s s' : State V)
    (above : List V) (l : Nat) : Prop where
  sound : Sound (Edge graph) path s'.search
  coherent : Coherent graph s'
  kept : Kept s s'
  index_eq : s'.indexes v = some s.index
  stack_eq : s'.stack = above ++ s.stack
  low_eq : s'.lowLinks v = some l
  lowLink : LowLink graph v s above l

/-- The loop over the neighbours of `v` has come past `processed`. -/
structure Following (graph : AdjacencyMap V) (path : List V) (v : V) (s₀ s : State V)
    (above : List V) (l : Nat) (processed : List V) : Prop where
  ready : Ready graph path v s₀
  sound : Sound (Edge graph) (v :: path) s.search
  coherent : Coherent graph s
  kept : Kept s₀ s
  index_eq : s.indexes v = some s₀.index
  stack_eq : s.stack = above ++ v :: s₀.stack
  low_eq : s.lowLinks v = some l
  lowLink : LowLink graph v s₀ above l
  seen : ∀ w ∈ processed, s.indexes w ≠ none
  processed_bound : ∀ w ∈ processed, w ∈ s₀.stack → ∀ j, s₀.indexes w = some j → l ≤ j

section Call

variable {path : List V} {v : V} {s₀ s : State V}

omit [LinearOrder V] in
theorem idx_eq {i : Nat} (h : s.indexes v = some i) : s.search.idx v = i := by
  simp [Search.idx, State.search, h]

theorem search_enter : (enter v s).search = s.search.enter v s.index := rfl

/-- Entering a vertex puts it on the stack. -/
theorem following_enter (h : Ready graph path v s) :
    Following graph path v s (enter v s) [] s.index [] where
  ready := h
  sound := by
    rw [search_enter]
    refine h.sound.enter (fun hseen => hseen h.unseen) h.reach fun u hu => ?_
    obtain ⟨i, hi⟩ := ne_none_iff_exists'.mp hu
    rw [idx_eq hi]
    exact h.coherent.index_lt u i hi
  coherent :=
    { onStack_iff := fun u => by simp [enter, h.coherent.onStack_iff]
      index_lt := by
        intro u i hu
        by_cases huv : u = v
        · subst huv
          simp only [enter, Function.update_self, some.injEq] at hu ⊢
          omega
        · simp only [enter, Function.update_of_ne huv] at hu ⊢
          exact (h.coherent.index_lt u i hu).trans (Nat.lt_succ_self _)
      mem := by
        intro u i hu
        by_cases huv : u = v
        · rw [huv]
          exact h.mem
        · simp only [enter, Function.update_of_ne huv] at hu
          exact h.coherent.mem u i hu }
  kept :=
    { index := by
        intro u i hu
        have huv : u ≠ v := fun heq => by simp [heq, h.unseen] at hu
        simpa [enter, huv] using hu
      low := by
        intro u hu
        have huv : u ≠ v := fun heq => hu (heq ▸ h.unseen)
        simp [enter, huv] }
  index_eq := by simp [enter]
  stack_eq := rfl
  low_eq := by simp [enter]
  lowLink := ⟨le_rfl, fun hlt => absurd hlt (lt_irrefl _), fun _ hu => absurd hu not_mem_nil⟩
  seen _ hw := nomatch hw
  processed_bound _ hw := nomatch hw

namespace Following

variable {above processed : List V} {l : Nat}

section

variable (h : Following graph path v s₀ s above l processed)
include h

/-- The vertices that were on the stack have their old indexes. -/
theorem base_index {w : V} (hw : w ∈ s₀.stack) : s.indexes w = s₀.indexes w := by
  obtain ⟨j, hj⟩ := ne_none_iff_exists'.mp (h.ready.sound.seen w hw)
  have hj' : s₀.indexes w = some j := hj
  rw [h.kept.index w j hj', hj']

/-- A vertex of the stack with an earlier index than `v` was on the stack before `v`. -/
theorem mem_base {z : V} (hz : z ∈ s.stack) {j : Nat} (hj : s.indexes z = some j)
    (hlt : j < s₀.index) : z ∈ s₀.stack := by
  have hsorted := h.sound.sorted
  have hsearch : s.search.stack = above ++ v :: s₀.stack := h.stack_eq
  rw [hsearch, pairwise_append] at hsorted
  rw [h.stack_eq] at hz
  rcases mem_append.mp hz with habove | hrest
  · have hgt := hsorted.2.2 z habove v mem_cons_self
    rw [idx_eq hj, idx_eq h.index_eq] at hgt
    omega
  · rcases mem_cons.mp hrest with rfl | hbase
    · rw [h.index_eq] at hj
      obtain rfl := some.inj hj
      exact absurd hlt (lt_irrefl _)
    · exact hbase

/-- All of the path reaches a neighbour of `v`. -/
theorem path_reach {n : V} (hedge : Edge graph v n) :
    ∀ x ∈ v :: path, Relation.ReflTransGen (Edge graph) x n := by
  intro x hx
  have hv : v ∈ s.search.stack := h.sound.onStack v mem_cons_self
  have hle : s.search.idx x ≤ s.search.idx v := by
    rcases mem_cons.mp hx with rfl | hx
    · exact le_rfl
    · exact ((pairwise_cons.mp h.sound.pathSorted).1 x hx).le
  exact (h.sound.upper x hx v hv hle).tail hedge

theorem bound_lt : s₀.index < s.index :=
  h.coherent.index_lt v _ h.index_eq

end

/-- Lowering the low link of `v`, once the lower one is known to fit. -/
theorem lower (hready : Ready graph path v s₀) (hsound : Sound (Edge graph) (v :: path) s.search)
    (hcoherent : Coherent graph s) (hkept : Kept s₀ s) (hindex : s.indexes v = some s₀.index)
    (hstack : s.stack = above ++ v :: s₀.stack) (hlow : s.lowLinks v = some l) {bound : Nat}
    (hlink : LowLink graph v s₀ above (min l bound)) (hseen : ∀ w ∈ processed, s.indexes w ≠ none)
    (hbound : ∀ w ∈ processed, w ∈ s₀.stack → ∀ j, s₀.indexes w = some j → min l bound ≤ j) :
    ∃ s', lowerLink v (some bound) s = .ok s' ∧
      Following graph path v s₀ s' above (min l bound) processed := by
  refine ⟨{ s with lowLinks := Function.update s.lowLinks v (some (min l bound)) }, ?_, ?_⟩
  · simp only [lowerLink, hlow, derefOption, ok_bind]
    rfl
  refine ⟨hready, hsound, ⟨hcoherent.onStack_iff, hcoherent.index_lt, hcoherent.mem⟩,
    ⟨hkept.index, fun u hu => ?_⟩, hindex, hstack, by simp, hlink, hseen, hbound⟩
  have huv : u ≠ v := fun heq => hu (heq ▸ hready.unseen)
  rw [← hkept.low u hu]
  simp [huv]

/-- A neighbour that is on the stack. -/
theorem onStack (h : Following graph path v s₀ s above l processed) {n : V}
    (hedge : Edge graph v n) (hn : n ∈ s.stack) :
    ∃ s' l', lowerLink v (s.indexes n) s = .ok s' ∧
      Following graph path v s₀ s' above l' (processed ++ [n]) := by
  have hseen : s.indexes n ≠ none := h.sound.seen n hn
  obtain ⟨j, hj⟩ := ne_none_iff_exists'.mp hseen
  have hlink : LowLink graph v s₀ above (min l j) := by
    refine ⟨(min_le_left _ _).trans h.lowLink.le, fun hlt => ?_, fun u hu w hw huw i hi =>
      (min_le_left _ _).trans (h.lowLink.bound u hu w hw huw i hi)⟩
    rcases le_total l j with hle | hle
    · rw [min_eq_left hle] at hlt ⊢
      exact h.lowLink.reach hlt
    · rw [min_eq_right hle] at hlt ⊢
      have hbase := h.mem_base hn hj hlt
      exact ⟨n, hbase, by rw [← h.base_index hbase, hj], .single hedge⟩
  have hseen' : ∀ w ∈ processed ++ [n], s.indexes w ≠ none := by
    intro w hw
    rcases mem_append.mp hw with hw | hw
    · exact h.seen w hw
    · rw [mem_singleton.mp hw]
      exact hseen
  have hbound : ∀ w ∈ processed ++ [n], w ∈ s₀.stack → ∀ i, s₀.indexes w = some i →
      min l j ≤ i := by
    intro w hw hbase i hi
    rcases mem_append.mp hw with hw | hw
    · exact (min_le_left _ _).trans (h.processed_bound w hw hbase i hi)
    · obtain rfl := mem_singleton.mp hw
      rw [← h.base_index hbase, hj] at hi
      rw [← some.inj hi]
      exact min_le_right _ _
  obtain ⟨s', hrun, h'⟩ := lower h.ready h.sound h.coherent h.kept h.index_eq h.stack_eq h.low_eq
    hlink hseen' hbound
  exact ⟨s', min l j, by rw [hj]; exact hrun, h'⟩

/-- A neighbour that is done. -/
theorem skip (h : Following graph path v s₀ s above l processed) {n : V}
    (hseen : s.indexes n ≠ none) (hn : n ∉ s.stack) :
    Following graph path v s₀ s above l (processed ++ [n]) where
  ready := h.ready
  sound := h.sound
  coherent := h.coherent
  kept := h.kept
  index_eq := h.index_eq
  stack_eq := h.stack_eq
  low_eq := h.low_eq
  lowLink := h.lowLink
  seen w hw := by
    rcases mem_append.mp hw with hw | hw
    · exact h.seen w hw
    · rw [mem_singleton.mp hw]
      exact hseen
  processed_bound w hw hbase := by
    rcases mem_append.mp hw with hw | hw
    · exact h.processed_bound w hw hbase
    · rw [mem_singleton.mp hw] at hbase
      exact absurd (by rw [h.stack_eq]; simp [hbase]) hn

/-- A neighbour that was not seen before, after the call for it. -/
theorem connect (h : Following graph path v s₀ s above l processed) {n : V}
    (hedge : Edge graph v n) (hn : s.indexes n = none) {s₁ : State V} {above₁ : List V} {l₁ : Nat}
    (hc : Connected graph (v :: path) n s s₁ above₁ l₁) :
    ∃ s' above' l', lowerLink v (s₁.lowLinks n) s₁ = .ok s' ∧
      Following graph path v s₀ s' above' l' (processed ++ [n]) := by
  have hv : s.indexes v ≠ none := by rw [h.index_eq]; exact some_ne_none _
  have hkept := h.kept.trans hc.kept
  have hlink : LowLink graph v s₀ (above₁ ++ above) (min l l₁) := by
    refine ⟨(min_le_left _ _).trans h.lowLink.le, fun hlt => ?_, fun u hu w hw huw i hi => ?_⟩
    · rcases le_total l l₁ with hle | hle
      · rw [min_eq_left hle] at hlt ⊢
        exact h.lowLink.reach hlt
      · -- the neighbour reaches a vertex further down than `v`
        rw [min_eq_right hle] at hlt ⊢
        obtain ⟨z, hz, hzl, hreach⟩ := hc.lowLink.reach (hlt.trans h.bound_lt)
        have hbase := h.mem_base hz hzl hlt
        exact ⟨z, hbase, by rw [← h.base_index hbase, hzl], .head hedge hreach⟩
    · rcases mem_append.mp hu with hu | hu
      · have hstack : w ∈ s.stack := by rw [h.stack_eq]; simp [hw]
        exact (min_le_right _ _).trans
          (hc.lowLink.bound u hu w hstack huw i (by rw [h.base_index hw, hi]))
      · exact (min_le_left _ _).trans (h.lowLink.bound u hu w hw huw i hi)
  have hseen : ∀ w ∈ processed ++ [n], s₁.indexes w ≠ none := by
    intro w hw
    rcases mem_append.mp hw with hw | hw
    · obtain ⟨i, hi⟩ := ne_none_iff_exists'.mp (h.seen w hw)
      rw [hc.kept.index w i hi]
      exact some_ne_none i
    · rw [mem_singleton.mp hw, hc.index_eq]
      exact some_ne_none _
  have hbound : ∀ w ∈ processed ++ [n], w ∈ s₀.stack → ∀ i, s₀.indexes w = some i →
      min l l₁ ≤ i := by
    intro w hw hbase i hi
    rcases mem_append.mp hw with hw | hw
    · exact (min_le_left _ _).trans (h.processed_bound w hw hbase i hi)
    · obtain rfl := mem_singleton.mp hw
      rw [← h.base_index hbase, hn] at hi
      cases hi
  obtain ⟨s', hrun, h'⟩ := lower h.ready hc.sound hc.coherent hkept
    (hc.kept.index v _ h.index_eq) (by rw [hc.stack_eq, h.stack_eq, List.append_assoc])
    (by rw [hc.kept.low v hv, h.low_eq]) hlink hseen hbound
  exact ⟨s', _, _, by rw [hc.low_eq]; exact hrun, h'⟩

/-- When all neighbours are processed, the vertices down to `v` can be closed if no low link goes
further down. -/
theorem closing (h : Following graph path v s₀ s above s₀.index processed)
    (hall : ∀ w, Edge graph v w → w ∈ processed) :
    Closing (Edge graph) path s.search v above s₀.stack where
  sound := h.sound
  stack_eq := h.stack_eq
  followed w hedge := h.seen w (hall w hedge)
  noEscape u hu w hw hedge := by
    obtain ⟨j, hj⟩ := ne_none_iff_exists'.mp (h.ready.sound.seen w hw)
    have hj' : s₀.indexes w = some j := hj
    have hlt := h.ready.coherent.index_lt w j hj'
    rcases mem_append.mp hu with hu | hu
    · exact absurd (h.lowLink.bound u hu w hw hedge j hj') hlt.not_ge
    · rw [mem_singleton.mp hu] at hedge
      exact absurd (h.processed_bound w (hall w hedge) hw j hj') hlt.not_ge

end Following

/-- The component on top of the stack is popped down to its root. -/
theorem popComponent_spec {above : List V} (base : List V) (hv : v ∉ above)
    (onStack scc : Finset V) :
    ∃ onStack' scc', popComponent v (above ++ v :: base) onStack scc = .ok (base, onStack', scc') ∧
      (∀ u, u ∈ onStack' ↔ u ∈ onStack ∧ u ∉ above ++ [v]) ∧
      ∀ u, u ∈ scc' ↔ u ∈ scc ∨ u ∈ above ++ [v] := by
  induction above generalizing onStack scc with
  | nil =>
    refine ⟨onStack.erase v, insert v scc, by simp [popComponent], fun u => ?_, fun u => ?_⟩
    · simp [and_comm]
    · simp [or_comm]
  | cons w above ih =>
    have hwv : w ≠ v := fun heq => hv (by simp [heq])
    obtain ⟨onStack', scc', hrun, hon, hscc⟩ :=
      ih (fun hmem => hv (by simp [hmem])) (onStack.erase w) (insert w scc)
    refine ⟨onStack', scc', ?_, fun u => ?_, fun u => ?_⟩
    · rw [cons_append, popComponent, if_neg hwv]
      exact hrun
    · rw [hon, cons_append, mem_cons, not_or, Finset.mem_erase]
      tauto
    · rw [hscc, cons_append, mem_cons, Finset.mem_insert]
      tauto

variable {above processed : List V} {l : Nat}

/-- The end of the call: either the component of `v` is taken off the stack, or `v` stays on it
with a low link to an earlier vertex. -/
theorem finish_spec (h : Following graph path v s₀ s above l processed)
    (hall : ∀ w, Edge graph v w → w ∈ processed) :
    ∃ s' above' l', finish v s = .ok s' ∧ Connected graph path v s₀ s' above' l' := by
  by_cases hl : l = s₀.index
  · subst hl
    have hclosing := h.closing hall
    have hv : v ∉ above := by
      have hsorted := h.sound.sorted
      have hsearch : s.search.stack = above ++ v :: s₀.stack := h.stack_eq
      rw [hsearch, pairwise_append] at hsorted
      exact fun hmem => absurd (hsorted.2.2 v hmem v mem_cons_self) (lt_irrefl _)
    obtain ⟨onStack', scc, hpop, hon, hscc⟩ :=
      popComponent_spec s₀.stack hv s.onStack ∅
    refine ⟨{ s with stack := s₀.stack, onStack := onStack', result := s.result ++ [scc] }, [],
      s₀.index, ?_, ?_⟩
    · rw [finish, h.low_eq, h.index_eq, h.stack_eq]
      simp only [derefOption, ok_bind, if_true, hpop]
      rfl
    · refine ⟨hclosing.pop fun u => ?_, ⟨fun u => ?_, h.coherent.index_lt, h.coherent.mem⟩,
        ⟨h.kept.index, h.kept.low⟩, h.index_eq, rfl, h.low_eq, le_rfl,
        fun hlt => absurd hlt (lt_irrefl _), fun _ hu => absurd hu not_mem_nil⟩
      · rw [hscc]
        simp
      · have hmem : u ∈ s.stack ↔ u ∈ above ++ [v] ∨ u ∈ s₀.stack := hclosing.mem_stack
        rw [hon, h.coherent.onStack_iff, hmem]
        constructor
        · intro hand
          exact hand.1.resolve_left hand.2
        · intro hbase
          exact ⟨.inr hbase, fun habove => hclosing.notMem_base habove hbase⟩
  · have hlt : l < s₀.index := lt_of_le_of_ne h.lowLink.le hl
    obtain ⟨z, hz, hzl, hreach⟩ := h.lowLink.reach hlt
    have hzs : s.indexes z = some l := by rw [h.base_index hz, hzl]
    refine ⟨s, above ++ [v], l, ?_, ?_⟩
    · rw [finish, h.low_eq, h.index_eq]
      simp only [derefOption, ok_bind, if_neg hl]
      rfl
    · have hzstack : z ∈ s.search.stack := by
        have hsearch : s.search.stack = above ++ v :: s₀.stack := h.stack_eq
        rw [hsearch]
        simp [hz]
      refine ⟨h.sound.leave (fun w hedge => h.seen w (hall w hedge)) hzstack ?_ hreach,
        h.coherent, h.kept, h.index_eq, by rw [h.stack_eq]; simp, h.low_eq, h.lowLink.le,
        h.lowLink.reach, ?_⟩
      · rw [idx_eq hzs, idx_eq h.index_eq]
        exact hlt
      · intro u hu w hw hedge j hj
        rcases mem_append.mp hu with hu | hu
        · exact h.lowLink.bound u hu w hw hedge j hj
        · rw [mem_singleton.mp hu] at hedge
          exact h.processed_bound w (hall w hedge) hw j hj

/-- The loop over the neighbours, when the calls do what they should. -/
theorem visitNeighbors_spec {connect : V → State V → Result (State V)}
    (hconnect : ∀ n s, Ready graph (v :: path) n s → Kept s₀ s → s.indexes v ≠ none →
      ∃ s' above l, connect n s = .ok s' ∧ Connected graph (v :: path) n s s' above l)
    {rest : List V} (hrest : ∀ n ∈ rest, Edge graph v n)
    (h : Following graph path v s₀ s above l processed) :
    ∃ s' above' l', visitNeighbors connect v rest s = .ok s' ∧
      Following graph path v s₀ s' above' l' (processed ++ rest) := by
  induction rest generalizing s above l processed with
  | nil => exact ⟨s, above, l, rfl, by rwa [append_nil]⟩
  | cons n rest ih =>
    have hedge := hrest n mem_cons_self
    have hrest' : ∀ w ∈ rest, Edge graph v w := fun w hw => hrest w (mem_cons_of_mem n hw)
    have hassoc : processed ++ n :: rest = (processed ++ [n]) ++ rest := by simp
    have hv : s.indexes v ≠ none := by rw [h.index_eq]; exact some_ne_none _
    rw [hassoc, visitNeighbors]
    by_cases hn : s.indexes n = none
    · obtain ⟨s₁, above₁, l₁, hcall, hc⟩ :=
        hconnect n s ⟨h.sound, h.coherent, hn, mem_vertices.mpr (.inr ⟨v, hedge⟩),
          h.path_reach hedge⟩ h.kept hv
      obtain ⟨s₂, above₂, l₂, hlower, h₂⟩ := h.connect hedge hn hc
      obtain ⟨s', above', l', hrun, h'⟩ := ih hrest' h₂
      refine ⟨s', above', l', ?_, h'⟩
      rw [hn]
      simp only [isNone_none, if_true, hcall, ok_bind, hlower]
      exact hrun
    · have hnone : (s.indexes n).isNone = false := by
        rw [isNone_eq_false_iff, isSome_iff_ne_none]
        exact hn
      rw [hnone]
      simp only [Bool.false_eq_true, if_false]
      by_cases hstack : n ∈ s.stack
      · obtain ⟨s₂, l₂, hlower, h₂⟩ := h.onStack hedge hstack
        obtain ⟨s', above', l', hrun, h'⟩ := ih hrest' h₂
        refine ⟨s', above', l', ?_, h'⟩
        rw [if_pos ((h.coherent.onStack_iff n).mpr hstack), hlower]
        exact hrun
      · obtain ⟨s', above', l', hrun, h'⟩ := ih hrest' (h.skip hn hstack)
        refine ⟨s', above', l', ?_, h'⟩
        rw [if_neg fun hon => hstack ((h.coherent.onStack_iff n).mp hon)]
        exact hrun

/-- The vertices that have no index yet. -/
def unseenCount (graph : AdjacencyMap V) (s : State V) : Nat :=
  ((vertices graph).filter fun u => s.indexes u = none).card

theorem unseenCount_lt (hkept : Kept s₀ s) (hv : v ∈ vertices graph) (hunseen : s₀.indexes v = none)
    (hseen : s.indexes v ≠ none) : unseenCount graph s < unseenCount graph s₀ := by
  refine Finset.card_lt_card ⟨fun u hu => ?_, fun hsub => ?_⟩
  · rw [Finset.mem_filter] at hu ⊢
    refine ⟨hu.1, ?_⟩
    by_contra hne
    obtain ⟨i, hi⟩ := ne_none_iff_exists'.mp hne
    rw [hkept.index u i hi] at hu
    exact absurd hu.2 (some_ne_none i)
  · exact hseen (Finset.mem_filter.mp (hsub (Finset.mem_filter.mpr ⟨hv, hunseen⟩))).2

/-- `strong_connect` does what it should: the recursion is over the vertices without index. -/
theorem strongConnect_spec {fuel : Nat} (h : Ready graph path v s)
    (hfuel : unseenCount graph s < fuel) :
    ∃ s' above l, strongConnect graph fuel v s = .ok s' ∧ Connected graph path v s s' above l := by
  induction fuel generalizing path v s with
  | zero => omega
  | succ fuel ih =>
    have henter := following_enter h
    cases htargets : graph.lookup v with
    | none =>
      have hall : ∀ w, Edge graph v w → w ∈ ([] : List V) := by
        intro w hedge
        obtain ⟨targets, heq, -⟩ := hedge
        rw [htargets] at heq
        cases heq
      obtain ⟨s', above', l', hfinish, hc⟩ := finish_spec henter hall
      refine ⟨s', above', l', ?_, hc⟩
      rw [strongConnect, htargets]
      exact hfinish
    | some targets =>
      have hedges : ∀ n ∈ targets.sort (· ≤ ·), Edge graph v n := fun n hn =>
        ⟨targets, htargets, (Finset.mem_sort _).mp hn⟩
      have hcall : ∀ n s', Ready graph (v :: path) n s' → Kept s s' → s'.indexes v ≠ none →
          ∃ s'' above l, strongConnect graph fuel n s' = .ok s'' ∧
            Connected graph (v :: path) n s' s'' above l := by
        intro n s' hready hkept hseen
        have hlt := unseenCount_lt hkept h.mem h.unseen hseen
        exact ih hready (by omega)
      obtain ⟨s₁, above₁, l₁, hrun, h₁⟩ := visitNeighbors_spec hcall hedges henter
      have hall : ∀ w, Edge graph v w → w ∈ [] ++ targets.sort (· ≤ ·) := by
        intro w hedge
        obtain ⟨targets', heq, hw⟩ := hedge
        rw [htargets] at heq
        obtain rfl := some.inj heq
        simpa using hw
      obtain ⟨s', above', l', hfinish, hc⟩ := finish_spec h₁ hall
      refine ⟨s', above', l', ?_, hc⟩
      rw [strongConnect, htargets]
      simp only [hrun, ok_bind]
      exact hfinish

end Call

/-! ## All components -/

/-- The loop over the vertices. -/
theorem connectAll_spec {fuel : Nat} (hfuel : (vertices graph).card < fuel) {l : List V}
    (hl : ∀ v ∈ l, v ∈ vertices graph) (hsound : Sound (Edge graph) [] s.search)
    (hcoherent : Coherent graph s) :
    ∃ s', connectAll graph fuel l s = .ok s' ∧ Sound (Edge graph) [] s'.search ∧
      Coherent graph s' ∧ Kept s s' ∧ ∀ v ∈ l, s'.indexes v ≠ none := by
  induction l generalizing s with
  | nil => exact ⟨s, rfl, hsound, hcoherent, ⟨fun _ _ h => h, fun _ _ => rfl⟩, by simp⟩
  | cons v l ih =>
    have hl' : ∀ w ∈ l, w ∈ vertices graph := fun w hw => hl w (mem_cons_of_mem v hw)
    have hkeep : ∀ {s₁ s' : State V}, Kept s₁ s' → s₁.indexes v ≠ none →
        (∀ w ∈ l, s'.indexes w ≠ none) → ∀ w ∈ v :: l, s'.indexes w ≠ none := by
      intro s₁ s' hkept hv hrest w hw
      rcases mem_cons.mp hw with rfl | hw
      · obtain ⟨i, hi⟩ := ne_none_iff_exists'.mp hv
        rw [hkept.index w i hi]
        exact some_ne_none i
      · exact hrest w hw
    rw [connectAll]
    by_cases hv : s.indexes v = none
    · have hready : Ready graph [] v s :=
        ⟨hsound, hcoherent, hv, hl v mem_cons_self, fun _ hx => nomatch hx⟩
      obtain ⟨s₁, above, low, hrun, hc⟩ := strongConnect_spec hready
        ((Finset.card_filter_le _ _).trans_lt hfuel)
      obtain ⟨s', hrest, hsound', hcoherent', hkept, hseen⟩ := ih hl' hc.sound hc.coherent
      refine ⟨s', ?_, hsound', hcoherent', hc.kept.trans hkept, hkeep hkept ?_ hseen⟩
      · rw [hv]
        simp only [isNone_none, if_true, hrun, ok_bind]
        exact hrest
      · rw [hc.index_eq]
        exact some_ne_none _
    · obtain ⟨s', hrest, hsound', hcoherent', hkept, hseen⟩ := ih hl' hsound hcoherent
      refine ⟨s', ?_, hsound', hcoherent', hkept, hkeep hkept hv hseen⟩
      have hnone : (s.indexes v).isNone = false := by
        rw [isNone_eq_false_iff, isSome_iff_ne_none]
        exact hv
      rw [hnone]
      exact hrest

/-- The components of a graph: each vertex is in exactly one, vertices are together if and only
if they reach each other, and no component reaches a later one. -/
structure IsPartition (graph : AdjacencyMap V) (components : List (Finset V)) : Prop where
  one : ∀ v, Occurs graph v → (components.filter fun c => v ∈ c).length = 1
  occurs : ∀ c ∈ components, c.Nonempty ∧ ∀ v ∈ c, Occurs graph v
  same : ∀ u v, Occurs graph u → Occurs graph v → ((∃ c ∈ components, u ∈ c ∧ v ∈ c) ↔
    Relation.ReflTransGen (Edge graph) u v ∧ Relation.ReflTransGen (Edge graph) v u)
  ordered : components.Pairwise fun c d =>
    ∀ u ∈ c, ∀ v ∈ d, ¬Relation.ReflTransGen (Edge graph) u v

theorem occurs_of_mem_vertices (h : v ∈ vertices graph) : Occurs graph v := by
  rcases mem_vertices.mp h with hkey | htarget
  · obtain ⟨w, targets, heq, -⟩ := hkey
    refine .inl ?_
    rw [← AList.lookup_isSome, heq]
    rfl
  · exact .inr htarget

/-- A search that has seen all vertices that it starts from gives the components, if these are
all vertices. -/
theorem isPartition_iff (hsound : Sound (Edge graph) [] s.search) (hcoherent : Coherent graph s)
    (hseen : ∀ v ∈ vertices graph, s.indexes v ≠ none) :
    IsPartition graph s.result ↔ ∀ v ∈ graph, (∃ w, Edge graph v w) ∨ ∃ u, Edge graph u v := by
  have hdone : ∀ v, (∃ c ∈ s.result, v ∈ c) ↔ v ∈ vertices graph := by
    intro v
    rw [show s.result = s.search.components from rfl, ← hsound.covered]
    constructor
    · intro hd
      obtain ⟨i, hi⟩ := ne_none_iff_exists'.mp hd.1
      exact hcoherent.mem v i hi
    · exact fun hv => hsound.done_of_seen (hseen v hv)
  constructor
  · intro hpartition v hv
    -- the one set that contains the key shows that it was collected
    have hone := hpartition.one v (.inl hv)
    obtain ⟨c, hc⟩ := exists_mem_of_length_pos (by rw [hone]; exact Nat.one_pos)
    obtain ⟨hc, hvc⟩ := mem_filter.mp hc
    exact mem_vertices.mp ((hdone v).mp ⟨c, hc, of_decide_eq_true hvc⟩)
  · intro hall
    have hmem : ∀ v, Occurs graph v → v ∈ vertices graph := by
      intro v hv
      rcases hv with hkey | htarget
      · exact mem_vertices.mpr (hall v hkey)
      · exact mem_vertices.mpr (.inr htarget)
    refine ⟨fun v hv => ?_, fun c hc => ⟨?_, fun v hv => ?_⟩, fun u v hu _ => ?_, hsound.ordered⟩
    · obtain ⟨c, hc, hvc⟩ := (hdone v).mpr (hmem v hv)
      have hmemc : c ∈ s.result.filter fun c => v ∈ c :=
        mem_filter.mpr ⟨hc, decide_eq_true hvc⟩
      exact le_antisymm (hsound.component_unique v) (length_pos_of_mem hmemc)
    · obtain ⟨u, hu⟩ := hsound.component c hc
      exact ⟨u, (hu u).mpr ⟨.refl, .refl⟩⟩
    · exact occurs_of_mem_vertices ((hdone v).mp ⟨c, hc, hv⟩)
    · exact hsound.same_component_iff (hsound.done_of_seen (hseen u (hmem u hu)))

/-- The components are right if and only if every key has a target or is one. -/
theorem stronglyConnectedComponents_isPartition_iff (graph : AdjacencyMap V) :
    ∃ components, stronglyConnectedComponents graph = .ok components ∧
      (IsPartition graph components ↔
        ∀ v ∈ graph, (∃ w, Edge graph v w) ∨ ∃ u, Edge graph u v) := by
  have hstart : Sound (Edge graph) [] (start : State V).search := sound_start
  have hcoherent : Coherent graph (start : State V) :=
    ⟨fun v => by simp [start], fun _ _ hi => (nomatch hi), fun _ _ hi => (nomatch hi)⟩
  obtain ⟨s, hrun, hsound, hcoherent', -, hseen⟩ := connectAll_spec
    (Nat.lt_succ_self (vertices graph).card)
    (fun v hv => (Finset.mem_sort (· ≤ ·)).mp hv) hstart hcoherent
  refine ⟨s.result, ?_, isPartition_iff hsound hcoherent' fun v hv =>
    hseen v ((Finset.mem_sort _).mpr hv)⟩
  rw [stronglyConnectedComponents, hrun]
  rfl

/-- One key without targets. -/
def isolated : AdjacencyMap Nat := AList.singleton 0 ∅

/-- A key without targets is in no component. -/
theorem not_isPartition_isolated : ¬∃ components,
    stronglyConnectedComponents isolated = .ok components ∧ IsPartition isolated components := by
  intro hex
  obtain ⟨components, hrun, hpartition⟩ := hex
  have hvertices : vertices isolated = ∅ := by
    simp [vertices, show isolated.entries = [⟨0, ∅⟩] from rfl]
  rw [stronglyConnectedComponents, hvertices, Finset.sort_empty] at hrun
  obtain rfl := Except.ok.inj hrun
  have hone := hpartition.one 0 (.inl (AList.mem_keys.mpr (by decide)))
  cases hone

end StronglyConnectedComponents

end Xls

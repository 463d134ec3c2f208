import Xls.GraphContraction.Quotient
import Xls.Lib.Kahn

/-!
# Xls.GraphContraction.Sorting

`Vertices` and `TopologicalSort` of the graph. The sort counts, for every representative, the
edges that enter it from representatives that are not placed yet; it relies on the keys of
the edge maps being representatives (`topologicalSort_sorts`). Looking a vertex up halves
paths of the union-find maps, so that every query also gives a graph, which shows the same.
-/

namespace Xls

open List Option

/-- `GetRepresentatives`: the loop over the keys. -/
def UnionFindMap.findAll {K V : Type} [DecidableEq K] :
    List K → List K → UnionFindMap K V → Result (List K × UnionFindMap K V)
  | [], result, m => .ok (result, m)
  | key :: rest, result, m => do
    let (found, m) ← m.find key
    let (k, _) ← derefOption found
    findAll rest (result.insert k) m

/-- `GetRepresentatives`. -/
def UnionFindMap.getRepresentatives {K V : Type} [DecidableEq K] (m : UnionFindMap K V) :
    Result (List K × UnionFindMap K V) :=
  findAll m.keys [] m

namespace GraphContraction

open UnionFindMap (SameView)

variable {V VW EW : Type} [DecidableEq V]

/-- `Vertices`. -/
def vertices (g : GraphContraction V VW EW) : Result (List V × GraphContraction V VW EW) := do
  let (representatives, vertexWeights) ← g.vertexWeights.getRepresentatives
  return (representatives, { g with vertexWeights := vertexWeights })

/-- The first loop of `TopologicalSort`, over the vertices. The last element of `active` is the
head of the list. -/
def countEdges : List V → (V → Option Int) → List V → GraphContraction V VW EW →
    Result ((V → Option Int) × List V × GraphContraction V VW EW)
  | [], edgeCount, active, g => .ok (edgeCount, active, g)
  | vertex :: rest, edgeCount, active, g => do
    let (edges, g) ← g.edgesInto vertex
    let count : Int := edges.entries.length
    countEdges rest (Function.update edgeCount vertex (some count))
      (if count = 0 then vertex :: active else active) g

/-- The loop of `TopologicalSort` over the edges that leave a vertex. -/
def countDown : List V → (V → Option Int) → List V → Result ((V → Option Int) × List V)
  | [], edgeCount, active => .ok (edgeCount, active)
  | target :: rest, edgeCount, active => do
    let count ← derefOption (edgeCount target)
    countDown rest (Function.update edgeCount target (some (count - 1)))
      (if count - 1 = 0 then target :: active else active)

/-- The loop over `active`. The counter of a vertex becomes zero at most once, so that there is
one round for each vertex at most. -/
def sortLoop (order : HashOrder V) : Nat → (V → Option Int) → List V → List V →
    GraphContraction V VW EW → Result (List V × GraphContraction V VW EW)
  | 0, _, _, _, _ => .error .check
  | _ + 1, _, [], result, g => .ok (result, g)
  | fuel + 1, edgeCount, source :: active, result, g => do
    let (edges, g) ← g.edgesOutOf source
    let (edgeCount, active) ← countDown (order.arrange edges.keys) edgeCount active
    sortLoop order fuel edgeCount active (result ++ [source]) g

/-- `TopologicalSort`. -/
def topologicalSort (order : HashOrder V) (g : GraphContraction V VW EW) :
    Result (Option (List V) × GraphContraction V VW EW) := do
  let (vertices, g) ← g.vertices
  let (edgeCount, active, g) ← countEdges (order.arrange vertices) (fun _ => none) [] g
  let (result, g) ← sortLoop order (vertices.length + 1) edgeCount active [] g
  let (vertices, g) ← g.vertices
  return (if result.length ≠ vertices.length then none else some result, g)

/-! ## Queries and what they show -/

end GraphContraction

namespace UnionFindMap

variable {K V : Type} [DecidableEq K] {m m' m'' : UnionFindMap K V}

theorem SameView.refl (hm : WellFormed m) : SameView m m :=
  ⟨hm, fun _ => rfl, fun _ => rfl, fun _ => rfl⟩

theorem SameView.trans (h : SameView m m') (h' : SameView m' m'') : SameView m m'' :=
  ⟨h'.wf, fun k => (h'.rep_eq k).trans (h.rep_eq k), fun k => (h'.size_eq k).trans (h.size_eq k),
    fun k => (h'.value_eq k).trans (h.value_eq k)⟩

/-- The keys of the map are the members of its classes. -/
theorem WellFormed.mem_keys_iff (hm : WellFormed m) (k : K) : k ∈ m.keys ↔ m.rep k ≠ none := by
  rw [mem_iff_getElem?]
  constructor
  · intro hex
    obtain ⟨i, hi⟩ := hex
    obtain ⟨r, hr⟩ := hm.atRoot_isSome hm.keys_length ((hm.index_iff k i).mpr hi)
    rw [rep, atRoot, (hm.index_iff k i).mpr hi, bind_some, hr]
    exact some_ne_none r
  · intro hne
    obtain ⟨r, hr⟩ := ne_none_iff_exists'.mp hne
    obtain ⟨i, hi, -⟩ := hm.getIndex_of_rep hr
    exact ⟨i, (hm.index_iff k i).mp hi⟩

/-- The answer of `Find` on a map that shows the same. -/
theorem find_of_sameView (h : SameView m m') (key : K) :
    ∃ m'', m'.find key = .ok ((m.rep key).bind fun r => (m.value key).map fun v => (r, v), m'') ∧
      SameView m m'' := by
  obtain ⟨m'', hfind, hview⟩ := find_spec h.wf key
  rw [h.rep_eq, h.value_eq] at hfind
  exact ⟨m'', hfind, h.trans hview⟩

/-- Finding all representatives returns each of them once. -/
theorem findAll_spec (hm : WellFormed m) (h : SameView m m') {keys result : List K}
    (hkeys : ∀ k ∈ keys, m.rep k ≠ none) (hresult : result.Nodup) :
    ∃ reps m'', findAll keys result m' = .ok (reps, m'') ∧ SameView m m'' ∧ reps.Nodup ∧
      ∀ r, r ∈ reps ↔ r ∈ result ∨ ∃ k ∈ keys, m.rep k = some r := by
  induction keys generalizing result m' with
  | nil => exact ⟨result, m', rfl, h, hresult, fun r => by simp⟩
  | cons key keys ih =>
    obtain ⟨r, hr⟩ := ne_none_iff_exists'.mp (hkeys key (by simp))
    obtain ⟨v, hv⟩ := hm.exists_value hr
    obtain ⟨m₁, hfind, hview⟩ := find_of_sameView h key
    rw [hr, hv] at hfind
    obtain ⟨reps, m₂, hrun, hview', hnodup, hmem⟩ :=
      ih hview (fun k hk => hkeys k (by simp [hk])) (hresult.insert (a := r))
    refine ⟨reps, m₂, ?_, hview', hnodup, fun r' => ?_⟩
    · rw [findAll, hfind]
      exact hrun
    · rw [hmem, mem_insert_iff]
      simp only [mem_cons, exists_eq_or_imp, hr, some.injEq]
      tauto

/-- The representatives are the keys that represent themselves. -/
theorem getRepresentatives_spec (hm : WellFormed m) (h : SameView m m') :
    ∃ reps m'', m'.getRepresentatives = .ok (reps, m'') ∧ SameView m m'' ∧ reps.Nodup ∧
      ∀ r, r ∈ reps ↔ m.rep r = some r := by
  have hkeys : ∀ k ∈ m'.keys, m.rep k ≠ none := by
    intro k hk
    rw [← h.rep_eq]
    exact (h.wf.mem_keys_iff k).mp hk
  obtain ⟨reps, m'', hrun, hview, hnodup, hmem⟩ := findAll_spec hm h hkeys nodup_nil
  refine ⟨reps, m'', hrun, hview, hnodup, fun r => ?_⟩
  rw [hmem]
  constructor
  · intro hor
    rcases hor with hnil | ⟨k, -, hk⟩
    · cases hnil
    · exact hm.rep_rep hk
  · intro hr
    refine .inr ⟨r, ?_, hr⟩
    rw [h.wf.mem_keys_iff, h.rep_eq, hr]
    exact some_ne_none r

end UnionFindMap

namespace GraphContraction

open UnionFindMap (SameView)

variable {V VW EW : Type} [DecidableEq V] {g₀ g : GraphContraction V VW EW}

/-- Graphs that show the same. -/
structure SameGraph (g₀ g : GraphContraction V VW EW) : Prop where
  weights : SameView g₀.vertexWeights g.vertexWeights
  out : SameView g₀.outEdges g.outEdges
  into : SameView g₀.inEdges g.inEdges

/-- The edges that a graph shows to leave a vertex. -/
def outRow (g : GraphContraction V VW EW) (v : V) : EdgeMap V EW := (g.outEdges.value v).getD ∅

/-- The edges that a graph shows to enter a vertex. -/
def inRow (g : GraphContraction V VW EW) (v : V) : EdgeMap V EW := (g.inEdges.value v).getD ∅

namespace SameGraph

/-- A lookup compresses paths and does not change the view. -/
theorem answer {K W : Type} [DecidableEq K] {m m' : UnionFindMap K W} (h : SameView m m')
    (hm : m.WellFormed) (key : K) :
    ∃ m'', SameView m m'' ∧ ∃ found, m'.find key = .ok (found, m'') ∧
      found.map Prod.snd = m.value key := by
  obtain ⟨m'', hfind, hview⟩ := UnionFindMap.find_of_sameView h key
  refine ⟨m'', hview, _, hfind, ?_⟩
  cases hr : m.rep key with
  | none =>
    have hi : m.getIndex key = none := by
      rw [← not_isSome_iff_eq_none]
      intro hsome
      have hcontains : m.contains key = (m.rep key).isSome := hm.contains_iff
      rw [UnionFindMap.contains, hsome, hr] at hcontains
      cases hcontains
    rw [UnionFindMap.value, UnionFindMap.atRoot, hi]
    rfl
  | some r =>
    obtain ⟨v, hv⟩ := hm.exists_value hr
    rw [hv]
    rfl

variable (h : SameGraph g₀ g)

include h

theorem edgesOutOf (hm : g₀.outEdges.WellFormed) (v : V) :
    ∃ g', g.edgesOutOf v = .ok (g₀.outRow v, g') ∧ SameGraph g₀ g' := by
  obtain ⟨m, hview, found, hfind, hvalue⟩ := answer h.out hm v
  refine ⟨{ g with outEdges := m }, ?_, h.weights, hview, h.into⟩
  rw [GraphContraction.edgesOutOf, hfind, outRow, ← hvalue]
  rfl

theorem edgesInto (hm : g₀.inEdges.WellFormed) (v : V) :
    ∃ g', g.edgesInto v = .ok (g₀.inRow v, g') ∧ SameGraph g₀ g' := by
  obtain ⟨m, hview, found, hfind, hvalue⟩ := answer h.into hm v
  refine ⟨{ g with inEdges := m }, ?_, h.weights, h.out, hview⟩
  rw [GraphContraction.edgesInto, hfind, inRow, ← hvalue]
  rfl

theorem weightOf (hm : g₀.vertexWeights.WellFormed) (v : V) :
    ∃ g', g.weightOf v = .ok (g₀.vertexWeights.value v, g') ∧ SameGraph g₀ g' := by
  obtain ⟨m, hview, found, hfind, hvalue⟩ := answer h.weights hm v
  refine ⟨{ g with vertexWeights := m }, ?_, hview, h.out, h.into⟩
  rw [GraphContraction.weightOf, hfind, ← hvalue]
  rfl

theorem vertices (hm : g₀.vertexWeights.WellFormed) :
    ∃ reps g', g.vertices = .ok (reps, g') ∧ SameGraph g₀ g' ∧ reps.Nodup ∧
      ∀ r, r ∈ reps ↔ g₀.vertexWeights.rep r = some r := by
  obtain ⟨reps, m, hrun, hview, hnodup, hmem⟩ := UnionFindMap.getRepresentatives_spec hm h.weights
  refine ⟨reps, { g with vertexWeights := m }, ?_, ⟨hview, h.out, h.into⟩, hnodup, hmem⟩
  rw [GraphContraction.vertices, hrun]
  rfl

end SameGraph

/-! ## The sort -/

/-- A representative shows an edge. -/
def RowEdge (g : GraphContraction V VW EW) (u v : V) : Prop :=
  g.vertexWeights.rep u = some u ∧ v ∈ g.outRow u

instance (g : GraphContraction V VW EW) : DecidableRel g.RowEdge := fun u v =>
  inferInstanceAs (Decidable (g.vertexWeights.rep u = some u ∧ v ∈ g.outRow u))

/-- What the sort relies on: the rows of the representatives have representatives as keys, and
the two directions mirror each other. -/
structure Mirrored (g : GraphContraction V VW EW) : Prop where
  wf : g.vertexWeights.WellFormed
  wfOut : g.outEdges.WellFormed
  wfIn : g.inEdges.WellFormed
  target : ∀ u v, g.RowEdge u v → g.vertexWeights.rep v = some v
  source : ∀ v, g.vertexWeights.rep v = some v → ∀ u, u ∈ g.inRow v ↔ g.RowEdge u v

/-- The number of edges that enter a vertex. -/
def inCount (g : GraphContraction V VW EW) (v : V) : Nat := (g.inRow v).entries.length

/-- The number of predecessors that are not placed yet. -/
theorem Mirrored.inCount_eq (hm : Mirrored g₀) {nodes : List V} (hnodup : nodes.Nodup)
    (hnodes : ∀ r, r ∈ nodes ↔ g₀.vertexWeights.rep r = some r) {v : V} (hv : v ∈ nodes) :
    g₀.inCount v = Kahn.missing nodes g₀.RowEdge [] v := by
  have hperm : ((g₀.inRow v).keys).Perm
      (nodes.filter fun u => g₀.RowEdge u v ∧ u ∉ ([] : List V)) := by
    refine (perm_ext_iff_of_nodup (AList.keys_nodup _) (hnodup.filter _)).mpr fun u => ?_
    have hsource := hm.source v ((hnodes v).mp hv) u
    rw [← AList.mem_keys, hsource]
    simp only [not_mem_nil, not_false_eq_true, and_true, mem_filter, decide_eq_true_eq, hnodes]
    exact ⟨fun hedge => ⟨hedge.1, hedge⟩, fun hand => hand.2⟩
  have hlength := hperm.length_eq
  rw [AList.keys, List.keys, length_map] at hlength
  exact hlength

/-- Counting the edges finds the vertices without a predecessor. -/
theorem countEdges_spec (hm : Mirrored g₀) (h : SameGraph g₀ g) {l : List V}
    (active : List V) (hl : l.Nodup) (edgeCount : V → Option Int) :
    ∃ edgeCount' g', countEdges l edgeCount active g =
        .ok (edgeCount', (l.filter fun v => g₀.inCount v = 0).reverse ++ active, g') ∧
      SameGraph g₀ g' ∧
      ∀ v, edgeCount' v = if v ∈ l then some (g₀.inCount v : Int) else edgeCount v := by
  induction l generalizing edgeCount active g with
  | nil => exact ⟨edgeCount, g, rfl, h, fun v => by simp⟩
  | cons u l ih =>
    obtain ⟨hu, hl⟩ := nodup_cons.mp hl
    obtain ⟨g₁, hrow, h₁⟩ := h.edgesInto hm.wfIn u
    obtain ⟨edgeCount', g', hrun, h', hcount⟩ := ih h₁
      (if (g₀.inCount u : Int) = 0 then u :: active else active) hl
      (Function.update edgeCount u (some (g₀.inCount u : Int)))
    refine ⟨edgeCount', g', ?_, h', fun v => ?_⟩
    · rw [countEdges, hrow]
      refine Eq.trans hrun ?_
      by_cases hzero : g₀.inCount u = 0 <;> simp [hzero]
    · rw [hcount]
      by_cases hv : v = u
      · subst hv
        simp [hu]
      · simp [hv]

/-- Placing a vertex counts down at its successors and activates the ones that reach zero. -/
theorem countDown_spec {targets : List V} (active : List V) (hl : targets.Nodup)
    {edgeCount : V → Option Int} {count : V → Nat}
    (hcount : ∀ v ∈ targets, edgeCount v = some (count v : Int)) :
    ∃ edgeCount', countDown targets edgeCount active =
        .ok (edgeCount', (targets.filter fun v => (count v : Int) - 1 = 0).reverse ++ active) ∧
      ∀ v, edgeCount' v = if v ∈ targets then some ((count v : Int) - 1) else edgeCount v := by
  induction targets generalizing edgeCount active with
  | nil => exact ⟨edgeCount, rfl, fun v => by simp⟩
  | cons u targets ih =>
    obtain ⟨hu, hl⟩ := nodup_cons.mp hl
    have hrest : ∀ v ∈ targets, Function.update edgeCount u (some ((count u : Int) - 1)) v =
        some (count v : Int) := by
      intro v hv
      have hne : v ≠ u := fun heq => hu (heq ▸ hv)
      rw [Function.update_of_ne hne]
      exact hcount v (by simp [hv])
    obtain ⟨edgeCount', hrun, hcount'⟩ := ih
      (if (count u : Int) - 1 = 0 then u :: active else active) hl hrest
    refine ⟨edgeCount', ?_, fun v => ?_⟩
    · rw [countDown, hcount u (by simp)]
      refine Eq.trans hrun ?_
      by_cases hzero : (count u : Int) - 1 = 0 <;> simp [hzero]
    · rw [hcount']
      by_cases hv : v = u
      · subst hv
        simp [hu]
      · simp [hv]

section Loop

variable {nodes : List V}

/-- The counters hold the numbers of the edges from vertices that are not placed. -/
def Counts (g : GraphContraction V VW EW) (nodes placed : List V) (edgeCount : V → Option Int) :
    Prop :=
  ∀ v ∈ nodes, edgeCount v = some (Kahn.missing nodes g.RowEdge placed v : Int)

variable {active placed : List V} {edgeCount : V → Option Int}

section

variable (hm : Mirrored g₀) (hnodup : nodes.Nodup)
  (hnodes : ∀ r, r ∈ nodes ↔ g₀.vertexWeights.rep r = some r) (order : HashOrder V)
include hm hnodup hnodes order

/-- One round of the loop. -/
theorem sortLoop_step {source : V}
    (hqueued : Kahn.Queued nodes g₀.RowEdge (source :: active) placed)
    (hcounts : g₀.Counts nodes placed edgeCount) :
    ∃ edgeCount' active', countDown (order.arrange (g₀.outRow source).keys) edgeCount active =
        .ok (edgeCount', active') ∧ Kahn.Queued nodes g₀.RowEdge active' (placed ++ [source]) ∧
      g₀.Counts nodes (placed ++ [source]) edgeCount' := by
  have hsource : source ∈ nodes := (hqueued.mem source (by simp)).1
  have hrep : g₀.vertexWeights.rep source = some source := (hnodes source).mp hsource
  have hplaced : source ∉ placed := fun hmem =>
    (nodup_append.mp hqueued.nodup).2.2 source hmem source mem_cons_self rfl
  have htargets : ∀ v, v ∈ order.arrange (g₀.outRow source).keys ↔ g₀.RowEdge source v := by
    intro v
    rw [(order.perm _).mem_iff, ← AList.mem_keys]
    exact ⟨fun hv => ⟨hrep, hv⟩, fun hedge => hedge.2⟩
  have hmem : ∀ v ∈ order.arrange (g₀.outRow source).keys, v ∈ nodes := fun v hv =>
    (hnodes v).mpr (hm.target source v ((htargets v).mp hv))
  have hplace : ∀ v, Kahn.missing nodes g₀.RowEdge placed v =
      Kahn.missing nodes g₀.RowEdge (placed ++ [source]) v +
        if g₀.RowEdge source v then 1 else 0 := fun v =>
    Kahn.missing_place hnodup hsource hplaced v
  obtain ⟨edgeCount', hrun, hcount'⟩ := countDown_spec active
    ((order.perm _).nodup_iff.mpr (AList.keys_nodup (g₀.outRow source)))
    fun v hv => hcounts v (hmem v hv)
  refine ⟨edgeCount', _, hrun, ?_, ?_⟩
  · refine (hqueued.place ((order.perm _).nodup_iff.mpr (AList.keys_nodup (g₀.outRow source))
      |>.filter fun v => (Kahn.missing nodes g₀.RowEdge placed v : Int) - 1 = 0) ?_).perm ?_
    · -- a target that the vertex was the last before has its counter at zero
      intro v
      rw [mem_filter, htargets, decide_eq_true_eq, ← Kahn.missing_eq_zero]
      constructor
      · intro hand
        obtain ⟨hedge, hzero⟩ := hand
        have hv := hplace v
        rw [if_pos hedge] at hv
        exact ⟨(hnodes v).mpr (hm.target source v hedge), hedge, by omega⟩
      · intro hand
        obtain ⟨-, hedge, hzero⟩ := hand
        have hv := hplace v
        rw [if_pos hedge] at hv
        exact ⟨hedge, by omega⟩
    · exact perm_append_comm.trans ((reverse_perm _).symm.append_right active)
  · intro v hv
    have hv' := hplace v
    rw [hcount']
    by_cases hedge : g₀.RowEdge source v
    · rw [if_pos hedge] at hv'
      rw [if_pos ((htargets v).mpr hedge), hv']
      simp
    · rw [if_neg hedge] at hv'
      rw [if_neg fun hin => hedge ((htargets v).mp hin), hcounts v hv, hv']
      simp

/-- The loop ends with every vertex placed that can be. -/
theorem sortLoop_spec (h : SameGraph g₀ g) {fuel : Nat}
    (hqueued : Kahn.Queued nodes g₀.RowEdge active placed)
    (hcounts : g₀.Counts nodes placed edgeCount) (hfuel : nodes.length < fuel + placed.length) :
    ∃ result g', sortLoop order fuel edgeCount active placed g = .ok (result, g') ∧
      SameGraph g₀ g' ∧ Kahn.Queued nodes g₀.RowEdge [] result := by
  induction fuel generalizing active placed edgeCount g with
  | zero =>
    have := hqueued.length_le
    omega
  | succ fuel ih =>
    cases active with
    | nil => exact ⟨placed, g, rfl, h, hqueued⟩
    | cons source active =>
      obtain ⟨g₁, hrow, h₁⟩ := h.edgesOutOf hm.wfOut source
      obtain ⟨edgeCount', active', hdown, hqueued', hcounts'⟩ :=
        sortLoop_step hm hnodup hnodes order hqueued hcounts
      obtain ⟨result, g', hrun, h', hdone⟩ := ih h₁ hqueued' hcounts'
        (by rw [length_append, length_singleton]; omega)
      refine ⟨result, g', ?_, h', hdone⟩
      rw [sortLoop, hrow]
      simp only [Result.ok_bind, hdown]
      exact hrun

end

end Loop

/-- What a sort of the representatives gives: nothing exactly if there are cycles. -/
def Sorts (g : GraphContraction V VW EW) : Option (List V) → Prop
  | none => ∃ v, Relation.TransGen g.RowEdge v v
  | some result => (∀ v, ¬Relation.TransGen g.RowEdge v v) ∧ result.Nodup ∧
      (∀ v, v ∈ result ↔ g.vertexWeights.rep v = some v) ∧
      ∀ u v, g.RowEdge u v → result.idxOf u < result.idxOf v

/-- Whatever the order of the hash map, the result is sorted. -/
theorem topologicalSort_sorts (hm : Mirrored g₀) (h : SameGraph g₀ g) (order : HashOrder V) :
    ∃ result g', topologicalSort order g = .ok (result, g') ∧ SameGraph g₀ g' ∧
      g₀.Sorts result := by
  obtain ⟨nodes, g₁, hvertices, h₁, hnodup, hnodes⟩ := h.vertices hm.wf
  have harrange : (order.arrange nodes).Nodup := (order.perm nodes).nodup_iff.mpr hnodup
  obtain ⟨edgeCount, g₂, hcountEdges, h₂, hcount⟩ :=
    countEdges_spec hm h₁ [] harrange fun _ => none
  have hstart : Kahn.Queued nodes g₀.RowEdge
      (((order.arrange nodes).filter fun v => g₀.inCount v = 0).reverse ++ []) [] := by
    refine (Kahn.Queued.start (harrange.filter fun v => g₀.inCount v = 0) ?_).perm ?_
    · intro v
      rw [mem_filter, (order.perm nodes).mem_iff, decide_eq_true_eq]
      refine and_congr_right fun hv => ?_
      rw [hm.inCount_eq hnodup hnodes hv, Kahn.missing_eq_zero]
      simp
    · rw [append_nil]
      exact (reverse_perm _).symm
  have hcounts : g₀.Counts nodes [] edgeCount := by
    intro v hv
    rw [hcount, if_pos ((order.perm nodes).mem_iff.mpr hv), hm.inCount_eq hnodup hnodes hv]
  have hfuel : nodes.length < nodes.length + 1 + ([] : List V).length := by simp
  obtain ⟨result, g₃, hloop, h₃, hqueued⟩ :=
    sortLoop_spec hm hnodup hnodes order h₂ hstart hcounts hfuel
  obtain ⟨nodes', g₄, hvertices', h₄, hnodup', hnodes'⟩ := h₃.vertices hm.wf
  have hlength : nodes'.length = nodes.length :=
    ((perm_ext_iff_of_nodup hnodup' hnodup).mpr fun r =>
      (hnodes' r).trans (hnodes r).symm).length_eq
  have hresult : result.Nodup := (nodup_append.mp hqueued.nodup).1
  have hsub : ∀ v ∈ result, v ∈ nodes := fun v hv => (hqueued.mem v (by simp [hv])).1
  have hclosed : ∀ u v, g₀.RowEdge u v → u ∈ nodes ∧ v ∈ nodes := fun u v hedge =>
    ⟨(hnodes u).mpr hedge.1, (hnodes v).mpr (hm.target u v hedge)⟩
  refine ⟨if result.length ≠ nodes'.length then none else some result, g₄, ?_, h₄, ?_⟩
  · rw [topologicalSort, hvertices]
    simp only [Result.ok_bind, hcountEdges, hloop, hvertices']
    rfl
  · rw [hlength]
    by_cases hall : ∀ v ∈ nodes, v ∈ result
    · have hperm : result.Perm nodes :=
        (perm_ext_iff_of_nodup hresult hnodup).mpr fun v => ⟨hsub v, hall v⟩
      rw [if_neg (by rw [hperm.length_eq]; simp)]
      refine ⟨hqueued.acyclic hall hclosed, hresult, ?_, ?_⟩
      · intro v
        rw [hperm.mem_iff, hnodes]
      · intro u v hedge
        obtain ⟨hu, hv⟩ := hclosed u v hedge
        exact hqueued.idxOf_lt (hall v hv) hu hedge
    · have hne : result.length ≠ nodes.length := by
        intro heq
        have hsubperm := subperm_of_subset hresult hsub
        have hperm := hsubperm.perm_of_length_le heq.ge
        exact hall fun v hv => hperm.mem_iff.mpr hv
      rw [if_pos hne]
      by_contra hacyclic
      exact hall fun v hv => hqueued.placed_of_acyclic (fun v hv => hacyclic ⟨v, hv⟩) hv

end GraphContraction

end Xls

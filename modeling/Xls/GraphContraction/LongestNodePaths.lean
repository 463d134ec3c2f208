import Mathlib.Order.Bounds.Basic
import Xls.GraphContraction.Sorting

/-!
# Xls.GraphContraction.LongestNodePaths

The longest paths between all pairs of representatives, and when the queries that walk over
the whole graph are right (`walksQuotient_of_allAdmit`). The relaxation goes through the
vertices in topological order, for all sources at once: when it comes to a vertex, the
entries of the vertices before it are final.

A run may add an edge again, which keeps the old weight of the edge; the weights of the edges do
not matter here. What was added then differs from what the rows show by edges between the same
classes.
-/

namespace Xls.GraphContraction

open List Set

variable {V VW EW : Type} [DecidableEq V]

section Model

variable [Add VW] [LinearOrder VW]

/-- The loop over the edges that enter a vertex, for one source. -/
def relaxPreds (vertex : V) : List V → (V → Option VW) → GraphContraction V VW EW →
    Result ((V → Option VW) × GraphContraction V VW EW)
  | [], targets, g => .ok (targets, g)
  | pred :: rest, targets, g =>
    match targets pred with
    | none => relaxPreds vertex rest targets g
    | some old => do
      let (weight, g) ← g.weightOf vertex
      let newWeight := old + (← derefOption weight)
      let best :=
        match targets vertex with
        | some best => max best newWeight
        | none => newWeight
      relaxPreds vertex rest (Function.update targets vertex (some best)) g

/-- The loop over the sources, for one vertex. -/
def relaxSources (order : HashOrder V) (vertex : V) :
    List V → (V → Option (V → Option VW)) → GraphContraction V VW EW →
    Result ((V → Option (V → Option VW)) × GraphContraction V VW EW)
  | [], result, g => .ok (result, g)
  | source :: rest, result, g => do
    let targets ← derefOption (result source)
    let (edges, g) ← g.edgesInto vertex
    let (targets, g) ← relaxPreds vertex (order.arrange edges.keys) targets g
    relaxSources order vertex rest (Function.update result source (some targets)) g

/-- The loop over the sorted vertices. -/
def relaxAll (order : HashOrder V) (sources : List V) :
    List V → (V → Option (V → Option VW)) → GraphContraction V VW EW →
    Result ((V → Option (V → Option VW)) × GraphContraction V VW EW)
  | [], result, g => .ok (result, g)
  | vertex :: rest, result, g => do
    let (result, g) ← relaxSources order vertex sources result g
    relaxAll order sources rest result g

omit [Add VW] [LinearOrder VW] in
/-- The first loop of `LongestNodePaths`: the path of a vertex to itself. -/
def initPaths : List V → (V → Option (V → Option VW)) → GraphContraction V VW EW →
    Result ((V → Option (V → Option VW)) × GraphContraction V VW EW)
  | [], result, g => .ok (result, g)
  | vertex :: rest, result, g => do
    let (weight, g) ← g.weightOf vertex
    let weight ← derefOption weight
    initPaths rest (Function.update result vertex
      (some (Function.update (fun _ => none) vertex (some weight)))) g

/-- `LongestNodePaths`. The keys of the outer map are the representatives. -/
def longestNodePaths (order : HashOrder V) (g : GraphContraction V VW EW) :
    Result (Option (V → Option (V → Option VW)) × GraphContraction V VW EW) := do
  let (vertices, g) ← g.vertices
  let (result, g) ← initPaths (order.arrange vertices) (fun _ => none) g
  let (topo, g) ← topologicalSort order g
  match topo with
  | none => return (none, g)
  | some topo => do
    let (result, g) ← relaxAll order (order.arrange vertices) topo result g
    return (some result, g)

end Model

/-! ## Longest paths -/

section Paths

variable [Add VW]

/-- The total vertex weights of the paths from `s`. -/
inductive PathWeight (edge : V → V → Prop) (weight : V → Option VW) (s : V) : V → VW → Prop
  | single {w : VW} : weight s = some w → PathWeight edge weight s s w
  | snoc {u t : V} {x w : VW} : PathWeight edge weight s u x → edge u t → weight t = some w →
      PathWeight edge weight s t (x + w)

omit [DecidableEq V] in
/-- There is a path exactly to the vertices that can be reached. -/
theorem exists_pathWeight_iff {edge : V → V → Prop} {weight : V → Option VW}
    (hweight : ∀ u v, edge u v → weight v ≠ none) {s t : V} :
    (∃ x, PathWeight edge weight s t x) ↔ weight s ≠ none ∧ Relation.ReflTransGen edge s t := by
  constructor
  · intro hex
    obtain ⟨x, hx⟩ := hex
    induction hx with
    | single hw => exact ⟨by rw [hw]; exact Option.some_ne_none _, .refl⟩
    | snoc _ hedge _ ih => exact ⟨ih.1, ih.2.tail hedge⟩
  · intro hand
    obtain ⟨hs, hreach⟩ := hand
    induction hreach with
    | refl =>
      obtain ⟨w, hw⟩ := Option.ne_none_iff_exists'.mp hs
      exact ⟨w, .single hw⟩
    | tail _ hedge ih =>
      obtain ⟨x, hx⟩ := ih
      obtain ⟨w, hw⟩ := Option.ne_none_iff_exists'.mp (hweight _ _ hedge)
      exact ⟨x + w, hx.snoc hedge hw⟩

end Paths

section Greatest

variable [LinearOrder VW]

/-- The greatest element of a set; none where the set is empty. -/
def Longest (S : Set VW) : Option VW → Prop
  | none => S = ∅
  | some x => IsGreatest S x

variable {a : Option VW} {S : Set VW}

omit [DecidableEq V] in
/-- A longest path into two sets of weights. -/
theorem Longest.union {T : Set VW} {b : Option VW} (ha : Longest S a) (hb : Longest T b) :
    Longest (S ∪ T) (Option.merge max a b) := by
  cases a with
  | none =>
    rw [Longest] at ha
    rw [ha, empty_union, Option.merge_none_left]
    exact hb
  | some x =>
    cases b with
    | none =>
      rw [Longest] at hb
      rw [hb, union_empty, Option.merge_none_right]
      exact ha
    | some y => exact IsGreatest.union ha hb

omit [DecidableEq V] in
/-- Adding a weight to all paths. -/
theorem Longest.map_add [Add VW] [AddRightMono VW] (ha : Longest S a) (w : VW) :
    Longest ((· + w) '' S) (a.map (· + w)) := by
  cases a with
  | none =>
    rw [Longest] at ha
    rw [ha, image_empty]
    rfl
  | some x =>
    refine ⟨mem_image_of_mem _ ha.1, ?_⟩
    intro y hy
    obtain ⟨z, hz, rfl⟩ := hy
    have hle : z ≤ x := ha.2 hz
    change z + w ≤ x + w
    gcongr

omit [DecidableEq V] in
/-- The longest of several. -/
theorem Longest.foldl {T : V → Set VW} {f : V → Option VW} {l : List V}
    (hf : ∀ p ∈ l, Longest (T p) (f p)) (ha : Longest S a) :
    Longest (S ∪ ⋃ p ∈ l, T p) (l.foldl (fun acc p => Option.merge max acc (f p)) a) := by
  induction l generalizing S a with
  | nil => simpa using ha
  | cons p l ih =>
    have hstep := ih (fun q hq => hf q (by simp [hq])) (ha.union (hf p (by simp)))
    have hsets : S ∪ ⋃ q ∈ p :: l, T q = S ∪ T p ∪ ⋃ q ∈ l, T q := by
      ext x
      simp [or_assoc]
    rw [hsets]
    exact hstep

end Greatest

section Relax

variable [Add VW] [LinearOrder VW] {g₀ g : GraphContraction V VW EW}

/-- The weight that a graph shows for a representative. -/
def nodeWeight (g : GraphContraction V VW EW) (v : V) : Option VW :=
  if g.vertexWeights.rep v = some v then g.vertexWeights.value v else none

/-- The weights of the paths between representatives. -/
def pathWeights (g : GraphContraction V VW EW) (s t : V) : Set VW :=
  {x | PathWeight g.RowEdge g.nodeWeight s t x}

/-- The weights that the entry from `s` to `t` accounts for once the vertices `done` are
relaxed. -/
def known (g : GraphContraction V VW EW) (done : List V) (s t : V) : Set VW :=
  {x | if t ∈ done then x ∈ g.pathWeights s t else t = s ∧ g.nodeWeight s = some x}

/-- The entries of one source once the vertices `done` are relaxed. -/
def Relaxed (g : GraphContraction V VW EW) (done : List V) (s : V) (targets : V → Option VW) :
    Prop :=
  ∀ t, Longest (g.known done s t) (targets t)

/-- Relaxing over the predecessors takes the longest path that enters by one of them. -/
theorem relaxPreds_spec (hm : Mirrored g₀) (h : SameGraph g₀ g) {vertex : V} {w : VW}
    (hw : g₀.vertexWeights.value vertex = some w) {preds : List V} (hpreds : vertex ∉ preds)
    (targets : V → Option VW) :
    ∃ g', relaxPreds vertex preds targets g = .ok (Function.update targets vertex
        (preds.foldl (fun acc p => Option.merge max acc ((targets p).map (· + w)))
          (targets vertex)), g') ∧ SameGraph g₀ g' := by
  induction preds generalizing targets g with
  | nil => exact ⟨g, by simp [relaxPreds], h⟩
  | cons pred preds ih =>
    have hne : pred ≠ vertex := fun heq => hpreds (by simp [heq])
    have hrest : vertex ∉ preds := fun hmem => hpreds (by simp [hmem])
    cases hp : targets pred with
    | none =>
      obtain ⟨g', hrun, h'⟩ := ih h hrest targets
      refine ⟨g', ?_, h'⟩
      rw [relaxPreds, hp, foldl_cons, hp]
      simpa using hrun
    | some old =>
      obtain ⟨g₁, hweight, h₁⟩ := h.weightOf hm.wf vertex
      rw [hw] at hweight
      obtain ⟨g', hrun, h'⟩ := ih h₁ hrest (Function.update targets vertex
        (Option.merge max (targets vertex) (some (old + w))))
      refine ⟨g', ?_, h'⟩
      have hfold : preds.foldl (fun acc p => Option.merge max acc
            ((Function.update targets vertex (Option.merge max (targets vertex)
              (some (old + w))) p).map (· + w)))
            (Option.merge max (targets vertex) (some (old + w))) =
          preds.foldl (fun acc p => Option.merge max acc ((targets p).map (· + w)))
            (Option.merge max (targets vertex) (some (old + w))) := by
        refine foldl_ext _ _ _ fun acc p hmem => ?_
        have hne' : p ≠ vertex := fun heq => hrest (heq ▸ hmem)
        rw [Function.update_of_ne hne']
      rw [Function.update_self, Function.update_idem, hfold] at hrun
      rw [foldl_cons, hp, Option.map_some, ← hrun, relaxPreds, hp]
      simp only [hweight, Result.ok_bind, derefOption]
      cases targets vertex <;> rfl

omit [LinearOrder VW] in
/-- The paths to a vertex: the vertex itself, or a path to a predecessor and the vertex. -/
theorem pathWeights_eq {s v : V} {w : VW} (hv : g₀.nodeWeight v = some w)
    {preds : List V} (hpreds : ∀ u, u ∈ preds ↔ g₀.RowEdge u v) :
    g₀.pathWeights s v = {x | v = s ∧ g₀.nodeWeight s = some x} ∪
      ⋃ p ∈ preds, (· + w) '' g₀.pathWeights s p := by
  ext x
  simp only [pathWeights, mem_ofPred_eq, mem_union, mem_iUnion, mem_image, exists_prop, hpreds]
  constructor
  · intro hx
    cases hx with
    | single hw => exact .inl ⟨rfl, hw⟩
    | @snoc u _ y w' hy hedge hw' =>
      rw [hv] at hw'
      obtain rfl := Option.some.inj hw'
      exact .inr ⟨u, hedge, y, hy, rfl⟩
  · intro hor
    rcases hor with ⟨rfl, hx⟩ | ⟨u, hedge, y, hy, rfl⟩
    · exact .single hx
    · exact hy.snoc hedge hv

/-- Relaxing the edges into a vertex, once all vertices before it are relaxed. -/
theorem Relaxed.step [AddRightMono VW] {done preds : List V} {s v : V} {w : VW}
    {targets : V → Option VW} (h : g₀.Relaxed done s targets) (hv : g₀.nodeWeight v = some w)
    (hpreds : ∀ u, u ∈ preds ↔ g₀.RowEdge u v) (hdone : ∀ u ∈ preds, u ∈ done) (hnot : v ∉ done) :
    g₀.Relaxed (done ++ [v]) s (Function.update targets v
      (preds.foldl (fun acc p => Option.merge max acc ((targets p).map (· + w))) (targets v))) := by
  intro t
  by_cases htv : t = v
  · subst htv
    have hknown : g₀.known (done ++ [t]) s t = g₀.known done s t ∪
        ⋃ p ∈ preds, (· + w) '' g₀.known done s p := by
      have hfinal : ∀ p ∈ preds, g₀.known done s p = g₀.pathWeights s p := by
        intro p hp
        ext x
        simp [known, hdone p hp]
      have hself : g₀.known (done ++ [t]) s t = g₀.pathWeights s t := by
        ext x
        simp [known]
      have hstart : g₀.known done s t = {x | t = s ∧ g₀.nodeWeight s = some x} := by
        ext x
        simp [known, hnot]
      rw [hself, hstart, pathWeights_eq hv hpreds]
      congr 1
      refine iUnion₂_congr fun p hp => ?_
      rw [hfinal p hp]
    rw [hknown, Function.update_self]
    exact (h t).foldl fun p _ => (h p).map_add w
  · have hknown : g₀.known (done ++ [v]) s t = g₀.known done s t := by
      ext x
      simp [known, htv]
    rw [hknown, Function.update_of_ne htv]
    exact h t

variable [AddRightMono VW] {sources : List V} {result : V → Option (V → Option VW)}

/-- After its sources are relaxed, a vertex counts as done. -/
theorem relaxSources_spec (hm : Mirrored g₀) (h : SameGraph g₀ g) (order : HashOrder V)
    {done : List V} {v : V} (hv : g₀.vertexWeights.rep v = some v)
    (hdone : ∀ u, g₀.RowEdge u v → u ∈ done) (hnot : v ∉ done) (hnodup : sources.Nodup)
    (hresult : ∀ s ∈ sources, ∃ targets, result s = some targets ∧ g₀.Relaxed done s targets) :
    ∃ result' g', relaxSources order v sources result g = .ok (result', g') ∧ SameGraph g₀ g' ∧
      (∀ s ∈ sources, ∃ targets, result' s = some targets ∧ g₀.Relaxed (done ++ [v]) s targets) ∧
      ∀ s ∉ sources, result' s = result s := by
  induction sources generalizing result g with
  | nil => exact ⟨result, g, rfl, h, by simp, fun s _ => rfl⟩
  | cons source sources ih =>
    obtain ⟨hsource, hnodup⟩ := nodup_cons.mp hnodup
    obtain ⟨targets, htargets, hrelaxed⟩ := hresult source (by simp)
    obtain ⟨w, hw⟩ := hm.wf.exists_value hv
    have hweight : g₀.nodeWeight v = some w := by rw [nodeWeight, if_pos hv, hw]
    obtain ⟨g₁, hrow, h₁⟩ := h.edgesInto hm.wfIn v
    have hpreds : ∀ u, u ∈ order.arrange (g₀.inRow v).keys ↔ g₀.RowEdge u v := by
      intro u
      rw [(order.perm _).mem_iff, ← AList.mem_keys]
      exact hm.source v hv u
    have hself : v ∉ order.arrange (g₀.inRow v).keys := fun hmem =>
      hnot (hdone v ((hpreds v).mp hmem))
    obtain ⟨g₂, hrelax, h₂⟩ := relaxPreds_spec hm h₁ hw hself targets
    have hstep := hrelaxed.step hweight hpreds (fun u hu => hdone u ((hpreds u).mp hu)) hnot
    generalize hnew : Function.update targets v _ = targets' at hrelax hstep
    have hrest : ∀ s ∈ sources, ∃ targets,
        Function.update result source (some targets') s = some targets ∧
          g₀.Relaxed done s targets := by
      intro s hs
      have hne : s ≠ source := fun heq => hsource (heq ▸ hs)
      rw [Function.update_of_ne hne]
      exact hresult s (by simp [hs])
    obtain ⟨result', g', hrun, h', hmem, hother⟩ := ih h₂ hnodup hrest
    refine ⟨result', g', ?_, h', ?_, ?_⟩
    · rw [relaxSources, htargets]
      simp only [derefOption, Result.ok_bind, hrow, hrelax]
      exact hrun
    · intro s hs
      rcases mem_cons.mp hs with rfl | hs
      · refine ⟨targets', ?_, hstep⟩
        rw [hother s hsource, Function.update_self]
      · exact hmem s hs
    · intro s hs
      rw [mem_cons, not_or] at hs
      rw [hother s hs.2, Function.update_of_ne hs.1]

/-- In topological order, one pass relaxes every vertex. -/
theorem relaxAll_spec (hm : Mirrored g₀) (h : SameGraph g₀ g) (order : HashOrder V)
    (hsources : sources.Nodup) {done rest : List V} (hnodup : (done ++ rest).Nodup)
    (hmem : ∀ v, v ∈ done ++ rest ↔ g₀.vertexWeights.rep v = some v)
    (hsorted : ∀ u v, g₀.RowEdge u v → (done ++ rest).idxOf u < (done ++ rest).idxOf v)
    (hresult : ∀ s ∈ sources, ∃ targets, result s = some targets ∧ g₀.Relaxed done s targets) :
    ∃ result' g', relaxAll order sources rest result g = .ok (result', g') ∧
      (∀ s ∈ sources, ∃ targets, result' s = some targets ∧
        g₀.Relaxed (done ++ rest) s targets) ∧ ∀ s ∉ sources, result' s = result s := by
  induction rest generalizing done result g with
  | nil =>
    rw [append_nil]
    exact ⟨result, g, rfl, hresult, fun s _ => rfl⟩
  | cons v rest ih =>
    have hassoc : done ++ v :: rest = (done ++ [v]) ++ rest := by simp
    have hnot : v ∉ done := fun hin =>
      (nodup_append.mp hnodup).2.2 v hin v mem_cons_self rfl
    have hv : g₀.vertexWeights.rep v = some v := (hmem v).mp (by simp)
    have hindex : (done ++ v :: rest).idxOf v = done.length := by
      rw [idxOf_append_of_notMem hnot]
      simp
    have hdone : ∀ u, g₀.RowEdge u v → u ∈ done := by
      intro u hedge
      by_contra hu
      have hlt := hsorted u v hedge
      rw [hindex, idxOf_append_of_notMem hu] at hlt
      omega
    obtain ⟨result₁, g₁, hstep, h₁, hresult₁, hother₁⟩ :=
      relaxSources_spec hm h order hv hdone hnot hsources hresult
    rw [hassoc] at hnodup hmem hsorted
    obtain ⟨result', g', hrun, hresult', hother'⟩ := ih h₁ hnodup hmem hsorted hresult₁
    refine ⟨result', g', ?_, ?_, fun s hs => (hother' s hs).trans (hother₁ s hs)⟩
    · rw [relaxAll, hstep]
      exact hrun
    · rw [hassoc]
      exact hresult'

omit [AddRightMono VW] in
/-- At first only the path from a vertex to itself is known. -/
theorem initPaths_spec (hm : Mirrored g₀) (h : SameGraph g₀ g) {l : List V} (hnodup : l.Nodup)
    (hl : ∀ v ∈ l, g₀.vertexWeights.rep v = some v) (result : V → Option (V → Option VW)) :
    ∃ result' g', initPaths l result g = .ok (result', g') ∧ SameGraph g₀ g' ∧
      (∀ s ∈ l, ∃ targets, result' s = some targets ∧ g₀.Relaxed [] s targets) ∧
      ∀ s ∉ l, result' s = result s := by
  induction l generalizing result g with
  | nil => exact ⟨result, g, rfl, h, by simp, fun s _ => rfl⟩
  | cons v l ih =>
    obtain ⟨hv, hnodup⟩ := nodup_cons.mp hnodup
    have hrep := hl v (by simp)
    obtain ⟨w, hw⟩ := hm.wf.exists_value hrep
    obtain ⟨g₁, hweight, h₁⟩ := h.weightOf hm.wf v
    rw [hw] at hweight
    obtain ⟨result', g', hrun, h', hmem, hother⟩ := ih h₁ hnodup (fun u hu => hl u (by simp [hu]))
      (Function.update result v (some (Function.update (fun _ => none) v (some w))))
    refine ⟨result', g', ?_, h', ?_, ?_⟩
    · rw [initPaths, hweight]
      exact hrun
    · intro s hs
      rcases mem_cons.mp hs with rfl | hs
      · refine ⟨_, by rw [hother s hv, Function.update_self], fun t => ?_⟩
        have hself : g₀.nodeWeight s = some w := by rw [nodeWeight, if_pos hrep, hw]
        by_cases hts : t = s
        · subst hts
          have hknown : g₀.known [] t t = {w} := by
            ext x
            simp [known, hself, eq_comm]
          rw [Function.update_self, hknown]
          exact isGreatest_singleton
        · rw [Function.update_of_ne hts]
          ext x
          simp [known, hts]
      · exact hmem s hs
    · intro s hs
      rw [mem_cons, not_or] at hs
      rw [hother s hs.2, Function.update_of_ne hs.1]

/-- The longest paths of the graph: nothing exactly if there are cycles. -/
def LongestPaths (g : GraphContraction V VW EW) : Option (V → Option (V → Option VW)) → Prop
  | none => ∃ v, Relation.TransGen g.RowEdge v v
  | some paths => (∀ v, ¬Relation.TransGen g.RowEdge v v) ∧
      ∀ s t, Longest (g.pathWeights s t) ((paths s).bind fun targets => targets t)

/-- The queries return the weight of a longest path between each pair. -/
theorem longestNodePaths_spec (hm : Mirrored g₀) (h : SameGraph g₀ g) (order : HashOrder V) :
    ∃ result g', longestNodePaths order g = .ok (result, g') ∧ g₀.LongestPaths result := by
  obtain ⟨nodes, g₁, hvertices, h₁, hnodup, hnodes⟩ := h.vertices hm.wf
  have harrange : (order.arrange nodes).Nodup := (order.perm nodes).nodup_iff.mpr hnodup
  have hreps : ∀ v, v ∈ order.arrange nodes ↔ g₀.vertexWeights.rep v = some v := fun v =>
    (order.perm nodes).mem_iff.trans (hnodes v)
  obtain ⟨result, g₂, hinit, h₂, hresult, hother⟩ := initPaths_spec hm h₁ harrange
    (fun v hv => (hreps v).mp hv) fun _ => none
  obtain ⟨topo, g₃, hsort, h₃, hsorts⟩ := topologicalSort_sorts hm h₂ order
  cases topo with
  | none =>
    refine ⟨none, g₃, ?_, hsorts⟩
    rw [longestNodePaths, hvertices]
    simp only [Result.ok_bind, hinit, hsort]
    rfl
  | some topo =>
    obtain ⟨hacyclic, htopo, hmem, hsorted⟩ := hsorts
    have hstart : ([] ++ topo).Nodup := htopo
    obtain ⟨result', g₄, hrelax, hresult', hother'⟩ :=
      relaxAll_spec hm h₃ order harrange hstart hmem hsorted hresult
    refine ⟨some result', g₄, ?_, hacyclic, fun s t => ?_⟩
    · rw [longestNodePaths, hvertices]
      simp only [Result.ok_bind, hinit, hsort, hrelax]
      rfl
    · have hrepOf : ∀ {t x}, PathWeight g₀.RowEdge g₀.nodeWeight s t x →
          g₀.vertexWeights.rep s = some s := by
        intro t x hx
        induction hx with
        | single hw =>
          by_contra hne
          rw [nodeWeight, if_neg hne] at hw
          cases hw
        | snoc _ _ _ ih => exact ih
      by_cases hs : g₀.vertexWeights.rep s = some s
      · obtain ⟨targets, htargets, hrelaxed⟩ := hresult' s ((hreps s).mpr hs)
        rw [htargets, Option.bind_some]
        have hknown : g₀.known ([] ++ topo) s t = g₀.pathWeights s t := by
          ext x
          rw [nil_append]
          by_cases ht : t ∈ topo
          · simp [known, ht]
          · -- a vertex that is no representative has no paths
            have hne : ¬g₀.vertexWeights.rep t = some t := fun heq => ht ((hmem t).mpr heq)
            have hts : t ≠ s := fun heq => hne (heq ▸ hs)
            simp only [known, ht, if_false, hts, false_and, pathWeights, mem_ofPred_eq, false_iff]
            intro hx
            cases hx with
            | single _ => exact hts rfl
            | snoc _ hedge _ => exact hne (hm.target _ _ hedge)
        rw [← hknown]
        exact hrelaxed t
      · rw [hother' s fun hin => hs ((hreps s).mp hin), hother s fun hin => hs ((hreps s).mp hin),
          Option.bind_none]
        ext x
        simp only [pathWeights, mem_ofPred_eq, mem_empty_iff_false, iff_false]
        exact fun hx => hs (hrepOf hx)

end Relax

/-! ## The quotient of what was added -/

section Quotient

/-- The edges between the classes of what was added. -/
def QuotientEdge (g : GraphContraction V VW EW) (h : Added V VW EW) (s t : V) : Prop :=
  ∃ e ∈ h.edges, g.repOf e.1 = some s ∧ g.repOf e.2 = some t

/-- The merged weight of a class. -/
def quotientWeight (vwMerge : VW → VW → VW) (g : GraphContraction V VW EW) (h : Added V VW EW)
    (v : V) : Option VW :=
  weigh vwMerge h.vertices.entries fun u => g.repOf u = some v

/-- The representatives of the classes, sorted; nothing exactly if there are cycles. -/
def SortsQuotient (g : GraphContraction V VW EW) (h : Added V VW EW) : Option (List V) → Prop
  | none => ∃ v, Relation.TransGen (g.QuotientEdge h) v v
  | some result => (∀ v, ¬Relation.TransGen (g.QuotientEdge h) v v) ∧ result.Nodup ∧
      (∀ v, v ∈ result ↔ v ∈ h.vertices ∧ g.repOf v = some v) ∧
      ∀ s t, g.QuotientEdge h s t → result.idxOf s < result.idxOf t

/-- The longest paths between the classes; nothing exactly if there are cycles. -/
def LongestQuotientPaths [Add VW] [LinearOrder VW] (vwMerge : VW → VW → VW)
    (g : GraphContraction V VW EW) (h : Added V VW EW) :
    Option (V → Option (V → Option VW)) → Prop
  | none => ∃ v, Relation.TransGen (g.QuotientEdge h) v v
  | some paths => (∀ v, ¬Relation.TransGen (g.QuotientEdge h) v v) ∧ ∀ s t,
      (((paths s).bind fun targets => targets t).isSome ↔
        (s ∈ h.vertices ∧ g.repOf s = some s) ∧
          Relation.ReflTransGen (g.QuotientEdge h) s t) ∧
      ∀ x, ((paths s).bind fun targets => targets t) = some x →
        IsGreatest {y | PathWeight (g.QuotientEdge h) (quotientWeight vwMerge g h) s t y} x

/-- The graph has one representative for each class, and both queries are right about the
quotient. -/
structure WalksQuotient [Add VW] [LinearOrder VW] (order : HashOrder V)
    (vwMerge : VW → VW → VW) (g : GraphContraction V VW EW) (h : Added V VW EW) : Prop where
  representative : ∀ v ∈ h.vertices, ∃ r ∈ h.vertices, g.repOf v = some r ∧ g.repOf r = some r
  classes : ∀ u ∈ h.vertices, ∀ v ∈ h.vertices, g.repOf u = g.repOf v ↔ h.Same u v
  sort : ∃ result g', topologicalSort order g = .ok (result, g') ∧ SortsQuotient g h result
  paths : ∃ result g', longestNodePaths order g = .ok (result, g') ∧
    LongestQuotientPaths vwMerge g h result

/-- What was added twice with the same effect on the classes: the edges are between the same
classes. -/
structure Alike (h h' : Added V VW EW) : Prop where
  vertices_eq : h'.vertices = h.vertices
  identified_eq : h'.identified = h.identified
  edge : ∀ e ∈ h.edges, ∃ e' ∈ h'.edges, h.Same e.1 e'.1 ∧ h.Same e.2 e'.2
  edge' : ∀ e' ∈ h'.edges, ∃ e ∈ h.edges, h.Same e.1 e'.1 ∧ h.Same e.2 e'.2

variable {vwMerge : VW → VW → VW} {ewMerge : EW → EW → EW} {g : GraphContraction V VW EW}
  {h h' : Added V VW EW}

omit [DecidableEq V] in
theorem Alike.refl (h : Added V VW EW) : Alike h h :=
  ⟨rfl, rfl, fun e he => ⟨e, he, .refl _, .refl _⟩, fun e he => ⟨e, he, .refl _, .refl _⟩⟩

omit [DecidableEq V] in
theorem Alike.same (halike : Alike h h') {u v : V} : h'.Same u v ↔ h.Same u v := by
  rw [Added.Same, Added.Same, halike.identified_eq]

namespace Agrees

variable (ha : Agrees vwMerge ewMerge g h')

include ha

variable {u v : V}

theorem mem_outRow (hu : g.vertexWeights.rep u = some u) :
    v ∈ g.outRow u ↔ edgeBetween ewMerge g h' u v ≠ none := by
  obtain ⟨edges, g', -, hvalue, hrow⟩ := ha.edgesOutOf hu
  rw [outRow, hvalue, Option.getD_some, ← AList.lookup_isSome, hrow, Option.isSome_iff_ne_none]

theorem mem_inRow (hv : g.vertexWeights.rep v = some v) :
    u ∈ g.inRow v ↔ edgeBetween ewMerge g h' u v ≠ none := by
  obtain ⟨edges, g', -, hvalue, hrow⟩ := ha.edgesInto hv
  rw [inRow, hvalue, Option.getD_some, ← AList.lookup_isSome, hrow, Option.isSome_iff_ne_none]

theorem rowEdge_iff_edgeBetween : g.RowEdge u v ↔ edgeBetween ewMerge g h' u v ≠ none := by
  constructor
  · intro hedge
    exact (ha.mem_outRow hedge.1).mp hedge.2
  · intro hne
    have hu := (ha.rep_of_edge hne).1
    exact ⟨hu, (ha.mem_outRow hu).mpr hne⟩

theorem mirrored : Mirrored g where
  wf := ha.wf
  wfOut := ha.wfOut
  wfIn := ha.wfIn
  target _ _ hedge := (ha.rep_of_edge (ha.rowEdge_iff_edgeBetween.mp hedge)).2
  source _ hv _ := (ha.mem_inRow hv).trans ha.rowEdge_iff_edgeBetween.symm

/-- The rows show the edges of the quotient. -/
theorem rowEdge_iff (halike : Alike h h') : g.RowEdge u v ↔ g.QuotientEdge h u v := by
  rw [ha.rowEdge_iff_edgeBetween, Ne, between_eq_none, QuotientEdge]
  push Not
  constructor
  · intro hex
    obtain ⟨e', he', hu, hv⟩ := hex
    obtain ⟨e, he, hfst, hsnd⟩ := halike.edge' e'.1 (mem_keys_of_mem_entries he')
    refine ⟨e, he, ?_, ?_⟩
    · rw [repOf_eq ha.wf, ha.rep_eq_of_same (halike.same.mpr hfst), hu]
    · rw [repOf_eq ha.wf, ha.rep_eq_of_same (halike.same.mpr hsnd), hv]
  · intro hex
    obtain ⟨e, he, hu, hv⟩ := hex
    obtain ⟨e', he', hfst, hsnd⟩ := halike.edge e he
    obtain ⟨entry, hentry, heq⟩ := mem_map.mp he'
    refine ⟨entry, hentry, ?_, ?_⟩
    · rw [heq, ← ha.rep_eq_of_same (halike.same.mpr hfst), ← repOf_eq ha.wf, hu]
    · rw [heq, ← ha.rep_eq_of_same (halike.same.mpr hsnd), ← repOf_eq ha.wf, hv]

/-- The representatives show the merged weights of their classes. -/
theorem nodeWeight_eq (halike : Alike h h') : g.nodeWeight = quotientWeight vwMerge g h := by
  funext v
  have hrep := repOf_eq ha.wf
  rw [nodeWeight, quotientWeight]
  by_cases hv : g.vertexWeights.rep v = some v
  · rw [if_pos hv, ha.weight v v hv, halike.vertices_eq]
    exact weigh_congr fun e _ => by rw [hrep]
  · rw [if_neg hv, eq_comm, weigh_eq_none]
    intro e _ heq
    rw [hrep] at heq
    exact hv (ha.wf.rep_rep heq)

theorem nodeWeight_ne_none_iff : g.nodeWeight v ≠ none ↔ g.vertexWeights.rep v = some v := by
  rw [nodeWeight]
  by_cases hv : g.vertexWeights.rep v = some v
  · obtain ⟨w, hw⟩ := ha.wf.exists_value hv
    simp [hv, hw]
  · simp [hv]

/-- A graph that agrees with what is alike what was added answers both queries for the
quotient. -/
theorem walksQuotient [Add VW] [LinearOrder VW] [AddRightMono VW] (halike : Alike h h')
    (order : HashOrder V) : WalksQuotient order vwMerge g h := by
  have hrep := repOf_eq ha.wf
  have hsame : SameGraph g g := ⟨.refl ha.wf, .refl ha.wfOut, .refl ha.wfIn⟩
  have hedges : g.RowEdge = g.QuotientEdge h := by
    funext u v
    exact propext (ha.rowEdge_iff halike)
  have hknown : ∀ v, g.vertexWeights.rep v = some v ↔ v ∈ h.vertices ∧ g.repOf v = some v := by
    intro v
    rw [hrep, ← halike.vertices_eq, ha.known]
    exact ⟨fun hv => ⟨by rw [hv]; exact Option.some_ne_none v, hv⟩, fun hand => hand.2⟩
  have hquotient := ha.isQuotient
  constructor
  case representative => rw [← halike.vertices_eq]; exact hquotient.representative
  case classes =>
      intro u hu v hv
      rw [← halike.same]
      rw [← halike.vertices_eq] at hu hv
      exact hquotient.classes u hu v hv
  case sort =>
      obtain ⟨result, g', hrun, -, hsorts⟩ := topologicalSort_sorts ha.mirrored hsame order
      refine ⟨result, g', hrun, ?_⟩
      cases result with
      | none =>
        rw [Sorts, hedges] at hsorts
        exact hsorts
      | some result =>
        rw [Sorts, hedges] at hsorts
        obtain ⟨hacyclic, hnodup, hmem, hsorted⟩ := hsorts
        exact ⟨hacyclic, hnodup, fun v => (hmem v).trans (hknown v), hsorted⟩
  case paths =>
      obtain ⟨result, g', hrun, hpaths⟩ := longestNodePaths_spec ha.mirrored hsame order
      refine ⟨result, g', hrun, ?_⟩
      cases result with
      | none =>
        rw [LongestPaths, hedges] at hpaths
        exact hpaths
      | some paths =>
        obtain ⟨hacyclic, hlongest⟩ := hpaths
        have hexists : ∀ s t, (∃ x, PathWeight g.RowEdge g.nodeWeight s t x) ↔
            g.nodeWeight s ≠ none ∧ Relation.ReflTransGen g.RowEdge s t := fun s t =>
          exists_pathWeight_iff fun u v hedge =>
            ha.nodeWeight_ne_none_iff.mpr (ha.mirrored.target u v hedge)
        rw [hedges] at hacyclic
        refine ⟨hacyclic, fun s t => ⟨?_, fun x hx => ?_⟩⟩
        · have hst := hlongest s t
          rw [← hknown, ← ha.nodeWeight_ne_none_iff, ← hedges, ← hexists]
          cases hentry : (paths s).bind fun targets => targets t with
          | none =>
            rw [hentry] at hst
            simp only [Option.isSome_none, Bool.false_eq_true, false_iff, not_exists]
            intro x hx
            have hmem : x ∈ g.pathWeights s t := hx
            rw [hst] at hmem
            exact hmem
          | some x =>
            rw [hentry] at hst
            exact iff_of_true rfl ⟨x, hst.1⟩
        · have hst := hlongest s t
          rw [hx, Longest, pathWeights, hedges, ha.nodeWeight_eq halike] at hst
          exact hst

end Agrees

end Quotient

/-! ## Runs -/

/-- The calls after which both queries are right: as for the weights of the edges, but an edge
may be added again. -/
def Admits (g : GraphContraction V VW EW) : Operation V VW EW → Prop
  | .addVertex vertex weight => g.Meets (.addVertex vertex weight)
  | .addEdge source target _ => g.contains source = true → g.contains target = true →
    g.repOf source = some source ∧ g.repOf target = some target
  | .identifyVertices x y => g.Meets (.identifyVertices x y)

/-- Every call of a run is one that the graph admits. -/
def AllAdmit (order : HashOrder V) (vwMerge : VW → VW → VW) (ewMerge : EW → EW → EW)
    (g : GraphContraction V VW EW) : List (Operation V VW EW) → Prop
  | [] => True
  | op :: rest => g.Admits op ∧
      ∀ g', step order vwMerge ewMerge g op = .ok g' → AllAdmit order vwMerge ewMerge g' rest

section Runs

variable {vwMerge : VW → VW → VW} {ewMerge : EW → EW → EW} {g g' : GraphContraction V VW EW}
  {h h' : Added V VW EW} {ops : List (Operation V VW EW)}

theorem AllAdmit.take (order : HashOrder V) (hops : AllAdmit order vwMerge ewMerge g ops)
    (n : Nat) : AllAdmit order vwMerge ewMerge g (ops.take n) := by
  induction ops generalizing g n with
  | nil =>
    rw [take_nil]
    exact trivial
  | cons op ops ih =>
    cases n with
    | zero => exact trivial
    | succ n => exact ⟨hops.1, fun g' hstep => ih (hops.2 g' hstep) n⟩

/-- The same call keeps what was added alike. -/
theorem Alike.record (halike : Alike h h') (op : Operation V VW EW) :
    Alike (h.record op) (h'.record op) := by
  have hsame : ∀ {pairs : List (V × V)} {u v : V}, (∀ p ∈ h.identified, p ∈ pairs) → h.Same u v →
      Relation.EqvGen (fun u v => (u, v) ∈ pairs) u v := fun hsub huv =>
    Relation.EqvGen.mono (fun u v huv => hsub (u, v) huv) _ _ huv
  cases op with
  | addVertex v w =>
    refine ⟨?_, halike.identified_eq, halike.edge, halike.edge'⟩
    rw [Added.record, Added.record, halike.vertices_eq]
  | addEdge s t w =>
    rw [Added.record, Added.record, halike.vertices_eq]
    by_cases hknown : s ∈ h.vertices ∧ t ∈ h.vertices
    · rw [if_pos hknown, if_pos hknown]
      refine ⟨rfl, halike.identified_eq, ?_, ?_⟩
      · intro e he
        rcases (AList.mem_insert _).mp he with rfl | he
        · exact ⟨(s, t), (AList.mem_insert _).mpr (.inl rfl), .refl _, .refl _⟩
        · obtain ⟨e', he', hsame⟩ := halike.edge e he
          exact ⟨e', (AList.mem_insert _).mpr (.inr he'), hsame⟩
      · intro e' he'
        rcases (AList.mem_insert _).mp he' with rfl | he'
        · exact ⟨(s, t), (AList.mem_insert _).mpr (.inl rfl), .refl _, .refl _⟩
        · obtain ⟨e, he, hsame⟩ := halike.edge' e' he'
          exact ⟨e, (AList.mem_insert _).mpr (.inr he), hsame⟩
    · rw [if_neg hknown, if_neg hknown]
      exact halike
  | identifyVertices x y =>
    rw [Added.record, Added.record, halike.vertices_eq]
    by_cases hknown : x ∈ h.vertices ∧ y ∈ h.vertices
    · have hsub : ∀ p ∈ h.identified, p ∈ (x, y) :: h.identified := fun p hp => by simp [hp]
      rw [if_pos hknown, if_pos hknown]
      refine ⟨rfl, by simp only [halike.identified_eq], ?_, ?_⟩
      · intro e he
        obtain ⟨e', he', hfst, hsnd⟩ := halike.edge e he
        exact ⟨e', he', hsame hsub hfst, hsame hsub hsnd⟩
      · intro e' he'
        obtain ⟨e, he, hfst, hsnd⟩ := halike.edge' e' he'
        exact ⟨e, he, hsame hsub hfst, hsame hsub hsnd⟩
    · rw [if_neg hknown, if_neg hknown]
      exact halike

/-- A row that has a key keeps its weights when the key is added again. -/
theorem rows_addEdge_again {α : Type} {entries : List (Sigma fun _ : α => EW)} {src dst : α → V}
    {m m' : UnionFindMap V (EdgeMap V EW)} {s t : V} {old : EdgeMap V EW} {w : EW}
    (hrows : Rows ewMerge entries src dst m) (hs : m.rep s = some s)
    (hsome : between ewMerge entries m.rep src dst s t ≠ none) (hold : m.value s = some old)
    (hassigned : UnionFindMap.Assigned m m' s (old ∪ AList.singleton t w)) :
    Rows ewMerge entries src dst m' := by
  have hrep : m'.rep = m.rep := funext hassigned.rep_eq
  intro s' hs'
  rw [hrep] at hs' ⊢
  obtain ⟨edges, hedges, hrow⟩ := hrows s' hs'
  by_cases hss : s' = s
  · subst hss
    rw [hold] at hedges
    obtain rfl := Option.some.inj hedges
    refine ⟨old ∪ AList.singleton t w, by rw [hassigned.value_eq, if_pos hs], fun t' => ?_⟩
    rw [← hrow]
    refine lookup_union_singleton (or_iff_not_imp_left.mpr fun hmem heq => ?_)
    rw [heq, ← AList.lookup_eq_none, hrow] at hmem
    exact hsome hmem
  · refine ⟨edges, ?_, hrow⟩
    rw [hassigned.value_eq, hs', if_neg fun heq => hss (Option.some.inj heq), hedges]

/-- Adding an edge again changes nothing that the graph shows. -/
theorem addEdge_again (ha : Agrees vwMerge ewMerge g h') {s t : V}
    (hs : g.vertexWeights.rep s = some s) (ht : g.vertexWeights.rep t = some t)
    (hsome : edgeBetween ewMerge g h' s t ≠ none) (w : EW) :
    ∃ g', g.addEdge s t w = .ok (true, g') ∧ Agrees vwMerge ewMerge g' h' := by
  obtain ⟨out, into, oldOut, oldIn, hrun, holdOut, hout, holdIn, hinto⟩ :=
    addEdge_assigned ha hs ht w
  refine ⟨_, hrun, ha.assigned hout hinto ha.ends ?_ ?_⟩
  · refine rows_addEdge_again ha.out ((ha.repOut s).trans hs) ?_ holdOut hout
    rw [ha.repOut_eq]
    exact hsome
  · refine rows_addEdge_again ha.into ((ha.repIn t).trans ht) ?_ holdIn hinto
    rw [ha.repIn_eq, between_swap]
    exact hsome

variable [Std.Commutative vwMerge] [Std.Associative vwMerge] [Std.Commutative ewMerge]
  [Std.Associative ewMerge]

/-- A call that the graph admits keeps the agreement with what is alike what was added. -/
theorem step_alike (order : HashOrder V) (ha : Agrees vwMerge ewMerge g h') (halike : Alike h h')
    {op : Operation V VW EW} (hop : g.Admits op) :
    ∃ g' h'', step order vwMerge ewMerge g op = .ok g' ∧ Agrees vwMerge ewMerge g' h'' ∧
      Alike (h.record op) h'' := by
  have hmeets : g.Meets op → ∃ g' h'', step order vwMerge ewMerge g op = .ok g' ∧
      Agrees vwMerge ewMerge g' h'' ∧ Alike (h.record op) h'' := by
    intro hmeets
    obtain ⟨g', hstep, ha'⟩ := step_agrees order ha hmeets
    exact ⟨g', h'.record op, hstep, ha', halike.record op⟩
  cases op with
  | addEdge s t w =>
    by_cases hfresh : g.contains s = true ∧ g.contains t = true ∧ t ∈ g.outOf s
    · -- the edge is there: what was added before accounts for it
      obtain ⟨hcontainsS, hcontainsT, hedge⟩ := hfresh
      obtain ⟨hs, ht⟩ := hop hcontainsS hcontainsT
      rw [repOf_eq ha.wf] at hs ht
      have hsome : edgeBetween ewMerge g h' s t ≠ none := by
        rw [← ha.lookup_outOf hs, ← Option.isSome_iff_ne_none, AList.lookup_isSome]
        exact hedge
      obtain ⟨g', hadd, ha'⟩ := addEdge_again ha hs ht hsome w
      refine ⟨g', h', by rw [step, hadd]; rfl, ha', ?_⟩
      have hknown : s ∈ h.vertices ∧ t ∈ h.vertices := by
        rw [← halike.vertices_eq, ← ha.contains_iff, ← ha.contains_iff]
        exact ⟨hcontainsS, hcontainsT⟩
      rw [Added.record, if_pos hknown]
      refine ⟨halike.vertices_eq, halike.identified_eq, ?_, ?_⟩
      · intro e he
        rcases (AList.mem_insert _).mp he with rfl | he
        · rw [Ne, between_eq_none] at hsome
          push Not at hsome
          obtain ⟨e', he', hfst, hsnd⟩ := hsome
          exact ⟨e'.1, mem_keys_of_mem_entries he',
            .symm _ _ (halike.same.mp (ha.complete _ _ hfst)),
            .symm _ _ (halike.same.mp (ha.complete _ _ hsnd))⟩
        · exact halike.edge e he
      · intro e' he'
        obtain ⟨e, he, hsame⟩ := halike.edge' e' he'
        exact ⟨e, (AList.mem_insert _).mpr (.inr he), hsame⟩
    · refine hmeets fun hcontainsS hcontainsT => ?_
      obtain ⟨hs, ht⟩ := hop hcontainsS hcontainsT
      exact ⟨hs, ht, fun hedge => hfresh ⟨hcontainsS, hcontainsT, hedge⟩⟩
  | _ => exact hmeets hop

theorem run_alike (order : HashOrder V) (ha : Agrees vwMerge ewMerge g h') (halike : Alike h h')
    (hops : AllAdmit order vwMerge ewMerge g ops) :
    ∃ g' h'', run order vwMerge ewMerge g ops = .ok g' ∧ Agrees vwMerge ewMerge g' h'' ∧
      Alike (h.records ops) h'' := by
  induction ops generalizing g h h' with
  | nil => exact ⟨g, h', rfl, ha, halike⟩
  | cons op ops ih =>
    obtain ⟨g₁, h₁, hstep, ha₁, halike₁⟩ := step_alike order ha halike hops.1
    obtain ⟨g', h'', hrun, ha', halike'⟩ := ih ha₁ halike₁ (hops.2 g₁ hstep)
    refine ⟨g', h'', ?_, ha', halike'⟩
    rw [run, hstep]
    exact hrun

/-- In a run whose calls the graph admits, no call fails and in every graph that is reached both
queries are right about the quotient of what was added. -/
theorem walksQuotient_of_allAdmit [Add VW] [LinearOrder VW] [AddRightMono VW]
    (order order' : HashOrder V) (ops : List (Operation V VW EW))
    (hops : AllAdmit order vwMerge ewMerge empty ops) (n : Nat) :
    ∃ g, run order vwMerge ewMerge empty (ops.take n) = .ok g ∧
      WalksQuotient order' vwMerge g (Added.nothing.records (ops.take n)) := by
  obtain ⟨g, h'', hrun, ha, halike⟩ := run_alike order agrees_empty (Alike.refl _)
    (AllAdmit.take order hops n)
  exact ⟨g, hrun, ha.walksQuotient halike order'⟩

end Runs

/-! ### Runs on natural numbers -/

theorem allAdmit_cons {order : HashOrder V} {vwMerge : VW → VW → VW} {ewMerge : EW → EW → EW}
    {g g' : GraphContraction V VW EW} {op : Operation V VW EW} {ops : List (Operation V VW EW)}
    (hop : g.Admits op) (hstep : step order vwMerge ewMerge g op = .ok g')
    (hops : AllAdmit order vwMerge ewMerge g' ops) :
    AllAdmit order vwMerge ewMerge g (op :: ops) := by
  refine ⟨hop, fun g'' hstep' => ?_⟩
  rw [hstep] at hstep'
  rw [← Except.ok.inj hstep']
  exact hops

theorem walksQuotient_of_allAdmit_doubled_edge :
    ∃ g, run insertionOrder (· + ·) (· + ·) empty (List.take 4 [.addVertex 0 10, .addVertex 1 20,
        .addEdge 0 1 5, .addEdge 0 1 6]) = .ok g ∧
      WalksQuotient insertionOrder (· + ·) g (Added.nothing.records (List.take 4
        [.addVertex 0 10, .addVertex 1 20, .addEdge 0 1 5, .addEdge 0 1 6])) := by
  refine walksQuotient_of_allAdmit insertionOrder insertionOrder _ ?_ 4
  refine allAdmit_cons (fun hcontains => absurd hcontains (by decide)) rfl ?_
  refine allAdmit_cons (fun hcontains => absurd hcontains (by decide)) rfl ?_
  refine allAdmit_cons (fun _ _ => ⟨rfl, rfl⟩) rfl ?_
  exact allAdmit_cons (fun _ _ => ⟨rfl, rfl⟩) rfl trivial

/-- An edge to a vertex that is not the representative of its class has no counter. -/
theorem not_walksQuotient_edge_to_absorbed :
    ¬∃ g, run insertionOrder (· + ·) (· + ·) empty [.addVertex 0 10, .addVertex 1 20,
        .addVertex 2 30, .identifyVertices 0 1, .addEdge 2 1 1] = .ok g ∧
      WalksQuotient insertionOrder (· + ·) g (Added.nothing.records [.addVertex 0 10,
        .addVertex 1 20, .addVertex 2 30, .identifyVertices 0 1, .addEdge 2 1 1]) := by
  intro hex
  obtain ⟨g, hrun, hwalks⟩ := hex
  obtain rfl := Except.ok.inj hrun
  obtain ⟨result, g', hsort, -⟩ := hwalks.sort
  cases hsort

end Xls.GraphContraction

import Xls.GraphContraction.Contract

/-!
# Xls.GraphContraction.Agrees

The invariant of the runs: the three maps have the same classes, which are those of the
identified vertices, and each holds the merged weights. A graph that satisfies it is the
quotient of what was added (`isQuotient`).
-/

namespace Xls.GraphContraction

open UnionFindMap Prod Option
open UnionFindMap (SameView Assigned Inserted United survivor)

variable {V VW EW : Type} [DecidableEq V] {vwMerge : VW → VW → VW} {ewMerge : EW → EW → EW}

/-- The three maps agree with each other and with what was added. -/
structure Agrees (vwMerge : VW → VW → VW) (ewMerge : EW → EW → EW)
    (g : GraphContraction V VW EW) (h : Added V VW EW) : Prop where
  wf : g.vertexWeights.WellFormed
  wfOut : g.outEdges.WellFormed
  wfIn : g.inEdges.WellFormed
  repOut : ∀ k, g.outEdges.rep k = g.vertexWeights.rep k
  repIn : ∀ k, g.inEdges.rep k = g.vertexWeights.rep k
  sizeOut : ∀ k, g.outEdges.size k = g.vertexWeights.size k
  sizeIn : ∀ k, g.inEdges.size k = g.vertexWeights.size k
  known : ∀ v, v ∈ h.vertices ↔ g.vertexWeights.rep v ≠ none
  sound : ∀ p ∈ h.identified, ∃ r,
    g.vertexWeights.rep p.1 = some r ∧ g.vertexWeights.rep p.2 = some r
  complete : ∀ u r, g.vertexWeights.rep u = some r → h.Same u r
  weight : ∀ v r, g.vertexWeights.rep v = some r → g.vertexWeights.value v =
    weigh vwMerge h.vertices.entries fun u => g.vertexWeights.rep u = some r
  ends : ∀ e ∈ h.edges.entries,
    g.vertexWeights.rep e.1.1 ≠ none ∧ g.vertexWeights.rep e.1.2 ≠ none
  out : Rows ewMerge h.edges.entries fst snd g.outEdges
  into : Rows ewMerge h.edges.entries snd fst g.inEdges

variable {g g' : GraphContraction V VW EW} {h : Added V VW EW}

/-- The empty graph agrees with nothing having been added. -/
theorem agrees_empty : Agrees vwMerge ewMerge (empty : GraphContraction V VW EW) Added.nothing where
  wf := wellFormed_empty
  wfOut := wellFormed_empty
  wfIn := wellFormed_empty
  repOut _ := rfl
  repIn _ := rfl
  sizeOut _ := rfl
  sizeIn _ := rfl
  known v := ⟨fun hv => absurd hv (AList.notMem_empty v), fun hv => absurd rfl hv⟩
  sound _ hp := nomatch hp
  complete _ _ hr := nomatch hr
  weight _ _ hr := nomatch hr
  ends _ he := nomatch he
  out _ hs := nomatch hs
  into _ hs := nomatch hs

/-! ### Queries -/

theorem repOf_eq (hwf : g.vertexWeights.WellFormed) (v : V) :
    g.repOf v = g.vertexWeights.rep v := by
  obtain ⟨m', hfind, -⟩ := find_spec hwf v
  rw [repOf, representativeOf, hfind]
  cases hr : g.vertexWeights.rep v with
  | none => rfl
  | some r =>
    obtain ⟨w, hw⟩ := hwf.exists_value hr
    rw [hw]
    rfl

theorem edgesOutOf_eq (hwf : g.outEdges.WellFormed) {v r : V} (hr : g.outEdges.rep v = some r) :
    ∃ edges g', g.edgesOutOf v = .ok (edges, g') ∧ g.outEdges.value v = some edges := by
  obtain ⟨m', hfind, -⟩ := find_spec hwf v
  obtain ⟨edges, hedges⟩ := hwf.exists_value hr
  refine ⟨edges, { g with outEdges := m' }, ?_, hedges⟩
  rw [edgesOutOf, hfind, hr, hedges]
  rfl

theorem edgesInto_eq (hwf : g.inEdges.WellFormed) {v r : V} (hr : g.inEdges.rep v = some r) :
    ∃ edges g', g.edgesInto v = .ok (edges, g') ∧ g.inEdges.value v = some edges := by
  obtain ⟨m', hfind, -⟩ := find_spec hwf v
  obtain ⟨edges, hedges⟩ := hwf.exists_value hr
  refine ⟨edges, { g with inEdges := m' }, ?_, hedges⟩
  rw [edgesInto, hfind, hr, hedges]
  rfl

/-- The merged edge weights between two classes. -/
abbrev edgeBetween (ewMerge : EW → EW → EW) (g : GraphContraction V VW EW) (h : Added V VW EW)
    (s t : V) : Option EW :=
  between ewMerge h.edges.entries g.vertexWeights.rep fst snd s t

theorem between_swap {entries : List (Sigma fun _ : V × V => EW)} {rep : V → Option V} (s t : V) :
    between ewMerge entries rep snd fst t s = between ewMerge entries rep fst snd s t :=
  weigh_congr fun _ _ => and_comm

namespace Agrees

theorem contains_iff (ha : Agrees vwMerge ewMerge g h) (v : V) :
    g.contains v = true ↔ v ∈ h.vertices := by
  rw [contains, ha.wf.contains_iff, ha.known, isSome_iff_ne_none]

theorem repOut_eq (ha : Agrees vwMerge ewMerge g h) : g.outEdges.rep = g.vertexWeights.rep :=
  funext ha.repOut

theorem repIn_eq (ha : Agrees vwMerge ewMerge g h) : g.inEdges.rep = g.vertexWeights.rep :=
  funext ha.repIn

variable {v : V} {r : V}

section

variable (ha : Agrees vwMerge ewMerge g h)
include ha

section

variable (hr : g.vertexWeights.rep v = some r)
include hr

theorem edgesOutOf :
    ∃ edges g', g.edgesOutOf v = .ok (edges, g') ∧ g.outEdges.value v = some edges ∧
      ∀ t, edges.lookup t = edgeBetween ewMerge g h r t := by
  have hr' := (ha.repOut v).trans hr
  obtain ⟨edges, g', heq, hvalue⟩ := edgesOutOf_eq ha.wfOut hr'
  obtain ⟨edges', hvalue', hrow⟩ := ha.out r (ha.wfOut.rep_rep hr')
  rw [ha.wfOut.value_rep hr', hvalue] at hvalue'
  obtain rfl := some.inj hvalue'
  refine ⟨edges, g', heq, hvalue, fun t => ?_⟩
  rw [hrow, ha.repOut_eq]

theorem edgesInto :
    ∃ edges g', g.edgesInto v = .ok (edges, g') ∧ g.inEdges.value v = some edges ∧
      ∀ s, edges.lookup s = edgeBetween ewMerge g h s r := by
  have hr' := (ha.repIn v).trans hr
  obtain ⟨edges, g', heq, hvalue⟩ := edgesInto_eq ha.wfIn hr'
  obtain ⟨edges', hvalue', hrow⟩ := ha.into r (ha.wfIn.rep_rep hr')
  rw [ha.wfIn.value_rep hr', hvalue] at hvalue'
  obtain rfl := some.inj hvalue'
  refine ⟨edges, g', heq, hvalue, fun s => ?_⟩
  rw [hrow, ha.repIn_eq]
  exact between_swap s r

theorem lookup_outOf (t : V) : (g.outOf v).lookup t = edgeBetween ewMerge g h r t := by
  obtain ⟨edges, g', heq, -, hrow⟩ := ha.edgesOutOf hr
  rw [outOf, heq]
  exact hrow t

theorem lookup_intoOf (s : V) : (g.intoOf v).lookup s = edgeBetween ewMerge g h s r := by
  obtain ⟨edges, g', heq, -, hrow⟩ := ha.edgesInto hr
  rw [intoOf, heq]
  exact hrow s

end

/-- Edges end at representatives. -/
theorem rep_of_edge {s t : V} (hedge : edgeBetween ewMerge g h s t ≠ none) :
    g.vertexWeights.rep s = some s ∧ g.vertexWeights.rep t = some t := by
  rw [Ne, between_eq_none] at hedge
  push Not at hedge
  obtain ⟨e, -, hs, ht⟩ := hedge
  exact ⟨ha.wf.rep_rep hs, ha.wf.rep_rep ht⟩

/-- Vertices that are not known have no edges. -/
theorem outOf_unknown (hv : g.vertexWeights.rep v = none) : g.outOf v = ∅ ∧ g.intoOf v = ∅ := by
  obtain ⟨m', hfind, -⟩ := find_spec ha.wfOut v
  obtain ⟨m'', hfind', -⟩ := find_spec ha.wfIn v
  rw [ha.repOut, hv] at hfind
  rw [ha.repIn, hv] at hfind'
  constructor
  · rw [outOf, GraphContraction.edgesOutOf, hfind]
    rfl
  · rw [intoOf, GraphContraction.edgesInto, hfind']
    rfl

theorem rep_eq_of_same {u : V} (huv : h.Same u v) :
    g.vertexWeights.rep u = g.vertexWeights.rep v := by
  induction huv with
  | rel u v huv =>
    obtain ⟨r, hu, hv⟩ := ha.sound _ huv
    exact hu.trans hv.symm
  | refl => rfl
  | symm u v _ ih => exact ih.symm
  | trans u v w _ _ ih ih' => exact ih.trans ih'

/-- A graph that agrees with what was added is its quotient. -/
theorem isQuotient : IsQuotient vwMerge ewMerge g h := by
  have hrep : ∀ v, g.repOf v = g.vertexWeights.rep v := repOf_eq ha.wf
  have hknown : ∀ v ∈ h.vertices, ∃ r, g.vertexWeights.rep v = some r := fun v hv =>
    ne_none_iff_exists'.mp ((ha.known v).mp hv)
  constructor
  case representative =>
      intro v hv
      obtain ⟨r, hr⟩ := hknown v hv
      have hrr := ha.wf.rep_rep hr
      refine ⟨r, (ha.known r).mpr (by rw [hrr]; exact some_ne_none r), ?_, ?_⟩
      · rw [hrep, hr]
      · rw [hrep, hrr]
  case classes =>
      intro u hu v hv
      rw [hrep, hrep]
      constructor
      · intro huv
        obtain ⟨r, hr⟩ := hknown u hu
        exact .trans _ _ _ (ha.complete u r hr) (.symm _ _ (ha.complete v r (huv ▸ hr)))
      · exact ha.rep_eq_of_same
  case weightOf =>
      intro v hv
      obtain ⟨r, hr⟩ := hknown v hv
      obtain ⟨m', hfind, -⟩ := find_spec ha.wf v
      obtain ⟨w, hw⟩ := ha.wf.exists_value hr
      refine ⟨{ g with vertexWeights := m' }, ?_⟩
      have hweigh : weigh vwMerge h.vertices.entries (fun u => g.repOf u = g.repOf v) = some w := by
        rw [← hw, ha.weight v r hr]
        exact weigh_congr fun e _ => by rw [hrep, hrep, hr]
      rw [hweigh, GraphContraction.weightOf, hfind, hr, hw]
      rfl
  case edgesOutOf =>
      intro v hv
      obtain ⟨r, hr⟩ := hknown v hv
      obtain ⟨edges, g', heq, -, hrow⟩ := ha.edgesOutOf hr
      refine ⟨edges, g', heq, fun t => (hrow t).trans ?_⟩
      exact weigh_congr fun e _ => by rw [hrep, hrep, hrep, hr]
  case edgesInto =>
      intro v hv
      obtain ⟨r, hr⟩ := hknown v hv
      obtain ⟨edges, g', heq, -, hrow⟩ := ha.edgesInto hr
      refine ⟨edges, g', heq, fun s => (hrow s).trans ?_⟩
      exact weigh_congr fun e _ => by rw [hrep, hrep, hrep, hr]
  case mirror =>
      intro s t hs ht
      rw [hrep] at hs ht
      rw [ha.lookup_outOf hs, ha.lookup_intoOf ht]
  case endpoints =>
      intro v
      cases hv : g.vertexWeights.rep v with
      | none =>
        obtain ⟨hout, hinto⟩ := ha.outOf_unknown hv
        rw [hout, hinto]
        exact ⟨fun t ht => absurd ht (AList.notMem_empty t),
          fun s hs => absurd hs (AList.notMem_empty s)⟩
      | some r =>
        constructor
        · intro t ht
          rw [← AList.lookup_isSome, ha.lookup_outOf hv, isSome_iff_ne_none] at ht
          rw [hrep]
          exact (ha.rep_of_edge ht).2
        · intro s hs
          rw [← AList.lookup_isSome, ha.lookup_intoOf hv, isSome_iff_ne_none] at hs
          rw [hrep]
          exact (ha.rep_of_edge hs).1

end

end Agrees

end Xls.GraphContraction

import Mathlib.Order.Interval.Finset.Nat
import Xls.Status

/-!
# Xls.PathCut

Cutting a path graph into pieces of bounded node weight (`data_structures/path_cut.h`). The
dynamic program keeps, for every node, the best cut of the path up to that node that also
cuts the edge after it; the last node has no such edge, so its entry is the answer
(`computePathCut_optimal`).
-/

namespace Xls

open Result List

namespace PathCut

/-- The function table of a type with sums and, where they exist, differences. -/
structure PartialDifferenceMonoid (T : Type) where
  zero : T
  sum : T → T → Option T
  difference : T → T → Option T

/-- The function table of a total order. -/
structure TotalOrder (T : Type) where
  equals : T → T → Bool
  lessThan : T → T → Bool

def TotalOrder.lessThanOrEq {T : Type} (order : TotalOrder T) (x y : T) : Bool :=
  order.lessThan x y || order.equals x y

/-- The natural numbers: the difference of two of them is not always a natural number. -/
def naturalPdm : PartialDifferenceMonoid Nat where
  zero := 0
  sum x y := some (x + y)
  difference x y := if y ≤ x then some (x - y) else none

def naturalOrder : TotalOrder Nat where
  equals x y := decide (x = y)
  lessThan x y := decide (x < y)

end PathCut

open PathCut in
/-- A nonempty path graph with weights on the nodes and the edges; edge `e` joins node `e` and
node `e + 1`. -/
structure PathGraph (NW EW : Type) where
  nodeWeights : List NW
  edgeWeights : List EW
  nodeWeightPdm : PartialDifferenceMonoid NW
  edgeWeightPdm : PartialDifferenceMonoid EW
  nodeWeightOrder : TotalOrder NW
  edgeWeightOrder : TotalOrder EW
  sizes : edgeWeights.length + 1 = nodeWeights.length

/-- The pieces of a path, each the list of its nodes. -/
abbrev PathCut := List (List Nat)

namespace PathCut

/-- `PathGraph::Create`. -/
def create {NW EW : Type} (nodeWeights : List NW) (edgeWeights : List EW)
    (nodeWeightPdm : PartialDifferenceMonoid NW) (edgeWeightPdm : PartialDifferenceMonoid EW)
    (nodeWeightOrder : TotalOrder NW) (edgeWeightOrder : TotalOrder EW) :
    Result (PathGraph NW EW) :=
  if sizes : edgeWeights.length + 1 = nodeWeights.length then
    .ok ⟨nodeWeights, edgeWeights, nodeWeightPdm, edgeWeightPdm, nodeWeightOrder,
      edgeWeightOrder, sizes⟩
  else .error (.status (s!"Size of node weights ({nodeWeights.length}) must be 1 greater than " ++
    s!"size of edge weights ({edgeWeights.length})."))

/-- An entry of the cache: the cost of the cut edges, and these edges. -/
structure CacheItem (EW : Type) where
  cost : EW
  cutEdges : List Nat

/-- The node before the last cut edge; none where no edge is cut. -/
abbrev CacheKey := Option Nat

variable {NW EW : Type}

def numNodes (g : PathGraph NW EW) : Nat := g.nodeWeights.length

def weightOfNode (g : PathGraph NW EW) (node : Nat) : Result NW :=
  derefOption g.nodeWeights[node]?

def weightOfEdge (g : PathGraph NW EW) (edge : Nat) : Result EW :=
  derefOption g.edgeWeights[edge]?

/-- `EdgeSource`. -/
def edgeSource (g : PathGraph NW EW) (edge : Nat) : Result Nat := do
  checkThat (decide (edge < g.edgeWeights.length))
  return edge

/-- `NodeSuccessorEdge`. -/
def nodeSuccessorEdge (g : PathGraph NW EW) (node : Nat) : Result (Option Nat) := do
  checkThat (decide (node < g.nodeWeights.length))
  return if node = g.nodeWeights.length - 1 then none else some node

/-- The sums for the nodes up to `n`. -/
def prefixSumsUpTo (g : PathGraph NW EW) : Nat → Result (List NW)
  | 0 => do return [← weightOfNode g 0]
  | n + 1 => do
    let result ← prefixSumsUpTo g n
    let sum ← derefOption (g.nodeWeightPdm.sum (← derefOption result[n]?)
      (← weightOfNode g (n + 1)))
    return result ++ [sum]

/-- `ComputePrefixSums`. -/
def computePrefixSums (g : PathGraph NW EW) : Result (List NW) :=
  prefixSumsUpTo g (numNodes g - 1)

/-- The weight of the piece that ends at `k` and begins after the cut edge `t`. -/
def prefixSumDiff (g : PathGraph NW EW) (prefixSums : List NW) (k : Nat) :
    CacheKey → Result NW
  | none => derefOption prefixSums[k]?
  | some t => do
    derefOption (g.nodeWeightPdm.difference (← derefOption prefixSums[k]?)
      (← derefOption prefixSums[t]?))

/-- `loop_body`. -/
def loopBody (g : PathGraph NW EW) (prefixSums : List NW) (maximumWeight : NW)
    (cache : CacheKey → CacheItem EW) (k : Nat) (best : Option (CacheItem EW)) (t : CacheKey) :
    Result (Option (CacheItem EW)) := do
  let diff ← prefixSumDiff g prefixSums k t
  let cheaper : Bool :=
    match best with
    | none => true
    | some best => g.edgeWeightOrder.lessThan (cache t).cost best.cost
  return if g.nodeWeightOrder.lessThanOrEq diff maximumWeight && cheaper then some (cache t)
    else best

/-- The inner loop: no cut edge before `k`, then a cut edge after each earlier node. -/
def findBest (g : PathGraph NW EW) (prefixSums : List NW) (maximumWeight : NW)
    (cache : CacheKey → CacheItem EW) (k : Nat) : Result (Option (CacheItem EW)) :=
  (none :: (range k).map some).foldlM
    (loopBody g prefixSums maximumWeight cache k) none

variable [Add EW]

/-- Cuts the edge after `k`, if there is one. -/
def cutAfter (g : PathGraph NW EW) (k : Nat) (best : CacheItem EW) : Result (CacheItem EW) := do
  match ← nodeSuccessorEdge g k with
  | none => return best
  | some e => return ⟨best.cost + (← weightOfEdge g e), best.cutEdges ++ [e]⟩

/-- The cache after the iterations of the outer loop for the nodes before `k`, unless one of them
returns. An entry is read only once it is written. -/
def fillCache (g : PathGraph NW EW) (prefixSums : List NW) (maximumWeight : NW) :
    Nat → Result (Option (CacheKey → CacheItem EW))
  | 0 => .ok (some fun _ => ⟨g.edgeWeightPdm.zero, []⟩)
  | k + 1 => do
    match ← fillCache g prefixSums maximumWeight k with
    | none => return none
    | some cache =>
      match ← findBest g prefixSums maximumWeight cache k with
      | none => return none
      | some best => return some (Function.update cache (some k) (← cutAfter g k best))

/-- The state of `CutEdgesToPathCut`: the pieces so far, the open piece, and the number of cut
edges that were passed. -/
structure PieceState where
  result : PathCut
  piece : List Nat
  i : Nat

/-- An iteration of `CutEdgesToPathCut`. -/
def pieceStep (g : PathGraph NW EW) (cutEdges : List Nat) (s : PieceState) (n : Nat) :
    Result PieceState := do
  let piece := s.piece ++ [n]
  match cutEdges[s.i]? with
  | none => return { s with piece := piece }
  | some edge =>
    if n = (← edgeSource g edge) then return ⟨s.result ++ [piece], [], s.i + 1⟩
    else return { s with piece := piece }

/-- `CutEdgesToPathCut`. -/
def cutEdgesToPathCut (g : PathGraph NW EW) (cutEdges : List Nat) : Result PathCut := do
  let s ← (range (numNodes g)).foldlM (pieceStep g cutEdges) ⟨[], [], 0⟩
  return s.result ++ [s.piece]

/-- `ComputePathCut`. -/
def computePathCut (g : PathGraph NW EW) (maximumWeight : NW) : Result (Option PathCut) := do
  let prefixSums ← computePrefixSums g
  match ← fillCache g prefixSums maximumWeight (numNodes g) with
  | none => return none
  | some cache =>
    let optimal := cache (some (numNodes g - 1))
    return some (← cutEdgesToPathCut g (optimal.cutEdges.mergeSort (· ≤ ·)))

/-! ## Path cuts -/

section Cuts

variable (nodeWeights edgeWeights : List Nat) (m : Nat)

/-- The total node weight of a piece. -/
def pieceWeight (piece : List Nat) : Nat := (piece.map (nodeWeights.getD · 0)).sum

/-- The pieces partition the nodes, in increasing order, into nonempty contiguous parts of
bounded weight. -/
structure IsPathCut (cut : PathCut) : Prop where
  partition : cut.flatten = range nodeWeights.length
  nonempty : ∀ piece ∈ cut, piece ≠ []
  weight_le : ∀ piece ∈ cut, pieceWeight nodeWeights piece ≤ m

/-- The edges between nodes of different pieces. -/
def cutEdges (edgeCount : Nat) (cut : PathCut) : List Nat :=
  (range edgeCount).filter fun e => !cut.any fun piece => e ∈ piece && e + 1 ∈ piece

/-- The total weight of the given edges. -/
def edgesWeight (edges : List Nat) : Nat := (edges.map (edgeWeights.getD · 0)).sum

def cutWeight (cut : PathCut) : Nat :=
  edgesWeight edgeWeights (cutEdges edgeWeights.length cut)

@[simp] theorem edgesWeight_append (a b : List Nat) :
    edgesWeight edgeWeights (a ++ b) = edgesWeight edgeWeights a + edgesWeight edgeWeights b := by
  simp [edgesWeight]

@[simp] theorem pieceWeight_append (a b : List Nat) :
    pieceWeight nodeWeights (a ++ b) = pieceWeight nodeWeights a + pieceWeight nodeWeights b := by
  simp [pieceWeight]

/-- `Splits k cuts pieces`: cutting the edges `cuts` leaves the first `k` nodes in the pieces
`pieces`, each of bounded weight. -/
inductive Splits : Nat → List Nat → PathCut → Prop
  | whole {k : Nat} : 0 < k → pieceWeight nodeWeights (range k) ≤ m →
      Splits k [] [range k]
  | cut {t k : Nat} {cuts : List Nat} {pieces : PathCut} : Splits (t + 1) cuts pieces →
      t + 1 < k → pieceWeight nodeWeights (range' (t + 1) (k - (t + 1))) ≤ m →
      Splits k (cuts ++ [t]) (pieces ++ [range' (t + 1) (k - (t + 1))])

variable {nodeWeights edgeWeights m}

theorem range_append_range' {t k : Nat} (h : t ≤ k) : range t ++ range' t (k - t) = range k := by
  obtain ⟨d, rfl⟩ := Nat.exists_eq_add_of_le h
  simpa [range_eq_range'] using range'_append_1 (s := 0) (m := t) (n := d)

namespace Splits

variable {k : Nat} {cuts : List Nat} {pieces : PathCut}

section

variable (h : Splits nodeWeights m k cuts pieces)
include h

theorem pos : 0 < k := by
  cases h with
  | whole hk _ => exact hk
  | cut _ hk _ => omega

theorem flatten_eq : pieces.flatten = range k := by
  induction h with
  | whole _ _ => simp
  | cut _ hk _ ih =>
    rw [flatten_append, ih]
    simpa using range_append_range' hk.le

/-- No piece of a cut is empty. -/
theorem nonempty : ∀ piece ∈ pieces, piece ≠ [] := by
  induction h with
  | whole hk _ =>
    intro piece hp
    obtain rfl := mem_singleton.mp hp
    simpa using hk.ne'
  | cut _ hk _ ih =>
    intro piece hp
    rcases mem_append.mp hp with hp | hp
    · exact ih piece hp
    · obtain rfl := mem_singleton.mp hp
      simp only [ne_eq, range'_eq_nil_iff]
      omega

/-- No piece of a cut exceeds the maximum. -/
theorem weight_le : ∀ piece ∈ pieces, pieceWeight nodeWeights piece ≤ m := by
  induction h with
  | whole _ hw =>
    intro piece hp
    obtain rfl := mem_singleton.mp hp
    exact hw
  | cut _ _ hw ih =>
    intro piece hp
    rcases mem_append.mp hp with hp | hp
    · exact ih piece hp
    · obtain rfl := mem_singleton.mp hp
      exact hw

end

/-- The node before the end is in the last piece. -/
theorem last_weight_le (h : Splits nodeWeights m (k + 1) cuts pieces) :
    nodeWeights.getD k 0 ≤ m := by
  have hmem : k ∈ pieces.flatten := by rw [h.flatten_eq]; simp
  obtain ⟨piece, hp, hk⟩ := mem_flatten.mp hmem
  calc nodeWeights.getD k 0 ≤ pieceWeight nodeWeights piece :=
        single_le_sum (by simp) _ (mem_map_of_mem hk)
    _ ≤ m := h.weight_le piece hp

section

variable (h : Splits nodeWeights m k cuts pieces)
include h

theorem lt_of_mem : ∀ e ∈ cuts, e + 1 < k := by
  induction h with
  | whole _ _ => simp
  | cut _ hk _ ih =>
    intro e he
    rcases mem_append.mp he with he | he
    · exact (ih e he).trans hk
    · obtain rfl := mem_singleton.mp he
      exact hk

theorem pairwise : cuts.Pairwise (· < ·) := by
  induction h with
  | whole _ _ => exact Pairwise.nil
  | cut h _ _ ih =>
    refine pairwise_append.mpr ⟨ih, pairwise_singleton _ _, ?_⟩
    intro e he t ht
    obtain rfl := mem_singleton.mp ht
    exact Nat.lt_of_succ_lt_succ (h.lt_of_mem e he)

/-- The cut edges are those whose two nodes are in no common piece. -/
theorem mem_cuts_iff {e : Nat} (he : e + 1 < k) :
    e ∈ cuts ↔ ∀ piece ∈ pieces, e ∈ piece → e + 1 ∉ piece := by
  induction h with
  | whole _ _ =>
    simp only [not_mem_nil, mem_singleton, forall_eq, mem_range, false_iff]
    exact fun hnot => hnot (by omega) he
  | @cut t k cuts pieces h hk _ ih =>
    have hlast : (e ∈ range' (t + 1) (k - (t + 1)) →
        e + 1 ∉ range' (t + 1) (k - (t + 1))) ↔ e < t + 1 := by
      simp only [mem_range'_1]
      omega
    simp only [mem_append, mem_singleton, or_imp, forall_and, forall_eq, hlast]
    rcases lt_trichotomy e t with hlt | rfl | hgt
    · rw [← ih (by omega)]
      constructor
      · intro hor
        rcases hor with hc | rfl
        · exact ⟨hc, by omega⟩
        · omega
      · exact fun hc => .inl hc.1
    · -- the node after the cut edge is in none of the earlier pieces
      refine iff_of_true (.inr rfl) ⟨fun piece hp _ hmem => ?_, by omega⟩
      have hflat := mem_flatten_of_mem hp hmem
      rw [h.flatten_eq] at hflat
      simp at hflat
    · refine iff_of_false ?_ (fun hand => by omega)
      intro hor
      rcases hor with hc | rfl
      · have := h.lt_of_mem e hc
        omega
      · omega

end

/-- The edges between the pieces are the cut. -/
theorem cutEdges_eq (h : Splits nodeWeights m (k + 1) cuts pieces) : cutEdges k pieces = cuts := by
  have hsorted : (cutEdges k pieces).Pairwise (· < ·) :=
    Pairwise.filter _ pairwise_lt_range
  refine Perm.eq_of_pairwise' hsorted h.pairwise
    ((perm_ext_iff_of_nodup (hsorted.imp Nat.ne_of_lt) (h.pairwise.imp Nat.ne_of_lt)).mpr ?_)
  intro e
  have hiff : e ∈ cutEdges k pieces ↔ e < k ∧ ∀ piece ∈ pieces, e ∈ piece → e + 1 ∉ piece := by
    simp [cutEdges]
  rw [hiff]
  constructor
  · intro hand
    exact (h.mem_cuts_iff (by omega)).mpr hand.2
  · intro hc
    have hlt := h.lt_of_mem e hc
    exact ⟨by omega, (h.mem_cuts_iff hlt).mp hc⟩

end Splits

/-- Every partition into bounded pieces comes from cutting edges. -/
theorem exists_splits {k : Nat} {pieces : PathCut} (hk : 0 < k)
    (hflat : pieces.flatten = range k) (hne : ∀ piece ∈ pieces, piece ≠ [])
    (hw : ∀ piece ∈ pieces, pieceWeight nodeWeights piece ≤ m) :
    ∃ cuts, Splits nodeWeights m k cuts pieces := by
  induction pieces using reverseRecOn generalizing k with
  | nil =>
    have := congrArg length hflat
    simp at this
    omega
  | append_singleton pieces last ih =>
    have hlastPos : 0 < last.length := length_pos_of_ne_nil (hne last (by simp))
    have hflat' : pieces.flatten ++ last = range k := by simpa using hflat
    have hlen : pieces.flatten.length + last.length = k := by simpa using congrArg length hflat'
    have hfront : pieces.flatten = range (k - last.length) := by
      have htake := congrArg (take pieces.flatten.length) hflat'
      rw [take_left, take_range] at htake
      rw [htake]
      congr 1
      omega
    have hback : last = range' (k - last.length) last.length := by
      have hsplit := hflat'.trans (range_append_range' (Nat.sub_le k last.length)).symm
      rw [hfront] at hsplit
      have := append_cancel_left hsplit
      rwa [Nat.sub_sub_self (by omega)] at this
    have hlast := hw last (by simp)
    rcases Nat.eq_zero_or_pos (k - last.length) with hzero | hpos
    · -- the last piece is the whole path
      have hnil : pieces = [] := by
        rw [hzero, range_zero, flatten_eq_nil_iff] at hfront
        exact eq_nil_iff_forall_not_mem.mpr fun piece hp =>
          hne piece (by simp [hp]) (hfront piece hp)
      have hrange : last = range k := by simpa [hnil] using hflat'
      subst hnil
      rw [hrange] at hlast ⊢
      exact ⟨[], .whole hk hlast⟩
    · obtain ⟨cuts, hcuts⟩ := ih hpos hfront (fun p hp => hne p (by simp [hp]))
        (fun p hp => hw p (by simp [hp]))
      obtain ⟨t, ht⟩ : ∃ t, k - last.length = t + 1 := ⟨k - last.length - 1, by omega⟩
      have hlen' : last.length = k - (t + 1) := by omega
      rw [ht] at hcuts hback
      rw [hlen'] at hback
      rw [hback] at hlast ⊢
      exact ⟨cuts ++ [t], hcuts.cut (by omega) hlast⟩

end Cuts

/-! ## The dynamic program -/

section Natural

/-- A path graph with natural numbers as weights. -/
structure Natural (g : PathGraph Nat Nat) : Prop where
  nodePdm : g.nodeWeightPdm = naturalPdm
  edgePdm : g.edgeWeightPdm = naturalPdm
  nodeOrder : g.nodeWeightOrder = naturalOrder
  edgeOrder : g.edgeWeightOrder = naturalOrder

variable {g : PathGraph Nat Nat} {m k : Nat}

/-- The piece that ends at `k` and begins after the cut edge `t`. -/
def segment (k : Nat) : CacheKey → List Nat
  | none => range (k + 1)
  | some t => range' (t + 1) (k + 1 - (t + 1))

/-- The prefix sums of the nodes up to `n`. -/
def sumsUpTo (nodeWeights : List Nat) (n : Nat) : List Nat :=
  (range (n + 1)).map fun k => pieceWeight nodeWeights (range (k + 1))

theorem pieceWeight_range_succ (nodeWeights : List Nat) (k : Nat) :
    pieceWeight nodeWeights (range (k + 1)) =
      pieceWeight nodeWeights (range k) + nodeWeights.getD k 0 := by
  rw [range_succ, pieceWeight_append]
  simp [pieceWeight]

theorem weightOfNode_eq (hk : k < g.nodeWeights.length) :
    weightOfNode g k = .ok (g.nodeWeights.getD k 0) := by
  simp [weightOfNode, derefOption, hk]

theorem weightOfEdge_eq (hk : k < g.edgeWeights.length) :
    weightOfEdge g k = .ok (g.edgeWeights.getD k 0) := by
  simp [weightOfEdge, derefOption, hk]

/-- The sums of the prefixes, while there are nodes. -/
theorem prefixSumsUpTo_eq (hg : Natural g) {n : Nat} (hn : n < g.nodeWeights.length) :
    prefixSumsUpTo g n = .ok (sumsUpTo g.nodeWeights n) := by
  induction n with
  | zero =>
    rw [prefixSumsUpTo, weightOfNode_eq hn]
    simp [sumsUpTo, pieceWeight, ok_bind]
  | succ n ih =>
    have hget : (sumsUpTo g.nodeWeights n)[n]? =
        some (pieceWeight g.nodeWeights (range (n + 1))) := by
      simp [sumsUpTo]
    rw [prefixSumsUpTo, ih (by omega), weightOfNode_eq hn, hg.nodePdm]
    simp only [ok_bind, hget, derefOption, naturalPdm]
    rw [← pieceWeight_range_succ, sumsUpTo, sumsUpTo]
    conv_rhs => rw [range_succ, map_append]
    rfl

theorem computePrefixSums_eq (hg : Natural g) :
    computePrefixSums g = .ok (sumsUpTo g.nodeWeights (g.nodeWeights.length - 1)) :=
  prefixSumsUpTo_eq hg (by have := g.sizes; rw [numNodes]; omega)

/-- The difference of two sums is the weight of the nodes between. -/
theorem prefixSumDiff_eq (hg : Natural g) (hk : k < g.nodeWeights.length) {t : CacheKey}
    (ht : ∀ i, t = some i → i < k) :
    prefixSumDiff g (sumsUpTo g.nodeWeights (g.nodeWeights.length - 1)) k t =
      .ok (pieceWeight g.nodeWeights (segment k t)) := by
  have hget (i : Nat) (hi : i ≤ k) :
      (sumsUpTo g.nodeWeights (g.nodeWeights.length - 1))[i]? =
        some (pieceWeight g.nodeWeights (range (i + 1))) := by
    have : i < g.nodeWeights.length - 1 + 1 := by omega
    simp [sumsUpTo, this]
  cases t with
  | none => simp [prefixSumDiff, hget k le_rfl, derefOption, segment]
  | some i =>
    have hi := ht i rfl
    have hsplit : pieceWeight g.nodeWeights (range (k + 1)) =
        pieceWeight g.nodeWeights (range (i + 1)) +
          pieceWeight g.nodeWeights (segment k (some i)) := by
      rw [← pieceWeight_append, segment, range_append_range' (by omega)]
    simp only [prefixSumDiff, hget k le_rfl, hget i hi.le, derefOption, ok_bind,
      hg.nodePdm, naturalPdm, hsplit]
    simp

/-- The best entry among those of the keys whose piece is light enough. -/
def IsBest (nodeWeights : List Nat) (m : Nat) (cache : CacheKey → CacheItem Nat) (k : Nat)
    (keys : List CacheKey) : Option (CacheItem Nat) → Prop
  | none => ∀ t ∈ keys, m < pieceWeight nodeWeights (segment k t)
  | some best => (∃ t ∈ keys, pieceWeight nodeWeights (segment k t) ≤ m ∧ best = cache t) ∧
      ∀ t ∈ keys, pieceWeight nodeWeights (segment k t) ≤ m → best.cost ≤ (cache t).cost

variable {cache : CacheKey → CacheItem Nat}

/-- One iteration of the inner loop. -/
theorem loopBody_spec (hg : Natural g) (hk : k < g.nodeWeights.length) {keys : List CacheKey}
    {t : CacheKey} (ht : ∀ i, t = some i → i < k) {best : Option (CacheItem Nat)}
    (hbest : IsBest g.nodeWeights m cache k keys best) :
    ∃ best', loopBody g (sumsUpTo g.nodeWeights (g.nodeWeights.length - 1)) m cache k best t =
        .ok best' ∧ IsBest g.nodeWeights m cache k (keys ++ [t]) best' := by
  have hle (x : Nat) : naturalOrder.lessThanOrEq x m = decide (x ≤ m) := by
    simp [TotalOrder.lessThanOrEq, naturalOrder, le_iff_lt_or_eq]
  simp only [loopBody, prefixSumDiff_eq hg hk ht, ok_bind, hg.nodeOrder, hle]
  refine ⟨_, rfl, ?_⟩
  by_cases hw : pieceWeight g.nodeWeights (segment k t) ≤ m
  · cases best with
    | none =>
      simp only [hw, decide_true, Bool.and_self, if_true]
      refine ⟨⟨t, by simp, hw, rfl⟩, fun u hu hwu => ?_⟩
      rcases mem_append.mp hu with hu | hu
      · exact absurd hwu (by have := hbest u hu; omega)
      · rw [mem_singleton.mp hu]
    | some best =>
      obtain ⟨⟨u, hu, hwu, rfl⟩, hmin⟩ := hbest
      have hless : g.edgeWeightOrder.lessThan (cache t).cost (cache u).cost =
          decide ((cache t).cost < (cache u).cost) := by
        rw [hg.edgeOrder, naturalOrder]
      by_cases hcost : (cache t).cost < (cache u).cost
      · simp only [hw, hless, hcost, decide_true, Bool.and_self, if_true]
        refine ⟨⟨t, by simp, hw, rfl⟩, fun v hv hwv => ?_⟩
        rcases mem_append.mp hv with hv | hv
        · exact hcost.le.trans (hmin v hv hwv)
        · rw [mem_singleton.mp hv]
      · simp only [hless, hcost, decide_false, Bool.and_false, Bool.false_eq_true, if_false]
        refine ⟨⟨u, by simp [hu], hwu, rfl⟩, fun v hv hwv => ?_⟩
        rcases mem_append.mp hv with hv | hv
        · exact hmin v hv hwv
        · rw [mem_singleton.mp hv]
          omega
  · -- the piece is too heavy, so the best entry stays
    simp only [hw, decide_false, Bool.false_and, Bool.false_eq_true, if_false]
    cases best with
    | none =>
      intro u hu
      rcases mem_append.mp hu with hu | hu
      · exact hbest u hu
      · rw [mem_singleton.mp hu]
        omega
    | some best =>
      obtain ⟨⟨u, hu, hwu, rfl⟩, hmin⟩ := hbest
      refine ⟨⟨u, by simp [hu], hwu, rfl⟩, fun v hv hwv => ?_⟩
      rcases mem_append.mp hv with hv | hv
      · exact hmin v hv hwv
      · rw [mem_singleton.mp hv] at hwv
        exact absurd hwv hw

/-- The inner loop finds the best entry. -/
theorem findBest_spec (hg : Natural g) (hk : k < g.nodeWeights.length)
    (cache : CacheKey → CacheItem Nat) :
    ∃ best, findBest g (sumsUpTo g.nodeWeights (g.nodeWeights.length - 1)) m cache k = .ok best ∧
      IsBest g.nodeWeights m cache k (none :: (range k).map some) best := by
  have hkeys : ∀ t ∈ none :: (range k).map some, ∀ i, t = some i → i < k := by
    intro t ht i hi
    subst hi
    simpa using ht
  rw [findBest]
  generalize none :: (range k).map some = keys at hkeys
  induction keys using reverseRecOn with
  | nil => exact ⟨none, rfl, by simp [IsBest]⟩
  | append_singleton keys t ih =>
    obtain ⟨best, hrun, hbest⟩ := ih fun u hu => hkeys u (by simp [hu])
    obtain ⟨best', hstep, hbest'⟩ := loopBody_spec hg hk (hkeys t (by simp)) hbest
    refine ⟨best', ?_, hbest'⟩
    rw [foldlM_append, hrun, ok_bind]
    simp [hstep]

/-- The edge after `k`, if there is one. -/
def edgeAfter (edgeWeights : List Nat) (k : Nat) : List Nat :=
  if k < edgeWeights.length then [k] else []

theorem cutAfter_eq (hk : k < g.nodeWeights.length) (best : CacheItem Nat) :
    cutAfter g k best = .ok ⟨best.cost + edgesWeight g.edgeWeights (edgeAfter g.edgeWeights k),
      best.cutEdges ++ edgeAfter g.edgeWeights k⟩ := by
  have hsizes := g.sizes
  by_cases he : k < g.edgeWeights.length
  · have hlast : ¬k = g.nodeWeights.length - 1 := by omega
    simp [cutAfter, nodeSuccessorEdge, hk, hlast, weightOfEdge_eq he, edgeAfter, he, edgesWeight]
  · have hlast : k = g.nodeWeights.length - 1 := by omega
    have hk' : g.nodeWeights.length - 1 < g.nodeWeights.length := by omega
    subst hlast
    simp [cutAfter, nodeSuccessorEdge, hk', edgeAfter, he, edgesWeight]

/-- An entry of a node is the cheapest way to cut the path up to that node, with the edge after
it cut too. -/
structure IsEntry (g : PathGraph Nat Nat) (m k : Nat) (item : CacheItem Nat) : Prop where
  splits : ∃ cuts pieces, Splits g.nodeWeights m (k + 1) cuts pieces ∧
    item.cutEdges = cuts ++ edgeAfter g.edgeWeights k
  cost_eq : item.cost = edgesWeight g.edgeWeights item.cutEdges
  cost_le : ∀ cuts pieces, Splits g.nodeWeights m (k + 1) cuts pieces →
    item.cost ≤ edgesWeight g.edgeWeights cuts + edgesWeight g.edgeWeights
      (edgeAfter g.edgeWeights k)

/-- The entries that are complete before the iteration for `k`. -/
structure Filled (g : PathGraph Nat Nat) (m k : Nat) (cache : CacheKey → CacheItem Nat) :
    Prop where
  base : cache none = ⟨0, []⟩
  entry : ∀ t < k, IsEntry g m t (cache (some t))

/-- The best entry of the inner loop, with the edge after `k` cut too, is the entry of `k`. -/
theorem isEntry_of_isBest (hk : k < g.nodeWeights.length) (hcache : Filled g m k cache)
    {best : CacheItem Nat}
    (hbest : IsBest g.nodeWeights m cache k (none :: (range k).map some) (some best)) :
    IsEntry g m k ⟨best.cost + edgesWeight g.edgeWeights (edgeAfter g.edgeWeights k),
      best.cutEdges ++ edgeAfter g.edgeWeights k⟩ := by
  have hsizes := g.sizes
  have hafter {t : Nat} (ht : t < k) : edgeAfter g.edgeWeights t = [t] := by
    rw [edgeAfter, if_pos (by omega)]
  obtain ⟨⟨key, hkey, hw, rfl⟩, hmin⟩ := hbest
  have hentry : (∃ cuts pieces, Splits g.nodeWeights m (k + 1) cuts pieces ∧
      (cache key).cutEdges = cuts) ∧
      (cache key).cost = edgesWeight g.edgeWeights (cache key).cutEdges := by
    cases key with
    | none =>
      rw [hcache.base]
      exact ⟨⟨[], _, .whole (by omega) hw, rfl⟩, rfl⟩
    | some t =>
      have ht : t < k := by simpa using hkey
      obtain ⟨⟨cuts, pieces, hsplits, hcuts⟩, hcost, -⟩ := hcache.entry t ht
      rw [hafter ht] at hcuts
      exact ⟨⟨cuts ++ [t], _, hsplits.cut (by omega) hw, hcuts⟩, hcost⟩
  obtain ⟨⟨cuts, pieces, hsplits, hcuts⟩, hcost⟩ := hentry
  refine ⟨⟨cuts, pieces, hsplits, by rw [hcuts]⟩, ?_, ?_⟩
  · rw [edgesWeight_append, ← hcost]
  · -- the last cut edge of any other way is a key of the inner loop
    intro cuts' pieces' hsplits'
    refine Nat.add_le_add_right ?_ _
    cases hsplits' with
    | whole _ hw' =>
      have hle := hmin none (by simp) hw'
      rw [hcache.base] at hle
      exact hle.trans (Nat.zero_le _)
    | @cut t _ cuts' pieces' hsplits' ht hw' =>
      have ht' : t < k := by omega
      have hle := hmin (some t) (by simpa using ht') hw'
      have hentry := (hcache.entry t ht').cost_le _ _ hsplits'
      rw [hafter ht'] at hentry
      rw [edgesWeight_append]
      exact hle.trans hentry

/-- A node up to which every piece is too heavy is too heavy itself. -/
theorem lt_weight_of_isBest_none
    (hbest : IsBest g.nodeWeights m cache k (none :: (range k).map some) none) :
    m < g.nodeWeights.getD k 0 := by
  cases k with
  | zero => simpa [segment, pieceWeight] using hbest none (by simp)
  | succ k =>
    have hlast := hbest (some k) (by simp)
    simpa [segment, pieceWeight] using hlast

/-- What the outer loop leaves after the nodes before `k`. -/
theorem fillCache_spec (hg : Natural g) (hk : k ≤ g.nodeWeights.length) :
    (fillCache g (sumsUpTo g.nodeWeights (g.nodeWeights.length - 1)) m k = .ok none ∧
      ∃ i < k, m < g.nodeWeights.getD i 0) ∨
    ∃ cache, fillCache g (sumsUpTo g.nodeWeights (g.nodeWeights.length - 1)) m k =
      .ok (some cache) ∧ Filled g m k cache := by
  induction k with
  | zero =>
    refine .inr ⟨_, rfl, ?_, fun t ht => absurd ht (Nat.not_lt_zero t)⟩
    rw [hg.edgePdm, naturalPdm]
  | succ k ih =>
    rcases ih (by omega) with ⟨hrun, i, hi, hheavy⟩ | ⟨cache, hrun, hcache⟩
    · refine .inl ⟨?_, i, by omega, hheavy⟩
      rw [fillCache, hrun]
      rfl
    · obtain ⟨best, hfind, hbest⟩ := findBest_spec (m := m) hg (k := k) (by omega) cache
      cases best with
      | none =>
        refine .inl ⟨?_, k, by omega, lt_weight_of_isBest_none hbest⟩
        rw [fillCache, hrun]
        simp only [ok_bind, hfind]
        rfl
      | some best =>
        obtain ⟨item, hafter, hitem⟩ : ∃ item, cutAfter g k best = .ok item ∧
            IsEntry g m k item :=
          ⟨_, cutAfter_eq (by omega) best, isEntry_of_isBest (by omega) hcache hbest⟩
        refine .inr ⟨Function.update cache (some k) item, ?_, ?_, ?_⟩
        · rw [fillCache, hrun]
          simp only [ok_bind, hfind, hafter]
          rfl
        · rw [Function.update_of_ne (by simp), hcache.base]
        · intro t ht
          rcases Nat.lt_succ_iff_lt_or_eq.mp ht with hlt | rfl
          · rw [Function.update_of_ne (by simp; omega)]
            exact hcache.entry t hlt
          · rw [Function.update_self]
            exact hitem

variable {edges cuts : List Nat} {pieces : PathCut}

/-- Nodes that are not before the next cut edge go into the open piece. -/
theorem pieceStep_open {nodes : List Nat} {s : PieceState}
    (hnext : ∀ e, edges[s.i]? = some e → e < g.edgeWeights.length ∧ e ∉ nodes) :
    nodes.foldlM (pieceStep g edges) s = .ok { s with piece := s.piece ++ nodes } := by
  induction nodes generalizing s with
  | nil => simp [pure, Except.pure]
  | cons n nodes ih =>
    have hstep : pieceStep g edges s n = .ok { s with piece := s.piece ++ [n] } := by
      cases hi : edges[s.i]? with
      | none => simp [pieceStep, hi, pure, Except.pure]
      | some e =>
        obtain ⟨hlt, hnot⟩ := hnext e hi
        have hne : n ≠ e := fun heq => hnot (by simp [heq])
        simp [pieceStep, hi, edgeSource, hlt, hne, pure, Except.pure]
    rw [foldlM_cons, hstep, ok_bind, ih]
    · simp
    · intro e he
      obtain ⟨hlt, hnot⟩ := hnext e he
      exact ⟨hlt, fun hmem => hnot (by simp [hmem])⟩

/-- The node before a cut edge closes the open piece. -/
theorem pieceStep_close {s : PieceState} {t : Nat} (hnext : edges[s.i]? = some t)
    (ht : t < g.edgeWeights.length) :
    pieceStep g edges s t = .ok ⟨s.result ++ [s.piece ++ [t]], [], s.i + 1⟩ := by
  simp [pieceStep, hnext, edgeSource, ht, pure, Except.pure]

/-- The run of `CutEdgesToPathCut` over all but the last of the first `k` nodes. The edges that
are still to come are not before that last node. -/
theorem Splits.run (h : Splits g.nodeWeights m k cuts pieces) (hk : k ≤ g.nodeWeights.length) :
    ∃ front last, pieces = front ++ [last ++ [k - 1]] ∧
      ∀ rest : List Nat, (∀ e ∈ rest, k - 1 ≤ e ∧ e < g.edgeWeights.length) →
        (range (k - 1)).foldlM (pieceStep g (cuts ++ rest)) ⟨[], [], 0⟩ =
          .ok ⟨front, last, cuts.length⟩ := by
  have hsizes := g.sizes
  induction h with
  | @whole k hpos _ =>
    obtain ⟨k, rfl⟩ : ∃ j, k = j + 1 := ⟨k - 1, by omega⟩
    refine ⟨[], range k, by simp [range_succ], fun rest hrest => ?_⟩
    refine pieceStep_open fun e he => ?_
    obtain ⟨hle, hlt⟩ := hrest e (mem_of_getElem? he)
    exact ⟨hlt, by simp; omega⟩
  | @cut t k cuts pieces _ ht _ ih =>
    obtain ⟨front, last, rfl, hrun⟩ := ih (by omega)
    refine ⟨front ++ [last ++ [t]], range' (t + 1) (k - 1 - (t + 1)), ?_, ?_⟩
    · have hlast : k - (t + 1) = k - 1 - (t + 1) + 1 := by omega
      rw [hlast, range'_1_concat]
      congr 4
      omega
    · intro rest hrest
      have hedge : t < g.edgeWeights.length := by omega
      have hfirst := hrun (t :: rest) fun e he => by
        rcases mem_cons.mp he with rfl | he
        · exact ⟨by omega, hedge⟩
        · have := hrest e he
          omega
      have hsplit : range (k - 1) =
          range t ++ t :: range' (t + 1) (k - 1 - (t + 1)) := by
        rw [← range_append_range' (show t ≤ k - 1 by omega),
          show k - 1 - t = k - 1 - (t + 1) + 1 by omega, range'_succ]
      rw [Nat.add_sub_cancel] at hfirst
      rw [hsplit, foldlM_append, append_assoc, singleton_append, hfirst,
        ok_bind, foldlM_cons, pieceStep_close (by simp) hedge, ok_bind,
        pieceStep_open]
      · simp
      · -- the next cut edge, if there is one, comes after these nodes
        intro e he
        have hmem : e ∈ rest := by
          refine mem_of_getElem? (i := 0) ?_
          simpa [getElem?_append_right] using he
        obtain ⟨hle, hlt⟩ := hrest e hmem
        exact ⟨hlt, by simp; omega⟩

/-- The pieces are rebuilt from the edges that were cut. -/
theorem cutEdgesToPathCut_eq (h : Splits g.nodeWeights m g.nodeWeights.length cuts pieces) :
    cutEdgesToPathCut g cuts = .ok pieces := by
  obtain ⟨front, last, rfl, hrun⟩ := h.run le_rfl
  have hpos := h.pos
  have hfold := hrun [] (by simp)
  rw [append_nil] at hfold
  have hsplit : range g.nodeWeights.length =
      range (g.nodeWeights.length - 1) ++ [g.nodeWeights.length - 1] := by
    rw [← range_succ, Nat.succ_eq_add_one, Nat.sub_add_cancel hpos]
  rw [cutEdgesToPathCut, numNodes, hsplit, foldlM_append, hfold, ok_bind, pieceStep_open (by simp)]
  rfl

/-- An entry of the last node gives a cut of least weight. -/
theorem IsEntry.optimal {item : CacheItem Nat} (h : IsEntry g m (g.nodeWeights.length - 1) item) :
    ∃ cut, cutEdgesToPathCut g (item.cutEdges.mergeSort (· ≤ ·)) = .ok cut ∧
      IsPathCut g.nodeWeights m cut ∧ ∀ other, IsPathCut g.nodeWeights m other →
        cutWeight g.edgeWeights cut ≤ cutWeight g.edgeWeights other := by
  have hsizes := g.sizes
  have hafter : edgeAfter g.edgeWeights (g.nodeWeights.length - 1) = [] := by
    rw [edgeAfter, if_neg (by omega)]
  have hlen : g.nodeWeights.length - 1 + 1 = g.nodeWeights.length := by omega
  have hweight {cuts : List Nat} {pieces : PathCut}
      (hsplits : Splits g.nodeWeights m g.nodeWeights.length cuts pieces) :
      cutWeight g.edgeWeights pieces = edgesWeight g.edgeWeights cuts := by
    rw [← hsizes] at hsplits
    rw [cutWeight, hsplits.cutEdges_eq]
  obtain ⟨⟨cuts, pieces, hsplits, hcuts⟩, hcost, hle⟩ := h
  rw [hlen] at hsplits
  rw [hafter, append_nil] at hcuts
  have hsorted : item.cutEdges.mergeSort (· ≤ ·) = cuts := by
    rw [hcuts]
    exact mergeSort_of_pairwise (hsplits.pairwise.imp fun hab => by simpa using hab.le)
  refine ⟨pieces, ?_, ⟨hsplits.flatten_eq, hsplits.nonempty, hsplits.weight_le⟩, ?_⟩
  · rw [hsorted, cutEdgesToPathCut_eq hsplits]
  · intro other hother
    obtain ⟨cuts', hsplits'⟩ :=
      exists_splits (by omega) hother.partition hother.nonempty hother.weight_le
    have hmin := hle cuts' other (by rw [hlen]; exact hsplits')
    rw [hafter, hcost, hcuts] at hmin
    rw [hweight hsplits, hweight hsplits']
    simpa [edgesWeight] using hmin

theorem create_natural {nodeWeights edgeWeights : List Nat}
    (h : create nodeWeights edgeWeights naturalPdm naturalPdm naturalOrder naturalOrder = .ok g) :
    Natural g ∧ g.nodeWeights = nodeWeights ∧ g.edgeWeights = edgeWeights := by
  unfold create at h
  split at h
  · cases h
    exact ⟨⟨rfl, rfl, rfl, rfl⟩, rfl, rfl⟩
  · cases h

/-- `ComputePathCut` finds no cut if and only if some node is too heavy, and otherwise a cut of
least weight. -/
theorem computePathCut_optimal {nodeWeights edgeWeights : List Nat}
    (hcreate : create nodeWeights edgeWeights naturalPdm naturalPdm naturalOrder naturalOrder =
      .ok g) (m : Nat) :
    ∃ result, computePathCut g m = .ok result ∧
      (result = none ↔ ∃ weight ∈ nodeWeights, m < weight) ∧
      ∀ cut, result = some cut → IsPathCut nodeWeights m cut ∧
        ∀ other, IsPathCut nodeWeights m other →
          cutWeight edgeWeights cut ≤ cutWeight edgeWeights other := by
  obtain ⟨hg, rfl, rfl⟩ := create_natural hcreate
  have hsizes := g.sizes
  rcases fillCache_spec (m := m) hg le_rfl with ⟨hrun, i, hi, hheavy⟩ | ⟨cache, hrun, hcache⟩
  · refine ⟨none, ?_, ⟨fun _ => ⟨g.nodeWeights.getD i 0, ?_, hheavy⟩, fun _ => rfl⟩, by simp⟩
    · rw [computePathCut, computePrefixSums_eq hg, ok_bind, numNodes, hrun]
      rfl
    · rw [getD_eq_getElem _ _ hi]
      exact getElem_mem hi
  · obtain ⟨cut, hcut, hoptimal⟩ := (hcache.entry (g.nodeWeights.length - 1) (by omega)).optimal
    refine ⟨some cut, ?_, ⟨by simp, ?_⟩, ?_⟩
    · rw [computePathCut, computePrefixSums_eq hg, ok_bind, numNodes, hrun, ok_bind]
      simp only [hcut, ok_bind]
      rfl
    · -- every node has an entry, so it is light enough
      intro hex
      obtain ⟨weight, hmem, hheavy⟩ := hex
      obtain ⟨i, hi, rfl⟩ := getElem_of_mem hmem
      obtain ⟨⟨cuts, pieces, hsplits, -⟩, -, -⟩ := hcache.entry i hi
      have := hsplits.last_weight_le
      rw [getD_eq_getElem _ _ hi] at this
      omega
    · intro cut' heq
      obtain rfl := Option.some.inj heq
      exact hoptimal

/-- Nodes of weights 50, 10, 20 and 50, between edges of weight 10. -/
def fourNodes : PathGraph Nat Nat :=
  ⟨[50, 10, 20, 50], [10, 10, 10], naturalPdm, naturalPdm, naturalOrder, naturalOrder, rfl⟩

theorem computePathCut_optimal_fourNodes :
    ∃ result, computePathCut fourNodes 70 = .ok result ∧
      (result = none ↔ ∃ weight ∈ [50, 10, 20, 50], 70 < weight) ∧
      ∀ cut, result = some cut → IsPathCut [50, 10, 20, 50] 70 cut ∧
        ∀ other, IsPathCut [50, 10, 20, 50] 70 other →
          cutWeight [10, 10, 10] cut ≤ cutWeight [10, 10, 10] other :=
  computePathCut_optimal rfl 70

end Natural

end PathCut

end Xls

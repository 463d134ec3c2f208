import Xls.IntervalOps
import Xls.TernaryQueryEngine.Arrays

/-!
# Xls.QueryEngine

The interface of the analyses (`xls/passes/query_engine.h`) and their combination
`UnownedUnionQueryEngine` (`xls/passes/union_query_engine.cc`).

An engine is sound for a run if everything it answers holds of the values of the
run. `union_sound` says that the union of sound engines is sound, and that neither
the union of ternaries nor the intersection of intervals meets a conflict: the value
of the run is a common witness.
-/

namespace Xls

open LeafTree List

/-! ### Values of a run -/

namespace Interpreter

/-- The value of a node in a run conforms to its type. -/
theorem run_conforms {env : Env} {f : Function} {args vals : List Value}
    (h : run env f args = .ok vals) {i : Nat} {v : Value} (hv : vals[i]? = some v) :
    ∃ n, f.nodes[i]? = some n ∧ v.Conforms n.type := by
  have hall := visit_conforms Forall₂.nil (visit_of_run h)
  exact LeafTree.rel_getElem?_right hall hv

end Interpreter

/-! ### Locations -/

/-- `TreeBitLocation`: a bit of a leaf of a node. -/
structure TreeBitLocation where
  node : Nat
  bitIndex : Nat
  treeIndex : List Nat := []
  deriving DecidableEq

namespace TreeBitLocation

/-- The bit at the location in a value of its node. -/
def bitOf (l : TreeBitLocation) (v : Value) : Option Bool := do
  let leaf ← (← v.get? l.treeIndex).leaf?
  leaf.toBools[l.bitIndex]?

/-- The bit at the location in a run. -/
def bitIn (l : TreeBitLocation) (vals : List Value) : Option Bool := vals[l.node]?.bind l.bitOf

end TreeBitLocation

/-! ### The interface -/

/-- The intervals of every leaf. -/
abbrev IntervalSetTree := LeafTree AnyIntervalSet

/-- Every leaf of the value is covered by its intervals. -/
def IntervalSetTree.Covers (t : IntervalSetTree) (v : Value) : Prop :=
  Rel (fun (s : AnyIntervalSet) (b : Bits) => s.2.CoversBits b) t v

/-- `QueryEngine`, after it has been populated for a function. -/
structure QueryEngine where
  isTracked : Nat → Bool
  getTernary : Nat → Result TernaryTree
  getIntervals : Nat → Result IntervalSetTree
  atMostOneTrue : List TreeBitLocation → Bool
  atLeastOneTrue : List TreeBitLocation → Bool
  implies : TreeBitLocation → TreeBitLocation → Bool
  impliedNodeValue : List (TreeBitLocation × Bool) → Nat → Option Bits
  knownEquals : TreeBitLocation → TreeBitLocation → Bool
  knownNotEquals : TreeBitLocation → TreeBitLocation → Bool

namespace QueryEngine

/-- The ternary value of a bit. -/
def ternaryAt (e : QueryEngine) (l : TreeBitLocation) : Result TernaryValue := do
  let t ← e.getTernary l.node
  let sub ← derefOption (t.get? l.treeIndex)
  let vec ← derefOption sub.leaf?
  derefOption vec[l.bitIndex]?

/-- `KnownValue` of a bit. -/
def knownBit (e : QueryEngine) (l : TreeBitLocation) : Result (Option Bool) :=
  if e.isTracked l.node then do
    let t ← e.ternaryAt l
    return match t with
      | .knownZero => some false
      | .knownOne => some true
      | .unknown => none
  else .ok none

/-- `KnownValue` of a node, if all its bits are known. -/
def knownValue (e : QueryEngine) (node : Nat) : Result (Option Value) :=
  if e.isTracked node then do
    let t ← e.getTernary node
    return if t.leaves.all TernaryVector.isFullyKnown then
      some (t.map fun v => Bits.ofBools (TernaryVector.toKnownBitsValues v)) else none
  else .ok none

/-- Everything the engine answers holds in the run. -/
structure SoundOn (e : QueryEngine) (vals : List Value) : Prop where
  ternary : ∀ (i : Nat) v, vals[i]? = some v → e.isTracked i = true →
    ∃ t, e.getTernary i = .ok t ∧ t.Admits v
  intervals : ∀ (i : Nat) v, vals[i]? = some v → e.isTracked i = true →
    ∃ s, e.getIntervals i = .ok s ∧ s.Covers v
  atMostOneTrue : ∀ bits, e.atMostOneTrue bits = true →
    bits.countP (fun l => l.bitIn vals == some true) ≤ 1
  atLeastOneTrue : ∀ bits, e.atLeastOneTrue bits = true →
    1 ≤ bits.countP (fun l => l.bitIn vals == some true)
  implies : ∀ a b, e.implies a b = true → a.bitIn vals = some true → b.bitIn vals = some true
  impliedNodeValue : ∀ predicates node value, e.impliedNodeValue predicates node = some value →
    (∀ p ∈ predicates, p.1.bitIn vals = some p.2) → vals[node]? = some (.leaf value)
  knownEquals : ∀ a b, e.knownEquals a b = true → a.bitIn vals = b.bitIn vals
  knownNotEquals : ∀ a b, e.knownNotEquals a b = true →
    a.bitIn vals = (b.bitIn vals).map (! ·)

variable {e : QueryEngine} {vals : List Value}

/-- A known bit is the bit of the run. -/
theorem SoundOn.knownBit (h : e.SoundOn vals) {l : TreeBitLocation} {b : Bool}
    (hk : QueryEngine.knownBit e l = .ok (some b)) {v : Value} (hv : vals[l.node]? = some v) :
    l.bitOf v = some b := by
  unfold QueryEngine.knownBit at hk
  split at hk
  rotate_left
  · cases hk
  rename_i htracked
  obtain ⟨x, hat, hk⟩ := Result.bind_eq_ok.1 hk
  obtain ⟨t, ht, hget⟩ := Result.bind_eq_ok.1 hat
  obtain ⟨sub, hsub, hleaf⟩ := Result.bind_eq_ok.1 hget
  obtain ⟨vec, hvec, hx⟩ := Result.bind_eq_ok.1 hleaf
  rw [derefOption_eq_ok] at hsub hvec hx
  obtain ⟨t', ht', hadmits⟩ := h.ternary _ _ hv htracked
  rw [ht] at ht'
  cases ht'
  obtain ⟨u, hu, hrel⟩ := hadmits.get? hsub
  cases sub with
  | node ts => cases hvec
  | leaf a =>
    cases hvec
    obtain ⟨c, rfl, hac⟩ := rel_leaf_left hrel
    have hlt : l.bitIndex < c.toBools.length := by
      rw [← Forall₂.length_eq hac]
      exact (List.getElem?_eq_some_iff.1 hx).1
    have hbit := LeafTree.rel_getElem? hac hx (getElem?_eq_getElem hlt)
    have hbit' : c.toBools[l.bitIndex]? = some b := by
      rw [getElem?_eq_getElem hlt]
      cases x with
      | unknown => cases hk
      | _ =>
        cases hk
        exact congrArg some hbit
    unfold TreeBitLocation.bitOf
    rw [hu]
    exact hbit'

/-- A known value is the value of the run. -/
theorem SoundOn.knownValue (h : e.SoundOn vals) {i : Nat} {k v : Value}
    (hk : QueryEngine.knownValue e i = .ok (some k)) (hv : vals[i]? = some v) : k = v := by
  unfold QueryEngine.knownValue at hk
  split at hk
  rotate_left
  · cases hk
  rename_i htracked
  obtain ⟨t, ht, hk⟩ := Result.bind_eq_ok.1 hk
  obtain ⟨t', ht', hadmits⟩ := h.ternary _ _ hv htracked
  rw [ht] at ht'
  cases ht'
  rw [Result.pure_eq_ok, Except.ok.injEq] at hk
  split at hk
  rotate_left
  · cases hk
  rename_i hall
  cases hk
  rw [all_eq_true] at hall
  refine eq_of_rel_eq (rel_map_left.2 ?_)
  refine Rel.imp_of_mem_left ?_ hadmits
  intro vec b hvec hvb
  rw [← TernaryVector.eq_of_isFullyKnown (hall vec hvec) hvb, Bits.ofBools_toBools]

end QueryEngine

/-! ### The union -/

namespace UnionQueryEngine

/-- `IntervalSet::Intersect`, with its check of the widths. -/
def intersectLeaf (lhs rhs : AnyIntervalSet) : Option AnyIntervalSet :=
  if h : lhs.1 = rhs.1 then some ⟨rhs.1, IntervalSet.intersect (h ▸ lhs.2) rhs.2⟩ else none

/-- Fold the answers of the engines that track a node into a tree. -/
def combine {α : Type} (merge : α → α → Option α) (node : Nat)
    (answer : QueryEngine → Nat → Result (LeafTree α)) :
    List QueryEngine → LeafTree α → Result (LeafTree α)
  | [], result => .ok result
  | e :: engines, result =>
    if e.isTracked node then do
      let t ← answer e node
      let merged ← derefOption (LeafTree.merge merge result t)
      combine merge node answer engines merged
    else combine merge node answer engines result

/-- `GetTernary`. -/
def getTernary (f : Function) (engines : List QueryEngine) (node : Nat) : Result TernaryTree := do
  let n ← derefOption f.nodes[node]?
  combine TernaryVector.updateWithUnion node QueryEngine.getTernary engines
    (n.type.shape.map fun width => replicate width .unknown)

/-- `GetIntervals`. -/
def getIntervals (f : Function) (engines : List QueryEngine) (node : Nat) :
    Result IntervalSetTree := do
  let n ← derefOption f.nodes[node]?
  combine intersectLeaf node QueryEngine.getIntervals engines
    (n.type.shape.map fun width => ⟨width, IntervalSet.maximal width⟩)

/-- The first value that an engine implies. -/
def impliedNodeValue (predicates : List (TreeBitLocation × Bool)) (node : Nat) :
    List QueryEngine → Option Bits
  | [] => none
  | e :: engines =>
    match e.impliedNodeValue predicates node with
    | some value => some value
    | none => impliedNodeValue predicates node engines

end UnionQueryEngine

/-- `UnownedUnionQueryEngine` over engines populated for a function. -/
def unionQueryEngine (f : Function) (engines : List QueryEngine) : QueryEngine where
  isTracked node := engines.any fun e => e.isTracked node
  getTernary := UnionQueryEngine.getTernary f engines
  getIntervals := UnionQueryEngine.getIntervals f engines
  atMostOneTrue bits := engines.any fun e => e.atMostOneTrue bits
  atLeastOneTrue bits := engines.any fun e => e.atLeastOneTrue bits
  implies a b := engines.any fun e => e.implies a b
  impliedNodeValue predicates node := UnionQueryEngine.impliedNodeValue predicates node engines
  knownEquals a b := engines.any fun e => e.knownEquals a b
  knownNotEquals a b := engines.any fun e => e.knownNotEquals a b

namespace UnionQueryEngine

/-- Answers that all relate to one value can be combined, and so does the result. -/
theorem combine_sound {α : Type} {merge : α → α → Option α} {R : α → Bits → Prop}
    (hmerge : ∀ a b x, R a x → R b x → ∃ c, merge a b = some c ∧ R c x) {node : Nat}
    {answer : QueryEngine → Nat → Result (LeafTree α)} {engines : List QueryEngine} {v : Value}
    (hanswer : ∀ e ∈ engines, e.isTracked node = true → ∃ t, answer e node = .ok t ∧ Rel R t v)
    {result : LeafTree α} (hresult : Rel R result v) :
    ∃ t, combine merge node answer engines result = .ok t ∧ Rel R t v := by
  induction engines generalizing result with
  | nil => exact ⟨result, rfl, hresult⟩
  | cons e engines ih =>
    have hrest := fun e' he' => hanswer e' (mem_cons_of_mem _ he')
    rw [combine]
    split
    · rename_i htracked
      obtain ⟨t, ht, hrel⟩ := hanswer e mem_cons_self htracked
      obtain ⟨merged, hm, hmv⟩ := Rel.merge_both hmerge hresult hrel
      rw [ht, Result.ok_bind, hm]
      exact ih hrest hmv
    · exact ih hrest hresult

theorem intersectLeaf_covers {a b : AnyIntervalSet} {x : Bits} (ha : a.2.CoversBits x)
    (hb : b.2.CoversBits x) : ∃ c, intersectLeaf a b = some c ∧ c.2.CoversBits x := by
  obtain ⟨w, s⟩ := a
  obtain ⟨w', s'⟩ := b
  have hw : w = w' := ha.1.symm.trans hb.1
  subst hw
  refine ⟨⟨w, IntervalSet.intersect s s'⟩, by simp [intersectLeaf], ha.1, ?_⟩
  exact IntervalSet.covers_intersect.2 ⟨ha.2, hb.2⟩

section

variable {env : Env} {f : Function} {args vals : List Value} {engines : List QueryEngine}

section

variable (hrun : Interpreter.run env f args = .ok vals)
  (hengines : ∀ e ∈ engines, QueryEngine.SoundOn e vals)
include hrun hengines

/-- What several engines know together admits the value. -/
theorem getTernary_sound {i : Nat} {v : Value} (hv : vals[i]? = some v) :
    ∃ t, getTernary f engines i = .ok t ∧ t.Admits v := by
  obtain ⟨n, hn, hconf⟩ := Interpreter.run_conforms hrun hv
  unfold getTernary
  rw [hn]
  refine combine_sound (R := Evaluator.Rep TernaryValue.Admits) ?_ ?_
    (TernaryQueryEngine.unconstrainedOf_admits hconf)
  · intro a b x ha hb
    exact TernaryVector.Admits.updateWithUnion ha hb
  · intro e he htracked
    exact (hengines e he).ternary i v hv htracked

/-- What several engines know together covers the value. -/
theorem getIntervals_sound {i : Nat} {v : Value} (hv : vals[i]? = some v) :
    ∃ s, getIntervals f engines i = .ok s ∧ s.Covers v := by
  obtain ⟨n, hn, hconf⟩ := Interpreter.run_conforms hrun hv
  unfold getIntervals
  rw [hn]
  refine combine_sound (R := fun (s : AnyIntervalSet) b => s.2.CoversBits b)
    (fun a b x ha hb => intersectLeaf_covers ha hb) ?_ ?_
  · intro e he htracked
    exact (hengines e he).intervals i v hv htracked
  · refine rel_map_left.2 (Rel.imp ?_ hconf.symm)
    intro w b hb
    exact ⟨hb, IntervalSet.covers_maximal (hb ▸ b.isLt)⟩

end

/-- The first engine that implies a value is right about it. -/
theorem impliedNodeValue_sound (hengines : ∀ e ∈ engines, QueryEngine.SoundOn e vals)
    {predicates : List (TreeBitLocation × Bool)} {node : Nat} {value : Bits}
    (h : impliedNodeValue predicates node engines = some value)
    (hp : ∀ p ∈ predicates, p.1.bitIn vals = some p.2) : vals[node]? = some (.leaf value) := by
  induction engines with
  | nil => cases h
  | cons e engines ih =>
    rw [impliedNodeValue] at h
    split at h
    · rename_i x hx
      cases h
      exact (hengines e mem_cons_self).impliedNodeValue _ _ _ hx hp
    · exact ih (fun e' he' => hengines e' (mem_cons_of_mem _ he')) h

/-- The union of engines that are sound for a run is sound for it. It reports a
ternary and intervals for every node, without a failing check. -/
theorem union_sound (hrun : Interpreter.run env f args = .ok vals)
    (hengines : ∀ e ∈ engines, QueryEngine.SoundOn e vals) :
    (unionQueryEngine f engines).SoundOn vals ∧ ∀ (i : Nat) v, vals[i]? = some v →
        (∃ t, (unionQueryEngine f engines).getTernary i = .ok t ∧ t.Admits v) ∧
        (∃ s, (unionQueryEngine f engines).getIntervals i = .ok s ∧ s.Covers v) ∧
        (∀ k, (unionQueryEngine f engines).knownValue i = .ok (some k) → k = v) ∧
        ∀ l b, l.node = i → (unionQueryEngine f engines).knownBit l = .ok (some b) →
          l.bitOf v = some b := by
  have hany : ∀ {p : QueryEngine → Bool}, engines.any p = true →
      ∃ e, QueryEngine.SoundOn e vals ∧ p e = true := by
    intro p hp
    obtain ⟨e, he, hpe⟩ := any_eq_true.1 hp
    exact ⟨e, hengines e he, hpe⟩
  have hsound : (unionQueryEngine f engines).SoundOn vals :=
    { ternary := fun i v hv _ => getTernary_sound hrun hengines hv
      intervals := fun i v hv _ => getIntervals_sound hrun hengines hv
      atMostOneTrue := fun bits h => by
        obtain ⟨e, he, h⟩ := hany h
        exact he.atMostOneTrue bits h
      atLeastOneTrue := fun bits h => by
        obtain ⟨e, he, h⟩ := hany h
        exact he.atLeastOneTrue bits h
      implies := fun a b h => by
        obtain ⟨e, he, h⟩ := hany h
        exact he.implies a b h
      impliedNodeValue := fun _ _ _ h hp => impliedNodeValue_sound hengines h hp
      knownEquals := fun a b h => by
        obtain ⟨e, he, h⟩ := hany h
        exact he.knownEquals a b h
      knownNotEquals := fun a b h => by
        obtain ⟨e, he, h⟩ := hany h
        exact he.knownNotEquals a b h }
  refine ⟨hsound, fun i v hv => ⟨getTernary_sound hrun hengines hv,
    getIntervals_sound hrun hengines hv, fun k hk => hsound.knownValue hk hv, ?_⟩⟩
  rintro l b rfl hk
  exact hsound.knownBit hk hv

end

/-- A function that returns its argument of two bits. -/
def identityOfTwoBits : Function where
  params := [.bits 2]
  nodes := [⟨.param 0, [], .bits 2⟩]
  returnValue := 0
  verified := by decide
  returnValue_lt := by decide

/-- An engine that knows a ternary and an interval of the first node. -/
def firstNodeEngine (ternary : TernaryVector) (bounds : Interval 2) : QueryEngine where
  isTracked node := node == 0
  getTernary _ := .ok (.leaf ternary)
  getIntervals _ := .ok (.leaf ⟨2, IntervalSet.normalize [bounds]⟩)
  atMostOneTrue _ := false
  atLeastOneTrue _ := false
  implies _ _ := false
  impliedNodeValue _ _ := none
  knownEquals _ _ := false
  knownNotEquals _ _ := false

/-- An engine that knows a ternary vector and an interval of a node is sound if they admit
its value. -/
theorem firstNodeEngine_sound {ternary : TernaryVector} {bounds : Interval 2} {b : Bits}
    (ht : TernaryVector.Admits ternary b.toBools)
    (hs : (IntervalSet.normalize [bounds]).CoversBits b) :
    (firstNodeEngine ternary bounds).SoundOn [.leaf b] where
  ternary i v hv htracked := by
    obtain rfl : i = 0 := eq_of_beq htracked
    cases hv
    exact ⟨_, rfl, rel_leaf.2 ht⟩
  intervals i v hv htracked := by
    obtain rfl : i = 0 := eq_of_beq htracked
    cases hv
    exact ⟨_, rfl, rel_leaf.2 hs⟩
  atMostOneTrue _ h := by cases h
  atLeastOneTrue _ h := by cases h
  implies _ _ h := by cases h
  impliedNodeValue _ _ _ h := by cases h
  knownEquals _ _ h := by cases h
  knownNotEquals _ _ h := by cases h

/-- Two engines that each know one bit of an argument that is two. -/
theorem union_sound_two_engines :
    (unionQueryEngine identityOfTwoBits
        [firstNodeEngine [.unknown, .knownOne] ⟨2, 3, by decide, by decide⟩,
          firstNodeEngine [.knownZero, .unknown] ⟨0, 2, by decide, by decide⟩]).getTernary 0 =
        .ok (.leaf [.knownZero, .knownOne]) ∧ (unionQueryEngine identityOfTwoBits
        [firstNodeEngine [.unknown, .knownOne] ⟨2, 3, by decide, by decide⟩,
          firstNodeEngine [.knownZero, .unknown] ⟨0, 2, by decide, by decide⟩]).SoundOn
        [.leaf (Bits.ofNat 2 2)] := by
  have hrun : Interpreter.run (Interpreter.packageEnv []) identityOfTwoBits
      [.leaf (Bits.ofNat 2 2)] = .ok [.leaf (Bits.ofNat 2 2)] := rfl
  refine ⟨rfl, (union_sound hrun ?_).1⟩
  intro e he
  rcases mem_cons.1 he with rfl | he
  · exact firstNodeEngine_sound (by decide) (by decide)
  · obtain rfl := mem_singleton.1 he
    exact firstNodeEngine_sound (by decide) (by decide)

end UnionQueryEngine

end Xls

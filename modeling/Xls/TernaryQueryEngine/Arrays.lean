import Xls.TernaryQueryEngine

/-!
# Xls.TernaryQueryEngine.Arrays

The array handlers of `TernaryNodeEvaluator` are sound for indices of which only some bits
are known: the element the run selects is always among the possibilities, and merging
possibilities keeps what each of them admits (`handleArrayUpdate_sound`).
-/

namespace Xls

open Interpreter LeafTree TernaryVector List Bits BoolList
open Evaluator (Rep TreeRep)

/-- The tree has the shape of the type. -/
def TernaryTree.Shaped (t : TernaryTree) (type : IrType) : Prop :=
  Rel (fun (v : TernaryVector) (w : Nat) => v.length = w) t type.shape

namespace TernaryTree

variable {t : TernaryTree}

theorem Admits.shaped {v : Value} {type : IrType} (h : t.Admits v) (hv : v.Conforms type) :
    t.Shaped type :=
  Rel.comp (fun vec b w hvec hb => by
    rw [← hb, Forall₂.length_eq hvec, toBools_length]) h hv

/-- A vector of unknown bits admits every list of its length. -/
theorem admits_replicate (bs : List Bool) {vec : TernaryVector} (hlen : vec.length = bs.length)
    (hall : ∀ x ∈ vec, x = .unknown) : TernaryVector.Admits vec bs := by
  induction bs generalizing vec with
  | nil =>
    obtain rfl := eq_nil_of_length_eq_zero hlen
    exact Forall₂.nil
  | cons b bs ih =>
    cases vec with
    | nil => simp at hlen
    | cons x xs =>
      refine Forall₂.cons ?_ (ih (by simpa using hlen)
        fun y hy => hall y (mem_cons_of_mem _ hy))
      rw [hall x mem_cons_self]
      trivial

/-- A tree in which nothing is known admits every value of its type. -/
theorem admits_of_isUnconstrained {v : Value} {type : IrType} (ht : t.Shaped type)
    (hv : v.Conforms type) (hu : TernaryQueryEngine.isUnconstrained t = true) : t.Admits v := by
  have hlen : Rel (fun (vec : TernaryVector) (b : Bits) => vec.length = b.width) t v :=
    Rel.comp (fun vec w b hvec hb => hvec.trans hb.symm) ht hv.symm
  clear ht hv
  unfold TernaryQueryEngine.isUnconstrained at hu
  rw [all_eq_true] at hu
  induction t using ind generalizing v with
  | leaf vec =>
    obtain ⟨b, rfl, hb⟩ := rel_leaf_left hlen
    refine rel_leaf.2 (admits_replicate _ (by rw [hb, toBools_length]) ?_)
    have hvec := hu vec (by simp [LeafTree.leaves])
    rw [all_eq_true] at hvec
    exact fun x hx => eq_of_beq (hvec x hx)
  | node ts ih =>
    obtain ⟨us, rfl, hus⟩ := rel_node_left hlen
    refine rel_node.2 ?_
    rw [LeafTree.leaves, leavesList_eq_flatMap] at hu
    clear hlen
    induction hus with
    | nil => exact Forall₂.nil
    | cons htu _ ihs =>
      refine Forall₂.cons (ih _ mem_cons_self (fun x hx => hu x ?_) htu)
        (ihs (fun t ht => ih t (mem_cons_of_mem _ ht)) fun x hx => hu x ?_)
      · exact mem_flatMap.2 ⟨_, mem_cons_self, hx⟩
      · obtain ⟨t, ht, hx⟩ := mem_flatMap.1 hx
        exact mem_flatMap.2 ⟨t, mem_cons_of_mem _ ht, hx⟩

end TernaryTree

namespace TernaryQueryEngine

open TernaryTree (Shaped)

variable {type element : IrType} {v array : Value} {a b c : TernaryVector}
  {s t r value : TernaryTree} {vecs : List TernaryVector} {indices : List Bits}
  {found : List TernaryTree} {size width : Nat} {start : Bits} {ps : List (List Bool)}

theorem unconstrainedOf_admits (h : v.Conforms type) : (unconstrainedOf type).Admits v := by
  unfold unconstrainedOf TernaryTree.Admits
  refine rel_map_left.2 (Rel.imp ?_ h.symm)
  intro w b hb
  refine TernaryTree.admits_replicate _ (by simp [hb]) ?_
  exact fun x hx => eq_of_mem_replicate hx

/-! ### Merging possibilities -/

theorem intersectLeaf_left {x : Bits} (h : Rep TernaryValue.Admits a x)
    (hr : intersectLeaf a b = some c) : Rep TernaryValue.Admits c x := by
  unfold intersectLeaf at hr
  split at hr
  · rename_i hlen
    cases hr
    exact TernaryVector.Admits.intersection_left h hlen
  · cases hr

theorem intersectLeaf_right {x : Bits} (h : Rep TernaryValue.Admits b x)
    (hr : intersectLeaf a b = some c) : Rep TernaryValue.Admits c x := by
  unfold intersectLeaf at hr
  split at hr
  · rename_i hlen
    cases hr
    exact TernaryVector.Admits.intersection_right h hlen
  · cases hr

theorem intersectLeaf_length {w : Nat} (h : a.length = w) (hr : intersectLeaf a b = some c) :
    c.length = w := by
  unfold intersectLeaf at hr
  split at hr
  · rename_i hlen
    cases hr
    rw [length_intersection, ← hlen, Nat.min_self, h]
  · cases hr

theorem admits_merge_left (h : s.Admits v) (hr : LeafTree.merge intersectLeaf s t = some r) :
    r.Admits v := by
  refine Rel.merge_left ?_ h hr
  intro a b c x ha hc
  exact intersectLeaf_left ha hc

theorem admits_merge_right (h : t.Admits v) (hr : LeafTree.merge intersectLeaf s t = some r) :
    r.Admits v := by
  refine Rel.merge_right ?_ h hr
  intro a b c x hb hc
  exact intersectLeaf_right hb hc

theorem shaped_merge (h : s.Shaped type) (hr : LeafTree.merge intersectLeaf s t = some r) :
    r.Shaped type := by
  refine Rel.merge_left ?_ h hr
  intro a b c w ha hc
  exact intersectLeaf_length ha hc

/-- The merged tree admits what one of its parts admits. The early exit on a tree in
which nothing is known loses nothing. -/
theorem mergeFrom_sound (hv : v.Conforms type) {result : TernaryTree} {rest : List TernaryTree}
    (hs : result.Shaped type) (h : result.Admits v ∨ ∃ p ∈ rest, TernaryTree.Admits p v)
    (hr : mergeFrom result rest = .ok r) : r.Admits v := by
  induction rest generalizing result with
  | nil =>
    cases hr
    rcases h with h | ⟨p, hp, -⟩
    · exact h
    · cases hp
  | cons p rest ih =>
    rw [mergeFrom] at hr
    split at hr
    · rename_i hu
      cases hr
      exact TernaryTree.admits_of_isUnconstrained hs hv hu
    · obtain ⟨merged, hm, hr⟩ := Result.bind_eq_ok.1 hr
      rw [derefOption_eq_ok] at hm
      refine ih (shaped_merge hs hm) ?_ hr
      rcases h with h | ⟨q, hq, h⟩
      · exact .inl (admits_merge_left h hm)
      · rcases mem_cons.1 hq with rfl | hq
        · exact .inl (admits_merge_right h hm)
        · exact .inr ⟨q, hq, h⟩

theorem mergePossibilities_sound (hv : v.Conforms type) {possibilities : List TernaryTree}
    (hs : ∀ p ∈ possibilities, TernaryTree.Shaped p type)
    (h : ∃ p ∈ possibilities, TernaryTree.Admits p v)
    (hr : mergePossibilities possibilities = .ok r) : r.Admits v := by
  cases possibilities with
  | nil => cases hr
  | cons p rest =>
    refine mergeFrom_sound hv (hs p mem_cons_self) ?_ hr
    obtain ⟨q, hq, hqv⟩ := h
    rcases mem_cons.1 hq with rfl | hq
    · exact .inl hqv
    · exact .inr ⟨q, hq, hqv⟩

/-! ### Array index -/

section Index

variable {visit : TernaryTree → Result (List TernaryTree)} {view : TernaryTree}

/-- Every index reaches the element it selects, or the last one for all indices at
or past the end. -/
theorem eachIndex_sound {array element final : Value} {index : Bits} (hview : view.Admits array)
    (helement : arrayElement array index = .ok element)
    (hvisit : ∀ sub found, TernaryTree.Admits sub element → visit sub = .ok found →
      ∃ p ∈ found, TernaryTree.Admits p final) {ps : List (List Bool)} (hmem : index.toBools ∈ ps)
    (hsorted : ps.Pairwise fun a b => toNat a < toNat b)
    {found : List TernaryTree} (hr : eachIndex visit view ps = .ok found) :
    ∃ p ∈ found, TernaryTree.Admits p final := by
  have hchildren := hview.children
  unfold arrayElement bounded at helement
  rw [derefOption_eq_ok, ← hchildren.length_eq] at helement
  induction ps generalizing found with
  | nil => cases hmem
  | cons p ps ih =>
    rw [eachIndex] at hr
    have hle : toNat p ≤ index.val := by
      rw [← toNat_toBools]
      rcases mem_cons.1 hmem with heq | hin
      · rw [heq]
      · exact (rel_of_pairwise_cons hsorted hin).le
    split at hr
    · rename_i hlast
      obtain ⟨last, hget, hr⟩ := Result.bind_eq_ok.1 hr
      rw [derefOption_eq_ok] at hget
      rw [Nat.min_eq_right (hlast.trans hle)] at helement
      exact hvisit last found (LeafTree.rel_getElem? hchildren hget helement) hr
    · rename_i hinside
      obtain ⟨sub, hget, hr⟩ := Result.bind_eq_ok.1 hr
      obtain ⟨here, hhere, hr⟩ := Result.bind_eq_ok.1 hr
      obtain ⟨later, hlater, hr⟩ := Result.bind_eq_ok.1 hr
      cases hr
      rw [derefOption_eq_ok] at hget
      rcases mem_cons.1 hmem with heq | hin
      · rw [← heq, toNat_toBools] at hget hinside
        rw [Nat.min_eq_left (by omega)] at helement
        obtain ⟨q, hq, hqf⟩ := hvisit sub here (LeafTree.rel_getElem? hchildren hget helement)
          hhere
        exact ⟨q, mem_append_left _ hq, hqf⟩
      · obtain ⟨q, hq, hqf⟩ := ih hin (List.Pairwise.of_cons hsorted) hlater
        exact ⟨q, mem_append_right _ hq, hqf⟩

/-- What holds of everything found for a child holds of everything found. -/
theorem eachIndex_all {P : TernaryTree → Prop} {ps : List (List Bool)}
    (hvisit : ∀ sub found, sub ∈ view.children → visit sub = .ok found → ∀ p ∈ found, P p)
    {found : List TernaryTree} (hr : eachIndex visit view ps = .ok found) : ∀ p ∈ found, P p := by
  induction ps generalizing found with
  | nil =>
    cases hr
    exact fun p hp => absurd hp not_mem_nil
  | cons p ps ih =>
    rw [eachIndex] at hr
    split at hr
    · obtain ⟨last, hget, hr⟩ := Result.bind_eq_ok.1 hr
      rw [derefOption_eq_ok] at hget
      exact hvisit last found (mem_of_getElem? hget) hr
    · obtain ⟨sub, hget, hr⟩ := Result.bind_eq_ok.1 hr
      obtain ⟨here, hhere, hr⟩ := Result.bind_eq_ok.1 hr
      obtain ⟨later, hlater, hr⟩ := Result.bind_eq_ok.1 hr
      cases hr
      rw [derefOption_eq_ok] at hget
      intro q hq
      rcases mem_append.1 hq with hq | hq
      · exact hvisit sub here (mem_of_getElem? hget) hhere q hq
      · exact ih hlater q hq

end Index

variable {view : TernaryTree} {α : Type} {new : Value} {update : TernaryTree → Result TernaryTree}
  {entries merged : List TernaryTree} {us : List Value}

/-- The element that the run selects is among the possibilities. -/
theorem forEachPossibleIndex_sound (hidx : Forall₂ (Rep TernaryValue.Admits) vecs indices)
    {final : Value} (hview : view.Admits array) (hfinal : arrayIndex array indices = .ok final)
    (hr : forEachPossibleIndex vecs view = .ok found) :
    ∃ p ∈ found, TernaryTree.Admits p final := by
  induction hidx generalizing view array found with
  | nil =>
    cases hr
    cases hfinal
    exact ⟨view, mem_singleton_self _, hview⟩
  | cons hvec _ ih =>
    unfold arrayIndex at hfinal
    rw [foldlM_cons] at hfinal
    obtain ⟨element, helement, hfinal⟩ := Result.bind_eq_ok.1 hfinal
    exact eachIndex_sound hview helement
      (fun sub found hsub hfound => ih hsub hfinal hfound)
      (mem_allBitsValues.2 hvec) (pairwise_allBitsValues _) hr

/-- The children of an array have the type of its elements. -/
theorem shaped_children (h : t.Shaped (.array size element)) :
    ∀ c ∈ t.children, TernaryTree.Shaped c element := by
  intro c hc
  have hchildren := Rel.children h
  obtain ⟨i, hi, rfl⟩ := getElem_of_mem hc
  have hi' : i < (IrType.shape (.array size element)).children.length := by
    rwa [← hchildren.length_eq]
  have hget := Forall₂.get hchildren hi hi'
  rw [get_eq_getElem, get_eq_getElem] at hget
  unfold TernaryTree.Shaped
  simpa [IrType.shape, LeafTree.children] using hget

/-- All possibilities have the type of the selected element. -/
theorem forEachPossibleIndex_shaped (hview : view.Shaped type)
    (helement : type.indexedElementType vecs.length = some element)
    (hr : forEachPossibleIndex vecs view = .ok found) :
    ∀ p ∈ found, TernaryTree.Shaped p element := by
  induction vecs generalizing view type found with
  | nil =>
    cases hr
    rw [length_nil, IrType.indexedElementType] at helement
    cases helement
    exact fun p hp => mem_singleton.1 hp ▸ hview
  | cons vec vecs ih =>
    cases type with
    | array size t =>
      refine eachIndex_all (fun sub found hsub hfound => ?_) hr
      exact ih (shaped_children hview sub hsub) helement hfound
    | _ => simp [IrType.indexedElementType] at helement

/-- Indexing admits the element of the interpreter, merged over all indices that are possible. -/
theorem handleArrayIndex_sound (hidx : Forall₂ (Rep TernaryValue.Admits) vecs indices)
    (ht : t.Admits array) {arrayType : IrType} (harray : array.Conforms arrayType)
    (helement : arrayType.indexedElementType vecs.length = some type) (hv : v.Conforms type)
    (hi : arrayIndex array indices = .ok v) (hr : handleArrayIndex t vecs = .ok r) :
    r.Admits v := by
  unfold handleArrayIndex at hr
  split at hr
  · rename_i hnil
    subst hnil
    cases hidx
    cases hi
    cases hr
    exact ht
  · obtain ⟨possibilities, hp, hr⟩ := Result.bind_eq_ok.1 hr
    exact mergePossibilities_sound hv
      (forEachPossibleIndex_shaped (ht.shaped harray) helement hp)
      (forEachPossibleIndex_sound hidx ht hi hp) hr

/-! ### Array slice -/

theorem array_eq_ok {elements : List Value} (h : Value.array elements = .ok v) :
    v = .node elements := by
  cases elements with
  | nil => cases h
  | cons e es =>
    cases h
    rfl

theorem arraySlice_eq_ok (h : arraySlice width array start = .ok v) :
    ∃ last, array.children.getLast? = some last ∧ v = .node ((List.range width).map fun i =>
        array.children.getD (min start.val (array.children.length - 1) + i) last) := by
  unfold arraySlice at h
  obtain ⟨last, hlast, h⟩ := Result.bind_eq_ok.1 h
  exact ⟨last, derefOption_eq_ok.1 hlast, array_eq_ok h⟩

theorem getD_of_getLast {l : List α} {last : α} (h : l.getLast? = some last) {i : Nat}
    (hi : l.length - 1 ≤ i) : l.getD i last = last := by
  rw [getD_eq_getElem?_getD]
  by_cases hlt : i < l.length
  · have heq : i = l.length - 1 := by omega
    rw [heq, ← getLast?_eq_getElem?, h]
    rfl
  · rw [getElem?_eq_none (by omega)]
    rfl

/-- A slice at the offset of the run stands for the slice of the run. An offset past
the array gives the last element everywhere, as a start clamped to it does. -/
theorem sliceArray_sound (ht : t.Admits array) {off : Nat}
    (hv : arraySlice width array start = .ok v)
    (hoff : off = start.val ∨ (array.children.length ≤ off ∧ array.children.length ≤ start.val))
    (hr : sliceArray width t off = .ok r) : r.Admits v := by
  have hchildren := ht.children
  obtain ⟨last, hlast, rfl⟩ := arraySlice_eq_ok hv
  unfold sliceArray at hr
  obtain ⟨tlast, htlast, hr⟩ := Result.bind_eq_ok.1 hr
  rw [derefOption_eq_ok] at htlast
  cases hr
  refine rel_node.2 ?_
  rw [forall₂_map_left_iff, forall₂_map_right_iff, forall₂_same]
  intro i _
  have hlastRel : TernaryTree.Admits tlast last := by
    rw [getLast?_eq_getElem?] at hlast htlast
    rw [hchildren.length_eq] at htlast
    exact LeafTree.rel_getElem? hchildren htlast hlast
  by_cases hlt : i + off < array.children.length ∧ off = start.val
  · have hmin : min start.val (array.children.length - 1) = off := by omega
    rw [hmin, Nat.add_comm off i]
    have hlt' : i + off < t.children.length := by
      rw [hchildren.length_eq]
      exact hlt.1
    rw [getD_eq_getElem _ _ hlt', getD_eq_getElem _ _ hlt.1]
    exact Forall₂.get hchildren hlt' hlt.1
  · have hout : array.children.length ≤ i + off := by omega
    rw [getD_of_getLast htlast (by rw [hchildren.length_eq]; omega)]
    rw [getD_of_getLast hlast (by omega)]
    exact hlastRel

/-- The slice at the start of the interpreter is among the possible ones. -/
theorem possibleSlices_sound (ht : t.Admits array)
    (hv : arraySlice width array start = .ok v) (hmem : start.toBools ∈ ps)
    (hsorted : ps.Pairwise fun a b => toNat a < toNat b)
    (hr : possibleSlices width t ps = .ok found) : ∃ p ∈ found, TernaryTree.Admits p v := by
  have hlen := ht.children.length_eq
  induction ps generalizing found with
  | nil => cases hmem
  | cons p ps ih =>
    rw [possibleSlices] at hr
    obtain ⟨slice, hslice, hr⟩ := Result.bind_eq_ok.1 hr
    have hle : toNat p ≤ start.val := by
      rw [← toNat_toBools]
      rcases mem_cons.1 hmem with heq | hin
      · rw [heq]
      · exact (rel_of_pairwise_cons hsorted hin).le
    split at hr
    · rename_i hpast
      cases hr
      refine ⟨slice, mem_singleton_self _, sliceArray_sound ht hv (.inr ?_) hslice⟩
      omega
    · obtain ⟨slices, hslices, hr⟩ := Result.bind_eq_ok.1 hr
      cases hr
      rcases mem_cons.1 hmem with heq | hin
      · refine ⟨slice, mem_cons_self, sliceArray_sound ht hv (.inl ?_) hslice⟩
        rw [← heq, toNat_toBools]
      · obtain ⟨q, hq, hqv⟩ := ih hin (List.Pairwise.of_cons hsorted) hslices
        exact ⟨q, mem_cons_of_mem _ hq, hqv⟩

theorem shaped_node {ts : List TernaryTree} (hlen : ts.length = size)
    (h : ∀ c ∈ ts, TernaryTree.Shaped c element) :
    TernaryTree.Shaped (.node ts) (.array size element) := by
  unfold TernaryTree.Shaped
  rw [IrType.shape, rel_node]
  subst hlen
  induction ts with
  | nil => exact Forall₂.nil
  | cons t ts ih =>
    exact Forall₂.cons (h t mem_cons_self)
      (ih fun c hc => h c (mem_cons_of_mem _ hc))

/-- A slice of an array has the type of the node. -/
theorem sliceArray_shaped {off : Nat} (ht : t.Shaped (.array size element))
    (hr : sliceArray width t off = .ok r) : r.Shaped (.array width element) := by
  unfold sliceArray at hr
  obtain ⟨last, hlast, hr⟩ := Result.bind_eq_ok.1 hr
  rw [derefOption_eq_ok] at hlast
  cases hr
  refine shaped_node (by simp) ?_
  intro c hc
  obtain ⟨i, -, rfl⟩ := mem_map.1 hc
  refine shaped_children ht _ ?_
  rw [getD_eq_getElem?_getD]
  cases hget : t.children[i + off]? with
  | none => exact mem_of_getLast? hlast
  | some c => exact mem_of_getElem? hget

/-- All possible slices have the type of the node. -/
theorem possibleSlices_shaped (ht : t.Shaped (.array size element))
    (hr : possibleSlices width t ps = .ok found) :
    ∀ p ∈ found, TernaryTree.Shaped p (.array width element) := by
  induction ps generalizing found with
  | nil =>
    cases hr
    exact fun p hp => absurd hp not_mem_nil
  | cons p ps ih =>
    rw [possibleSlices] at hr
    obtain ⟨slice, hslice, hr⟩ := Result.bind_eq_ok.1 hr
    split at hr
    · cases hr
      exact fun q hq => mem_singleton.1 hq ▸ sliceArray_shaped ht hslice
    · obtain ⟨slices, hslices, hr⟩ := Result.bind_eq_ok.1 hr
      cases hr
      intro q hq
      rcases mem_cons.1 hq with rfl | hq
      · exact sliceArray_shaped ht hslice
      · exact ih hslices q hq

theorem handleArraySlice_sound (ht : t.Admits array) (harray : array.Conforms (.array size element))
    {vec : TernaryVector} (hstart : Rep TernaryValue.Admits vec start)
    (hv : v.Conforms (.array width element)) (hi : arraySlice width array start = .ok v)
    (hr : handleArraySlice (.array width element) t vec = .ok r) : r.Admits v := by
  unfold handleArraySlice at hr
  obtain ⟨w, hw, hr⟩ := Result.bind_eq_ok.1 hr
  cases hw
  obtain ⟨possibilities, hp, hr⟩ := Result.bind_eq_ok.1 hr
  exact mergePossibilities_sound hv (possibleSlices_shaped (ht.shaped harray) hp)
    (possibleSlices_sound ht hi (mem_allBitsValues.2 hstart)
      (pairwise_allBitsValues _) hp) hr

/-! ### Array update -/

/-- One dimension of an update. -/
theorem setArrayElement_cons (value : Value) (index : Bits) (indices : List Bits)
    (elements : List Value) :
    setArrayElement value (index :: indices) elements = match elements[index.val]? with
      | none => .ok elements
      | some element => do
        let updated ← arrayUpdate element value indices
        return elements.set index.val updated := by
  rw [setArrayElement, bounded]
  by_cases hlt : index.val < elements.length
  · rw [Nat.min_eq_left hlt.le, getElem?_eq_getElem hlt]
    cases indices with
    | nil => rfl
    | cons i is =>
      dsimp only
      rw [arrayUpdate]
      cases setArrayElement value (i :: is) elements[index.val].children with
      | error e => rfl
      | ok sub => rfl
  · rw [Nat.min_eq_right (by omega), getElem?_eq_none (le_refl _), getElem?_eq_none (by omega)]

/-- An update succeeds on an array when it does on the selected element. -/
theorem arrayUpdate_cons_eq_ok {value : Value} {index : Bits}
    (h : arrayUpdate array value (index :: indices) = .ok v) :
    (array.children[index.val]? = none ∧ v = .node array.children) ∨
      ∃ element updated, array.children[index.val]? = some element ∧
        arrayUpdate element value indices = .ok updated ∧
        v = .node (array.children.set index.val updated) := by
  rw [arrayUpdate, setArrayElement_cons] at h
  obtain ⟨elements, helements, h⟩ := Result.bind_eq_ok.1 h
  have hv := array_eq_ok h
  cases hget : array.children[index.val]? with
  | none =>
    rw [hget] at helements
    cases helements
    exact .inl ⟨rfl, hv⟩
  | some element =>
    rw [hget] at helements
    obtain ⟨updated, hupdated, helements⟩ := Result.bind_eq_ok.1 helements
    cases helements
    exact .inr ⟨element, updated, rfl, hupdated, hv⟩

theorem forall₂_set {β : Type} {P : α → β → Prop} {as : List α} {bs : List β}
    (h : Forall₂ P as bs) (i : Nat) {a : α} {b : β} (hab : P a b) :
    Forall₂ P (as.set i a) (bs.set i b) := by
  induction h generalizing i with
  | nil => exact Forall₂.nil
  | cons hxy htl ih =>
    cases i with
    | zero => exact Forall₂.cons hab htl
    | succ i => exact Forall₂.cons hxy (ih i)

theorem forall₂_set_left {β : Type} {P : α → β → Prop} {as : List α} {bs : List β}
    (h : Forall₂ P as bs) (i : Nat) {a : α} (ha : ∀ b, bs[i]? = some b → P a b) :
    Forall₂ P (as.set i a) bs := by
  induction h generalizing i with
  | nil => exact Forall₂.nil
  | cons hxy htl ih =>
    cases i with
    | zero => exact Forall₂.cons (ha _ rfl) htl
    | succ i => exact Forall₂.cons hxy (ih i fun b hb => ha b hb)

/-- A fully known update. -/
theorem updateKnown_sound (ht : t.Admits array) (hvalue : value.Admits new)
    (hi : arrayUpdate array new indices = .ok v)
    (hr : updateKnown value (indices.map Bits.val) t = .ok r) : r.Admits v := by
  induction indices generalizing t array v r with
  | nil =>
    cases hi
    cases hr
    exact hvalue
  | cons index indices ih =>
    cases t with
    | leaf a => cases hr
    | node entries =>
      have hchildren := Rel.children ht
      rw [map_cons, updateKnown] at hr
      rcases arrayUpdate_cons_eq_ok hi with ⟨hnone, rfl⟩ | ⟨element, updated, hsome, hup, rfl⟩
      · rw [List.getElem?_eq_none_iff, ← hchildren.length_eq] at hnone
        have hnone' : entries[index.val]? = none := List.getElem?_eq_none_iff.2 hnone
        rw [hnone'] at hr
        cases hr
        exact rel_node.2 hchildren
      · obtain ⟨entry, hentry, hrel⟩ := LeafTree.rel_getElem?_right hchildren hsome
        have hentry' : entries[index.val]? = some entry := hentry
        rw [hentry'] at hr
        obtain ⟨tupdated, htup, hr⟩ := Result.bind_eq_ok.1 hr
        cases hr
        exact rel_node.2 (forall₂_set hchildren _ (ih hrel hup htup))

/-- Merging only forgets. -/
theorem eachEntry_keeps
    (hupdate : ∀ t u r, TernaryTree.Admits t u → update t = .ok r → TernaryTree.Admits r u)
    (h : Forall₂ TernaryTree.Admits entries us) (hr : eachEntry update ps entries = .ok merged) :
    Forall₂ TernaryTree.Admits merged us := by
  induction ps generalizing entries with
  | nil =>
    cases hr
    exact h
  | cons p ps ih =>
    rw [eachEntry] at hr
    split at hr
    · cases hr
      exact h
    · rename_i entry hentry
      obtain ⟨updated, hup, hr⟩ := Result.bind_eq_ok.1 hr
      refine ih (forall₂_set_left h _ fun u hu => ?_) hr
      exact hupdate _ _ _ (LeafTree.rel_getElem? h hentry hu) hup

/-- The entry that the run updates is among those merged with the new value. -/
theorem eachEntry_sound
    (hkeep : ∀ t u r, TernaryTree.Admits t u → update t = .ok r → TernaryTree.Admits r u) {i : Nat}
    {element updated : Value} (hupdate : ∀ t r, TernaryTree.Admits t element → update t = .ok r →
      TernaryTree.Admits r updated) (hmem : ∃ p ∈ ps, toNat p = i)
    (hsorted : ps.Pairwise fun a b => toNat a < toNat b)
    (h : Forall₂ TernaryTree.Admits entries us) (helement : us[i]? = some element)
    (hr : eachEntry update ps entries = .ok merged) :
    Forall₂ TernaryTree.Admits merged (us.set i updated) := by
  induction ps generalizing entries with
  | nil =>
    obtain ⟨p, hp, -⟩ := hmem
    cases hp
  | cons p ps ih =>
    obtain ⟨q, hq, hqi⟩ := hmem
    obtain ⟨hi, -⟩ := List.getElem?_eq_some_iff.1 helement
    rw [eachEntry] at hr
    split at hr
    · rename_i hnone
      exfalso
      -- the loop ended before the index of the run, which is in bounds
      rw [List.getElem?_eq_none_iff, h.length_eq] at hnone
      rcases mem_cons.1 hq with rfl | hin
      · omega
      · have := rel_of_pairwise_cons hsorted hin
        omega
    · rename_i entry hentry
      obtain ⟨tup, hup, hr⟩ := Result.bind_eq_ok.1 hr
      rcases mem_cons.1 hq with rfl | hin
      · rw [hqi] at hentry hr
        refine eachEntry_keeps hkeep (forall₂_set h i ?_) hr
        exact hupdate _ _ (LeafTree.rel_getElem? h hentry helement) hup
      · refine ih ⟨q, hin, hqi⟩ (List.Pairwise.of_cons hsorted)
          (forall₂_set_left h _ fun u hu => ?_) hr
        exact hkeep _ _ _ (LeafTree.rel_getElem? h hentry hu) hup

/-- Merging entries keeps what the array admitted before. -/
theorem mergeEntriesForUpdate_keeps {u : Value} (ht : t.Admits u)
    (hr : mergeEntriesForUpdate value vecs t = .ok r) : r.Admits u := by
  induction vecs generalizing t r u with
  | nil => exact admits_merge_left ht (derefOption_eq_ok.1 hr)
  | cons vec vecs ih =>
    cases t with
    | leaf a => cases hr
    | node entries =>
      obtain ⟨us, rfl, hus⟩ := rel_node_left ht
      obtain ⟨merged, hmerged, hr⟩ := Result.bind_eq_ok.1 hr
      cases hr
      exact rel_node.2 (eachEntry_keeps (fun _ _ _ htu hres => ih htu hres) hus hmerged)

/-- Merging the new value into every entry that the indices may select admits the
updated array. -/
theorem mergeEntriesForUpdate_sound (hvalue : value.Admits new)
    (hidx : Forall₂ (Rep TernaryValue.Admits) vecs indices) (ht : t.Admits array)
    (hi : arrayUpdate array new indices = .ok v)
    (hr : mergeEntriesForUpdate value vecs t = .ok r) : r.Admits v := by
  induction hidx generalizing t array v r with
  | nil =>
    cases hi
    exact admits_merge_right hvalue (derefOption_eq_ok.1 hr)
  | @cons vec index vecs indices hvec _ ih =>
    cases t with
    | leaf a => cases hr
    | node entries =>
      obtain ⟨us, rfl, hus⟩ := rel_node_left ht
      obtain ⟨merged, hmerged, hr⟩ := Result.bind_eq_ok.1 hr
      cases hr
      rcases arrayUpdate_cons_eq_ok hi with ⟨-, rfl⟩ | ⟨element, updated, hsome, hup, rfl⟩
      · exact rel_node.2
          (eachEntry_keeps (fun _ _ _ htu hres => mergeEntriesForUpdate_keeps htu hres) hus
            hmerged)
      · refine rel_node.2 (eachEntry_sound
          (fun _ _ _ htu hres => mergeEntriesForUpdate_keeps htu hres)
          (fun _ _ htu hres => ih htu hup hres) ⟨index.toBools, ?_, toNat_toBools index⟩
          (pairwise_allBitsValues vec) hus hsome hmerged)
        exact mem_allBitsValues.2 hvec

/-- An update admits the array of the interpreter, whatever indices are possible. -/
theorem handleArrayUpdate_sound (ht : t.Admits array) (hvalue : value.Admits new)
    (hidx : Forall₂ (Rep TernaryValue.Admits) vecs indices)
    (hi : arrayUpdate array new indices = .ok v)
    (hr : handleArrayUpdate type t value vecs = .ok r) : r.Admits v := by
  unfold handleArrayUpdate at hr
  split at hr
  · rename_i hknown
    have hvals : vecs.map (fun index => toNat (toKnownBitsValues index)) =
        indices.map Bits.val := by
      rw [all_eq_true] at hknown
      clear hi hr
      induction hidx with
      | nil => rfl
      | @cons vec index vecs indices hvec _ ih =>
        rw [map_cons, map_cons, ← eq_of_isFullyKnown
          (hknown vec mem_cons_self) hvec, toNat_toBools]
        exact congrArg _ (ih fun x hx => hknown x (mem_cons_of_mem _ hx))
    split at hr
    · rw [hvals] at hr
      exact updateKnown_sound ht hvalue hi hr
    · cases hr
  · exact mergeEntriesForUpdate_sound hvalue hidx ht hi hr

end TernaryQueryEngine

end Xls

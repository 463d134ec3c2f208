import Xls.Flattening.Positions
import Xls.Graph.Nodes
import Xls.SelectSimplification.Terminates

/-!
# Xls.SelectSimplification.Sound

Splitting keeps the value of every node (`splitLoop_keeps`). A one-hot select of bits is the
disjunction of the cases whose selector bit is set, a slice of it is the disjunction of the
slices, and the slices of all runs put together are the select again. Which runs the query
engine leads to does not matter.
-/

namespace Xls

open Result Interpreter List LeafTree Except
open Graph (World)
open Graph.World
open Canonicalization (Operands)

/-! ### Disjunctions of bits -/

namespace Bits

/-- Neighbouring slices from a bit on. -/
theorem append_slice_slice (x : Bits) (s r m : Nat) :
    (x.slice (s + r) m).append (x.slice s r) = x.slice s (m + r) := by
  have happend := append_slice (x.slice s (m + r)) r m
  rw [slice_slice x (by omega), slice_slice x (by omega), Nat.add_zero] at happend
  rw [happend]
  exact slice_self (x.slice s (m + r))

/-- The slices of the given widths from a bit on, the lowest first. -/
def runsOf (x : Bits) : Nat → List Nat → List Bits
  | _, [] => []
  | start, r :: rs => x.slice start r :: runsOf x (start + r) rs

theorem concat_runsOf (x : Bits) (start : Nat) (rs : List Nat) :
    concat (x.runsOf start rs).reverse = x.slice start rs.sum := by
  induction rs generalizing start with
  | nil => exact Bits.ext rfl (by simp [slice_val, concat, runsOf, Nat.mod_one])
  | cons r rs ih =>
    rw [runsOf, reverse_cons, concat_append, ih, concat_singleton, append_slice_slice,
      sum_cons, Nat.add_comm]

variable {s r : Nat}

theorem slice_or {x y : Bits} (h : x.width = y.width) (hle : s + r ≤ x.width) :
    (x.or y).slice s r = (x.slice s r).or (y.slice s r) := by
  refine eq_of_get rfl fun i hi => ?_
  have hi' : i < r := hi
  rw [get_slice, get_or (show s + i < x.width by omega),
    get_or (show i < (x.slice s r).width from hi'), get_slice, get_slice, decide_eq_true hi',
    Bool.true_and, Bool.true_and, Bool.true_and]

/-- The disjunction of vectors of one width. -/
def orAll (w : Nat) (xs : List Bits) : Bits := xs.foldl Bits.or (zero w)

theorem foldl_or_width (xs : List Bits) (x : Bits) : (xs.foldl Bits.or x).width = x.width := by
  induction xs generalizing x with
  | nil => rfl
  | cons y xs ih =>
    rw [foldl_cons, ih]
    rfl

theorem slice_foldl_or {xs : List Bits} {x : Bits} (hxs : ∀ y ∈ xs, y.width = x.width)
    (hle : s + r ≤ x.width) :
    (xs.foldl Bits.or x).slice s r = (xs.map fun y => y.slice s r).foldl Bits.or (x.slice s r) := by
  induction xs generalizing x with
  | nil => rfl
  | cons y xs ih =>
    obtain ⟨hy, hxs⟩ := forall_mem_cons.mp hxs
    rw [foldl_cons, map_cons, foldl_cons, ← slice_or hy.symm hle]
    exact ih hxs hle

theorem slice_orAll {w : Nat} {xs : List Bits} (hxs : ∀ y ∈ xs, y.width = w) (hle : s + r ≤ w) :
    (orAll w xs).slice s r = orAll r (xs.map fun y => y.slice s r) := by
  rw [orAll, slice_foldl_or (x := zero w) hxs hle, orAll]
  have hzero : (zero w).slice s r = zero r := Bits.ext rfl (by simp [slice_val])
  rw [hzero]

end Bits

namespace SelectSimplification

/-! ### One-hot selects of bits -/

/-- The cases whose selector bit is set. -/
def selected (s : Bits) (xs : List Bits) : List Bits :=
  ((s.toBools.zip xs).filter Prod.fst).map Prod.snd

theorem activated_leaves (s : Bits) (xs : List Bits) :
    activated s (xs.map .leaf) = (selected s xs).map .leaf := by
  rw [activated, selected, zip_map_right, filter_map, map_map, map_map]
  rfl

theorem selected_map (s : Bits) (xs : List Bits) (f : Bits → Bits) :
    selected s (xs.map f) = (selected s xs).map f := by
  rw [selected, selected, zip_map_right, filter_map, map_map, map_map]
  rfl

variable {xs : List Bits} {s : Bits} {w : Nat}

theorem mem_of_mem_selected {x : Bits} (h : x ∈ selected s xs) : x ∈ xs := by
  obtain ⟨p, hp, rfl⟩ := mem_map.1 h
  exact (of_mem_zip (mem_filter.1 hp).1).2

/-- The disjunction of values of one width, bit by bit. -/
theorem deepOr_leaves (h : ∀ x ∈ xs, x.width = w) :
    deepOr (.bits w) (xs.map .leaf) = .ok (.leaf (Bits.orAll w xs)) := by
  have hcollect : collect LeafTree.leaf? (xs.map LeafTree.leaf) = some xs := by
    clear h
    induction xs with
    | nil => rfl
    | cons x xs ih =>
      rw [map_cons, collect, ih]
      rfl
  have hfold : ∀ acc : Bits, acc.width = w → xs.foldlM (fun acc x => do
      checkThat (acc.width == x.width)
      return Bits.or acc x) acc = (.ok (xs.foldl Bits.or acc) : Result Bits) := by
    clear hcollect
    induction xs with
    | nil => exact fun acc _ => rfl
    | cons x xs ih =>
      intro acc hacc
      obtain ⟨hx, hxs⟩ := forall_mem_cons.mp h
      rw [foldlM_cons, show (acc.width == x.width) = true by rw [hacc, hx, beq_self_eq_true]]
      exact ih hxs (acc.or x) hacc
  show zipAll _ _ (.leaf w) _ = _
  rw [zipAll, hcollect]
  show (xs.foldlM _ (Bits.zero w) >>= fun b => ok (LeafTree.leaf b)) = _
  rw [hfold (Bits.zero w) rfl]
  rfl

/-- The value of a one-hot select of bits. -/
def selectOr (w : Nat) (s : Bits) (xs : List Bits) : Bits := Bits.orAll w (selected s xs)

theorem selectOr_width (w : Nat) (s : Bits) (xs : List Bits) : (selectOr w s xs).width = w :=
  Bits.foldl_or_width _ _

theorem oneHotSel_leaves (hlength : xs.length = s.width) (h : ∀ x ∈ xs, x.width = w) :
    oneHotSel (.bits w) s (xs.map .leaf) = .ok (.leaf (selectOr w s xs)) := by
  have hdrop : s.toBools.drop (xs.map LeafTree.leaf).length =
      List.replicate (s.width - (xs.map LeafTree.leaf).length) false := by
    rw [length_map, hlength, Nat.sub_self, drop_eq_nil_of_le (by simp)]
    rfl
  rw [oneHotSel, decide_eq_true hdrop, checkThat_true, ok_bind,
    activated_leaves, deepOr_leaves fun x hx => h x (mem_of_mem_selected hx)]
  rfl

/-- A slice of a one-hot select is the one-hot select of the slices. -/
theorem slice_selectOr {start width : Nat} (h : ∀ x ∈ xs, x.width = w) (hle : start + width ≤ w) :
    (selectOr w s xs).slice start width =
      selectOr width s (xs.map fun x => x.slice start width) := by
  rw [selectOr, Bits.slice_orAll (fun x hx => h x (mem_of_mem_selected hx)) hle, selectOr,
    selected_map]

/-! ### Every source is found -/

section Total

variable {e : QueryEngine} {g : Graph} {params : List IrType} {rank : Nat → ℚ}

/-- The node has a bits type of the width. -/
def IsBitsNode (g : Graph) (id width : Nat) : Prop :=
  g.nodes[id]?.map Node.type = some (.bits width)

variable {width : Nat} {id : Nat} {cases : List Nat}

theorem IsBitsNode.lt (h : IsBitsNode g id width) : id < g.nodes.length := by
  obtain ⟨n, hn, -⟩ := Option.map_eq_some_iff.mp h
  exact (List.getElem?_eq_some_iff.1 hn).1

theorem bitCountOf_eq (h : IsBitsNode g id width) : bitCountOf g id = .ok width := by
  obtain ⟨n, hn, htype⟩ := Option.map_eq_some_iff.mp h
  rw [bitCountOf, hn]
  show n.type.bitCountOrDie = _
  rw [htype]
  rfl

/-- Each bit of a concatenation is a bit of one of its operands. -/
theorem exists_operandOfBit {os ws : List Nat} (h : Forall₂ (IsBitsNode g) os ws)
    {index : Nat} (hindex : index < ws.sum) : ∃ o i w, operandOfBit g os index = .ok (o, i) ∧
      o ∈ os ∧ IsBitsNode g o w ∧ i < w := by
  induction h generalizing index with
  | nil => exact absurd hindex (Nat.not_lt_zero _)
  | @cons o w os ws ho _ ih =>
    by_cases hlt : index < w
    · refine ⟨o, index, w, ?_, mem_cons_self, ho, hlt⟩
      rw [operandOfBit, bitCountOf_eq ho, ok_bind, if_pos hlt]
      rfl
    · rw [sum_cons] at hindex
      obtain ⟨o', i, w', hi, hmem, ho', hlt'⟩ := @ih (index - w) (by omega)
      refine ⟨o', i, w', ?_, mem_cons_of_mem _ hmem, ho', hlt'⟩
      rw [operandOfBit, bitCountOf_eq ho, ok_bind, if_neg hlt, hi]

/-- Types with a number of bits are bits types. -/
theorem totalBits_eq_some {types : List IrType} {w : Nat} (h : IrType.totalBits types = some w) :
    ∃ ws : List Nat, types = ws.map IrType.bits ∧ ws.sum = w := by
  induction types generalizing w with
  | nil =>
    cases h
    exact ⟨[], rfl, rfl⟩
  | cons t ts ih =>
    cases t with
    | bits k =>
      obtain ⟨rest, hrest, rfl⟩ := Option.map_eq_some_iff.mp h
      obtain ⟨ws, rfl, rfl⟩ := ih hrest
      exact ⟨k :: ws, rfl, rfl⟩
    | _ => cases h

theorem isBitsNodes_of_operandTypes {os ws : List Nat}
    (h : operandTypes g.nodes os = some (ws.map IrType.bits)) : Forall₂ (IsBitsNode g) os ws := by
  have htypes := collect_eq_some.1 h
  rw [forall₂_map_right_iff] at htypes
  exact htypes

section

variable (hverified : g.Verified params) (hranked : g.Ranked rank)
include hverified hranked

/-- The bit of a node has a source, and the fuel is enough to find it: each step goes to a node
of a lower rank. -/
theorem exists_getBitSource {fuel index : Nat} (hfuel : g.below rank id < fuel)
    (hid : IsBitsNode g id width) (hindex : index < width) :
    ∃ source, getBitSource e g fuel id index = .ok source := by
  induction fuel generalizing id index width with
  | zero => exact absurd hfuel (Nat.not_lt_zero _)
  | succ fuel ih =>
    obtain ⟨⟨kind, operands, type⟩, hn, htype⟩ := Option.map_eq_some_iff.mp hid
    obtain ⟨types, htypes, hverify⟩ := hverified id _ hn
    have hrank : ∀ o ∈ operands, ∀ w, IsBitsNode g o w → g.below rank o < fuel := by
      intro o ho w hw
      have hlt := Graph.below_lt hw.lt (hranked id _ hn o ho)
      omega
    dsimp only at htype hverify htypes
    subst htype
    rw [getBitSource, hn]
    simp only [derefOption, ok_bind]
    split
    · rename_i start w a
      have hslice : Forall₂ _ [a] types := collect_eq_some.1 htypes
      cases hslice with
      | cons ha hnil =>
        cases hnil
        rename_i t
        cases t with
        | bits v =>
          simp only [verifyNode, Bool.and_eq_true, decide_eq_true_eq, beq_iff_eq] at hverify
          obtain ⟨hle, hw⟩ := hverify
          cases hw
          exact ih (hrank a mem_cons_self v ha) ha (by omega)
        | _ => simp [verifyNode] at hverify
    · rename_i operands
      have htotal : IrType.totalBits types = some width := by
        simp only [verifyNode] at hverify
        split at hverify
        · rename_i w hw
          rw [beq_iff_eq] at hverify
          cases hverify
          exact hw
        · cases hverify
      obtain ⟨ws, rfl, hsum⟩ := totalBits_eq_some htotal
      have hall := isBitsNodes_of_operandTypes htypes
      obtain ⟨o, i, w, hi, hmem, ho, hlt⟩ := exists_operandOfBit
        (forall₂_reverse_iff.mpr hall) (by rw [sum_reverse, hsum]; exact hindex)
      rw [hi]
      exact ih (hrank o (mem_reverse.1 hmem) w ho) ho hlt
    · rename_i operands value
      cases types with
      | nil =>
        have hconf : value.Conforms (.bits width) := by simpa [verifyNode] using hverify
        obtain ⟨b, rfl, -⟩ := Value.conforms_bits hconf
        exact ⟨_, rfl⟩
      | cons _ _ => simp [verifyNode] at hverify
    · split
      · exact ⟨_, rfl⟩
      · exact ⟨_, rfl⟩

/-- The bits of all cases at one position have their sources. -/
theorem exists_pairs (hcases : ∀ c ∈ cases, IsBitsNode g c width) {i : Nat} (hi : i < width) :
    ∃ pairs, pairsOfBitsWithSameSource e g cases i = .ok pairs := by
  have hsources : ∃ sources, bitSources e g i cases = .ok sources := by
    induction cases with
    | nil => exact ⟨[], rfl⟩
    | cons c cs ih =>
      obtain ⟨hc, hcs⟩ := forall_mem_cons.mp hcases
      obtain ⟨source, hsource⟩ := exists_getBitSource (e := e) hverified hranked
        (Nat.lt_succ_of_le (Graph.below_le g rank c)) hc hi
      obtain ⟨sources, hrest⟩ := ih hcs
      exact ⟨source :: sources, by rw [bitSources, hsource, ok_bind, hrest]; rfl⟩
  obtain ⟨sources, hsources⟩ := hsources
  exact ⟨_, by rw [pairsOfBitsWithSameSource, hsources]; rfl⟩

/-- There is a next run from every bit of the select. -/
theorem exists_nextRun {start : Nat} (hcases : ∀ c ∈ cases, IsBitsNode g c width)
    (hstart : start < width) : ∃ run, nextRun e g cases width start = .ok run := by
  have hpairs := fun i hi => exists_pairs (e := e) hverified hranked hcases (i := i) hi
  have hdistinct : ∀ left i, i + left ≤ width → ∃ run, distinctFrom e g cases left i = .ok run := by
    intro left
    induction left with
    | zero => exact fun i _ => ⟨0, rfl⟩
    | succ left ih =>
      intro i hi
      obtain ⟨pairs, hp⟩ := hpairs i (by omega)
      obtain ⟨run, hrun⟩ := ih (i + 1) (by omega)
      rw [distinctFrom, hp, ok_bind]
      split
      · exact ⟨run + 1, by rw [hrun]; rfl⟩
      · exact ⟨0, rfl⟩
  have hnonDistinct : ∀ left i matched, i + left ≤ width →
      ∃ run, nonDistinctFrom e g cases left i matched = .ok run := by
    intro left
    induction left with
    | zero => exact fun i _ _ => ⟨0, rfl⟩
    | succ left ih =>
      intro i matched hi
      obtain ⟨pairs, hp⟩ := hpairs i (by omega)
      obtain ⟨run, hrun⟩ := ih (i + 1) (some (stillMatching pairs matched)) (by omega)
      rw [nonDistinctFrom, hp, ok_bind]
      split
      · exact ⟨0, rfl⟩
      · exact ⟨run + 1, by rw [hrun]; rfl⟩
  obtain ⟨left, hleft⟩ : ∃ left, width - start = left + 1 := ⟨width - start - 1, by omega⟩
  obtain ⟨pairs, hp⟩ := hpairs start hstart
  obtain ⟨distinct, hd⟩ := hdistinct left (start + 1) (by omega)
  obtain ⟨same, hs⟩ := hnonDistinct left (start + 1) (some pairs) (by omega)
  rw [nextRun, runOfDistinctCaseBits, runOfNonDistinctCaseBits, hleft, distinctFrom, hp,
    ok_bind, hd, nonDistinctFrom, hp, ok_bind]
  by_cases hnil : pairs = []
  · refine ⟨distinct + 1, ?_⟩
    rw [if_pos hnil]
    rfl
  · refine ⟨same + 1, ?_⟩
    rw [if_neg hnil]
    show ((if pairs = [] then pure 0
      else (nonDistinctFrom e g cases left (start + 1) (some pairs) >>= fun run =>
        pure (run + 1)) : Result Nat) >>= fun run =>
          if 0 < run then pure run else error _) = _
    rw [if_neg hnil, hs]
    rfl

end

end Total

/-! ### Values -/

section Values

variable {env : Env} {args : List Value} {w : World env args} {b : ℚ} {e : QueryEngine}
  {start width : Nat} {cases : List Nat} {xs : List Bits}

/-- A slice of a node holds the slice of its value. -/
theorem ensures_bitSlice {c : Nat} {x : Bits} (hc : w.Holds b c x) (hle : start + width ≤ x.width) :
    w.Ensures (Graph.makeNode ⟨.bitSlice start width, [c], .bits width⟩) fun w' id =>
      w'.Holds b id (x.slice start width) := by
  have heval : evalNode env args (.bitSlice start width) (.bits width) [.leaf x] =
      .ok (.leaf (x.slice start width)) := by
    show (checkThat (decide (start + width ≤ x.width)) >>= fun _ =>
      .ok (LeafTree.leaf (x.slice start width))) = _
    rw [decide_eq_true hle]
    rfl
  exact (ensures_node (n := ⟨.bitSlice start width, [c], .bits width⟩) (.cons hc.has .nil)
    (by simp [verifyNode, hle]) heval (Value.conforms_leaf_bits.mpr rfl)).imp
      fun _ _ _ h => h.holds

/-- The slices of all cases. -/
theorem ensures_sliceCases {total : Nat} (hcases : HoldsAll w b cases xs)
    (hxs : ∀ x ∈ xs, x.width = total) (hle : start + width ≤ total) :
    w.Ensures (sliceCases start width cases) fun w' ids =>
      HoldsAll w' b ids (xs.map fun x => x.slice start width) := by
  induction cases generalizing w xs with
  | nil =>
    cases hcases
    exact ensures_pure fun _ _ => .nil
  | cons c cs ih =>
    cases hcases with
    | cons hc hcs =>
      obtain ⟨hx, hxs⟩ := forall_mem_cons.mp hxs
      refine ensures_bind (ensures_bitSlice hc (by omega)) fun w' slice hle' hslice => ?_
      refine ensures_bind (ih (HoldsAll.mono hcs hle') hxs) fun w'' slices hle'' hslices => ?_
      exact ensures_pure fun w₁ h₁ =>
        .cons (hslice.mono (hle''.trans h₁)) (HoldsAll.mono hslices h₁)

/-- The one-hot select of slices has the slice of the value. -/
theorem ensures_sliceOneHotSelect {selector total : Nat} {s : Bits}
    (hselector : w.Holds b selector s) (hcases : HoldsAll w b cases xs)
    (hlength : xs.length = s.width) (hpos : 0 < s.width) (hxs : ∀ x ∈ xs, x.width = total)
    (hle : start + width ≤ total) :
    w.Ensures (sliceOneHotSelect selector cases start width) fun w' id =>
      w'.Holds b id ((selectOr total s xs).slice start width) := by
  refine ensures_bind (ensures_sliceCases hcases hxs hle) fun w' slices h' hslices => ?_
  have hwidths : ∀ x ∈ xs.map fun x => x.slice start width, x.width = width := by
    intro x hx
    obtain ⟨y, -, rfl⟩ := mem_map.1 hx
    rfl
  have heval : evalNode env args .oneHotSel (.bits width)
      (.leaf s :: (xs.map fun x => x.slice start width).map .leaf) =
        .ok (.leaf ((selectOr total s xs).slice start width)) := by
    rw [slice_selectOr hxs hle]
    exact oneHotSel_leaves (by rw [length_map, hlength]) hwidths
  have hverify : verifyNode w'.params .oneHotSel
      (.bits s.width :: (xs.map fun x => x.slice start width).map fun x => .bits x.width)
        (.bits width) = true := by
    simp [verifyNode, hlength, hpos]
  exact (ensures_node (n := ⟨.oneHotSel, selector :: slices, .bits width⟩)
    (.cons (hselector.mono h').has hslices.operands) hverify heval
      (Value.conforms_leaf_bits.mpr rfl)).imp fun _ _ _ h => h.holds

/-- The slices have the runs of the value. -/
theorem ensures_sliceRuns {selector fuel : Nat} {s : Bits} (hselector : w.Holds b selector s)
    (hcases : HoldsAll w b cases xs) (hlength : xs.length = s.width) (hpos : 0 < s.width)
    (hxs : ∀ x ∈ xs, x.width = width) (hstart : start ≤ width) (hfuel : width - start < fuel) :
    w.Ensures (sliceRuns e selector cases width fuel start) fun w' r =>
      ∀ slices, r = some slices → (slices.map Prod.snd).sum = width - start ∧
        HoldsAll w' b (slices.map Prod.fst)
          ((selectOr width s xs).runsOf start (slices.map Prod.snd)) := by
  induction fuel generalizing w start with
  | zero => exact absurd hfuel (Nat.not_lt_zero _)
  | succ fuel ih =>
    rw [sliceRuns]
    split
    · rename_i hlt
      refine ensures_get fun w₁ h₁ => ?_
      have hbits : ∀ c ∈ cases, IsBitsNode w₁.graph c width := by
        intro c hc
        obtain ⟨i, hi, rfl⟩ := getElem_of_mem hc
        have hget := Forall₂.get (HoldsAll.mono hcases h₁) hi
          (by rw [← hcases.length_eq]; exact hi)
        rw [get_eq_getElem, get_eq_getElem] at hget
        rw [IsBitsNode, hget.type, hxs _ (getElem_mem _)]
      obtain ⟨run, hrun⟩ := exists_nextRun (e := e) w₁.verified w₁.ranked hbits hlt
      obtain ⟨hrunPos, hrunLe⟩ := nextRun_spec hrun
      refine ensures_lift hrun ?_
      split
      · exact ensures_pure fun _ _ _ h => by cases h
      · refine ensures_bind (ensures_sliceOneHotSelect (hselector.mono h₁)
          (HoldsAll.mono hcases h₁) hlength hpos hxs (by omega)) fun w₂ slice h₂ hslice => ?_
        have hle := h₁.trans h₂
        refine ensures_bind (ih (hselector.mono hle) (HoldsAll.mono hcases hle) (by omega)
          (by omega)) fun w₃ rest h₃ hrest => ?_
        refine ensures_pure fun w₄ h₄ slices hslices => ?_
        obtain ⟨rest, rfl, rfl⟩ := Option.map_eq_some_iff.mp hslices
        obtain ⟨hsum, hall⟩ := hrest rest rfl
        refine ⟨?_, .cons (hslice.mono (h₃.trans h₄)) (HoldsAll.mono hall h₄)⟩
        rw [map_cons, sum_cons, hsum]
        omega
    · refine ensures_pure fun w' _ slices hslices => ?_
      cases hslices
      refine ⟨?_, .nil⟩
      rw [map_nil, sum_nil]
      omega

/-- The new one-hot selects put together have the value of the old one. -/
theorem ensures_replaceBySlices {id : Nat} {x : Bits} {slices : List (Nat × Nat)}
    (hid : w.Holds b id x) (hsum : (slices.map Prod.snd).sum = x.width)
    (hslices : HoldsAll w (w.rank id) (slices.map Prod.fst) (x.runsOf 0 (slices.map Prod.snd))) :
    w.Ensures (replaceBySlices id slices) fun _ _ => True := by
  have hreverse : HoldsAll w (w.rank id) (slices.map Prod.fst).reverse
      (x.runsOf 0 (slices.map Prod.snd)).reverse := forall₂_reverse_iff.mpr hslices
  have hconcat : Bits.concat (x.runsOf 0 (slices.map Prod.snd)).reverse = x := by
    rw [Bits.concat_runsOf, hsum, Bits.slice_self]
  have htotal : ∀ ys : List Bits, IrType.totalBits (ys.map fun y => .bits y.width) =
      some (Bits.concat ys).width := by
    intro ys
    induction ys with
    | nil => rfl
    | cons y ys ih =>
      rw [map_cons, IrType.totalBits, ih]
      rfl
  have heval : evalNode env args .concat (.bits (slices.map Prod.snd).sum)
      ((x.runsOf 0 (slices.map Prod.snd)).reverse.map .leaf) = .ok (.leaf x) := by
    show (Interpreter.bitsVector _ >>= fun xs => ok (LeafTree.leaf (Bits.concat xs))) = _
    rw [bitsVector_leaves, ok_bind, hconcat]
  have hverify : verifyNode w.params .concat
      ((x.runsOf 0 (slices.map Prod.snd)).reverse.map fun y => .bits y.width)
        (.bits (slices.map Prod.snd).sum) = true := by
    simp only [verifyNode, htotal, hconcat, hsum, beq_self_eq_true]
  refine ensures_bind (ensures_node
    (n := ⟨.concat, (slices.map Prod.fst).reverse, .bits (slices.map Prod.snd).sum⟩)
    hreverse.operands hverify heval (Value.conforms_leaf_bits.mpr hsum.symm))
    fun w' concat hle hnew => ?_
  have hnew' : w'.Holds (w'.rank id) concat x := by
    refine ⟨?_, hnew.value, ?_⟩
    · rw [hnew.type, hsum]
    · rw [hle.rank id hid.lt]
      exact hnew.rank
  refine ensures_bind (ensures_replaceUsesWith (hid.mono hle) hnew') fun w'' _ _ _ => ?_
  exact ensures_pure fun _ _ => trivial

/-- A one-hot select is split, or kept, with every node keeping its value. -/
theorem maybeSplitOneHotSelect_sound {id : Nat} (h : IsOneHotSelect w.graph id) :
    ∃ new, ∃ w' : World env args,
      maybeSplitOneHotSelect e id w.graph = .ok (new, w'.graph) ∧ w ≤ w' := by
  obtain ⟨_, hshape⟩ := h
  obtain ⟨⟨kind, operands, type⟩, hn, heq⟩ := Option.map_eq_some_iff.mp hshape
  cases heq
  obtain ⟨types, ops, v, hat⟩ := Canonicalization.exists_at hn
  have hverified := hat.verified
  have heval := hat.eval
  have hoperands := hat.operands
  dsimp only at hverified heval hoperands
  cases hoperands with
  | nil => simp [verifyNode] at hverified
  | @cons selector t u cases ts us hselector hcases =>
    obtain ⟨k, rfl⟩ : ∃ k, t = .bits k := by
      cases t with
      | bits k => exact ⟨k, rfl⟩
      | _ => simp [verifyNode] at hverified
    obtain ⟨s, rfl, rfl⟩ := Canonicalization.has_bits hselector
    simp only [verifyNode, Bool.and_eq_true, decide_eq_true_eq, all_eq_true,
      beq_iff_eq] at hverified
    obtain ⟨⟨hlength, hpos⟩, htypes⟩ := hverified
    by_cases hbits : ∃ width, type = .bits width ∧ width ≤ 64
    · obtain ⟨width, rfl, hle⟩ := hbits
      obtain ⟨xs, hxs, rfl, rfl⟩ := holdsAll_of_operands hcases fun t ht => by
        rw [htypes t ht]
        rfl
      have hwidths : ∀ x ∈ xs, x.width = width := fun x hx =>
        IrType.bits.inj (htypes _ (mem_map_of_mem hx))
      have hlength' : xs.length = s.width := by rw [← hlength, length_map]
      have hvalue : v = .leaf (selectOr width s xs) := by
        have hsel := oneHotSel_leaves hlength' hwidths
        exact ok.inj ((show oneHotSel (.bits width) s (xs.map .leaf) = .ok v
          from heval).symm.trans hsel)
      have hid : w.Holds (w.rank id + 1) id (selectOr width s xs) := by
        refine ⟨?_, by rw [hat.value, hvalue], lt_add_one _⟩
        rw [hn, selectOr_width]
        rfl
      have hparts : splitOperands ⟨.oneHotSel, selector :: cases, .bits width⟩ =
          .ok (some (selector, cases, width)) := by
        show (if 64 < width then _ else _ : Result _) = _
        rw [if_neg (by omega)]
      have hfuel : width - 0 < width + 1 := by omega
      obtain ⟨slices, w₁, hslicesRun, hle₁, hslices⟩ := ensures_sliceRuns (e := e) hselector.holds
        hxs hlength' hpos hwidths (Nat.zero_le _) hfuel w (le_refl w)
      cases slices with
      | none =>
        refine ⟨[], w₁, ?_, hle₁⟩
        show (Graph.getNode id w.graph >>= fun p => _) = _
        rw [Graph.getNode, hn]
        show ((splitOperands ⟨.oneHotSel, selector :: cases, .bits width⟩ >>= fun parts =>
          pure (parts, w.graph)) >>= fun p => _) = _
        rw [hparts]
        show (sliceRuns e selector cases width (width + 1) 0 w.graph >>= fun p => _) = _
        rw [hslicesRun]
        rfl
      | some slices =>
        obtain ⟨hsum, hall⟩ := hslices slices rfl
        rw [← hle₁.rank id hid.lt] at hall
        have hid' : w₁.Holds (w.rank id + 1) id (selectOr width s xs) := hid.mono hle₁
        obtain ⟨new, w', hsplit, hle', -⟩ := ensures_replaceBySlices hid'
          (by rw [hsum, selectOr_width, Nat.sub_zero]) hall w₁ (le_refl w₁)
        refine ⟨new, w', ?_, hle₁.trans hle'⟩
        show (Graph.getNode id w.graph >>= fun p => _) = _
        rw [Graph.getNode, hn]
        show ((splitOperands ⟨.oneHotSel, selector :: cases, .bits width⟩ >>= fun parts =>
          pure (parts, w.graph)) >>= fun p => _) = _
        rw [hparts]
        show (sliceRuns e selector cases width (width + 1) 0 w.graph >>= fun p => _) = _
        rw [hslicesRun]
        exact hsplit
    · have hparts : splitOperands ⟨.oneHotSel, selector :: cases, type⟩ = .ok none := by
        cases type with
        | bits width =>
          show (if 64 < width then _ else _ : Result _) = _
          rw [if_pos]
          exact Nat.lt_of_not_le fun hle => hbits ⟨width, rfl, hle⟩
        | _ => rfl
      refine ⟨[], w, ?_, le_refl w⟩
      show (Graph.getNode id w.graph >>= fun p => _) = _
      rw [Graph.getNode, hn]
      show ((splitOperands ⟨.oneHotSel, selector :: cases, type⟩ >>= fun parts =>
        pure (parts, w.graph)) >>= fun p => _) = _
      rw [hparts]
      rfl

/-- The loop keeps the value of every node. -/
theorem splitLoop_sound {fuel : Nat} {worklist : List Nat} {changed : Bool}
    (hall : ∀ id ∈ worklist, IsOneHotSelect w.graph id) {r : Result (Bool × Graph)}
    (h : splitLoop e fuel worklist changed w.graph = some r) :
    ∃ changed', ∃ w' : World env args, r = .ok (changed', w'.graph) ∧ w ≤ w' := by
  induction fuel generalizing w worklist changed with
  | zero => cases h
  | succ fuel ih =>
    cases worklist with
    | nil =>
      cases h
      exact ⟨changed, w, rfl, le_refl w⟩
    | cons id worklist =>
      obtain ⟨hid, hworklist⟩ := forall_mem_cons.mp hall
      obtain ⟨new, w', hsplit, hle⟩ := maybeSplitOneHotSelect_sound (e := e) hid
      obtain ⟨hgrows, hnew, -⟩ := maybeSplitOneHotSelect_spec hsplit
      simp only [splitLoop, hsplit] at h
      have hall' : ∀ i ∈ worklist ++ new, IsOneHotSelect w'.graph i := fun i hi =>
        (mem_append.1 hi).elim (fun hi => ((hworklist i hi).mono hgrows).1) (hnew i)
      obtain ⟨changed', w'', hr, hle'⟩ := ih hall' h
      exact ⟨changed', w'', hr, hle.trans hle'⟩

end Values

/-- The worklist loop ends on every graph of a function. On all arguments on which the graph has
values, the loop succeeds, every node keeps its value, and so does the return value. -/
theorem splitLoop_keeps (g : Graph) (e : QueryEngine) : ∃ fuel r,
    splitLoop e fuel (oneHotSelects g) false g = some r ∧
      ∀ (env : Env) (args : List Value) (w : World env args), w.graph = g →
        ∃ changed, ∃ w' : World env args, r = .ok (changed, w'.graph) ∧ w ≤ w' ∧
          ∀ v, w.vals[w.graph.returnValue]? = some v →
            w'.vals[w'.graph.returnValue]? = some v := by
  have hall : ∀ id ∈ oneHotSelects g, IsOneHotSelect g id := fun id hid => isOneHotSelect_of_mem hid
  obtain ⟨r, hr⟩ := splitLoop_ends e false hall (Nat.lt_succ_self _)
  refine ⟨_, r, hr, fun env args w hw => ?_⟩
  subst hw
  obtain ⟨changed, w', hw', hle⟩ := splitLoop_sound hall hr
  exact ⟨changed, w', hw', hle, hle.returns⟩

/-- A select of two numbers whose upper halves are the same and whose lower halves differ. -/
def sharedHalf : Function where
  params := [.bits 2]
  nodes := [⟨.param 0, [], .bits 2⟩, ⟨.literal (.leaf (Bits.ofNat 4 13)), [], .bits 4⟩,
    ⟨.literal (.leaf (Bits.ofNat 4 14)), [], .bits 4⟩, ⟨.oneHotSel, [0, 1, 2], .bits 4⟩]
  returnValue := 3
  verified := by decide
  returnValue_lt := by decide

/-- The loop on the select of thirteen and fourteen. -/
theorem splitLoop_keeps_sharedHalf :
    ∃ fuel changed g, splitLoop ⟨fun _ _ _ => false, fun _ _ _ => false⟩ fuel
      (oneHotSelects sharedHalf.graph) false sharedHalf.graph = some (.ok (changed, g)) := by
  have hrun : Interpreter.run (packageEnv []) sharedHalf [.leaf (Bits.ofNat 2 1)] =
      .ok [.leaf (Bits.ofNat 2 1), .leaf (Bits.ofNat 4 13), .leaf (Bits.ofNat 4 14),
        .leaf (Bits.ofNat 4 13)] := rfl
  obtain ⟨fuel, r, hloop, hkeeps⟩ := splitLoop_keeps sharedHalf.graph
    ⟨fun _ _ _ => false, fun _ _ _ => false⟩
  obtain ⟨changed, w', rfl, -⟩ := hkeeps _ _ (World.ofRun hrun) rfl
  exact ⟨fuel, changed, w'.graph, hloop⟩

/-- The select is split into its halves; it stays in the graph, but has no users. -/
example : (splitLoop ⟨fun _ _ _ => false, fun _ _ _ => false⟩ 10 [3] false sharedHalf.graph).map
    (fun r => r.map fun p => (p.1, (oneHotSelects p.2).length)) = some (.ok (true, 3)) := rfl

end SelectSimplification

end Xls

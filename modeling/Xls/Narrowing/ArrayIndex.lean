import Xls.Graph.Nodes
import Xls.Narrowing

/-!
# Xls.Narrowing.ArrayIndex

What the select chain for an array index is worth (`maybeConvertArrayIndexToSelect_exact`).
It is the element at the values of the indices if these are among the possible indexes, and
the element of the first case otherwise. Only indexes within the dimension of the array are
possible, so the chain is wrong where an index is out of bounds, unless the element that the
index is clamped to happens to be that of the first case.
-/

namespace Xls

open Interpreter List Bits Except
open Graph (World)
open Graph.World

namespace Narrowing

/-! ### Elements of an array -/

/-- The type is an array of the dimension, with elements of a type. -/
inductive Shaped : IrType → List Nat → IrType → Prop
  | nil (t : IrType) : Shaped t [] t
  | cons {t element : IrType} {size : Nat} {dims : List Nat} (h : Shaped t dims element) :
      Shaped (.array size t) (size :: dims) element

variable {t element : IrType} {dims : List Nat} {xs : List Bits} {intervals : List Intervals}

/-- A type that can be indexed has its dimensions. -/
theorem shaped_of_indexedElementType {n : Nat} (h : t.indexedElementType n = some element) :
    ∃ dims, dimension t n = .ok dims ∧ dims.length = n ∧ Shaped t dims element := by
  induction n generalizing t with
  | zero =>
    obtain rfl : t = element := by simpa [IrType.indexedElementType] using h
    exact ⟨[], by simp [dimension], rfl, .nil t⟩
  | succ n ih =>
    cases t with
    | array size t =>
      obtain ⟨dims, hdims, hlength, hshaped⟩ := ih h
      refine ⟨size :: dims, ?_, by rw [length_cons, hlength], .cons hshaped⟩
      rw [dimension, hdims]
      rfl
    | _ => simp [IrType.indexedElementType] at h

variable {a : Value} {digits : List Nat}

theorem conforms_array {size : Nat} (h : a.Conforms (.array size t)) :
    a.children.length = size ∧ ∀ e ∈ a.children, Value.Conforms e t := by
  obtain ⟨es, rfl, hes⟩ := LeafTree.rel_node_right (show LeafTree.Rel _ a
    (.node (List.replicate size t.shape)) from h)
  refine ⟨hes.length_eq.trans (length_replicate ..), fun e he => ?_⟩
  obtain ⟨i, hi, rfl⟩ := getElem_of_mem he
  have hget := Forall₂.get hes hi (by rw [← hes.length_eq]; exact hi)
  rwa [get_eq_getElem, get_eq_getElem, getElem_replicate] at hget

/-- The element at some indexes, which are clamped, if no size is zero. -/
theorem Shaped.exists_element (h : Shaped t dims element) (ha : a.Conforms t)
    (hpos : ∀ d ∈ dims, 0 < d) (hlength : xs.length = dims.length) :
    ∃ v, arrayIndex a xs = .ok v ∧ v.Conforms element := by
  induction h generalizing a xs with
  | nil t =>
    obtain rfl := length_eq_zero_iff.mp hlength
    exact ⟨a, rfl, ha⟩
  | @cons t element size dims h ih =>
    cases xs with
    | nil => cases hlength
    | cons x xs =>
      obtain ⟨hsize, hconforms⟩ := conforms_array ha
      have hlt : x.bounded (a.children.length - 1) < a.children.length := by
        have hsize' := hpos size mem_cons_self
        have hbounded := Nat.min_le_right x.val (a.children.length - 1)
        rw [bounded]
        omega
      obtain ⟨v, hv, hvc⟩ := ih (hconforms _ (getElem_mem hlt))
        (fun d hd => hpos d (mem_cons_of_mem _ hd)) (Nat.succ.inj hlength)
      refine ⟨v, ?_, hvc⟩
      rw [arrayIndex, foldlM_cons, arrayElement, getElem?_eq_getElem hlt]
      exact hv

/-- An array that was indexed has no size of zero. -/
theorem Shaped.pos (h : Shaped t dims element) {v : Value} (ha : a.Conforms t)
    (hlength : xs.length = dims.length) (hv : arrayIndex a xs = .ok v) : ∀ d ∈ dims, 0 < d := by
  induction h generalizing a xs with
  | nil t => exact fun d hd => absurd hd not_mem_nil
  | @cons t element size dims h ih =>
    cases xs with
    | nil => cases hlength
    | cons x xs =>
      obtain ⟨hsize, hconforms⟩ := conforms_array ha
      rw [arrayIndex, foldlM_cons] at hv
      obtain ⟨e, he, hv⟩ := Result.bind_eq_ok.1 hv
      obtain ⟨hlt, rfl⟩ := List.getElem?_eq_some_iff.1 (derefOption_eq_ok.1 he)
      refine forall_mem_cons.mpr ⟨by omega, ?_⟩
      exact ih (hconforms _ (getElem_mem hlt)) (Nat.succ.inj hlength) hv

/-! ### Possible indexes -/

/-- Every index is within its size. -/
def InBounds (xs : List Bits) (dims : List Nat) : Prop :=
  Forall₂ (fun (x : Bits) d => x.val < d) xs dims

/-- The interval sets contain the indexes. -/
def Contained (xs : List Bits) (intervals : List Intervals) : Prop :=
  Forall₂ (fun (x : Bits) (s : Intervals) => x.width = s.1 ∧ s.2.Covers x.val) xs intervals

/-- The numbers of a mixed radix system with positive radices. -/
theorem mem_mixedRadix (hpos : ∀ d ∈ dims, 0 < d) :
    digits ∈ mixedRadix dims ↔ Forall₂ (· < ·) digits dims := by
  induction dims generalizing digits with
  | nil => simp [mixedRadix]
  | cons d dims ih =>
    obtain ⟨hd, hdims⟩ := forall_mem_cons.mp hpos
    have hmax : max d 1 = d := Nat.max_eq_left hd
    simp only [mixedRadix, mem_flatMap, mem_map, mem_range, hmax]
    constructor
    · rintro ⟨rest, hrest, i, hi, rfl⟩
      exact .cons hi ((ih hdims).1 hrest)
    · intro h
      cases h with
      | cons hi hrest => exact ⟨_, (ih hdims).2 hrest, _, hi, rfl⟩

/-- Indexes as bits have the widths of the interval sets. -/
theorem contained_of_indexesBits {bs : List Bits} (hlength : digits.length = intervals.length)
    (h : indexesBits digits intervals = some bs) :
    Contained bs intervals ∧ bs.map Bits.val = digits := by
  induction digits generalizing intervals bs with
  | nil =>
    obtain rfl := length_eq_zero_iff.mp hlength.symm
    cases h
    exact ⟨.nil, rfl⟩
  | cons i is ih =>
    cases intervals with
    | nil => cases hlength
    | cons s ss =>
      rw [indexesBits] at h
      split at h
      · rename_i hfits
        obtain ⟨rest, hrest, rfl⟩ := Option.map_eq_some_iff.mp h
        obtain ⟨hcontained, hval⟩ := ih (Nat.succ.inj hlength) hrest
        have hi := ofNat_val_of_lt (lt_two_pow_iff_minBitCountUnsigned.mpr hfits.1)
        refine ⟨.cons ⟨rfl, ?_⟩ hcontained, ?_⟩
        · rw [hi]
          exact hfits.2
        · rw [map_cons, hi, hval]
      · cases h

/-- Indices within their sets are found. -/
theorem indexesBits_of_contained (h : Contained xs intervals) :
    indexesBits (xs.map Bits.val) intervals = some xs := by
  induction h with
  | nil => rfl
  | @cons x s xs ss h _ ih =>
    obtain ⟨hwidth, hcovers⟩ := h
    have hfits : minBitCountUnsigned x.val ≤ s.1 := by
      rw [← hwidth]
      exact lt_two_pow_iff_minBitCountUnsigned.mp x.isLt
    rw [map_cons, indexesBits, if_pos ⟨hfits, hcovers⟩, ih, ← hwidth, ofNat_self]
    rfl

/-- The possible indexes are those of the interval sets that are in bounds. -/
theorem mem_possibleIndexes (hpos : ∀ d ∈ dims, 0 < d) (hlength : dims.length = intervals.length) :
    xs ∈ possibleIndexes dims intervals ↔ Contained xs intervals ∧ InBounds xs dims := by
  rw [possibleIndexes, mem_filterMap]
  constructor
  · rintro ⟨digits, hdigits, hbits⟩
    rw [mem_mixedRadix hpos] at hdigits
    obtain ⟨hcontained, rfl⟩ :=
      contained_of_indexesBits (hdigits.length_eq.trans hlength) hbits
    exact ⟨hcontained, forall₂_map_left_iff.mp hdigits⟩
  · rintro ⟨hcontained, hbounds⟩
    refine ⟨xs.map Bits.val, ?_, indexesBits_of_contained hcontained⟩
    rw [mem_mixedRadix hpos]
    exact forall₂_map_left_iff.mpr hbounds

/-! ### Nodes of the chain -/

section Nodes

variable {env : Env} {args : List Value} {w : World env args} {b : ℚ}

/-- A condition as a bit. -/
def bit (p : Bool) : Bits := Bits.ofNat 1 p.toNat

theorem and_bit (p q : Bool) : (bit p).and (bit q) = bit (p && q) := by
  cases p <;> cases q <;> rfl

/-- The conjunction of bits, as the node computes it. -/
theorem naryFold_and (p : Bool) (ps : List Bool) :
    naryFold Bits.and (bit p :: ps.map bit) = .ok (bit (p && ps.all id)) := by
  rw [naryFold]
  induction ps generalizing p with
  | nil =>
    rw [all_nil, Bool.and_true]
    rfl
  | cons q ps ih =>
    rw [map_cons, foldlM_cons]
    show (ok ((bit p).and (bit q)) >>= _) = _
    rw [and_bit, Result.ok_bind, ih (p && q), all_cons, Bool.and_assoc]
    rfl

theorem ensures_makeLiterals (w : World env args) (b : ℚ) (xs : List Bits) :
    w.Ensures (makeLiterals xs) fun w' ids => HoldsAll w' b ids xs := by
  induction xs generalizing w with
  | nil => exact ensures_pure fun _ _ => .nil
  | cons x xs ih =>
    refine ensures_bind (ensures_literal x b) fun w' literal hle hliteral => ?_
    refine ensures_bind (ih w') fun w'' literals hle' hliterals => ?_
    exact ensures_pure fun w₁ h₁ => .cons (hliteral.mono (hle'.trans h₁)) (hliterals.mono h₁)

/-- The comparisons of the indices with the literals. -/
def equalities (xs ts : List Bits) : List Bool := List.zipWith (fun x t => decide (x = t)) xs ts

variable {xs ts : List Bits}

/-- All equalities hold exactly if the indices are the literals. -/
theorem all_equalities (h : xs.length = ts.length) :
    (equalities xs ts).all id = decide (xs = ts) := by
  induction xs generalizing ts with
  | nil =>
    obtain rfl := length_eq_zero_iff.mp h.symm
    rfl
  | cons x xs ih =>
    cases ts with
    | nil => cases h
    | cons t ts =>
      have hih := ih (Nat.succ.inj h)
      rw [equalities] at hih ⊢
      rw [zipWith_cons_cons, all_cons, hih]
      simp

/-- The checks compare each index with its literal. -/
theorem ensures_makeEqualityChecks {indices literals : List Nat}
    (hindices : HoldsAll w b indices xs) (hliterals : HoldsAll w b literals ts)
    (hwidth : Forall₂ (fun (x t : Bits) => x.width = t.width) xs ts) :
    w.Ensures (makeEqualityChecks indices literals) fun w' ids =>
      HoldsAll w' b ids ((equalities xs ts).map bit) := by
  induction hwidth generalizing w indices literals with
  | nil =>
    cases hindices
    exact ensures_pure fun _ _ => .nil
  | @cons x t xs ts h _ ih =>
    cases hindices with
    | cons hx hindices =>
      cases hliterals with
      | cons ht hliterals =>
        rename_i index _ literal _
        have hcheck : w.Ensures (Graph.makeNode ⟨.compare .eq, [index, literal], .bits 1⟩)
            fun w' id => w'.Holds b id (bit (decide (x = t))) := by
          refine ensures_binary hx ht rfl ?_ ?_
          · simp [verifyNode, h]
          · show (ok (LeafTree.leaf (Bits.ofNat 1
              (decide (LeafTree.leaf x = LeafTree.leaf t)).toNat)) : Result Value) = _
            rw [bit]
            simp
        refine ensures_bind hcheck fun w' check hle hcheck => ?_
        refine ensures_bind (ih (HoldsAll.mono hindices hle) (HoldsAll.mono hliterals hle))
          fun w'' checks hle' hchecks => ?_
        exact ensures_pure fun w₁ h₁ =>
          .cons (hcheck.mono (hle'.trans h₁)) (hchecks.mono h₁)

/-- The conjunction of the checks as a node. -/
theorem ensures_and {p : Bool} {ps : List Bool} {ids : List Nat}
    (h : HoldsAll w b ids ((p :: ps).map bit)) :
    w.Ensures (Graph.makeNode ⟨.nary .and, ids, .bits 1⟩) fun w' condition =>
      w'.Holds b condition (bit ((p :: ps).all id)) := by
  have heval : evalNode env args (.nary .and) (.bits 1)
      (((p :: ps).map bit).map .leaf) = .ok (.leaf (bit ((p :: ps).all id))) := by
    show (Interpreter.bitsVector _ >>= fun xs => naryFold Bits.and xs >>= fun r =>
      ok (LeafTree.leaf r)) = _
    rw [bitsVector_leaves, Result.ok_bind, map_cons, naryFold_and]
    rfl
  refine (ensures_node (n := ⟨.nary .and, ids, .bits 1⟩) h.operands ?_ heval
    (Value.conforms_leaf_bits.mpr rfl)).imp fun _ _ _ hid => hid.holds
  simp [verifyNode, IrType.isBits, bit]

/-- A case with its condition: the element at the indexes, and whether they are the values of
the index expressions. -/
def IsCase (w : World env args) (b : ℚ) (a : Value) (element : IrType) (xs : List Bits)
    (case : Nat × Nat) (ts : List Bits) : Prop :=
  (∃ v, arrayIndex a ts = .ok v ∧ v.Conforms element ∧ w.Has b case.1 element v) ∧
    w.Holds b case.2 (bit (decide (xs = ts)))

theorem IsCase.mono {w' : World env args} {a : Value} {element : IrType} {case : Nat × Nat}
    (h : IsCase w b a element xs case ts) (hle : w ≤ w') : IsCase w' b a element xs case ts := by
  obtain ⟨⟨v, hv, hconf, hcase⟩, hcondition⟩ := h
  exact ⟨⟨v, hv, hconf, hcase.mono hle⟩, hcondition.mono hle⟩

section Chain

variable {t element : IrType} {dims : List Nat} {a : Value} {array : Nat} {indices : List Nat}
  {xs : List Bits}

/-- One possible index: the element there if the indices have these values. -/
theorem ensures_handlePossibleIndex (hshaped : Shaped t dims element) (hpos : ∀ d ∈ dims, 0 < d)
    (htype : t.indexedElementType dims.length = some element) (harray : w.Has b array t a)
    (hconf : a.Conforms t) (hindices : HoldsAll w b indices xs) (hxs : xs ≠ [])
    (hlength : xs.length = dims.length) {ts : List Bits}
    (hwidth : Forall₂ (fun (x t : Bits) => x.width = t.width) xs ts) :
    w.Ensures (handlePossibleIndex array indices element ts) fun w' case =>
      IsCase w' b a element xs case ts := by
  obtain ⟨v, hv, hvc⟩ := hshaped.exists_element hconf hpos (hwidth.length_eq.symm.trans hlength)
  refine ensures_bind (ensures_makeLiterals w b ts) fun w₁ literals h₁ hliterals => ?_
  have hverify : verifyNode w₁.params .arrayIndex (t :: ts.map fun x => .bits x.width) element =
      true := by
    have hlength' : ts.length = dims.length := hwidth.length_eq.symm.trans hlength
    simp [verifyNode, IrType.isBits, hlength', htype]
  have heval : evalNode env args .arrayIndex element (a :: ts.map .leaf) = .ok v := by
    show (Interpreter.bitsVector _ >>= fun is => arrayIndex a is) = _
    rw [bitsVector_leaves]
    exact hv
  refine ensures_bind (ensures_node (n := ⟨.arrayIndex, array :: literals, element⟩)
    (.cons (harray.mono h₁) hliterals.operands) hverify heval hvc) fun w₂ case h₂ hcase => ?_
  refine ensures_bind (ensures_makeEqualityChecks (hindices.mono (h₁.trans h₂))
    (hliterals.mono h₂) hwidth) fun w₃ checks h₃ hchecks => ?_
  have hall := all_equalities hwidth.length_eq
  cases heq : equalities xs ts with
  | nil =>
    cases hwidth with
    | nil => exact absurd rfl hxs
    | cons _ _ => cases heq
  | cons p ps =>
    rw [heq] at hchecks hall
    refine ensures_bind (ensures_and hchecks) fun w₄ condition h₄ hcondition => ?_
    rw [hall] at hcondition
    exact ensures_pure fun w₅ h₅ =>
      ⟨⟨v, hv, hvc, hcase.mono (h₃.trans (h₄.trans h₅))⟩, hcondition.mono h₅⟩

variable {possible : List (List Bits)}

/-- The chain over the possible indices has the value of the array index. -/
theorem ensures_handlePossibleIndexes (hshaped : Shaped t dims element) (hpos : ∀ d ∈ dims, 0 < d)
    (htype : t.indexedElementType dims.length = some element) (harray : w.Has b array t a)
    (hconf : a.Conforms t) (hindices : HoldsAll w b indices xs) (hxs : xs ≠ [])
    (hlength : xs.length = dims.length)
    (hwidth : ∀ ts ∈ possible, Forall₂ (fun (x t : Bits) => x.width = t.width) xs ts) :
    w.Ensures (handlePossibleIndexes array indices element possible) fun w' cases =>
      Forall₂ (IsCase w' b a element xs) cases possible := by
  induction possible generalizing w with
  | nil => exact ensures_pure fun _ _ => .nil
  | cons ts possible ih =>
    obtain ⟨hts, hpossible⟩ := forall_mem_cons.mp hwidth
    refine ensures_bind (ensures_handlePossibleIndex hshaped hpos htype harray hconf hindices hxs
      hlength hts) fun w₁ case h₁ hcase => ?_
    refine ensures_bind (ih (harray.mono h₁) (hindices.mono h₁) hpossible)
      fun w₂ cases h₂ hcases => ?_
    refine ensures_pure fun w₃ h₃ => .cons (hcase.mono (h₂.trans h₃)) ?_
    exact Forall₂.imp (fun _ _ h => h.mono h₃) hcases

theorem evalNode_sel (p : Bool) (u v : Value) (type : IrType) :
    evalNode env args (.sel false) type [.leaf (bit p), u, v] = .ok (if p then v else u) := by
  cases p <;> rfl

/-- The selects pick the element at the values of the indices once these are the indexes of a
case. -/
theorem ensures_makeSelects {cases : List (Nat × Nat)}
    (hcases : Forall₂ (IsCase w b a element xs) cases possible) {chain : Nat}
    {current : List Bits} {v : Value} (hv : arrayIndex a current = .ok v)
    (hconf : v.Conforms element) (hchain : w.Has b chain element v) :
    w.Ensures (makeSelects element chain cases) fun w' root => ∃ u, w'.Has b root element u ∧
      arrayIndex a (if xs ∈ possible then xs else current) = .ok u := by
  induction possible generalizing w cases chain current v with
  | nil =>
    cases hcases
    exact ensures_pure fun w' hle => ⟨v, hchain.mono hle, hv⟩
  | cons ts possible ih =>
    cases hcases with
    | @cons case _ cases _ hcase hcases =>
      obtain ⟨⟨u, hu, huc, hcase⟩, hcondition⟩ := hcase
      have hselect : w.Ensures (Graph.makeNode ⟨.sel false, [case.2, chain, case.1], element⟩)
          fun w' id => w'.Has b id element (if xs = ts then u else v) := by
        have hselector : verifySelector 1 2 false = true := by decide
        have hconforms : Value.Conforms (if xs = ts then u else v) element := by
          split
          · exact huc
          · exact hconf
        refine ensures_node (n := ⟨.sel false, [case.2, chain, case.1], element⟩)
          (.cons hcondition.has (.cons hchain (.cons hcase .nil)))
          (by simp [verifyNode, bit, hselector]) ?_ hconforms
        rw [evalNode_sel]
        simp
      refine ensures_bind hselect fun w' id hle hid => ?_
      have hcases' := Forall₂.imp (fun _ _ h => IsCase.mono h hle) hcases
      by_cases heq : xs = ts
      · subst heq
        rw [if_pos rfl] at hid
        refine (ih hcases' hu huc hid).imp fun w'' root _ hroot => ?_
        simpa only [ite_self, mem_cons_self, if_true] using hroot
      · rw [if_neg heq] at hid
        refine (ih hcases' hv hconf hid).imp fun w'' root _ hroot => ?_
        simpa only [mem_cons, heq, false_or] using hroot

end Chain

end Nodes

/-! ### The chain -/

section Exact

variable {env : Env} {args : List Value} {w : World env args} {getIntervals : Nat → Intervals}
  {threshold : Int} {id array : Nat} {indices : List Nat} {element : IrType} {a v : Value}
  {xs : List Bits}

/-- The value that an index node reads from the graph. -/
theorem exists_arrayIndex (hnode : w.graph.nodes[id]? =
      some ⟨.arrayIndex, array :: indices, element⟩) (harray : w.vals[array]? = some a)
    (hindices : Forall₂ (fun i (x : Bits) => w.vals[i]? = some (.leaf x)) indices xs)
    (hv : w.vals[id]? = some v) : ∃ n, w.graph.nodes[array]? = some n ∧
      n.type.indexedElementType indices.length = some element ∧ a.Conforms n.type ∧
      w.Has (w.rank id) array n.type a ∧ HoldsAll w (w.rank id) indices xs ∧
      arrayIndex a xs = .ok v ∧ v.Conforms element := by
  obtain ⟨types, ops, v', h⟩ := Canonicalization.exists_at hnode
  cases h.value.symm.trans hv
  have hverified := h.verified
  have heval := h.eval
  have hoperands := h.operands
  dsimp only at hverified heval hoperands
  cases hoperands with
  | @cons _ t u _ ts us hu hus =>
    cases hu.value.symm.trans harray
    obtain ⟨n, hn, rfl⟩ := Option.map_eq_some_iff.mp hu.type
    simp only [verifyNode, Bool.and_eq_true, all_eq_true, beq_iff_eq] at hverified
    obtain ⟨hbits, helement⟩ := hverified
    obtain ⟨ys, hholds, rfl, rfl⟩ := holdsAll_of_operands hus hbits
    obtain rfl : xs = ys := by
      clear heval helement hnode h hbits hus
      induction hholds generalizing xs with
      | nil =>
        cases hindices
        rfl
      | cons hy _ ih =>
        cases hindices with
        | cons hx hxs =>
          cases hy.value.symm.trans hx
          rw [ih hxs]
    rw [length_map, ← hholds.length_eq] at helement
    refine ⟨n, hn, helement, conforms hn harray, hu, hholds, ?_, h.conforms⟩
    change (Interpreter.bitsVector _ >>= fun is => arrayIndex a is) = _ at heval
    rwa [bitsVector_leaves] at heval

theorem width_of_contained {intervals : List Intervals} {ts : List Bits}
    (h : Contained xs intervals) (h' : Contained ts intervals) :
    Forall₂ (fun (x t : Bits) => x.width = t.width) xs ts := by
  induction h generalizing ts with
  | nil =>
    cases h'
    exact .nil
  | cons hx _ ih =>
    cases h' with
    | cons ht hts => exact .cons (hx.1.trans ht.1.symm) (ih hts)

/-- An array index is kept, or a chain takes its place. The chain has the value of the array index
exactly if the indices are in bounds, or the element that they are clamped to equals the
element at the first of the possible indexes. -/
theorem maybeConvertArrayIndexToSelect_exact (hnode : w.graph.nodes[id]? =
      some ⟨.arrayIndex, array :: indices, element⟩) (harray : w.vals[array]? = some a)
    (hindices : Forall₂ (fun i (x : Bits) => w.vals[i]? = some (.leaf x)) indices xs)
    (hv : w.vals[id]? = some v) (hcontained : Contained xs (indices.map getIntervals)) :
    maybeConvertArrayIndexToSelect getIntervals threshold id w.graph = .ok (false, w.graph) ∨
      ∃ n dims first rest root, ∃ w₁ : World env args,
        w.graph.nodes[array]? = some n ∧ dimension n.type indices.length = .ok dims ∧
        possibleIndexes dims (indices.map getIntervals) = first :: rest ∧
        arrayIndexSelectChain getIntervals threshold array indices element w.graph =
          .ok (some root, w₁.graph) ∧ w ≤ w₁ ∧ (w₁.vals[root]? = w.vals[id]? ↔
          InBounds xs dims ∨ arrayIndex a first = .ok v) ∧
        (InBounds xs dims ∨ arrayIndex a first = .ok v →
          ∃ w', maybeConvertArrayIndexToSelect getIntervals threshold id w.graph =
            .ok (true, w'.graph) ∧ w ≤ w') := by
  obtain ⟨n, hn, helement, hconf, hhas, hholds, heval, hvc⟩ :=
    exists_arrayIndex hnode harray hindices hv
  obtain ⟨dims, hdims, hlength, hshaped⟩ := shaped_of_indexedElementType helement
  have hxs : xs.length = dims.length := (hholds.length_eq.symm).trans hlength.symm
  have hpos := hshaped.pos hconf hxs heval
  have hnone : arrayIndexSelectChain getIntervals threshold array indices element w.graph =
      .ok (none, w.graph) →
      maybeConvertArrayIndexToSelect getIntervals threshold id w.graph = .ok (false, w.graph) := by
    intro hchain
    show (Graph.getNode id w.graph >>= fun p => _) = _
    rw [Graph.getNode, hnode]
    show (arrayIndexSelectChain getIntervals threshold array indices element w.graph >>=
      fun p => _) = _
    rw [hchain]
    rfl
  by_cases hskip : indices = [] ∨ ¬ isSmallIndexSpace threshold (indices.map getIntervals)
  · left
    refine hnone ?_
    rw [arrayIndexSelectChain, if_pos hskip]
    rfl
  · have hchain : arrayIndexSelectChain getIntervals threshold array indices element w.graph =
        (handlePossibleIndexes array indices element
          (possibleIndexes dims (indices.map getIntervals)) >>= makeSelectChain element)
          w.graph := by
      rw [arrayIndexSelectChain, if_neg hskip]
      show (Graph.getNode array w.graph >>= fun p => _) = _
      rw [Graph.getNode, hn]
      show (((liftM (dimension n.type indices.length) : Graph.Build (List Nat)) >>= fun dims =>
        handlePossibleIndexes array indices element
          (possibleIndexes dims (indices.map getIntervals)) >>= makeSelectChain element) w.graph) =
            _
      rw [hdims]
      rfl
    cases hpossible : possibleIndexes dims (indices.map getIntervals) with
    | nil =>
      left
      refine hnone ?_
      rw [hchain, hpossible]
      rfl
    | cons first rest =>
      right
      have hmem : ∀ ts, ts ∈ first :: rest ↔
          Contained ts (indices.map getIntervals) ∧ InBounds ts dims := by
        intro ts
        rw [← hpossible]
        exact mem_possibleIndexes hpos (by rw [hlength, length_map])
      have hne : xs ≠ [] := by
        rintro rfl
        cases hholds
        exact hskip (.inl rfl)
      obtain ⟨cases', w₁, hcasesRun, h₁, hcases⟩ := ensures_handlePossibleIndexes hshaped hpos
        (by rw [hlength]; exact helement) hhas hconf hholds hne hxs
        (fun ts hts => width_of_contained hcontained ((hmem ts).1 hts).1) w (le_refl w)
      cases hcases with
      | @cons case _ cases' _ hcase hcases =>
        obtain ⟨⟨v₀, hv₀, hv₀c, hfirst⟩, -⟩ := hcase
        obtain ⟨root, w₂, hrun, h₂, u, hroot, hu⟩ :=
          ensures_makeSelects hcases hv₀ hv₀c hfirst w₁ (le_refl w₁)
        have hrootRun : arrayIndexSelectChain getIntervals threshold array indices element
            w.graph = .ok (some root, w₂.graph) := by
          rw [hchain, hpossible]
          show (handlePossibleIndexes array indices element (first :: rest) w.graph >>=
            fun p => makeSelectChain element p.1 p.2) = _
          rw [hcasesRun]
          show (makeSelects element case.1 cases' w₁.graph >>= fun p => _) = _
          rw [hrun]
          rfl
        have hiff : u = v ↔ InBounds xs dims ∨ arrayIndex a first = .ok v := by
          constructor
          · rintro rfl
            split at hu
            · rename_i hxsmem
              exact .inl ((hmem xs).1 (mem_cons_of_mem _ hxsmem)).2
            · exact .inr hu
          · rintro (hbounds | hclamped)
            · have hxsmem := (hmem xs).2 ⟨hcontained, hbounds⟩
              have hsame : arrayIndex a xs = .ok u := by
                split at hu
                · exact hu
                · rename_i hnot
                  rwa [(mem_cons.1 hxsmem).resolve_right hnot]
              exact ok.inj (hsame.symm.trans heval)
            · split at hu
              · exact ok.inj (hu.symm.trans heval)
              · exact ok.inj (hu.symm.trans hclamped)
        refine ⟨n, dims, first, rest, root, w₂, hn, hdims, hpossible, hrootRun, h₁.trans h₂,
          ?_, fun hcondition => ?_⟩
        · rw [hroot.value, hv, Option.some_inj, hiff]
        · obtain rfl := hiff.2 hcondition
          have hle := h₁.trans h₂
          have hid : w.Has (w.rank id + 1) id element u :=
            ⟨by rw [hnode]; rfl, hv, lt_add_one _⟩
          have hid' := hid.mono hle
          have hroot' : w₂.Has (w₂.rank id) root element u := by
            rw [hle.rank id hid.lt]
            exact hroot
          obtain ⟨_, w', hreplace, h', -⟩ :=
            ensures_replaceUsesWith_of_has hid' hroot' w₂ (le_refl w₂)
          refine ⟨w', ?_, hle.trans h'⟩
          show (Graph.getNode id w.graph >>= fun p => _) = _
          rw [Graph.getNode, hnode]
          show (arrayIndexSelectChain getIntervals threshold array indices element w.graph >>=
            fun p => _) = _
          rw [hrootRun]
          show (Graph.replaceUsesWith id root w₂.graph >>= fun p => _) = _
          rw [hreplace]
          rfl

/-- An element of an array of four, at the index two or five. -/
def indexTwoOrFive : Function where
  params := [.bits 1, .array 4 (.bits 8)]
  nodes := [⟨.param 0, [], .bits 1⟩, ⟨.param 1, [], .array 4 (.bits 8)⟩,
    ⟨.literal (.leaf (Bits.ofNat 4 2)), [], .bits 4⟩,
    ⟨.literal (.leaf (Bits.ofNat 4 5)), [], .bits 4⟩, ⟨.sel false, [0, 2, 3], .bits 4⟩,
    ⟨.arrayIndex, [1, 4], .bits 8⟩]
  returnValue := 5
  verified := by decide
  returnValue_lt := by decide

/-- The interval of one number. -/
def pointInterval (w x : Nat) (h : x < 2 ^ w) : ProperInterval w := ⟨⟨x, x, h, h⟩, le_rfl⟩

/-- The intervals of the index: two and five. -/
def twoOrFive : Intervals :=
  ⟨4, ⟨[pointInterval 4 2 (by decide), pointInterval 4 5 (by decide)],
    pairwise_pair.mpr (by decide)⟩⟩

/-- The arguments, with the array ten, twenty, thirty, forty. -/
def indexTwoOrFiveArgs (s : Nat) : List Value :=
  [.leaf (Bits.ofNat 1 s), .node ([10, 20, 30, 40].map fun k => .leaf (Bits.ofNat 8 k))]

/-- At the index five the function returns the last element, and the rewritten graph the element
at two. -/
theorem not_maybeConvertArrayIndexToSelect_five :
    (∃ vals, Interpreter.run (packageEnv []) indexTwoOrFive (indexTwoOrFiveArgs 1) =
        .ok vals ∧ vals[4]? = some (.leaf (Bits.ofNat 4 5)) ∧
        vals[indexTwoOrFive.returnValue]? = some (.leaf (Bits.ofNat 8 40))) ∧
      Contained [Bits.ofNat 4 5] [twoOrFive] ∧
      ∃ g, maybeConvertArrayIndexToSelect (fun _ => twoOrFive) 2 5 indexTwoOrFive.graph =
          .ok (true, g) ∧
        ∃ vals, Interpreter.visit (packageEnv []) (indexTwoOrFiveArgs 1) [] g.nodes =
          .ok vals ∧ vals[g.returnValue]? = some (.leaf (Bits.ofNat 8 30)) := by
  exact ⟨⟨_, rfl, rfl, rfl⟩, .cons ⟨rfl, by decide⟩ .nil, _, rfl, _, rfl, rfl⟩

/-- At the index two the chain has the value of the array index. -/
theorem maybeConvertArrayIndexToSelect_exact_two :
    ∃ g, maybeConvertArrayIndexToSelect (fun _ => twoOrFive) 2 5 indexTwoOrFive.graph =
      .ok (true, g) := by
  have hrun : ∃ vals, Interpreter.run (packageEnv []) indexTwoOrFive
      (indexTwoOrFiveArgs 0) = .ok vals ∧ vals[4]? = some (.leaf (Bits.ofNat 4 2)) ∧
        vals[5]? = some (.leaf (Bits.ofNat 8 30)) ∧ vals[1]? = (indexTwoOrFiveArgs 0)[1]? :=
    ⟨_, rfl, rfl, rfl, rfl⟩
  obtain ⟨vals, hrun, hindex, hvalue, harray⟩ := hrun
  have hcontained : Contained [Bits.ofNat 4 2] ([4].map fun _ => twoOrFive) :=
    .cons ⟨rfl, by decide⟩ .nil
  rcases @maybeConvertArrayIndexToSelect_exact _ _ (World.ofRun hrun) (fun _ => twoOrFive) 2 5
      _ _ _ _ _ _ rfl harray (.cons hindex .nil) hvalue hcontained
      with hkept | ⟨n, dims, first, rest, root, w₁, hn, hdims, -, -, -, -, hconvert⟩
  · cases hkept
  · cases hn
    cases hdims
    obtain ⟨w', hrun', -⟩ := hconvert (.inl (.cons (by decide) .nil))
    exact ⟨_, hrun'⟩

end Exact

end Narrowing

end Xls

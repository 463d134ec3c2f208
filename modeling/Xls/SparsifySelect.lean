import Xls.AbstractNodeEvaluator.Total
import Xls.ComparisonSimplification.Pass
import Xls.IntervalSet.Count
import Xls.TableSwitch.Pass

/-!
# Xls.SparsifySelect

The pass that makes selects sparse (`xls/passes/sparsify_select_pass.cc`). Where the range
analysis leaves fewer values for a selector than the select has cases, the select is replaced
by a chain of selects, one for each interval of the selector, on the distance of the selector
from the lower bound of the interval. The last select of the chain is used without a range
check, and each of the others where the selector is in its interval.

The chain has the value of the select whenever it is built (`ensures_buildChain`). It is not
built where the set has a point that does not fit in 64 bits: `SparsifySelect` reads the points
with `ToUint64` and returns its error.
-/

namespace Xls

open Bits IntervalSet ProperInterval List Interpreter Result Bool
open Graph (World Build getNode makeNode replaceUsesWith)
open Graph.World

namespace SparsifySelect

open ArithSimplification (makeLiteral)
open Canonicalization (Operands has_bits)
open ComparisonSimplification (ensures_compare)
open OneBitMux (Select SelectAt asSelect makeNaryOp)

/-! ### The pass -/

/-- `ToDebugString`, the most significant bit first. -/
def toDebugString (b : Bits) : String :=
  b.toBools.reverse.foldl (fun s bit => s ++ if bit then "1" else "0") "0b"

/-- `ToUint64`, with the error that it returns. -/
def toUint64 (b : Bits) : Result Nat :=
  if b.width = 0 then .ok 0
  else if BitsOps.fitsInNBitsUnsigned b 64 then BitsOps.toUint64 b
  else .error (.status ("Bits value cannot be represented as an unsigned 64-bit value: " ++
    toDebugString b))

/-- `IntervalsSortedBySize`; intervals of one size stay in their order. -/
def intervalsSortedBySize {k : Nat} (set : IntervalSet k) : List (ProperInterval k) :=
  set.intervals.mergeSort fun a b => decide (a.sizeBits ≤ b.sizeBits)

/-- The case, or the default, that a value of the selector picks. -/
def caseAt (sel : Select) (bits : Bits) : Result Nat := do
  let index ← toUint64 bits
  match sel.cases[index]?, sel.defaultValue with
  | some c, _ => return c
  | none, some d => return d
  | none, none =>
    .error (.status "SparsifySelectPass: select had not enough cases and no default")

/-- `cases_in_range`. -/
def casesInRange {k : Nat} (sel : Select) (interval : ProperInterval k) : Result (List Nat) :=
  interval.elements.mapM fun x => caseAt sel (Bits.ofNat k x)

/-- A `Select`; it has the type of its first case. -/
def makeSelect (selector : Nat) (cases : List Nat) (defaultValue : Option Nat) : Build Nat := do
  let first ← derefOption cases[0]?
  let n ← getNode first
  makeNode ⟨.sel defaultValue.isSome, selector :: (cases ++ defaultValue.toList), n.type⟩

def makeCompareOp (op : CompareOp) (lhs rhs : Nat) : Build Nat :=
  makeNode ⟨.compare op, [lhs, rhs], .bits 1⟩

/-- The literal `ZeroOfType`, of the type of a node. -/
def makeZero (id : Nat) : Build Nat := do
  let n ← getNode id
  makeNode ⟨.literal (Value.zeroOfType n.type), [], n.type⟩

/-- The body of the loop: the select for one interval in front of the rest of the chain. -/
def addInterval {k : Nat} (id : Nat) (sel : Select) (interval : ProperInterval k)
    (other : Option Nat) : Build Nat := do
  let cases ← casesInRange sel interval
  let lowerBound ← makeLiteral (Bits.ofNat k interval.lower)
  let upperBound ← makeLiteral (Bits.ofNat k interval.upper)
  let selectorMinusLowerBound ← Reassociation.makeBinOp .sub sel.selector lowerBound
  let zeroOfType ← makeZero id
  let ifInRange ← makeSelect selectorMinusLowerBound cases (some zeroOfType)
  match other with
  | none => return ifInRange
  | some other => do
    let geLowerBound ← makeCompareOp .uge sel.selector lowerBound
    let leUpperBound ← makeCompareOp .ule sel.selector upperBound
    let isInRange ← makeNaryOp .and geLowerBound leUpperBound
    makeSelect isInRange [other, ifInRange] none

/-- The loop over the intervals; `other` is the rest of the chain. -/
def buildChain {k : Nat} (id : Nat) (sel : Select) :
    List (ProperInterval k) → Option Nat → Build (Option Nat)
  | [], other => return other
  | interval :: rest, other => do
    let chain ← addInterval id sel interval other
    buildChain id sel rest (some chain)

/-- `SparsifySelect`. -/
def sparsifySelect {k : Nat} (id : Nat) (sel : Select) (selectorIntervals : IntervalSet k) :
    Build Unit := do
  let other ← buildChain id sel (intervalsSortedBySize selectorIntervals) none
  match other with
  | some other => replaceUsesWith id other
  | none => return ()

/-- What a range query engine says of a node of some width. -/
abbrev RangeEngine : Type := (id k : Nat) → IntervalSet k

/-- The test of the pass: the set has a size, which is compared with the number of cases as
a `uint64_t`. -/
def isSparse {k : Nat} (sel : Select) (set : IntervalSet k) : Bool :=
  match set.size with
  | some size => !decide (sel.cases.length ≤ (size % 2 ^ 64).toNat)
  | none => false

/-- One select in the loop of the pass. -/
def visitSelect (engine : RangeEngine) (changed : Bool) (id : Nat) (sel : Select) :
    Build Bool := do
  let k ← Graph.bitCountOrDie sel.selector
  if isSparse sel (engine sel.selector k) then
    sparsifySelect id sel (engine sel.selector k)
    return true
  else return changed

/-- One node in the loop of the pass. -/
def visitNode (engine : RangeEngine) (changed : Bool) (id : Nat) : Build Bool := do
  let n ← getNode id
  match asSelect n with
  | some sel => visitSelect engine changed id sel
  | none => return changed

/-- `RunOnFunctionBaseInternal`, over the nodes in topological order. -/
def runOnFunctionBaseInternal (engine : RangeEngine) (order : List Nat) : Build Bool :=
  order.foldlM (visitNode engine) false

/-! ### The points of an interval -/

variable {env : Env} {args : List Value} {w : World env args} {id : Nat} {n : Node} {sel : Select}

theorem toUint64_of_lt {b : Bits} (h : b.val < 2 ^ 64) : toUint64 b = .ok b.val := by
  unfold toUint64
  split
  · rename_i hwidth
    have hlt := b.isLt
    rw [hwidth, pow_zero, Nat.lt_one_iff] at hlt
    rw [hlt]
  · rw [if_pos ((TableSwitch.fits_iff b).2 h)]
    exact TableSwitch.toUint64_of_fits h

/-- A number beyond 64 bits is an error. -/
theorem toUint64_of_le {b : Bits} (h : 2 ^ 64 ≤ b.val) : ∃ f, toUint64 b = .error f := by
  have hwidth : b.width ≠ 0 := by
    intro hzero
    have hlt := b.isLt
    rw [hzero, pow_zero] at hlt
    omega
  have hfits : ¬ BitsOps.fitsInNBitsUnsigned b 64 = true := by
    rw [TableSwitch.fits_iff]
    omega
  rw [toUint64, if_neg hwidth, if_neg hfits]
  exact ⟨_, rfl⟩

/-- A select without a default has a case for every value of its selector. -/
theorem eq_two_pow_of_verifySelector {width count : Nat} (hpos : 0 < count)
    (h : verifySelector width count false = true) : count = 2 ^ width := by
  simp only [verifySelector, Bool.and_false, Bool.not_false, Bool.and_true, and_eq_true,
    decide_eq_true_eq, not_eq_true', or_eq_false_iff, decide_eq_false_iff_not,
    and_eq_false_imp, beq_iff_eq, not_eq_false'] at h
  obtain ⟨hle, hlt, hpower⟩ := h
  have hwidth : width = minBitCountUnsigned (count - 1) := by omega
  obtain ⟨j, rfl⟩ := Reassociation.isPowerOfTwo_iff.1 (hpower hwidth)
  rw [hwidth, Canonicalization.minBitCountUnsigned_two_pow]

section SelectAt

variable {s : Bits} {us : List Value} {ud : Option Value} {v : Value}

/-- What the select picks for one value of the selector, and what it is worth. -/
def Picks (w : World env args) (b : ℚ) (t : IrType) (us : List Value) (ud : Option Value)
    (bits : Bits) (c : Nat) : Prop :=
  ∃ u, w.Has b c t u ∧ Interpreter.sel bits us ud = .ok u

variable {w' : World env args} {t : IrType} {interval : ProperInterval s.width} {vs : List Value}
  {cases : List Nat} {other : Option Nat} {uo : Option Value}
  {b : ℚ} {k : Nat} {u : Value} {intervals : List (ProperInterval s.width)}

theorem Picks.mono {bits : Bits} {c : Nat} (h : Picks w b t us ud bits c) (hle : w ≤ w') :
    Picks w' b t us ud bits c := by
  obtain ⟨u, hu, hsel⟩ := h
  exact ⟨u, hu.mono hle, hsel⟩

/-- The case for a selector value, or the default beyond the cases. -/
theorem caseAt_spec (h : SelectAt w id n sel s us ud v) {bits : Bits}
    (hwidth : bits.width = s.width) (hlt : bits.val < 2 ^ 64) :
    ∃ c, caseAt sel bits = .ok c ∧ Picks w (w.rank id) n.type us ud bits c := by
  have hcount := Evaluator.le_two_pow_of_verifySelector h.pos h.verified
  have hlength := h.cases.length_eq
  have hpos := h.pos
  have hcheck : checkThat (decide (0 < us.length ∧ us.length - 1 < 2 ^ bits.width)) = .ok () :=
    checkThat_eq_ok.2 (decide_eq_true ⟨by omega, by rw [hwidth]; omega⟩)
  rw [caseAt, toUint64_of_lt hlt, ok_bind]
  unfold Picks Interpreter.sel
  rw [hcheck, ok_bind]
  by_cases hcase : bits.val < sel.cases.length
  · have hcase' : bits.val < us.length := by rwa [← hlength]
    rw [getElem?_eq_getElem hcase, if_neg (by omega), getElem?_eq_getElem hcase']
    exact ⟨_, rfl, _, Forall₂.get h.cases hcase hcase', rfl⟩
  · rw [getElem?_eq_none (by omega), if_pos (by omega)]
    have hdefault := h.default
    cases hd : sel.defaultValue with
    | none =>
      -- every value of the selector has a case
      have hverified := h.verified
      rw [hd] at hverified
      have hall := eq_two_pow_of_verifySelector h.pos hverified
      have hbits := bits.isLt
      rw [hwidth, ← hall] at hbits
      exact absurd hbits hcase
    | some d =>
      rw [hd] at hdefault
      cases hdefault with
      | some hu => exact ⟨d, rfl, _, hu, rfl⟩

theorem mapM_eq_ok {α β : Type} {f : α → Result β} {P : α → β → Prop} {l : List α}
    (h : ∀ a ∈ l, ∃ b, f a = .ok b ∧ P a b) : ∃ bs, l.mapM f = .ok bs ∧ Forall₂ P l bs := by
  induction l with
  | nil => exact ⟨[], rfl, .nil⟩
  | cons a l ih =>
    obtain ⟨⟨b, hb, hP⟩, hl⟩ := forall_mem_cons.1 h
    obtain ⟨bs, hbs, hPs⟩ := ih hl
    refine ⟨b :: bs, ?_, .cons hP hPs⟩
    rw [mapM_cons, hb, ok_bind, hbs]
    rfl

/-- A list fails if one of its elements does. -/
theorem mapM_eq_error {α β : Type} {f : α → Result β} {l : List α} {a : α} (ha : a ∈ l)
    (h : ∃ e, f a = .error e) : ∃ e, l.mapM f = .error e := by
  induction l with
  | nil => cases ha
  | cons a' l ih =>
    rw [mapM_cons]
    cases hf : f a' with
    | error e => exact ⟨e, rfl⟩
    | ok b =>
      rcases mem_cons.1 ha with rfl | ha
      · obtain ⟨e, he⟩ := h
        rw [hf] at he
        cases he
      · obtain ⟨e, he⟩ := ih ha
        rw [ok_bind, he]
        exact ⟨e, rfl⟩

/-- Every point of the interval fits in 64 bits. -/
def Fits {k : Nat} (interval : ProperInterval k) : Prop :=
  ∀ x, ProperInterval.Mem x interval → x < 2 ^ 64

theorem casesInRange_spec (h : SelectAt w id n sel s us ud v) (hfits : Fits interval) :
    ∃ cases, casesInRange sel interval = .ok cases ∧
      Forall₂ (fun x c => Picks w (w.rank id) n.type us ud (Bits.ofNat s.width x) c)
        interval.elements cases := by
  refine mapM_eq_ok fun x hx => ?_
  rw [ProperInterval.mem_elements] at hx
  refine caseAt_spec h rfl ?_
  rw [ofNat_val, Nat.mod_eq_of_lt (hx.2.trans_lt interval.upper_lt)]
  exact hfits x hx

/-- An interval that does not fit 64 bits is an error. -/
theorem casesInRange_error (sel : Select) {interval : ProperInterval k} (hfits : ¬ Fits interval) :
    ∃ f, casesInRange sel interval = .error f := by
  unfold Fits at hfits
  push Not at hfits
  obtain ⟨x, hx, hle⟩ := hfits
  refine mapM_eq_error (ProperInterval.mem_elements.2 hx) ?_
  have hval : 2 ^ 64 ≤ (Bits.ofNat k x).val := by
    rwa [ofNat_val, Nat.mod_eq_of_lt (hx.2.trans_lt interval.upper_lt)]
  obtain ⟨f, hf⟩ := toUint64_of_le hval
  rw [caseAt, hf]
  exact ⟨f, rfl⟩

/-! ### The new nodes -/

/-- A select stays one when nodes are appended. -/
theorem selectAt_mono (h : SelectAt w id n sel s us ud v) (hle : w ≤ w') :
    SelectAt w' id n sel s us ud v := by
  have hrank := hle.rank id h.has.lt
  refine ⟨h.operands, ?_, ?_, ?_, h.verified, h.pos, ?_, h.eval⟩
  · rw [hrank]
    exact h.selector.mono hle
  · rw [hrank]
    exact h.cases.imp fun _ _ hu => hu.mono hle
  · rw [hrank]
    have hdefault := h.default
    generalize sel.defaultValue = d at hdefault
    cases hdefault with
    | none => exact .none
    | some hu => exact .some (hu.mono hle)
  · rw [hrank]
    exact h.has.mono hle

theorem conforms_zeroOfType (t : IrType) : (Value.zeroOfType t).Conforms t :=
  LeafTree.rel_map_left.2 (LeafTree.Rel.refl (fun _ => rfl) t.shape)

theorem ensures_makeZero {b' : ℚ} {i : Nat} (h : w.Has b' i t u) (b : ℚ) :
    w.Ensures (makeZero i) fun w' new => w'.Has b new t (Value.zeroOfType t) := by
  refine ensures_bind (ensures_getNode_of_has h) fun w₁ m h₁ hm => ?_
  rw [hm.2]
  have hconf := conforms_zeroOfType t
  exact ensures_node (n := ⟨.literal (Value.zeroOfType t), [], t⟩) .nil (decide_eq_true hconf) rfl
    hconf

theorem operands_of_forall₂ {os : List Nat} (h : Forall₂ (fun c u => w.Has b c t u) os vs) :
    Operands w b os (List.replicate os.length t) vs := by
  induction h with
  | nil => exact .nil
  | cons hu _ ih => exact .cons hu ih

/-- What a select gives is the default or one of the cases. -/
theorem mem_of_sel {selector : Bits} {cases : List Value} {d : Option Value}
    (h : Interpreter.sel selector cases d = .ok u) : u ∈ cases ++ d.toList := by
  unfold Interpreter.sel at h
  obtain ⟨_, -, h⟩ := Result.bind_eq_ok.1 h
  split at h
  · cases d with
    | none => cases h
    | some u' =>
      cases h
      simp
  · exact mem_append_left _ (mem_of_getElem? (derefOption_eq_ok.1 h))

/-- A select node over fewer cases has the value that they have. -/
theorem ensures_makeSelect {selector : Nat} {x : Bits} {d : Option Nat} {vd : Option Value}
    (hselector : w.Holds b selector x) (hcases : Forall₂ (fun c u => w.Has b c t u) cases vs)
    (hdefault : Option.Rel (fun c u => w.Has b c t u) d vd) (hpos : 0 < cases.length)
    (hverify : verifySelector x.width cases.length d.isSome = true)
    (heval : Interpreter.sel x vs vd = .ok u) :
    w.Ensures (makeSelect selector cases d) fun w' new => w'.Has b new t u := by
  have hall : Forall₂ (fun c u => w.Has b c t u) (cases ++ d.toList) (vs ++ vd.toList) := by
    refine rel_append hcases ?_
    cases hdefault with
    | none => exact .nil
    | some hu => exact .cons hu .nil
  have hconf : u.Conforms t := by
    have hmem := mem_of_sel heval
    obtain ⟨i, hi, rfl⟩ := getElem_of_mem hmem
    exact (Forall₂.get hall (by rwa [hall.length_eq]) hi).conforms
  have hfirst := Forall₂.get hcases hpos (by rwa [← hcases.length_eq])
  refine ensures_lift (derefOption_eq_ok.2 (getElem?_eq_getElem hpos)) ?_
  refine ensures_bind (ensures_getNode_of_has hfirst) fun w₁ m h₁ hm => ?_
  rw [hm.2]
  have hoperands := operands_of_forall₂ (hall.imp fun _ _ hu => hu.mono h₁)
  refine ensures_node (n := ⟨.sel d.isSome, selector :: (cases ++ d.toList), t⟩)
    (.cons (hselector.mono h₁).has hoperands) ?_ ?_ hconf
  · have hcount : (if d.isSome = true then (cases ++ d.toList).length - 1
        else (cases ++ d.toList).length) = cases.length := by
      cases d <;> simp
    simp only [verifyNode, length_replicate, hcount, hverify, Bool.and_true]
    simp [hpos]
  · cases hdefault with
    | none =>
      show Interpreter.sel x (vs ++ []) none = _
      rw [append_nil]
      exact heval
    | @some c u' hu =>
      show Interpreter.sel x (vs ++ [u']).dropLast (vs ++ [u']).getLast? = _
      rw [dropLast_concat, getLast?_concat]
      exact heval

/-! ### One interval -/

/-- The distance from the lower bound, which wraps, is the position of a point of the interval
among its elements. -/
theorem sub_lower (h : ProperInterval.Mem s.val interval) :
    (s.sub (Bits.ofNat s.width interval.lower)).val = s.val - interval.lower := by
  have hlt := s.isLt
  rw [Bits.sub, ofNat_val, ofNat_val, Nat.mod_eq_of_lt (h.1.trans_lt hlt),
    show s.val + 2 ^ s.width - interval.lower = s.val - interval.lower + 2 ^ s.width by
      have hle := h.1
      omega, Nat.add_mod_right]
  exact Nat.mod_eq_of_lt (by omega)

/-- The comparisons with both bounds. -/
theorem naryOp_isInRange (interval : ProperInterval s.width) :
    Interpreter.naryOp .and [Bits.ofBool (compareBits .uge s (Bits.ofNat s.width interval.lower)),
          Bits.ofBool (compareBits .ule s (Bits.ofNat s.width interval.upper))] =
      .ok (Bits.ofBool (decide (ProperInterval.Mem s.val interval))) := by
  have hwidth : ∀ p q, (Bits.ofBool p).width = (Bits.ofBool q).width := fun _ _ => rfl
  rw [OneBitMux.naryOp_and_two (hwidth _ _), ComparisonSimplification.and_ofBool]
  refine congrArg (fun p => Except.ok (Bits.ofBool p)) ?_
  show (decide _ && decide _) = _
  rw [ofNat_val, ofNat_val, Nat.mod_eq_of_lt interval.lower_lt,
    Nat.mod_eq_of_lt interval.upper_lt, ← decide_and]
  rfl

/-- A select with fewer cases than values of its selector needs its default. -/
theorem verifySelector_of_lt {width count : Nat} (hpos : 0 < count) (hlt : count < 2 ^ width) :
    verifySelector width count true = true := by
  have hmin : minBitCountUnsigned (count - 1) ≤ width :=
    lt_two_pow_iff_minBitCountUnsigned.1 (by omega)
  have hpower : ¬ (width = minBitCountUnsigned (count - 1) ∧ isPowerOfTwo count = true) := by
    intro ⟨hwidth, hpow⟩
    obtain ⟨j, rfl⟩ := Reassociation.isPowerOfTwo_iff.1 hpow
    rw [Canonicalization.minBitCountUnsigned_two_pow] at hwidth
    rw [hwidth] at hlt
    exact lt_irrefl _ hlt
  simp only [verifySelector, Bool.and_true, Bool.not_true, Bool.and_false, Bool.not_false,
    and_eq_true, decide_eq_true_eq, not_eq_true', and_eq_false_imp, beq_iff_eq]
  exact ⟨hmin, fun hwidth => by simpa using fun hpow => hpower ⟨hwidth, hpow⟩⟩

theorem exists_values {xs : List Nat}
    (h : Forall₂ (fun x c => Picks w b t us ud (Bits.ofNat k x) c) xs cases) :
    ∃ vs, Forall₂ (fun c u => w.Has b c t u) cases vs ∧
      Forall₂ (fun x u => Interpreter.sel (Bits.ofNat k x) us ud = .ok u) xs vs := by
  induction h with
  | nil => exact ⟨[], .nil, .nil⟩
  | cons hc _ ih =>
    obtain ⟨u, hu, hsel⟩ := hc
    obtain ⟨vs, hvs, hvals⟩ := ih
    exact ⟨u :: vs, .cons hu hvs, .cons hsel hvals⟩

theorem length_elements (interval : ProperInterval k) :
    interval.elements.length = interval.sizeBits := by
  rw [sizeBits_eq, ProperInterval.elements, length_map, length_range]

/-- A select on the distance, with the values at the elements of the interval as its cases,
gives the value at the selector where it is in the interval. -/
theorem exists_sel_distance {z : Value} (hsize : interval.sizeBits ≤ 2 ^ s.width)
    (heval : Interpreter.sel s us ud = .ok v)
    (hvals : Forall₂ (fun x u => Interpreter.sel (Bits.ofNat s.width x) us ud = .ok u)
      interval.elements vs) :
    ∃ u, Interpreter.sel (s.sub (Bits.ofNat s.width interval.lower)) vs (some z) = .ok u ∧
      (ProperInterval.Mem s.val interval → u = v) := by
  have hlength : vs.length = interval.upper + 1 - interval.lower := by
    rw [← hvals.length_eq, length_elements, sizeBits_eq]
  rw [sizeBits_eq] at hsize
  have hle := interval.le
  have hcheck : checkThat (decide (0 < vs.length ∧
      vs.length - 1 < 2 ^ (s.sub (Bits.ofNat s.width interval.lower)).width)) = .ok () := by
    refine checkThat_eq_ok.2 (decide_eq_true ⟨by omega, ?_⟩)
    show vs.length - 1 < 2 ^ s.width
    omega
  rw [Interpreter.sel, hcheck, ok_bind]
  by_cases hmem : ProperInterval.Mem s.val interval
  · -- the distance is the position of the value of the selector
    have hlower := hmem.1
    have hupper := hmem.2
    have hindex : s.val - interval.lower < vs.length := by omega
    have hindex' : s.val - interval.lower < interval.elements.length := by rwa [hvals.length_eq]
    have hvalue := Forall₂.get hvals hindex' hindex
    have helement : interval.elements.get ⟨s.val - interval.lower, hindex'⟩ = s.val := by
      simp only [ProperInterval.elements, get_eq_getElem, getElem_map, getElem_range]
      omega
    rw [helement, ofNat_self, heval] at hvalue
    rw [sub_lower hmem, if_neg (by omega), getElem?_eq_getElem hindex]
    exact ⟨v, hvalue.symm, fun _ => rfl⟩
  · split
    · exact ⟨z, rfl, fun h => absurd h hmem⟩
    · rename_i hlt
      exact ⟨_, derefOption_eq_ok.2 (getElem?_eq_getElem (by omega)),
        fun h => absurd h hmem⟩

/-- The select inside an interval has the value of the original select there. -/
theorem ensures_ifInRange (h : SelectAt w id n sel s us ud v)
    {selectorMinusLowerBound zeroValue : Nat}
    (hcases : Forall₂ (fun x c => Picks w (w.rank id) n.type us ud (Bits.ofNat s.width x) c)
      interval.elements cases) (hsize : interval.sizeBits < sel.cases.length)
    (hsub : w.Holds (w.rank id) selectorMinusLowerBound (s.sub (Bits.ofNat s.width interval.lower)))
    (hzero : w.Has (w.rank id) zeroValue n.type (Value.zeroOfType n.type)) :
    w.Ensures (makeSelect selectorMinusLowerBound cases (some zeroValue)) fun w' new =>
      ∃ u, w'.Has (w.rank id) new n.type u ∧ (ProperInterval.Mem s.val interval → u = v) := by
  have hlength : cases.length = interval.sizeBits := by
    rw [← hcases.length_eq, length_elements]
  have hpos : 0 < cases.length := by
    have hle := interval.le
    rw [hlength, sizeBits_eq]
    omega
  have hcount := Evaluator.le_two_pow_of_verifySelector h.pos h.verified
  have hverify : verifySelector (s.sub (Bits.ofNat s.width interval.lower)).width cases.length
      true = true := by
    refine verifySelector_of_lt hpos ?_
    show cases.length < 2 ^ s.width
    omega
  obtain ⟨vs, hvs, hvals⟩ := exists_values hcases
  obtain ⟨u, heval, hvalue⟩ := exists_sel_distance (z := Value.zeroOfType n.type) (by omega)
    h.eval hvals
  refine (ensures_makeSelect hsub hvs (.some hzero) hpos hverify heval).imp
    fun w' new _ hnew => ?_
  exact ⟨u, hnew, hvalue⟩

/-- The rest of the chain. -/
abbrev Rest (w : World env args) (id : Nat) (t : IrType) (other : Option Nat)
    (u : Option Value) : Prop :=
  Option.Rel (fun c u => w.Has (w.rank id) c t u) other u

/-- The select for one interval has the value of the original select on the interval, and the
value of the rest of the chain elsewhere. -/
theorem ensures_addInterval (h : SelectAt w id n sel s us ud v) (hfits : Fits interval)
    (hsize : interval.sizeBits < sel.cases.length) (hother : Rest w id n.type other uo) :
    w.Ensures (addInterval id sel interval other) fun w' new => ∃ u,
      w'.Has (w'.rank id) new n.type u ∧ (ProperInterval.Mem s.val interval → u = v) ∧
        (¬ ProperInterval.Mem s.val interval → ∀ u' ∈ uo, u = u') := by
  obtain ⟨cases, hrun, hcases⟩ := casesInRange_spec h hfits
  have hS := h.selector.holds
  refine ensures_lift hrun ?_
  refine ensures_bind (ensures_literal _ (w.rank id)) fun w₁ lowerBound h₁ hlower => ?_
  refine ensures_bind (ensures_literal _ (w.rank id)) fun w₂ upperBound h₂ hupper => ?_
  have h₁₂ := h₁.trans h₂
  refine ensures_bind (ensures_sub (hS.mono h₁₂) (hlower.mono h₂) rfl)
    fun w₃ minus h₃ hminus => ?_
  have h₁₃ := h₁₂.trans h₃
  refine ensures_bind (ensures_makeZero (h.has.mono h₁₃) (w.rank id))
    fun w₄ zeroValue h₄ hzero => ?_
  have h₁₄ := h₁₃.trans h₄
  have hrank := h₁₄.rank id h.has.lt
  have hcases₄ := hcases.imp fun _ _ hc => hc.mono h₁₄
  have hminus₄ := hminus.mono h₄
  rw [← hrank] at hcases₄ hminus₄ hzero
  refine ensures_bind (ensures_ifInRange (selectAt_mono h h₁₄) hcases₄ hsize hminus₄ hzero)
    fun w₅ ifInRange h₅ hif => ?_
  rw [hrank] at hif
  obtain ⟨u, hif, hvalue⟩ := hif
  have h₁₅ := h₁₄.trans h₅
  cases hother with
  | none =>
    refine ensures_pure fun w' h' => ⟨u, ?_, hvalue, fun _ u' hu' => (nomatch hu')⟩
    rw [(h₁₅.trans h').rank id h.has.lt]
    exact hif.mono h'
  | @some o u' ho =>
    have hlower₅ := hlower.mono ((h₂.trans h₃).trans (h₄.trans h₅))
    have hupper₅ := hupper.mono (h₃.trans (h₄.trans h₅))
    refine ensures_bind (ensures_compare (hS.mono h₁₅) hlower₅ rfl) fun w₆ ge h₆ hge => ?_
    refine ensures_bind (ensures_compare (hS.mono (h₁₅.trans h₆)) (hupper₅.mono h₆) rfl)
      fun w₇ le h₇ hle => ?_
    refine ensures_bind (OneBitMux.ensures_makeNaryOp
      (z := Bits.ofBool (decide (ProperInterval.Mem s.val interval))) (hge.mono h₇) hle rfl rfl
      (naryOp_isInRange interval)) fun w₈ isInRange h₈ hin => ?_
    have h₅₈ := (h₆.trans h₇).trans h₈
    have hpair : Forall₂ (fun c u => w₈.Has (w.rank id) c n.type u) [o, ifInRange]
        [u', u] := .cons (ho.mono (h₁₅.trans h₅₈)) (.cons (hif.mono h₅₈) .nil)
    have hverify : verifySelector 1 2 false = true := by decide
    refine (ensures_makeSelect hin hpair .none Nat.two_pos hverify TableSwitch.sel_two).imp
      fun w' new h' hnew => ?_
    rw [((h₁₅.trans h₅₈).trans h').rank id h.has.lt]
    refine ⟨_, hnew, fun hmem => ?_, fun hmem u'' hu'' => ?_⟩
    · rw [if_pos (decide_eq_true hmem)]
      exact hvalue hmem
    · rw [if_neg (by simpa using hmem)]
      exact Option.some.inj hu''

/-! ### The chain -/

/-- The chain has the value of the select: the invariant is that the rest of the chain has it,
or that an interval to come has the selector. -/
theorem ensures_buildChain (h : SelectAt w id n sel s us ud v) (hfits : ∀ i ∈ intervals, Fits i)
    (hsize : ∀ i ∈ intervals, i.sizeBits < sel.cases.length) (hother : Rest w id n.type other uo)
    (hcovers : uo = some v ∨ ∃ i ∈ intervals, ProperInterval.Mem s.val i) :
    w.Ensures (buildChain id sel intervals other) fun w' r =>
      ∃ o, r = some o ∧ w'.Has (w'.rank id) o n.type v := by
  induction intervals generalizing w other uo with
  | nil =>
    refine ensures_pure fun w' h' => ?_
    obtain rfl : uo = some v := hcovers.resolve_right (by simp)
    cases hother with
    | some hu =>
      refine ⟨_, rfl, ?_⟩
      rw [h'.rank id h.has.lt]
      exact hu.mono h'
  | cons i rest ih =>
    obtain ⟨hi, hrest⟩ := forall_mem_cons.1 hfits
    obtain ⟨hsi, hsrest⟩ := forall_mem_cons.1 hsize
    refine ensures_bind (ensures_addInterval h hi hsi hother) fun w₁ chain h₁ hchain => ?_
    obtain ⟨u, hchain, hin, hout⟩ := hchain
    have hnext : Rest w₁ id n.type (some chain) (some u) := .some hchain
    refine ih (selectAt_mono h h₁) hrest hsrest hnext ?_
    by_cases hmem : ProperInterval.Mem s.val i
    · exact .inl (congrArg some (hin hmem))
    · rcases hcovers with rfl | ⟨j, hj, hmemj⟩
      · exact .inl (congrArg some (hout hmem v rfl))
      · rcases mem_cons.1 hj with rfl | hj
        · exact absurd hmemj hmem
        · exact .inr ⟨j, hj, hmemj⟩

theorem addInterval_error (id : Nat) (sel : Select) {interval : ProperInterval k}
    (hfits : ¬ Fits interval) (other : Option Nat) (g : Graph) :
    ∃ f, addInterval id sel interval other g = .error f := by
  obtain ⟨f, hf⟩ := casesInRange_error sel hfits
  refine ⟨f, run_bind_of_error ?_⟩
  rw [hf]
  rfl

/-- The first interval with a point that does not fit stops the loop. -/
theorem buildChain_error (h : SelectAt w id n sel s us ud v) (hfits : ¬ ∀ i ∈ intervals, Fits i)
    (hsize : ∀ i ∈ intervals, i.sizeBits < sel.cases.length) (hother : Rest w id n.type other uo) :
    ∃ f, buildChain id sel intervals other w.graph = .error f := by
  induction intervals generalizing w other uo with
  | nil => exact absurd (by simp) hfits
  | cons i rest ih =>
    obtain ⟨hsi, hsrest⟩ := forall_mem_cons.1 hsize
    by_cases hi : Fits i
    · obtain ⟨chain, w₁, hrun, h₁, u, hchain, -⟩ :=
        ensures_addInterval h hi hsi hother w (le_refl w)
      have hnext : Rest w₁ id n.type (some chain) (some u) := .some hchain
      obtain ⟨f, hf⟩ := ih (selectAt_mono h h₁)
        (fun hrest => hfits (forall_mem_cons.2 ⟨hi, hrest⟩)) hsrest hnext
      exact ⟨f, (run_bind_of_ok hrun).trans hf⟩
    · obtain ⟨f, hf⟩ := addInterval_error id sel hi other w.graph
      exact ⟨f, run_bind_of_error hf⟩

end SelectAt

/-! ### The select -/

theorem mem_intervalsSortedBySize {k : Nat} {set : IntervalSet k} {i : ProperInterval k} :
    i ∈ intervalsSortedBySize set ↔ i ∈ set.intervals := mem_mergeSort

theorem fits_iff_covers {k : Nat} (set : IntervalSet k) :
    (∀ i ∈ intervalsSortedBySize set, Fits i) ↔ ∀ x, set.Covers x → x < 2 ^ 64 := by
  simp only [mem_intervalsSortedBySize, IntervalSet.Covers, Fits]
  constructor
  · rintro h x ⟨i, hi, hx⟩
    exact h i hi x hx
  · intro h i hi x hx
    exact h x ⟨i, hi, hx⟩

/-- The chain is built and has the value of the select, in a graph that passes the verifier,
and replaces it; every node keeps its value. -/
def Preserves {k : Nat} (w : World env args) (id : Nat) (sel : Select)
    (set : IntervalSet k) : Prop :=
  ∃ chain, ∃ w₁ w₂ : World env args,
    buildChain id sel (intervalsSortedBySize set) none w.graph = .ok (some chain, w₁.graph) ∧
      w ≤ w₁ ∧ w₁.vals[chain]? = w.vals[id]? ∧
      sparsifySelect id sel set w.graph = .ok ((), w₂.graph) ∧ w₁ ≤ w₂

section Select

variable {s : Bits} {us : List Value} {ud : Option Value} {v : Value} {set : IntervalSet s.width}

/-- With numbers that fit, the new select has the value of the old one. -/
theorem preserves_of_fits (h : SelectAt w id n sel s us ud v) (hcovers : set.Covers s.val)
    (hfew : set.numPoints < sel.cases.length) (hfits : ∀ x, set.Covers x → x < 2 ^ 64) :
    Preserves w id sel set := by
  have hsize : ∀ i ∈ intervalsSortedBySize set, i.sizeBits < sel.cases.length := by
    intro i hi
    rw [mem_intervalsSortedBySize] at hi
    exact (sizeBits_le_numPoints hi).trans_lt hfew
  have hmem : ∃ i ∈ intervalsSortedBySize set, ProperInterval.Mem s.val i := by
    obtain ⟨i, hi, hx⟩ := hcovers
    exact ⟨i, mem_intervalsSortedBySize.2 hi, hx⟩
  have hnone : Rest w id n.type none none := .none
  obtain ⟨r, w₁, hrun, h₁, chain, rfl, hchain⟩ := ensures_buildChain h
    ((fits_iff_covers set).2 hfits) hsize hnone (.inr hmem) w (le_refl w)
  obtain ⟨_, w₂, hreplace, h₂, -⟩ :=
    ensures_replaceUsesWith_of_has (h.has.mono h₁) hchain w₁ (le_refl w₁)
  refine ⟨chain, w₁, w₂, hrun, h₁, ?_, (run_bind_of_ok hrun).trans hreplace, h₂⟩
  rw [hchain.value, h.has.value]

/-- With a number beyond 64 bits, the pass fails. -/
theorem not_preserves_of_not_fits (h : SelectAt w id n sel s us ud v)
    (hfew : set.numPoints < sel.cases.length) (hfits : ¬ ∀ x, set.Covers x → x < 2 ^ 64) :
    ¬ Preserves w id sel set := by
  intro ⟨chain, w₁, w₂, hrun, _⟩
  have hsize : ∀ i ∈ intervalsSortedBySize set, i.sizeBits < sel.cases.length := by
    intro i hi
    rw [mem_intervalsSortedBySize] at hi
    exact (sizeBits_le_numPoints hi).trans_lt hfew
  have hnone : Rest w id n.type none none := .none
  obtain ⟨f, hf⟩ := buildChain_error h (mt (fits_iff_covers set).1 hfits) hsize hnone
  rw [hf] at hrun
  cases hrun

end Select

/-- On a set with the value of the selector and with fewer points than the select has cases,
the chain preserves the select exactly where every point fits in 64 bits. -/
theorem sparsifySelect_preserves_iff (hn : w.graph.nodes[id]? = some n)
    (hsel : asSelect n = some sel) {s : Bits} (hs : w.vals[sel.selector]? = some (.leaf s))
    {set : IntervalSet s.width} (hcovers : set.Covers s.val)
    (hfew : set.numPoints < sel.cases.length) :
    Preserves w id sel set ↔ ∀ x, set.Covers x → x < 2 ^ 64 := by
  obtain ⟨s', us, ud, v, h⟩ := OneBitMux.exists_select hn hsel
  obtain rfl : s = s' := LeafTree.leaf.inj (Option.some.inj (hs.symm.trans h.selector.value))
  refine ⟨fun hpreserves => ?_, preserves_of_fits h hcovers hfew⟩
  by_contra hfits
  exact not_preserves_of_not_fits h hfew hfits hpreserves

/-- A select on a parameter of four bits, with three cases and a default. -/
def narrowSelect : Function where
  params := [.bits 4, .bits 8]
  nodes := [⟨.param 0, [], .bits 4⟩, ⟨.literal (.leaf (Bits.ofNat 8 7)), [], .bits 8⟩,
    ⟨.param 1, [], .bits 8⟩, ⟨.sel true, [0, 1, 2, 2, 1], .bits 8⟩]
  returnValue := 3
  verified := by decide
  returnValue_lt := by decide

theorem run_narrowSelect : Interpreter.run (packageEnv []) narrowSelect
    [.leaf (Bits.ofNat 4 9), .leaf (Bits.ofNat 8 5)] = .ok [.leaf (Bits.ofNat 4 9),
      .leaf (Bits.ofNat 8 7), .leaf (Bits.ofNat 8 5), .leaf (Bits.ofNat 8 7)] := rfl

theorem one_lt_sixteen : 1 < 2 ^ 4 := by decide

theorem nine_lt_sixteen : 9 < 2 ^ 4 := by decide

/-- The selector is one or nine. -/
def oneOrNine : IntervalSet 4 where
  intervals :=
    [⟨⟨1, 1, one_lt_sixteen, one_lt_sixteen⟩, le_refl _⟩,
      ⟨⟨9, 9, nine_lt_sixteen, nine_lt_sixteen⟩, le_refl _⟩]
  normal := by decide

theorem sparsifySelect_preserves_iff_oneOrNine :
    Preserves (World.ofRun run_narrowSelect) 3 ⟨0, [1, 2, 2], some 1⟩ oneOrNine ↔
      ∀ x, oneOrNine.Covers x → x < 2 ^ 64 := by
  have hcovers : oneOrNine.Covers 9 :=
    ⟨⟨⟨9, 9, by decide, by decide⟩, le_refl _⟩, by decide, by decide⟩
  have hfew : oneOrNine.numPoints < 3 := by
    rw [numPoints_eq]
    decide
  exact sparsifySelect_preserves_iff (w := World.ofRun run_narrowSelect) (s := Bits.ofNat 4 9)
    rfl rfl rfl hcovers hfew

/-! ### A selector of more than 64 bits -/

/-- A select on a literal of eighty bits, with two cases and a default. -/
def wideSelect : Function where
  params := [.bits 8, .bits 8]
  nodes := [⟨.literal (.leaf (Bits.ofNat 80 (2 ^ 70))), [], .bits 80⟩, ⟨.param 0, [], .bits 8⟩,
    ⟨.param 1, [], .bits 8⟩, ⟨.sel true, [0, 1, 2, 1], .bits 8⟩]
  returnValue := 3
  verified := by decide
  returnValue_lt := by decide

theorem run_wideSelect : Interpreter.run (packageEnv []) wideSelect
    [.leaf (Bits.ofNat 8 3), .leaf (Bits.ofNat 8 4)] = .ok
      [.leaf (Bits.ofNat 80 (2 ^ 70)), .leaf (Bits.ofNat 8 3), .leaf (Bits.ofNat 8 4),
        .leaf (Bits.ofNat 8 3)] := rfl

/-- The value of the selector and nothing else. -/
def wideValue : IntervalSet 80 where
  intervals := [⟨⟨2 ^ 70, 2 ^ 70, by decide, by decide⟩, le_refl _⟩]
  normal := by decide

theorem covers_wideValue : wideValue.Covers (2 ^ 70) :=
  ⟨_, mem_singleton.2 rfl, le_refl _, le_refl _⟩

theorem numPoints_wideValue : wideValue.numPoints < 2 := by
  rw [numPoints_eq]
  decide

/-- `ToUint64` fails on the only point of the set. -/
theorem not_preserves_wideValue :
    ¬ ∀ (env : Env) (args : List Value) (w : World env args) (id : Nat) (n : Node)
      (sel : Select) (s : Bits) (set : IntervalSet s.width),
      w.graph.nodes[id]? = some n → asSelect n = some sel →
      w.vals[sel.selector]? = some (.leaf s) → set.Covers s.val →
      set.numPoints < sel.cases.length → Preserves w id sel set := by
  intro hall
  have hn : (World.ofRun run_wideSelect).graph.nodes[3]? =
      some ⟨.sel true, [0, 1, 2, 1], .bits 8⟩ := rfl
  have hsel : asSelect ⟨.sel true, [0, 1, 2, 1], .bits 8⟩ = some ⟨0, [1, 2], some 1⟩ := rfl
  have hpreserves := hall _ _ (World.ofRun run_wideSelect) 3 _ _ (Bits.ofNat 80 (2 ^ 70))
    wideValue hn hsel rfl covers_wideValue numPoints_wideValue
  obtain ⟨s, us, ud, v, h⟩ := OneBitMux.exists_select hn hsel
  obtain rfl : Bits.ofNat 80 (2 ^ 70) = s :=
    LeafTree.leaf.inj (Option.some.inj (h.selector.value))
  refine not_preserves_of_not_fits h numPoints_wideValue (fun hfits => ?_) hpreserves
  exact absurd (hfits _ covers_wideValue) (by decide)

/-! ### The pass -/

section Pass

variable {engine : RangeEngine}

/-- The set of a node that holds bits has its value, also after rewrites. -/
def RangeEngine.SoundFor (engine : RangeEngine) (w : World env args) : Prop :=
  ∀ w', w ≤ w' → ∀ (b : ℚ) (i : Nat) (x : Bits), w'.Holds b i x → (engine i x.width).Covers x.val

/-- A select that the pass would rewrite in this graph has a set with points of 64 bits only. -/
def RangeEngine.FitsAt (engine : RangeEngine) (g : Graph) (id : Nat) : Prop :=
  ∀ n sel k g', g.nodes[id]? = some n → asSelect n = some sel →
    Graph.bitCountOrDie sel.selector g = .ok (k, g') →
    isSparse sel (engine sel.selector k) = true → ∀ x, (engine sel.selector k).Covers x → x < 2 ^ 64

/-- So have the selects that the pass rewrites, each in the graph in which it is visited. -/
def RangeEngine.FitsUint64 (engine : RangeEngine) : List Nat → Graph → Prop
  | [], _ => True
  | id :: order, g => engine.FitsAt g id ∧
    ∀ changed changed' g', visitNode engine changed id g = .ok (changed', g') →
      engine.FitsUint64 order g'

/-- Between two intervals there is a point that is in neither. -/
theorem sum_sizeBits_le {k m : Nat} {a : ProperInterval k} {l : List (ProperInterval k)}
    (h : (a :: l).Pairwise fun a b => a.upper + 1 < b.lower) (hm : ∀ i ∈ a :: l, i.upper < m) :
    ((a :: l).map fun i => i.sizeBits).sum + l.length + a.lower ≤ m := by
  induction l generalizing a with
  | nil =>
    have hupper := hm a mem_cons_self
    have hle := a.le
    rw [map_singleton, sum_singleton, a.sizeBits_eq, length_nil]
    omega
  | cons b l ih =>
    have hgap := rel_of_pairwise_cons h mem_cons_self
    have hrest := ih h.of_cons fun i hi => hm i (mem_cons_of_mem _ hi)
    have hle := a.le
    rw [map_cons, sum_cons, a.sizeBits_eq, length_cons]
    omega

/-- The test of the pass is exact on points of 64 bits. -/
theorem numPoints_lt_of_isSparse {k : Nat} {set : IntervalSet k} (h : isSparse sel set = true)
    (hfits : ∀ x, set.Covers x → x < 2 ^ 64) : set.numPoints < sel.cases.length := by
  have hsmall : ¬ set.HasLargeInterval := by
    intro hlarge
    rw [isSparse, size_of_large hlarge] at h
    cases h
  have hlt : set.numPoints < 2 ^ 64 := by
    rw [numPoints_eq]
    cases hl : set.intervals with
    | nil => simp
    | cons a l =>
      have hnormal := set.normal
      rw [hl] at hnormal
      have hsum := sum_sizeBits_le hnormal (m := 2 ^ 64) fun i hi =>
        hfits _ ⟨i, by rwa [hl], i.le, le_refl _⟩
      cases l with
      | nil =>
        have ha : ¬ 2 ^ 63 ≤ a.sizeBits := fun ha => hsmall ⟨a, by rw [hl]; simp, ha⟩
        rw [map_singleton, sum_singleton]
        omega
      | cons b l =>
        rw [length_cons] at hsum
        omega
  rw [isSparse, size_of_small hsmall] at h
  have hmod : (Int.bmod set.numPoints (2 ^ 64) % 2 ^ 64).toNat = set.numPoints := by
    rw [show ((2 : Int) ^ 64) = ((2 ^ 64 : Nat) : Int) from rfl, Int.bmod_emod]
    omega
  dsimp only at h
  rw [hmod] at h
  simpa using h

variable {us : List Value} {ud : Option Value}

theorem ensures_sparsifySelect {s : Bits} {v : Value} (h : SelectAt w id n sel s us ud v)
    {set : IntervalSet s.width} (hcovers : set.Covers s.val)
    (hfew : set.numPoints < sel.cases.length) (hfits : ∀ x, set.Covers x → x < 2 ^ 64) :
    w.Ensures (sparsifySelect id sel set) fun _ _ => True := by
  intro w₁ h₁
  obtain ⟨chain, w₂, w₃, -, h₂, -, hrun, h₃⟩ :=
    preserves_of_fits (selectAt_mono h h₁) hcovers hfew hfits
  exact ⟨(), w₃, hrun, h₂.trans h₃, trivial⟩

/-- Visiting a select keeps its value. -/
theorem ensures_visitSelect {s : Bits} {v : Value} (h : SelectAt w id n sel s us ud v)
    (hcovers : (engine sel.selector s.width).Covers s.val)
    (hfits : isSparse sel (engine sel.selector s.width) = true →
      ∀ x, (engine sel.selector s.width).Covers x → x < 2 ^ 64)
    (changed : Bool) : w.Ensures (visitSelect engine changed id sel) fun _ _ => True := by
  have hS := h.selector.holds
  refine ensures_bind (ensures_bitCountOrDie hS) fun w₁ k h₁ hk => ?_
  subst hk
  split
  · rename_i hsparse
    have hpoints := hfits hsparse
    refine ensures_bind (ensures_sparsifySelect (selectAt_mono h h₁) hcovers
      (numPoints_lt_of_isSparse hsparse hpoints) hpoints) fun w₂ _ _ _ => ?_
    exact ensures_pure fun _ _ => trivial
  · exact ensures_pure fun _ _ => trivial

/-- Visiting a node keeps all values, if what it looks up fits 64 bits. -/
theorem run_visitNode (hsound : engine.SoundFor w) (hfits : engine.FitsAt w.graph id)
    (changed : Bool) (hid : id < w.graph.nodes.length) :
    ∃ changed', ∃ w' : World env args,
      visitNode engine changed id w.graph = .ok (changed', w'.graph) ∧ w ≤ w' := by
  have hn := getElem?_eq_getElem hid
  rw [visitNode, run_getNode hn]
  cases hsel : asSelect w.graph.nodes[id] with
  | none => exact ⟨changed, w, rfl, le_refl w⟩
  | some sel =>
    obtain ⟨s, us, ud, v, h⟩ := OneBitMux.exists_select hn hsel
    obtain ⟨k, wk, hcount, -, hk⟩ := ensures_bitCountOrDie h.selector.holds w (le_refl w)
    subst hk
    have hcovers := hsound w (le_refl w) _ _ _ h.selector.holds
    obtain ⟨changed', w', hrun, hle, -⟩ := ensures_visitSelect h hcovers
      (hfits _ sel _ _ hn hsel hcount) changed w (le_refl w)
    exact ⟨changed', w', hrun, hle⟩

/-- The pass returns and keeps the value of every node, when the engine is right and the sets of
the selects that the pass rewrites have no point that does not fit. -/
theorem sparsifySelectPass_keepsValues (hsound : engine.SoundFor w) {order : List Nat}
    (hfits : engine.FitsUint64 order w.graph) (horder : ∀ id ∈ order, id < w.graph.nodes.length) :
    ∃ changed, ∃ w' : World env args,
      runOnFunctionBaseInternal engine order w.graph = .ok (changed, w'.graph) ∧ w ≤ w' := by
  unfold runOnFunctionBaseInternal
  generalize false = changed
  induction order generalizing w changed with
  | nil => exact ⟨changed, w, rfl, le_refl w⟩
  | cons id order ih =>
    obtain ⟨hid, hrest⟩ := forall_mem_cons.1 horder
    obtain ⟨changed₁, w₁, hrun, h₁⟩ := run_visitNode hsound hfits.1 changed hid
    obtain ⟨changed₂, w₂, hrun₂, h₂⟩ := ih (fun w' h' => hsound w' (h₁.trans h'))
      (hfits.2 _ _ _ hrun) (fun i hi => (hrest i hi).trans_le h₁.length) changed₁
    rw [foldlM_cons]
    exact ⟨changed₂, w₂, (run_bind_of_ok hrun).trans hrun₂, h₁.trans h₂⟩

/-- The selector is one or nine, and of other nodes nothing is known. -/
def oneOrNineEngine : RangeEngine := fun id k =>
  if h : id = 0 ∧ k = 4 then h.2 ▸ oneOrNine else maximal k

theorem sparsifySelectPass_keepsValues_oneOrNine :
    ∃ changed, ∃ w' : World (packageEnv []) [.leaf (Bits.ofNat 4 9), .leaf (Bits.ofNat 8 5)],
      runOnFunctionBaseInternal oneOrNineEngine [0, 1, 2, 3] narrowSelect.graph =
        .ok (changed, w'.graph) ∧ World.ofRun run_narrowSelect ≤ w' := by
  refine sparsifySelectPass_keepsValues (w := World.ofRun run_narrowSelect)
    (fun w' hle b i x hx => ?_) ?_ (by decide)
  · by_cases hi : i = 0 ∧ x.width = 4
    · obtain rfl := hi.1
      have hvalue : w'.vals[0]? = some (.leaf (Bits.ofNat 4 9)) := getElem?_of_prefix hle.vals rfl
      cases hx.value.symm.trans hvalue
      exact ⟨⟨⟨9, 9, by decide, by decide⟩, le_refl _⟩, by decide, by decide⟩
    · rw [oneOrNineEngine, dif_neg hi]
      exact covers_maximal x.isLt
  · -- the first three nodes are no selects, and the selector of the last has four bits
    have hskip : ∀ {i n}, narrowSelect.graph.nodes[i]? = some n → asSelect n = none →
        oneOrNineEngine.FitsAt narrowSelect.graph i := by
      intro i n hn hnone m sel k g' hm hsel
      cases hn.symm.trans hm
      rw [hnone] at hsel
      cases hsel
    refine ⟨hskip rfl rfl, ?_⟩
    rintro _ _ _ h
    cases h
    refine ⟨hskip rfl rfl, ?_⟩
    rintro _ _ _ h
    cases h
    refine ⟨hskip rfl rfl, ?_⟩
    rintro _ _ _ h
    cases h
    refine ⟨fun n sel k g' hn hsel hcount _ y hy => ?_, fun _ _ _ _ => trivial⟩
    cases hn
    cases hsel
    cases hcount
    exact hy.lt.trans (by decide)

end Pass

end SparsifySelect

end Xls

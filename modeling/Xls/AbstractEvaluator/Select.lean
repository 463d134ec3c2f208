import Xls.AbstractEvaluator
import Xls.Lib.BoolRows
import Mathlib.Data.List.TakeWhile

/-!
# Xls.AbstractEvaluator.Select

The selecting operations of `xls/ir/abstract_evaluator.h`: one-hot, binary and
priority selects, and what is built from them (shifts, bit-slice updates, decode
and encode).

A select that is told that its selector is never zero adds the bits on which all
cases agree that may be selected. That refinement is harmless because a selector
bit that is one never compares equal to `Zero()`.
-/

namespace Xls.Evaluator

open Bits BoolList Grow List Nat

variable {S E : Type} [Preorder S]

/-! ### Definitions -/

/-- The rows of a select, each with its selector bit. -/
abbrev Rows (E : Type) := List (E × List E)

/-- `result[j] = Or(result[j], And(cases[i][j], selector[i]))`. -/
def oneHotRow (ev : Evaluator S E) (result : List E) (row : E × List E) : EvalM S (List E) :=
  zipOp (fun r c => do
    let x ← ev.and c row.1
    ev.or r x) result row.2

/-- `and_reduction[j] = And(and_reduction[j], cases[i][j])` where the selector bit
is not known to be zero. -/
def commonRow (ev : Evaluator S E) (common : List E) (row : E × List E) : EvalM S (List E) :=
  if ev.isNotZero row.1 then zipOp ev.and common row.2 else pure common

/-- `result[j] = Or(And(cases[i][j], selector[i]), And(result[j], Not(selector[i])))`. -/
def priorityRow (ev : Evaluator S E) (result : List E) (row : E × List E) : EvalM S (List E) :=
  zipOp (fun r c => do
    let x ← ev.and c row.1
    let n ← ev.not row.1
    let y ← ev.and r n
    ev.or x y) result row.2

/-- The tail of the selects: use that the selector is not zero. -/
def addCommonBits (ev : Evaluator S E) (width : Nat) (rows : Rows E) (selectorCanBeZero : Bool)
    (result : List E) : EvalM S (List E) :=
  if selectorCanBeZero then pure result
  else do
    let common ← foldList ev.commonRow (ev.constVector width true) rows
    ev.bitwiseOr [common, result]

/-- The width of the first case. -/
def caseWidth (cases : List (List E)) : Nat :=
  match cases with
  | [] => 0
  | first :: _ => first.length

/-- `OneHotSelectInternal`. -/
def oneHotSelect (ev : Evaluator S E) (selector : List E) (cases : List (List E))
    (selectorCanBeZero : Bool) : EvalM S (List E) := do
  guardThat .check (selector.length == cases.length)
  guardThat .check (decide (0 < selector.length))
  let rows := selector.zip cases
  let result ← foldList ev.oneHotRow (ev.constVector (caseWidth cases) false) rows
  ev.addCommonBits (caseWidth cases) rows selectorCanBeZero result

/-- `PrioritySelectInternal`: from the last case to the first. -/
def prioritySelect (ev : Evaluator S E) (selector : List E) (cases : List (List E))
    (selectorCanBeZero : Bool) : EvalM S (List E) := do
  guardThat .check (selector.length == cases.length)
  guardThat .check (decide (0 < selector.length))
  let rows := selector.zip cases
  let result ← foldList ev.priorityRow (ev.constVector (caseWidth cases) false) rows.reverse
  ev.addCommonBits (caseWidth cases) rows selectorCanBeZero result

/-- `BitsToVector(UBits(value, width))`; the value must fit. -/
def constant (ev : Evaluator S E) (value width : Nat) : EvalM S (List E) := do
  guardThat .check (decide (value < 2 ^ width))
  return ev.bitsToVector (Bits.ofNat width value)

/-- `Equals(input, UBits(value, input.size()))`. -/
def equalsConstant (ev : Evaluator S E) (input : List E) (value : Nat) : EvalM S E := do
  let c ← ev.constant value input.length
  ev.equals input c

/-- `SelectInternal`. -/
def select (ev : Evaluator S E) (selector : List E) (cases : List (List E))
    (defaultValue : Option (List E)) : EvalM S (List E) := do
  let oneHotSelector ← mapList (ev.equalsConstant selector) (range cases.length)
  match defaultValue with
  | none => ev.oneHotSelect oneHotSelector cases false
  | some d => do
    guardThat .check (decide (0 < cases.length))
    let last ← ev.constant (cases.length - 1) selector.length
    let beyond ← ev.uLessThan last selector
    ev.oneHotSelect (oneHotSelector ++ [beyond]) (cases ++ [d]) false

/-- The selector of `Shift`: one bit for each shift amount that `amount` can
express, and one for over-shifting if it can express that. -/
def shiftSelector (ev : Evaluator S E) (width : Nat) (amount : List E) : EvalM S (List E) := do
  let equal ← mapList (ev.equalsConstant amount)
    ((range width).takeWhile fun i => decide (minBitCountUnsigned i ≤ amount.length))
  if minBitCountUnsigned width ≤ amount.length then do
    let limit ← ev.constant width amount.length
    let less ← ev.uLessThan amount limit
    let tooFar ← ev.not less
    return equal ++ [tooFar]
  else return equal

/-- The cases of a right shift: windows of the input extended at its end. -/
def rightCases (input : List E) (fill : E) (n : Nat) : List (List E) :=
  let extended := input ++ replicate (n - 1) fill
  (range n).map fun i => (extended.drop i).take input.length

/-- The cases of a left shift: windows of the input extended at its start. -/
def leftCases (input : List E) (fill : E) (n : Nat) : List (List E) :=
  let extended := replicate (n - 1) fill ++ input
  (range n).map fun i => (extended.drop (n - 1 - i)).take input.length

/-- `ShiftRightLogical`. -/
def shiftRightLogical (ev : Evaluator S E) (input amount : List E) : EvalM S (List E) := do
  let selector ← ev.shiftSelector input.length amount
  ev.oneHotSelect selector (rightCases input ev.zero selector.length) false

/-- `ShiftRightArith`; the fill is read only if there is something to fill. -/
def shiftRightArith (ev : Evaluator S E) (input amount : List E) : EvalM S (List E) := do
  let selector ← ev.shiftSelector input.length amount
  ev.oneHotSelect selector (rightCases input (input.getLast?.getD ev.zero) selector.length) false

/-- `ShiftLeftLogical`. -/
def shiftLeftLogical (ev : Evaluator S E) (input amount : List E) : EvalM S (List E) := do
  let selector ← ev.shiftSelector input.length amount
  ev.oneHotSelect selector (leftCases input ev.zero selector.length) false

/-- Truncate or zero-extend to a width. -/
def adjustWidth (ev : Evaluator S E) (value : List E) (width : Nat) : EvalM S (List E) :=
  if width ≤ value.length then bitSlice value 0 width else ev.zeroExtend value width

/-- `BitSliceUpdate`. -/
def bitSliceUpdate (ev : Evaluator S E) (input start value : List E) : EvalM S (List E) := do
  let numOnes := min input.length value.length
  let startOnes := (allOnes numOnes).zeroExtend input.length
  let shifted ← ev.shiftLeftLogical (ev.bitsToVector startOnes) start
  let mask ← ev.bitwiseNot shifted
  let adjusted ← ev.adjustWidth value input.length
  let kept ← ev.bitwiseAnd [mask, input]
  let placed ← ev.shiftLeftLogical adjusted start
  ev.bitwiseOr [kept, placed]

/-- `Decode`. -/
def decode (ev : Evaluator S E) (input : List E) (resultWidth : Nat) : EvalM S (List E) :=
  mapList (ev.equalsConstant input) (range resultWidth)

/-- `result[j] = Or(result[j], input[i])` if bit `j` of `i` is set. -/
def encodeBit (ev : Evaluator S E) (i : Nat) (e : E) (j : Nat) (r : E) : EvalM S E :=
  if i.testBit j then ev.or r e else pure r

/-- The inner loop of `Encode` for input `i`, from result bit `j` on. -/
def encodeStep (ev : Evaluator S E) (i : Nat) (e : E) : Nat → List E → EvalM S (List E)
  | _, [] => pure []
  | j, r :: rs => do
    let r' ← ev.encodeBit i e j r
    let rs' ← encodeStep ev i e (j + 1) rs
    return r' :: rs'

/-- `Encode`. -/
def encode (ev : Evaluator S E) (input : List E) : EvalM S (List E) :=
  foldList (fun result p => ev.encodeStep p.2 p.1 0 result)
    (ev.constVector (ceilOfLog2 input.length) false) input.zipIdx

/-! ### Soundness of the selects -/

section Sound

open Grow (Returns returns_bind returns_pure)

variable {ev : Evaluator S E} {F : S} {R : E → Bool → Prop}

/-- A row stands for a selector bit with its case. -/
abbrev Row (R : E → Bool → Prop) (p : E × List E) (q : Bool × List Bool) : Prop :=
  R p.1 q.1 ∧ Vec R p.2 q.2

variable {result r selector input amount : List E} {bits bs as vs : List Bool} {p : E × List E}
  {q : Bool × List Bool} {cases : List (List E)} {cs : List (List Bool)} {w n : Nat}
  {selectorCanBeZero : Bool}

theorem Sound.oneHotRow (h : ev.Sound F R) (hres : Vec R result bits) (hp : Row R p q)
    (hr : Returns F (ev.oneHotRow result p) r) :
    Vec R r (zipWith (fun b c => b || (c && q.1)) bits q.2) := by
  refine zipOp_sound ?_ hres hp.2 hr
  intro a b e x y ha hb he
  obtain ⟨c, hc, he⟩ := returns_bind he
  exact h.or ha (h.and hb hp.1 hc) he

theorem Sound.priorityRow (h : ev.Sound F R) (hres : Vec R result bits) (hp : Row R p q)
    (hr : Returns F (ev.priorityRow result p) r) :
    Vec R r (zipWith (fun b c => (c && q.1) || (b && !q.1)) bits q.2) := by
  refine zipOp_sound ?_ hres hp.2 hr
  intro a b e x y ha hb he
  obtain ⟨c, hc, he⟩ := returns_bind he
  obtain ⟨n, hn, he⟩ := returns_bind he
  obtain ⟨d, hd, he⟩ := returns_bind he
  exact h.or (h.and hb hp.1 hc) (h.and ha (h.not hp.1 hn) hd) he

/-- One row of the selection: the common bits where the selector bit is set. -/
theorem Sound.commonRow (h : ev.Sound F R) {common : List E} (hcom : Vec R common bits)
    (hp : ev.isNotZero p.1 = q.1 ∧ Vec R p.2 q.2) (hr : Returns F (ev.commonRow common p) r) :
    Vec R r (if q.1 then zipWith Bool.and bits q.2 else bits) := by
  unfold Evaluator.commonRow at hr
  rw [← hp.1]
  split at hr
  · rename_i hnz
    rw [if_pos hnz]
    exact zipOp_sound (fun _ _ _ _ _ => h.and) hcom hp.2 hr
  · rename_i hnz
    rw [if_neg hnz, returns_pure hr]
    exact hcom

theorem caseWidth_of_rel (hc : Forall₂ (Vec R) cases cs) (hw : ∀ c ∈ cs, c.length = w)
    (hne : 0 < cases.length) : caseWidth cases = w := by
  cases hc with
  | nil => simp at hne
  | cons hfirst _ => exact hfirst.length_eq.trans (hw _ mem_cons_self)

theorem marks_rel (hc : Forall₂ (Vec R) cases cs) :
    Forall₂ (fun p q => ev.isNotZero p.1 = q.1 ∧ Vec R p.2 q.2) (selector.zip cases)
      ((selector.map ev.isNotZero).zip cs) := by
  refine forall₂_zip (P := fun a m => ev.isNotZero a = m) ?_ hc
  induction selector with
  | nil => exact Forall₂.nil
  | cons a as ih => exact Forall₂.cons rfl ih

section

variable (h : ev.Sound F R) (hs : Vec R selector bs) (hc : Forall₂ (Vec R) cases cs)
  (hw : ∀ c ∈ cs, c.length = w)
include h hs hc hw

/-- The refinement for a selector that is not zero changes nothing, if some
selected case is below the result. -/
theorem Sound.addCommonBits (hlen : selector.length = cases.length) (hbits : bits.length = w)
    (hrow : selectorCanBeZero = false → ∃ i, ∃ (hi : i < bs.length) (hi' : i < cs.length),
      bs[i] = true ∧ ∀ j, cs[i].getD j false = true → bits.getD j false = true)
    (hres : Vec R result bits)
    (hr : Returns F (ev.addCommonBits w (selector.zip cases) selectorCanBeZero result) r) :
    Vec R r bits := by
  unfold Evaluator.addCommonBits at hr
  cases selectorCanBeZero with
  | true =>
    rw [if_pos rfl] at hr
    rw [returns_pure hr]
    exact hres
  | false =>
    rw [if_neg Bool.false_ne_true] at hr
    obtain ⟨common, hcommon, hr⟩ := returns_bind hr
    have hmarks : Forall₂ (fun p q => ev.isNotZero p.1 = q.1 ∧ Vec R p.2 q.2)
        (selector.zip cases) ((selector.map ev.isNotZero).zip cs) := marks_rel hc
    have hcom : Vec R common (((selector.map ev.isNotZero).zip cs).foldl
        (fun acc row => if row.1 then zipWith Bool.and acc row.2 else acc)
        (replicate w true)) := by
      refine returns_foldList ?_ hmarks (h.constVector w true) hcommon
      intro _ _ _ _ _ hacc hp hret
      exact h.commonRow hacc hp hret
    have hwm : ∀ row ∈ (selector.map ev.isNotZero).zip cs,
        row.2.length = (replicate w true).length := by
      intro row hrow
      rw [length_replicate]
      exact hw _ (of_mem_zip hrow).2
    rw [foldl_andRows hwm, length_replicate] at hcom
    have hor := h.bitwiseOr
      (Forall₂.cons hcom (Forall₂.cons hres Forall₂.nil)) hr
    have hand : zipWith Bool.and (replicate w true)
        (andRows w ((selector.map ev.isNotZero).zip cs)) =
        andRows w ((selector.map ev.isNotZero).zip cs) := by
      refine ext_getD (by simp) fun j hj => ?_
      have hj' : j < w := by simpa using hj
      rw [getD_zipWith (by simpa using hj') (by simpa using hj')]
      simp [hj']
    rw [hand] at hor
    obtain ⟨i, hi, hi', hbit, himp⟩ := hrow rfl
    have his : i < selector.length := hs.length_eq ▸ hi
    have hnz : ev.isNotZero selector[i] = true := by
      have hR := hs.get his hi
      simp only [get_eq_getElem, hbit] at hR
      exact h.isNotZero hR
    have hmem : (true, cs[i]) ∈ (selector.map ev.isNotZero).zip cs := by
      have hz : i < ((selector.map ev.isNotZero).zip cs).length := by simp; omega
      have heq : ((selector.map ev.isNotZero).zip cs)[i] = (true, cs[i]) := by simp [hnz]
      exact heq ▸ getElem_mem hz
    have hfinal : naryBits Bool.or
        [andRows w ((selector.map ev.isNotZero).zip cs), bits] = bits :=
      zipWith_or_andRows hbits ⟨(true, cs[i]), hmem, rfl, himp⟩
    rwa [hfinal] at hor

/-- `OneHotSelect` is the disjunction of the selected cases. -/
theorem Sound.oneHotSelect (hnz : selectorCanBeZero = false → bs.any id = true)
    (hr : Returns F (ev.oneHotSelect selector cases selectorCanBeZero) r) :
    Vec R r (orRows w (bs.zip cs)) := by
  obtain ⟨u, hu, hr⟩ := returns_bind hr
  obtain ⟨u', hu', hr⟩ := returns_bind hr
  have hlen := beq_iff_eq.1 (returns_guardThat hu)
  have hpos := of_decide_eq_true (returns_guardThat hu')
  rw [caseWidth_of_rel hc hw (by omega)] at hr
  obtain ⟨result, hresult, hr⟩ := returns_bind hr
  have hrows : Forall₂ (Row R) (selector.zip cases) (bs.zip cs) := forall₂_zip hs hc
  have hwr : ∀ row ∈ bs.zip cs, row.2.length = (replicate w false).length := by
    intro row hrow
    rw [length_replicate]
    exact hw _ (of_mem_zip hrow).2
  have hfold : Vec R result ((bs.zip cs).foldl
      (fun acc row => zipWith (fun r c => r || (c && row.1)) acc row.2)
      (replicate w false)) := by
    refine returns_foldList ?_ hrows (h.constVector w false) hresult
    intro _ _ _ _ _ hacc hp hret
    exact h.oneHotRow hacc hp hret
  rw [foldl_orRows hwr, length_replicate] at hfold
  have hor : zipWith Bool.or (replicate w false) (orRows w (bs.zip cs)) =
      orRows w (bs.zip cs) := by
    refine ext_getD (by simp) fun j hj => ?_
    have hj' : j < w := by simpa using hj
    rw [getD_zipWith (by simpa using hj') (by simpa using hj')]
    simp [hj']
  rw [hor] at hfold
  refine h.addCommonBits hs hc hw hlen (by simp) (fun hz => ?_) hfold hr
  obtain ⟨b, hb, hbt⟩ := any_eq_true.1 (hnz hz)
  obtain ⟨i, hi, rfl⟩ := getElem_of_mem hb
  have hi' : i < cs.length := by
    rw [← hc.length_eq, ← hlen, hs.length_eq]
    exact hi
  refine ⟨i, hi, hi', hbt, fun j hj => ?_⟩
  have hjw : j < w := by
    rw [← hw cs[i] (getElem_mem hi')]
    by_contra hge
    rw [getD_eq_default _ _ (by omega)] at hj
    cases hj
  rw [getD_orRows hjw, any_eq_true]
  have hz : i < (bs.zip cs).length := by simp; omega
  refine ⟨(bs.zip cs)[i], getElem_mem hz, ?_⟩
  rw [getElem_zip, Bool.and_eq_true]
  exact ⟨hj, hbt⟩

/-- `PrioritySelect` is the first selected case. -/
theorem Sound.prioritySelect (hnz : selectorCanBeZero = false → bs.any id = true)
    (hr : Returns F (ev.prioritySelect selector cases selectorCanBeZero) r) :
    Vec R r (firstRow w (bs.zip cs)) := by
  obtain ⟨u, hu, hr⟩ := returns_bind hr
  obtain ⟨u', hu', hr⟩ := returns_bind hr
  have hlen := beq_iff_eq.1 (returns_guardThat hu)
  have hpos := of_decide_eq_true (returns_guardThat hu')
  rw [caseWidth_of_rel hc hw (by omega)] at hr
  obtain ⟨result, hresult, hr⟩ := returns_bind hr
  have hrows : Forall₂ (Row R) (selector.zip cases) (bs.zip cs) := forall₂_zip hs hc
  have hwr : ∀ row ∈ bs.zip cs, row.2.length = w := fun row hrow => hw _ (of_mem_zip hrow).2
  have hfold : Vec R result ((bs.zip cs).reverse.foldl
      (fun acc row => zipWith (fun r c => (c && row.1) || (r && !row.1)) acc row.2)
      (replicate w false)) := by
    refine returns_foldList ?_ (rel_reverse hrows) (h.constVector w false) hresult
    intro _ _ _ _ _ hacc hp hret
    exact h.priorityRow hacc hp hret
  rw [foldl_firstRow hwr] at hfold
  refine h.addCommonBits hs hc hw hlen (length_firstRow hwr) (fun hz => ?_) hfold hr
  -- the first selected row is in the list, and it is the result
  have hsome : ((bs.zip cs).find? Prod.fst).isSome = true := by
    rw [find?_isSome]
    obtain ⟨b, hb, hbt⟩ := any_eq_true.1 (hnz hz)
    obtain ⟨i, hi, rfl⟩ := getElem_of_mem hb
    have hi' : i < (bs.zip cs).length := by
      rw [length_zip, ← hc.length_eq, ← hlen, hs.length_eq, min_self]
      exact hi
    exact ⟨(bs.zip cs)[i], getElem_mem hi', by rw [getElem_zip]; exact hbt⟩
  obtain ⟨row, hrow⟩ := Option.isSome_iff_exists.1 hsome
  obtain ⟨i, hi, heq⟩ := getElem_of_mem (mem_of_find?_eq_some hrow)
  have hib : i < bs.length := by simp at hi; omega
  have hic : i < cs.length := by simp at hi; omega
  rw [getElem_zip] at heq
  refine ⟨i, hib, hic, ?_, fun j hj => ?_⟩
  · have hfst := find?_some hrow
    rw [← heq] at hfst
    exact hfst
  · rw [firstRow, hrow, ← heq]
    exact hj

end

/-! ### Soundness of binary selects, decode and encode -/

theorem Sound.constant (h : ev.Sound F R) {value width : Nat}
    (hr : Returns F (ev.constant value width) r) :
    value < 2 ^ width ∧ Vec R r (BoolList.ofNat width value) := by
  obtain ⟨u, hu, hr⟩ := returns_bind hr
  have hlt := of_decide_eq_true (returns_guardThat hu)
  rw [returns_pure hr]
  have hvec := h.bitsToVector (Bits.ofNat width value)
  rw [toBools, ofNat_width, ofNat_val, mod_eq_of_lt hlt] at hvec
  exact ⟨hlt, hvec⟩

section

variable (h : ev.Sound F R) (hv : Vec R input bs)
include h hv

/-- A comparison with a constant fails if the constant does not fit the width of the vector. -/
theorem Sound.equalsConstant {value : Nat} {r : E}
    (hr : Returns F (ev.equalsConstant input value) r) :
    value < 2 ^ bs.length ∧ R r (decide (toNat bs = value)) := by
  obtain ⟨c, hc, hr⟩ := returns_bind hr
  obtain ⟨hlt, hcv⟩ := h.constant hc
  rw [hv.length_eq] at hlt hcv
  obtain ⟨hlen, hres⟩ := h.equals hv hcv hr
  have hiff : bs = BoolList.ofNat bs.length value ↔ toNat bs = value := by
    constructor
    · intro heq
      rw [heq, toNat_ofNat, mod_eq_of_lt hlt]
    · intro heq
      rw [← heq, ofNat_toNat]
  rw [decide_eq_decide.2 hiff] at hres
  exact ⟨hlt, hres⟩

/-- One selector bit for each number below `n`. -/
theorem Sound.equalsConstants (hr : Returns F (mapList (ev.equalsConstant input) (range n)) r) :
    Vec R r ((range n).map fun i => decide (toNat bs = i)) := by
  refine returns_mapList (P := Eq) ?_ (forall₂_same.2 fun _ _ => rfl) hr
  rintro i _ e rfl he
  exact (h.equalsConstant hv he).2

theorem Sound.decode (hr : Returns F (ev.decode input w) r) :
    Vec R r ((range w).map fun i => decide (toNat bs = i)) :=
  h.equalsConstants hv hr

end

variable {k j : Nat} {α : Type} {fill : α} {b : Bool}

section

variable (h : ev.Sound F R) (hs : Vec R selector bs) (hc : Forall₂ (Vec R) cases cs)
  (hw : ∀ c ∈ cs, c.length = w)
include h hs hc hw

/-- A select over rows of which exactly one is selected is that row. -/
theorem Sound.oneHotSelect_unique (hk : k < cs.length) (hlen : bs.length = cs.length)
    (hsel : ∀ i, (hi : i < bs.length) → bs[i] = decide (i = k))
    (hr : Returns F (ev.oneHotSelect selector cases false) r) : Vec R r cs[k] := by
  have hany : bs.any id = true := by
    rw [any_eq_true]
    exact ⟨bs[k], getElem_mem (by omega), by rw [hsel k (by omega)]; simp⟩
  have hres := h.oneHotSelect hs hc hw (fun _ => hany) hr
  have hzip : k < (bs.zip cs).length := by simp; omega
  rw [orRows_unique (fun row hrow => hw _ (of_mem_zip hrow).2) hzip] at hres
  · rwa [getElem_zip] at hres
  · intro i hi
    rw [getElem_zip]
    exact hsel i (by simp at hi; omega)

/-- `Select` without a default picks the case with the selector's number. -/
theorem Sound.select_none (hk : toNat bs < cs.length)
    (hr : Returns F (ev.select selector cases none) r) : Vec R r cs[toNat bs] := by
  obtain ⟨onehot, honehot, hr⟩ := returns_bind hr
  have hone := h.equalsConstants hs honehot
  rw [hc.length_eq] at hone
  refine h.oneHotSelect_unique hone hc hw hk (by simp) (fun i hi => ?_) hr
  simp [eq_comm]

/-- `Select` with a default picks the default beyond the cases. -/
theorem Sound.select_some {d : List E} {db : List Bool} (hd : Vec R d db) (hdw : db.length = w)
    (hr : Returns F (ev.select selector cases (some d)) r) : Vec R r (cs.getD (toNat bs) db) := by
  obtain ⟨onehot, honehot, hr⟩ := returns_bind hr
  obtain ⟨u, hu, hr⟩ := returns_bind hr
  have hpos := of_decide_eq_true (returns_guardThat hu)
  obtain ⟨last, hlast, hr⟩ := returns_bind hr
  obtain ⟨beyond, hbeyond, hr⟩ := returns_bind hr
  have hone := h.equalsConstants hs honehot
  obtain ⟨hlt, hlastv⟩ := h.constant hlast
  have hbey := (h.uLessThan hlastv hs hbeyond).2
  rw [toNat_ofNat, mod_eq_of_lt hlt] at hbey
  rw [hc.length_eq] at hone hbey hpos
  have hsel := rel_append hone (Forall₂.cons hbey Forall₂.nil)
  have hcases := rel_append hc (Forall₂.cons hd Forall₂.nil)
  have hwall : ∀ c ∈ cs ++ [db], c.length = w := by
    intro c hmem
    rcases mem_append.1 hmem with hmem | hmem
    · exact hw c hmem
    · rw [mem_singleton.1 hmem]
      exact hdw
  -- the selected row is the number of the selector, or the last one
  have hk : min (toNat bs) cs.length < (cs ++ [db]).length := by simp
  have hres := h.oneHotSelect_unique hsel hcases hwall hk (by simp) (fun i hi => ?_) hr
  · rcases Nat.lt_or_ge (toNat bs) cs.length with hin | hout
    · rw [getD_eq_getElem _ _ hin]
      simp only [Nat.min_eq_left hin.le] at hres
      rwa [getElem_append_left hin] at hres
    · rw [getD_eq_default _ _ hout]
      simp only [Nat.min_eq_right hout] at hres
      rwa [getElem_append_right (le_refl _), getElem_singleton] at hres
  · rcases Nat.lt_or_ge i cs.length with hin | hout
    · rw [getElem_append_left (by simpa using hin)]
      simp only [getElem_map, getElem_range, decide_eq_decide]
      omega
    · have hi' : i < cs.length + 1 := by simpa using hi
      obtain rfl : i = cs.length := by omega
      rw [getElem_append_right (by simp)]
      simp only [length_map, length_range, Nat.sub_self, getElem_cons_zero, decide_eq_decide]
      omega

end

/-- One step of the encoder sets the bits of the index if the selector bit is set. -/
theorem Sound.encodeStep (h : ev.Sound F R) {e : E} {x : Bool} (he : R e x) {i : Nat}
    (hres : Vec R result bits) (hr : Returns F (ev.encodeStep i e j result) r) :
    Vec R r (bits.mapIdx fun k b => b || (x && i.testBit (j + k))) := by
  induction hres generalizing j r with
  | nil =>
    rw [returns_pure hr]
    exact Forall₂.nil
  | @cons a b as bs hab _ ih =>
    rw [Evaluator.encodeStep] at hr
    obtain ⟨a', ha', hr⟩ := returns_bind hr
    obtain ⟨as', has', hr⟩ := returns_bind hr
    rw [returns_pure hr, mapIdx_cons]
    refine Forall₂.cons ?_ ?_
    · rw [Nat.add_zero]
      unfold encodeBit at ha'
      split at ha'
      · rename_i hbit
        rw [hbit, Bool.and_true]
        exact h.or hab he ha'
      · rename_i hbit
        rw [Bool.not_eq_true] at hbit
        rw [hbit, Bool.and_false, Bool.or_false, returns_pure ha']
        exact hab
    · have hrest := ih has'
      simpa only [Nat.add_assoc, Nat.add_comm 1] using hrest

/-- The number that `Encode` computes: the disjunction of the numbers of the set
bits. -/
def encodeNat (bs : List (Bool × Nat)) (acc : Nat) : Nat :=
  bs.foldl (fun acc p => if p.1 then acc ||| p.2 else acc) acc

theorem ofNat_or_mapIdx (w acc i : Nat) (x : Bool) :
    ((BoolList.ofNat w acc).mapIdx fun k b => b || (x && i.testBit (0 + k))) =
      BoolList.ofNat w (if x then acc ||| i else acc) := by
  apply ext_getElem
  · simp
  · intro k h1 h2
    rw [getElem_mapIdx, getElem_ofNat, getElem_ofNat, Nat.zero_add]
    cases x <;> simp

/-- The encoder computes the disjunction of the indices of the bits that are set. -/
theorem Sound.encode (h : ev.Sound F R) (hv : Vec R input bs) (hr : Returns F (ev.encode input) r) :
    Vec R r (BoolList.ofNat (ceilOfLog2 bs.length) (encodeNat bs.zipIdx 0)) := by
  have hidx : Forall₂ (fun p q => R p.1 q.1 ∧ p.2 = q.2) input.zipIdx bs.zipIdx := by
    rw [zipIdx_eq_zip_range', zipIdx_eq_zip_range', hv.length_eq]
    exact forall₂_zip hv (forall₂_same.2 fun _ _ => rfl)
  refine returns_foldList
    (Q := fun v n => Vec R v (BoolList.ofNat (ceilOfLog2 bs.length) n)) ?_ hidx ?_ hr
  · intro a n p q e ha hp hret
    have hstep := h.encodeStep hp.1 ha hret
    rw [hp.2, ofNat_or_mapIdx] at hstep
    exact hstep
  · rw [hv.length_eq]
    have hzero := h.constVector (ceilOfLog2 bs.length) false
    have heq : BoolList.ofNat (ceilOfLog2 bs.length) 0 =
        replicate (ceilOfLog2 bs.length) false := by
      apply ext_getElem
      · simp
      · intro k h1 h2
        rw [getElem_ofNat]
        simp
    rwa [heq]

/-! ### Soundness of shifts -/

/-- The amounts below a bound, within a range. -/
theorem takeWhile_lt_range (n c : Nat) :
    ((range n).takeWhile fun i => decide (i < c)) = range (min n c) := by
  rcases Nat.le_total n c with h | h
  · rw [Nat.min_eq_left h, takeWhile_eq_self_iff]
    intro i hi
    rw [mem_range] at hi
    exact decide_eq_true (by omega)
  · obtain ⟨d, rfl⟩ := Nat.exists_eq_add_of_le h
    rw [Nat.min_eq_right h, range_add, takeWhile_append_of_pos]
    · cases d with
      | zero => simp
      | succ d => simp [range_succ_eq_map]
    · intro i hi
      rw [mem_range] at hi
      exact decide_eq_true hi

/-- The selector of a shift by `a` positions has exactly the bit `min a width`. -/
theorem Sound.shiftSelector (h : ev.Sound F R) (ha : Vec R amount as) {width : Nat}
    (hr : Returns F (ev.shiftSelector width amount) r) :
    ∃ bs, Vec R r bs ∧ min (toNat as) width < bs.length ∧
      ∀ i, (hi : i < bs.length) → bs[i] = decide (i = min (toNat as) width) := by
  have hlt := toNat_lt as
  unfold Evaluator.shiftSelector at hr
  have hwhile : ((range width).takeWhile fun i =>
      decide (minBitCountUnsigned i ≤ amount.length)) =
      range (min width (2 ^ as.length)) := by
    rw [← takeWhile_lt_range, ha.length_eq]
    congr 1
    funext i
    rw [decide_eq_decide, lt_two_pow_iff_minBitCountUnsigned]
  rw [hwhile] at hr
  obtain ⟨equal, hequal, hr⟩ := returns_bind hr
  have heq := h.equalsConstants ha hequal
  split at hr
  · rename_i hfit
    rw [ha.length_eq, ← lt_two_pow_iff_minBitCountUnsigned] at hfit
    obtain ⟨limit, hlimit, hr⟩ := returns_bind hr
    obtain ⟨less, hless, hr⟩ := returns_bind hr
    obtain ⟨tooFar, htooFar, hr⟩ := returns_bind hr
    obtain ⟨-, hlim⟩ := h.constant hlimit
    rw [ha.length_eq] at hlim
    have hle := (h.uLessThan ha hlim hless).2
    rw [toNat_ofNat, mod_eq_of_lt hfit] at hle
    rw [returns_pure hr]
    refine ⟨_, rel_append heq (Forall₂.cons (h.not hle htooFar) Forall₂.nil), ?_, ?_⟩
    · simp
      omega
    · intro i hi
      have hi' : i < width + 1 := by simp at hi; omega
      rcases Nat.lt_or_ge i width with hin | hout
      · rw [getElem_append_left (by simp; omega), getElem_map, getElem_range, decide_eq_decide]
        omega
      · obtain rfl : i = width := by omega
        rw [getElem_append_right (by simp)]
        simp only [getElem_singleton, ← decide_not, decide_eq_decide]
        omega
  · rename_i hfit
    rw [ha.length_eq, ← lt_two_pow_iff_minBitCountUnsigned, Nat.not_lt] at hfit
    rw [returns_pure hr]
    refine ⟨_, heq, ?_, ?_⟩
    · simp
      omega
    · intro i hi
      rw [getElem_map, getElem_range, decide_eq_decide]
      simp at hi
      omega

theorem getElem_rightCases {input : List α} (hk : k < n) (hle : k ≤ input.length)
    (h : k < (rightCases input fill n).length) :
    (rightCases input fill n)[k] = input.drop k ++ replicate k fill := by
  simp only [rightCases, getElem_map, getElem_range]
  rw [drop_append, Nat.sub_eq_zero_of_le hle, drop_zero, take_append,
    length_drop, take_of_length_le (by simp), take_replicate,
    Nat.min_eq_left (by omega)]
  congr 2
  omega

theorem getElem_leftCases {input : List α} (hk : k < n) (hle : k ≤ input.length)
    (h : k < (leftCases input fill n).length) :
    (leftCases input fill n)[k] = replicate k fill ++ input.take (input.length - k) := by
  have hz : n - 1 - k - (n - 1) = 0 := by omega
  have hn : n - 1 - (n - 1 - k) = k := by omega
  simp only [leftCases, getElem_map, getElem_range]
  rw [drop_append, length_replicate, hz, drop_zero, drop_replicate, hn,
    take_append, length_replicate, take_replicate, Nat.min_eq_right hle]

theorem length_mem_rightCases {input : List α} {c : List α} (hc : c ∈ rightCases input fill n) :
    c.length = input.length := by
  obtain ⟨i, hi, rfl⟩ := mem_map.1 hc
  rw [mem_range] at hi
  simp
  omega

theorem length_mem_leftCases {input : List α} {c : List α} (hc : c ∈ leftCases input fill n) :
    c.length = input.length := by
  obtain ⟨i, hi, rfl⟩ := mem_map.1 hc
  rw [mem_range] at hi
  simp
  omega

theorem rightCases_rel (hv : Vec R input bs) {fill : E} (hf : R fill b) (n : Nat) :
    Forall₂ (Vec R) (rightCases input fill n) (rightCases bs b n) := by
  unfold rightCases
  rw [forall₂_map_left_iff, forall₂_map_right_iff, forall₂_same, hv.length_eq]
  intro i _
  exact forall₂_take _ (forall₂_drop _ (rel_append hv (forall₂_replicate hf _)))

theorem leftCases_rel (hv : Vec R input bs) {fill : E} (hf : R fill b) (n : Nat) :
    Forall₂ (Vec R) (leftCases input fill n) (leftCases bs b n) := by
  unfold leftCases
  rw [forall₂_map_left_iff, forall₂_map_right_iff, forall₂_same, hv.length_eq]
  intro i _
  exact forall₂_take _ (forall₂_drop _ (rel_append (forall₂_replicate hf _) hv))

section

variable (h : ev.Sound F R) (hv : Vec R input bs) (ha : Vec R amount as)
include h hv ha

/-- A right shift moves the bits down and fills from the top. -/
theorem Sound.shiftRight {fill : E} (hf : R fill b)
    (hsel : Returns F (ev.shiftSelector input.length amount) selector)
    (hr : Returns F (ev.oneHotSelect selector (rightCases input fill selector.length) false) r) :
    Vec R r (bs.drop (min (toNat as) bs.length) ++ replicate (min (toNat as) bs.length) b) := by
  obtain ⟨sel, hs, hk, hone⟩ := h.shiftSelector ha hsel
  rw [hv.length_eq] at hk hone
  have hcases := rightCases_rel hv hf selector.length
  rw [hs.length_eq] at hcases hr
  have hk' : min (toNat as) bs.length < (rightCases bs b sel.length).length := by
    simpa [rightCases] using hk
  have hres := h.oneHotSelect_unique hs hcases (fun c hc => length_mem_rightCases hc) hk'
    (by simp [rightCases]) hone hr
  rwa [getElem_rightCases hk (Nat.min_le_right _ _)] at hres

/-- A left shift moves the bits up and fills from the bottom. -/
theorem Sound.shiftLeftLogical (hr : Returns F (ev.shiftLeftLogical input amount) r) :
    Vec R r (replicate (min (toNat as) bs.length) false ++
      bs.take (bs.length - min (toNat as) bs.length)) := by
  obtain ⟨selector, hsel, hr⟩ := returns_bind hr
  obtain ⟨sel, hs, hk, hone⟩ := h.shiftSelector ha hsel
  rw [hv.length_eq] at hk hone
  have hcases := leftCases_rel hv h.zero selector.length
  rw [hs.length_eq] at hcases hr
  have hk' : min (toNat as) bs.length < (leftCases bs false sel.length).length := by
    simpa [leftCases] using hk
  have hres := h.oneHotSelect_unique hs hcases (fun c hc => length_mem_leftCases hc) hk'
    (by simp [leftCases]) hone hr
  rwa [getElem_leftCases hk (Nat.min_le_right _ _)] at hres

theorem Sound.shiftRightLogical (hr : Returns F (ev.shiftRightLogical input amount) r) :
    Vec R r (bs.drop (min (toNat as) bs.length) ++ replicate (min (toNat as) bs.length) false) := by
  obtain ⟨selector, hsel, hr⟩ := returns_bind hr
  exact h.shiftRight hv ha h.zero hsel hr

/-- Shifting by the width or more leaves only copies of the sign. -/
theorem Sound.shiftRightArith (hr : Returns F (ev.shiftRightArith input amount) r) :
    Vec R r (bs.drop (min (toNat as) bs.length) ++
      replicate (min (toNat as) bs.length) (bs.getLast?.getD false)) := by
  obtain ⟨selector, hsel, hr⟩ := returns_bind hr
  refine h.shiftRight hv ha ?_ hsel hr
  cases hl : input.getLast? with
  | none =>
    rw [getLast?_eq_none_iff] at hl
    subst hl
    cases hv
    exact h.zero
  | some e =>
    obtain ⟨b, hb, hR⟩ := forall₂_getLast? hv hl
    rw [hb]
    exact hR

end

/-! ### Soundness of bit-slice updates -/

/-- Widening appends zeros, narrowing drops the bits above the width. -/
theorem Sound.adjustWidth (h : ev.Sound F R) {value : List E} (hv : Vec R value vs)
    (hr : Returns F (ev.adjustWidth value w) r) : Vec R r ((range w).map (vs.getD · false)) := by
  unfold Evaluator.adjustWidth at hr
  split at hr
  · rename_i hle
    have hres := (bitSlice_sound hv hr).2
    rw [hv.length_eq] at hle
    have heq : (vs.drop 0).take w = (range w).map (vs.getD · false) := by
      refine ext_getD (by simp [hle]) fun j hj => ?_
      have hj' : j < w := by simp at hj; omega
      simp [hj']
    rwa [heq] at hres
  · rename_i hle
    obtain ⟨hle', hres⟩ := h.zeroExtend hv hr
    have heq : vs ++ replicate (w - vs.length) false =
        (range w).map (vs.getD · false) := by
      refine ext_getD (by simp; omega) fun j hj => ?_
      have hj' : j < w := by simp at hj; omega
      rcases Nat.lt_or_ge j vs.length with hin | hout
      · simp [hj', getElem?_append_left hin]
      · simp [hj', getElem?_append_right hout, getElem?_eq_none hout]
    rwa [heq] at hres

/-- Bit `j` of an update of `bs` by `vs` from position `start` on. -/
def updatedBit (bs vs : List Bool) (start j : Nat) : Bool :=
  if start ≤ j ∧ j - start < vs.length then vs.getD (j - start) false else bs.getD j false

theorem getD_shiftedLeft (hk : k ≤ bs.length) (hj : j < bs.length) :
    (replicate k false ++ bs.take (bs.length - k)).getD j false =
      (decide (k ≤ j) && bs.getD (j - k) false) := by
  rcases Nat.lt_or_ge j k with hlt | hge
  · simp [getElem?_append_left, hlt, Nat.not_le.2 hlt]
  · have hlt : j - k < bs.length - k := by omega
    have hin : j - k < bs.length := by omega
    simp [getElem?_append_right, hge, hlt, getElem?_eq_getElem hin]

theorem getD_ones {m : Nat} (hm : m ≤ n) (hj : j < n) :
    ((allOnes m).zeroExtend n).toBools.getD j false = decide (j < m) := by
  rw [getD_eq_getElem _ _ (by simpa using hj), toBools_getElem, Bits.get,
    zeroExtend_val (by simpa using hm), allOnes_val, testBit_two_pow_sub_one]

/-- Masking out a window and placing shifted bits there is an update. -/
theorem updatedBit_eq {start : Nat} (hj : j < bs.length) :
    ((!(decide (min start bs.length ≤ j) &&
        decide (j - min start bs.length < min bs.length vs.length)) && bs.getD j false) ||
      (decide (min start bs.length ≤ j) && vs.getD (j - min start bs.length) false)) =
      updatedBit bs vs start j := by
  unfold updatedBit
  rcases Nat.lt_or_ge j start with hlt | hge
  · rw [if_neg (by omega), decide_eq_false (by omega : ¬min start bs.length ≤ j)]
    simp
  · have hmin : min start bs.length = start := Nat.min_eq_left (by omega)
    rw [hmin, decide_eq_true hge]
    rcases Nat.lt_or_ge (j - start) vs.length with hin | hout
    · rw [if_pos ⟨hge, hin⟩, decide_eq_true (by omega : j - start < min bs.length vs.length)]
      simp
    · rw [if_neg (by omega), decide_eq_false (by omega), getD_eq_default _ _ hout]
      simp

/-- Every bit is either updated or kept; the start may lie outside the vector. -/
theorem Sound.bitSliceUpdate (h : ev.Sound F R) {start value : List E} {ss : List Bool}
    (hi : Vec R input bs) (hs : Vec R start ss) (hv : Vec R value vs)
    (hr : Returns F (ev.bitSliceUpdate input start value) r) :
    Vec R r ((range bs.length).map (updatedBit bs vs (toNat ss))) := by
  obtain ⟨shifted, hshifted, hr⟩ := returns_bind hr
  obtain ⟨mask, hmask, hr⟩ := returns_bind hr
  obtain ⟨adjusted, hadjusted, hr⟩ := returns_bind hr
  obtain ⟨kept, hkept, hr⟩ := returns_bind hr
  obtain ⟨placed, hplaced, hr⟩ := returns_bind hr
  rw [hi.length_eq] at hadjusted hshifted
  rw [hv.length_eq] at hshifted
  have hones := h.bitsToVector ((allOnes (min bs.length vs.length)).zeroExtend bs.length)
  have hm := h.bitwiseNot (h.shiftLeftLogical hones hs hshifted) hmask
  have hp := h.shiftLeftLogical (h.adjustWidth hv hadjusted) hs hplaced
  have hk := h.bitwiseAnd (Forall₂.cons hm (Forall₂.cons hi Forall₂.nil)) hkept
  have hres := h.bitwiseOr (Forall₂.cons hk (Forall₂.cons hp Forall₂.nil)) hr
  refine (congrArg (Vec R r) (ext_getD ?_ fun j hj => ?_)).mp hres
  · simp [naryBits]
  · have hj' : j < bs.length := by simpa [naryBits] using hj
    have hlen : ((allOnes (min bs.length vs.length)).zeroExtend bs.length).toBools.length =
        bs.length := by simp
    have hadj : ((range bs.length).map (vs.getD · false)).length = bs.length := by simp
    have hmin := Nat.min_le_right (toNat ss) bs.length
    simp only [naryBits, foldl_cons, foldl_nil, hlen, hadj]
    rw [getD_zipWith (by simpa using hj') (by simpa using hj'),
      getD_zipWith (by simpa using hj') hj']
    have hones : (replicate (min (toNat ss) bs.length) false ++
        ((allOnes (min bs.length vs.length)).zeroExtend bs.length).toBools.take
          (bs.length - min (toNat ss) bs.length)).getD j false =
        (decide (min (toNat ss) bs.length ≤ j) &&
          decide (j - min (toNat ss) bs.length < min bs.length vs.length)) := by
      have hg := getD_shiftedLeft (hmin.trans hlen.ge) (hj'.trans_eq hlen.symm)
      rw [hlen, getD_ones (Nat.min_le_left _ _) (by omega)] at hg
      exact hg
    have hplaced : (replicate (min (toNat ss) bs.length) false ++
        ((range bs.length).map (vs.getD · false)).take
          (bs.length - min (toNat ss) bs.length)).getD j false =
        (decide (min (toNat ss) bs.length ≤ j) &&
          vs.getD (j - min (toNat ss) bs.length) false) := by
      have hg := getD_shiftedLeft (hmin.trans hadj.ge) (hj'.trans_eq hadj.symm)
      rw [hadj] at hg
      rw [hg]
      congr 1
      exact getD_map_range (by omega)
    rw [getD_map_not (by simpa using hj'), hones, hplaced, getD_map_range hj']
    exact updatedBit_eq hj'

end Sound

/-! ### Totality -/

section TotalOps

open Grow (Ensures ensures_bind ensures_pure ensures_guardThat)

variable {ev : Evaluator S E} {V : S → E → Prop} {s : S}

/-- A vector of a given width with valid elements. -/
abbrev ValidVec (V : S → E → Prop) (w : Nat) (s : S) (v : List E) : Prop :=
  v.length = w ∧ AllValid V s v

theorem TotalOps.vecMono (h : ev.TotalOps V) (w : Nat) : Monotonic (ValidVec V w) :=
  fun _ _ _ hst hv => ⟨hv.1, h.allMono hst hv.2⟩

/-- The selector and the cases of a select that is accepted. -/
structure ValidSelect (V : S → E → Prop) (s : S) (w : Nat) (selector : List E)
    (cases : List (List E)) : Prop where
  length : selector.length = cases.length
  pos : 0 < selector.length
  selector : AllValid V s selector
  cases : ∀ c ∈ cases, ValidVec V w s c

variable {w : Nat} {selector input : List E} {cases : List (List E)}

omit [Preorder S] in
theorem ValidSelect.width (hv : ValidSelect V s w selector cases) : caseWidth cases = w := by
  have hpos := hv.pos
  have hlen := hv.length
  cases cases with
  | nil =>
    rw [length_nil] at hlen
    omega
  | cons c cs => exact (hv.cases c mem_cons_self).1

variable {result : List E}

section

variable (h : ev.TotalOps V)
include h

section

variable (hv : ValidSelect V s w selector cases)
include hv

/-- Adding the bits of the cases one by one keeps the width. -/
theorem TotalOps.addCommonBits (hres : ValidVec V w s result) (selectorCanBeZero : Bool) :
    Ensures s (ev.addCommonBits w (selector.zip cases) selectorCanBeZero result)
      (ValidVec V w) := by
  unfold Evaluator.addCommonBits
  split
  · exact ensures_pure fun t ht => h.vecMono w _ _ _ ht hres
  · refine ensures_bind (P := ValidVec V w) ?_ fun t common ht hcommon => ?_
    · refine ensures_foldList (h.vecMono w) ?_
        ⟨by simp [Evaluator.constVector], h.constVector w true⟩
      intro t acc row ht hacc hrow
      have hcase := h.vecMono w _ _ _ ht (hv.cases row.2 (of_mem_zip hrow).2)
      unfold commonRow
      split
      · refine (ensures_zipOp h.monotonic (fun _ _ _ _ => h.and) hacc.2 hcase.2
          (by rw [hacc.1, hcase.1])).imp fun t' r _ hr => ⟨hr.1.trans hacc.1, hr.2⟩
      · exact ensures_pure fun t' ht' => h.vecMono w _ _ _ ht' hacc
    · refine ensures_naryOp h.monotonic (fun _ _ _ _ => h.or) (by simp) ?_ ?_
      · intro v hmem
        rcases mem_pair.1 hmem with rfl | rfl
        · exact hcommon.2
        · exact h.allMono ht hres.2
      · intro v hmem
        rcases mem_pair.1 hmem with rfl | rfl
        · exact hcommon.1
        · exact hres.1

/-- One-hot selection over cases of one width returns that width. -/
theorem TotalOps.oneHotSelect (selectorCanBeZero : Bool) :
    Ensures s (ev.oneHotSelect selector cases selectorCanBeZero) (ValidVec V w) := by
  refine ensures_bind (ensures_guardThat (beq_iff_eq.2 hv.length)) fun t1 _ h1 _ => ?_
  refine ensures_bind (ensures_guardThat (decide_eq_true hv.pos)) fun t2 _ h2 _ => ?_
  have h12 := h1.trans h2
  rw [hv.width]
  refine ensures_bind (P := ValidVec V w) ?_ fun t3 result h3 hresult => ?_
  · refine ensures_foldList (h.vecMono w) ?_
      ⟨by simp [Evaluator.constVector], h.constVector w false⟩
    intro t acc row ht hacc hrow
    have hst := h12.trans ht
    have hcase := h.vecMono w _ _ _ hst (hv.cases row.2 (of_mem_zip hrow).2)
    have hbit := h.mono hst (hv.selector row.1 (of_mem_zip hrow).1)
    refine (ensures_zipOp h.monotonic ?_ hacc.2 hcase.2 (by rw [hacc.1, hcase.1])).imp
      fun t' r _ hr => ⟨hr.1.trans hacc.1, hr.2⟩
    intro t' a b ht' ha hb
    refine ensures_bind (h.and hb (h.mono ht' hbit)) fun t'' x ht'' hx => ?_
    exact h.or (h.mono ht'' ha) hx
  · have hst := h12.trans h3
    exact h.addCommonBits ⟨hv.length, hv.pos, h.allMono hst hv.selector,
      fun c hc => h.vecMono w _ _ _ hst (hv.cases c hc)⟩ hresult selectorCanBeZero

/-- Priority selection over cases of one width returns that width. -/
theorem TotalOps.prioritySelect (selectorCanBeZero : Bool) :
    Ensures s (ev.prioritySelect selector cases selectorCanBeZero) (ValidVec V w) := by
  refine ensures_bind (ensures_guardThat (beq_iff_eq.2 hv.length)) fun t1 _ h1 _ => ?_
  refine ensures_bind (ensures_guardThat (decide_eq_true hv.pos)) fun t2 _ h2 _ => ?_
  have h12 := h1.trans h2
  rw [hv.width]
  refine ensures_bind (P := ValidVec V w) ?_ fun t3 result h3 hresult => ?_
  · refine ensures_foldList (h.vecMono w) ?_
      ⟨by simp [Evaluator.constVector], h.constVector w false⟩
    intro t acc row ht hacc hrow
    have hmem := of_mem_zip (mem_reverse.1 hrow)
    have hst := h12.trans ht
    have hcase := h.vecMono w _ _ _ hst (hv.cases row.2 hmem.2)
    have hbit := h.mono hst (hv.selector row.1 hmem.1)
    refine (ensures_zipOp h.monotonic ?_ hacc.2 hcase.2 (by rw [hacc.1, hcase.1])).imp
      fun t' r _ hr => ⟨hr.1.trans hacc.1, hr.2⟩
    intro t' a b ht' ha hb
    refine ensures_bind (h.and hb (h.mono ht' hbit)) fun u1 x k1 hx => ?_
    refine ensures_bind (h.not (h.mono (ht'.trans k1) hbit)) fun u2 n k2 hn => ?_
    refine ensures_bind (h.and (h.mono (k1.trans k2) ha) hn) fun u3 y k3 hy => ?_
    exact h.or (h.mono (k2.trans k3) hx) hy
  · have hst := h12.trans h3
    exact h.addCommonBits ⟨hv.length, hv.pos, h.allMono hst hv.selector,
      fun c hc => h.vecMono w _ _ _ hst (hv.cases c hc)⟩ hresult selectorCanBeZero

end

theorem TotalOps.constant {value width : Nat} (hlt : value < 2 ^ width) :
    Ensures s (ev.constant value width) (ValidVec V width) := by
  refine ensures_bind (ensures_guardThat (decide_eq_true hlt)) fun t _ _ _ => ?_
  exact ensures_pure fun t' _ => ⟨by rw [length_bitsToVector, ofNat_width], h.bitsToVector _⟩

theorem TotalOps.equalsConstant (hv : AllValid V s input) {value : Nat}
    (hlt : value < 2 ^ input.length) : Ensures s (ev.equalsConstant input value) V := by
  refine ensures_bind (h.constant hlt) fun t c ht hc => ?_
  exact h.equals (h.allMono ht hv) hc.2 hc.1.symm

theorem TotalOps.decode (hv : AllValid V s input) (hw : w ≤ 2 ^ input.length) :
    Ensures s (ev.decode input w) (ValidVec V w) := by
  refine (ensures_mapList h.monotonic fun t i ht hi => ?_).imp
    fun t r _ hr => ⟨hr.1.trans length_range, hr.2⟩
  rw [mem_range] at hi
  exact h.equalsConstant (h.allMono ht hv) (by omega)

/-- A binary select is accepted if its selector can name every case. -/
theorem TotalOps.select {defaultValue : Option (List E)} (hs : AllValid V s selector)
    (hpos : 0 < cases.length) (hlen : cases.length ≤ 2 ^ selector.length)
    (hc : ∀ c ∈ cases, ValidVec V w s c) (hd : ∀ d, defaultValue = some d → ValidVec V w s d) :
    Ensures s (ev.select selector cases defaultValue) (ValidVec V w) := by
  have hmap : Ensures s (mapList (ev.equalsConstant selector) (range cases.length))
      fun t r => r.length = (range cases.length).length ∧ ∀ a ∈ r, V t a := by
    refine ensures_mapList h.monotonic fun t i ht hi => ?_
    rw [mem_range] at hi
    exact h.equalsConstant (h.allMono ht hs) (by omega)
  refine ensures_bind hmap fun t1 onehot h1 hone => ?_
  rw [length_range] at hone
  cases defaultValue with
  | none =>
    exact h.oneHotSelect ⟨hone.1, hone.1 ▸ hpos, hone.2,
      fun c hmem => h.vecMono w _ _ _ h1 (hc c hmem)⟩ false
  | some d =>
    refine ensures_bind (ensures_guardThat (decide_eq_true hpos)) fun t2 _ h2 _ => ?_
    refine ensures_bind (h.constant (by omega)) fun t3 last h3 hlast => ?_
    have h13 := (h1.trans h2).trans h3
    refine ensures_bind (h.uLessThan hlast.2 (h.allMono h13 hs) hlast.1)
      fun t4 beyond h4 hbeyond => ?_
    have h14 := h13.trans h4
    refine h.oneHotSelect ⟨?_, ?_, ?_, ?_⟩ false
    · simp [hone.1]
    · simp
    · intro a ha
      rcases mem_append.1 ha with ha | ha
      · exact h.mono ((h2.trans h3).trans h4) (hone.2 a ha)
      · rw [mem_singleton.1 ha]
        exact hbeyond
    · intro c hmem
      rcases mem_append.1 hmem with hmem | hmem
      · exact h.vecMono w _ _ _ h14 (hc c hmem)
      · rw [mem_singleton.1 hmem]
        exact h.vecMono w _ _ _ h14 (hd d rfl)

/-- One step of the encoder keeps the length of the result. -/
theorem TotalOps.encodeStep {i j : Nat} {e : E} (he : V s e) (hres : AllValid V s result) :
    Ensures s (ev.encodeStep i e j result) (ValidVec V result.length) := by
  induction result generalizing j s with
  | nil => exact ensures_pure fun _ _ => ⟨rfl, fun _ hx => nomatch hx⟩
  | cons r rs ih =>
    rw [AllValid, forall_mem_cons] at hres
    rw [Evaluator.encodeStep]
    refine ensures_bind (P := V) ?_ fun t1 r' h1 hr' => ?_
    · unfold encodeBit
      split
      · exact h.or hres.1 he
      · exact ensures_pure fun t ht => h.mono ht hres.1
    · refine ensures_bind (ih (h.mono h1 he) (h.allMono h1 hres.2)) fun t2 rs' h2 hrs' => ?_
      refine ensures_pure fun t3 h3 => ⟨by simp [hrs'.1], forall_mem_cons.2 ⟨?_, ?_⟩⟩
      · exact h.mono (h2.trans h3) hr'
      · exact h.allMono h3 hrs'.2

theorem TotalOps.encode (hv : AllValid V s input) :
    Ensures s (ev.encode input) (ValidVec V (ceilOfLog2 input.length)) := by
  refine ensures_foldList (h.vecMono _) ?_
    ⟨by simp [Evaluator.constVector], h.constVector _ false⟩
  intro t acc p ht hacc hp
  have hmem := mem_zipIdx' hp
  refine (h.encodeStep (h.mono ht (hv p.1 ?_)) hacc.2).imp
    fun t' r _ hr => ⟨hr.1.trans hacc.1, hr.2⟩
  rw [hmem.2]
  exact getElem_mem hmem.1

end

end TotalOps

end Xls.Evaluator

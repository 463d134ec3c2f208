import Xls.BitsOps.Narrow
import Xls.ComparisonSimplification

/-!
# Xls.ComparisonSimplification.Ranges

What the sets of the pass contain: the ranges of comparisons with a constant, the ranges of
logical operations, and the sets that the pass recognizes when it replaces a node. At width
zero a set is empty or maximal.
-/

namespace Xls

open IntervalSet Interval Nat Bool

namespace IntervalSet

variable {w : Nat} {s : IntervalSet w}

/-- A maximal set covers every value of the width. -/
theorem isMaximal_iff : s.isMaximal = true ↔ ∀ x < 2 ^ w, s.Covers x := by
  constructor
  · intro h x hx
    exact covers_of_isMaximal h hx
  · intro h
    have hs : s = maximal w := by
      apply eq_of_covers
      intro x
      constructor
      · intro hx
        exact covers_maximal hx.lt
      · intro hx
        exact h x hx.lt
    rw [hs]
    simp [isMaximal, maximal, single, Interval.isMaximal, ProperInterval.maximal, Interval.maximal]

/-- A set that has a point is precise exactly if that is its only one. -/
theorem getPreciseValue_spec (h : s.isEmpty = false) :
    ∃ o, s.getPreciseValue = .ok o ∧ ∀ v, o = some v → ∀ x, s.Covers x ↔ x = v := by
  obtain ⟨y, hy⟩ := exists_covers_of_not_isEmpty h
  by_cases hp : s.isPrecise = true
  · refine ⟨some y, getPreciseValue_of_covers hp hy, ?_⟩
    intro v hv x
    cases hv
    constructor
    · intro hx
      have hxy := getPreciseValue_of_covers hp hx
      rw [getPreciseValue_of_covers hp hy] at hxy
      exact (Option.some.inj (Except.ok.inj hxy)).symm
    · intro hx
      rwa [hx]
  · refine ⟨none, ?_, fun v hv => nomatch hv⟩
    rw [getPreciseValue, if_neg hp]

theorem covers_singleton {i : ProperInterval w} (h : s.intervals = [i]) (x : Nat) :
    s.Covers x ↔ i.lower ≤ x ∧ x ≤ i.upper := by
  unfold Covers
  rw [h]
  simp [ProperInterval.Mem]

end IntervalSet

namespace ComparisonSimplification

/-! ### Comparisons with a constant -/

/-- The range of the values below a limit. -/
theorem covers_makeULtRange (limit : Bits) {x : Nat} (hx : x < 2 ^ limit.width) :
    (makeULtRange limit).Covers x ↔ x < limit.val := by
  have hlt := limit.isLt
  unfold makeULtRange
  by_cases hzero : limit.val = 0
  · rw [if_pos (by simpa [Bits.isZero] using hzero)]
    simp [hzero]
  · have hdecrement : limit.decrement.val = limit.val - 1 := by
      rw [Bits.decrement, Bits.ofNat_val, show limit.val + 2 ^ limit.width - 1 =
        limit.val - 1 + 2 ^ limit.width by omega, add_mod_right]
      exact mod_eq_of_lt (by omega)
    rw [if_neg (by simpa [Bits.isZero] using hzero), covers_addInterval hx, hdecrement]
    have hupper : (closed 0 (limit.val - 1) : Interval limit.width).upper =
        limit.val - 1 := mod_eq_of_lt (by omega)
    have hlower : (closed 0 (limit.val - 1) : Interval limit.width).lower = 0 :=
      zero_mod _
    rw [covers_iff_of_le (by omega), hupper, hlower]
    simp
    omega

/-- The range of the values above a limit. -/
theorem covers_makeUGtRange (limit : Bits) {x : Nat} (hx : x < 2 ^ limit.width) :
    (makeUGtRange limit).Covers x ↔ limit.val < x := by
  have hlt := limit.isLt
  unfold makeUGtRange
  by_cases hones : limit.val = 2 ^ limit.width - 1
  · rw [if_pos (by simpa [Bits.isAllOnes] using hones)]
    simp
    omega
  · have hincrement : limit.increment.val = limit.val + 1 := mod_eq_of_lt (by omega)
    rw [if_neg (by simpa [Bits.isAllOnes] using hones), covers_addInterval hx,
      hincrement, Bits.allOnes_val]
    have hupper : (closed (limit.val + 1) (2 ^ limit.width - 1) :
        Interval limit.width).upper = 2 ^ limit.width - 1 := mod_eq_of_lt (by omega)
    have hlower : (closed (limit.val + 1) (2 ^ limit.width - 1) :
        Interval limit.width).lower = limit.val + 1 := mod_eq_of_lt (by omega)
    rw [covers_iff_of_le (by omega), hupper, hlower]
    simp
    omega

/-- The range of a comparison with a constant holds the values for which it is true. -/
theorem constantEquivalence_spec {op : CompareOp} {other : Nat} {c : Bits} {onRhs : Bool}
    {e : RangeEquivalence} (h : constantEquivalence op other c onRhs = some e) :
    e.node = other ∧ e.width = c.width ∧ ∀ x : Bits, x.width = c.width →
      decide (e.range.Covers x.val) =
        Interpreter.compareBits op (if onRhs then x else c) (if onRhs then c else x) := by
  have hlt : ∀ x : Bits, x.width = c.width → x.val < 2 ^ c.width := by
    intro x hx
    rw [← hx]
    exact x.isLt
  have heq : ∀ x : Bits, x.width = c.width → ((IntervalSet.ofBits c).Covers x.val ↔ x = c) := by
    intro x hx
    rw [IntervalSet.ofBits, covers_precise, Bits.ext_iff']
    exact ⟨fun h => ⟨hx, h⟩, fun h => h.2⟩
  cases op with
  | eq =>
    cases h
    refine ⟨rfl, rfl, fun x hx => ?_⟩
    rw [decide_eq_decide.2 (heq x hx)]
    cases onRhs with
    | true => rfl
    | false => exact decide_eq_decide.2 eq_comm
  | ne =>
    cases h
    refine ⟨rfl, rfl, fun x hx => ?_⟩
    rw [decide_eq_decide.2 ((covers_complement (hlt x hx)).trans
      (not_congr (heq x hx))), decide_not]
    cases onRhs with
    | true => rfl
    | false => exact congrArg not (decide_eq_decide.2 eq_comm)
  | ult =>
    cases h
    refine ⟨rfl, rfl, fun x hx => ?_⟩
    cases onRhs with
    | true => exact decide_eq_decide.2 (covers_makeULtRange c (hlt x hx))
    | false => exact decide_eq_decide.2 (covers_makeUGtRange c (hlt x hx))
  | ugt =>
    cases h
    refine ⟨rfl, rfl, fun x hx => ?_⟩
    cases onRhs with
    | true => exact decide_eq_decide.2 (covers_makeUGtRange c (hlt x hx))
    | false => exact decide_eq_decide.2 (covers_makeULtRange c (hlt x hx))
  | _ => cases h

/-! ### Logical operations -/

/-- The set operation acts on the points as the operation on truth values does. -/
def ActsAs (reduce : (width : Nat) → IntervalSet width → IntervalSet width → IntervalSet width)
    (f : Bool → Bool → Bool) : Prop :=
  ∀ width (a b : IntervalSet width) (x : Nat),
    decide ((reduce width a b).Covers x) = f (decide (a.Covers x)) (decide (b.Covers x))

theorem actsAs_intersect : ActsAs (fun _ => IntervalSet.intersect) and := by
  intro width a b x
  rw [decide_eq_decide.2 covers_intersect, decide_and]

theorem actsAs_combine : ActsAs (fun _ => IntervalSet.combine) or := by
  intro width a b x
  rw [decide_eq_decide.2 covers_combine, decide_or]

/-- Whether a value is in the range. -/
def RangeEquivalence.holds (e : RangeEquivalence) (x : Nat) : Bool := decide (e.range.Covers x)

variable {width : Nat} {range : IntervalSet width}

/-- Ranges are combined as the truth values of the comparisons are. -/
theorem reduceRanges_ok
    {reduce : (width : Nat) → IntervalSet width → IntervalSet width → IntervalSet width}
    {f : Bool → Bool → Bool} (hf : ActsAs reduce f) {es : List RangeEquivalence}
    (hwidth : ∀ e ∈ es, e.width = width) (result : IntervalSet width) :
    ∃ out, reduceRanges (reduce width) result es = .ok out ∧ ∀ x, decide (out.Covers x) =
        (es.map fun e => e.holds x).foldl f (decide (result.Covers x)) := by
  induction es generalizing result with
  | nil => exact ⟨result, rfl, fun x => rfl⟩
  | cons e es ih =>
    obtain ⟨he, hes⟩ := List.forall_mem_cons.1 hwidth
    subst he
    obtain ⟨out, hout, hcovers⟩ := ih hes (reduce e.width result e.range)
    refine ⟨out, ?_, fun x => ?_⟩
    · rw [reduceRanges, RangeEquivalence.rangeOf, dif_pos rfl]
      exact hout
    · rw [hcovers, hf]
      rfl

/-- Equivalences of one node are reduced to an equivalence of that node. -/
theorem reduceEquivalence_ok
    {reduce : (width : Nat) → IntervalSet width → IntervalSet width → IntervalSet width}
    {f : Bool → Bool → Bool} (hf : ActsAs reduce f) {complement : Bool} {e : RangeEquivalence}
    {es : List RangeEquivalence} (hwidth : ∀ c ∈ es, c.node = e.node → c.width = e.width) :
    ∃ o, reduceEquivalence (e :: es) reduce complement = .ok o ∧ ∀ r, o = some r →
      r.node = e.node ∧ r.width = e.width ∧ (∀ c ∈ es, c.node = e.node) ∧
      ∀ x < 2 ^ e.width, r.holds x =
        (complement ^^ (es.map fun c => c.holds x).foldl f (e.holds x)) := by
  unfold reduceEquivalence
  dsimp only
  split
  · exact ⟨none, rfl, fun r hr => nomatch hr⟩
  · rename_i hsame
    have hnodes : ∀ c ∈ es, c.node = e.node := by
      rw [not_eq_true', not_eq_false, List.all_eq_true] at hsame
      intro c hc
      exact beq_iff_eq.1 (hsame c (List.mem_cons_of_mem _ hc))
    obtain ⟨out, hout, hcovers⟩ :=
      reduceRanges_ok hf (fun c hc => hwidth c hc (hnodes c hc)) e.range
    refine ⟨some ⟨e.node, e.width, if complement then out.complement else out⟩, ?_, ?_⟩
    · rw [hout]
      rfl
    · intro r hr
      cases hr
      refine ⟨rfl, rfl, hnodes, fun x hx => ?_⟩
      cases complement with
      | false =>
        rw [false_xor]
        exact hcovers x
      | true =>
        rw [true_xor]
        have hcomplement : decide (out.complement.Covers x) = decide (¬out.Covers x) :=
          decide_eq_decide.2 (covers_complement hx)
        rw [decide_not, hcovers] at hcomplement
        exact hcomplement

/-! ### The sets that are recognized -/

/-- The limit of a range that is a comparison from above. -/
theorem getULtInterval_spec {limit : Bits} (h : getULtInterval range = some limit) :
    limit.width = width ∧ ∀ x, range.Covers x ↔ x < limit.val := by
  unfold getULtInterval at h
  split at h
  · rename_i interval hinterval
    split at h
    · rename_i hbounds
      cases h
      have hlt := interval.upper_lt
      refine ⟨rfl, fun x => ?_⟩
      rw [IntervalSet.covers_singleton hinterval, hbounds.1, Bits.increment, Bits.ofNat_val,
        Bits.ofNat_val, Bits.ofNat_width, mod_eq_of_lt hlt, mod_eq_of_lt (by omega)]
      omega
    · cases h
  · cases h

/-- The limit of a range that is a comparison from below. -/
theorem getUGtInterval_spec {limit : Bits} (h : getUGtInterval range = some limit) :
    limit.width = width ∧ ∀ x < 2 ^ width, range.Covers x ↔ limit.val < x := by
  unfold getUGtInterval at h
  split at h
  · rename_i interval hinterval
    split at h
    · rename_i hbounds
      cases h
      have hlt := interval.lower_lt
      refine ⟨rfl, fun x hx => ?_⟩
      have hval : interval.lower + 2 ^ width - 1 = interval.lower - 1 + 2 ^ width := by omega
      rw [IntervalSet.covers_singleton hinterval, hbounds.2, Bits.decrement, Bits.ofNat_val,
        Bits.ofNat_val, Bits.ofNat_width, mod_eq_of_lt hlt, hval, add_mod_right,
        mod_eq_of_lt (by omega)]
      omega
    · cases h
  · cases h

end ComparisonSimplification

end Xls

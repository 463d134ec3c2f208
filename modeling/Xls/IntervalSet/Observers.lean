import Xls.IntervalOps.TernaryPrecise

/-!
# Xls.IntervalSet.Observers

The methods of `IntervalSet` that read a set, on the class's representation: the vector of
intervals may hold improper and overlapping ones until `Normalize` is called. `Covers`,
`IsPrecise` and, on proper intervals, `IsTrueWhenMaskWith` depend on the points only. The
bounds of a set that is not normalized are read off the bounds of its intervals, and an
improper interval reaches below its lower bound and above its upper one; so `LowerBound`,
`UpperBound` and with them `ConvexHull` may change under `Normalize` (`observersAgree_iff`).
-/

namespace Xls

open IntervalSet Nat List Or
open ProperInterval (Mem)
open IntervalOps (commonFrom)

variable {w : Nat}

/-! ### The observers -/

/-- `IsTrueWhenAndWith`, for the unsigned value of the mask: the bounds' common prefix with
ones below it is tested against the mask. -/
def Interval.isTrueWhenAndWith (i : Interval w) (value : Nat) : Bool :=
  let k := commonFrom i.lower i.upper w
  (2 ^ k * (i.lower / 2 ^ k) + (2 ^ k - 1)) &&& value != 0

namespace StoredIntervalSet

/-- The loop of `LowerBound` over a set that is not normalized. -/
def lowerLoop : Option Nat → List (Interval w) → Option Nat
  | lower, [] => lower
  | some lower, i :: is => lowerLoop (if i.lower < lower then some i.lower else some lower) is
  | none, i :: is => lowerLoop (some i.lower) is

/-- `LowerBound`. -/
def lowerBound (s : StoredIntervalSet w) : Option Nat :=
  if s.isNormalized then s.intervals.head?.map (·.lower) else lowerLoop none s.intervals

/-- The loop of `UpperBound` over a set that is not normalized. -/
def upperLoop : Option Nat → List (Interval w) → Option Nat
  | upper, [] => upper
  | some upper, i :: is => upperLoop (if upper < i.upper then some i.upper else some upper) is
  | none, i :: is => upperLoop (some i.upper) is

/-- `UpperBound`. -/
def upperBound (s : StoredIntervalSet w) : Option Nat :=
  if s.isNormalized then s.intervals.getLast?.map (·.upper) else upperLoop none s.intervals

/-- `ConvexHull`. -/
def convexHull (s : StoredIntervalSet w) : Option (Interval w) :=
  match s.lowerBound, s.upperBound with
  | some lower, some upper => some (Interval.closed lower upper)
  | _, _ => none

/-- `Covers`, for the unsigned value of the point. -/
def covers (s : StoredIntervalSet w) (x : Nat) : Bool := s.intervals.any (·.covers x)

/-- `CoversZero`. -/
def coversZero (s : StoredIntervalSet w) : Bool := s.covers 0

/-- `CoversMax`. -/
def coversMax (s : StoredIntervalSet w) : Bool := s.covers (2 ^ w - 1)

/-- `IsTrueWhenMaskWith`, for the unsigned value of the mask. -/
def isTrueWhenMaskWith (s : StoredIntervalSet w) (value : Nat) : Bool :=
  s.intervals.any (·.isTrueWhenAndWith value)

/-- The loop of `IsPrecise`. -/
def preciseLoop : Option (Interval w) → List (Interval w) → Bool
  | _, [] => true
  | precisely, i :: is =>
    if precisely.any (fun p => p != i) then false
    else if !i.isPrecise then false
    else preciseLoop (some i) is

/-- `IsPrecise`. -/
def isPrecise (s : StoredIntervalSet w) : Bool := preciseLoop none s.intervals

/-- `IsMaximal`, which checks that the set is normalized. -/
def isMaximal (s : StoredIntervalSet w) : Result Bool :=
  if s.isNormalized then .ok (s.intervals.any (·.isMaximal)) else .error .check

/-- `IsEmpty`, which checks that the set is normalized. -/
def isEmpty (s : StoredIntervalSet w) : Result Bool :=
  if s.isNormalized then .ok s.intervals.isEmpty else .error .check

/-! ### Points -/

theorem covers_iff {s : StoredIntervalSet w} {x : Nat} : s.covers x = true ↔ s.Covers x :=
  any_eq_true

end StoredIntervalSet

namespace Interval

theorem covers_lower (i : Interval w) : i.covers i.lower = true := by
  rcases Nat.lt_or_ge i.upper i.lower with h | h
  · exact (covers_iff_of_lt h).2 (inl (le_refl _))
  · exact covers_of_between (le_refl _) h

theorem covers_upper (i : Interval w) : i.covers i.upper = true := by
  rcases Nat.lt_or_ge i.upper i.lower with h | h
  · exact (covers_iff_of_lt h).2 (inr (le_refl _))
  · exact covers_of_between h (le_refl _)

variable {i : Interval w}

theorem isImproper_iff : i.isImproper = true ↔ i.upper < i.lower :=
  decide_eq_true_iff

/-- An improper interval covers both ends of the number range. -/
theorem covers_ends (h : i.isImproper = true) :
    i.covers 0 = true ∧ i.covers (2 ^ w - 1) = true := by
  have hlt := isImproper_iff.1 h
  have hlow := i.lower_lt
  rw [covers_iff_of_lt hlt, covers_iff_of_lt hlt]
  exact ⟨inr (Nat.zero_le _), inl (by omega)⟩

/-- A mask with ones below the common prefix has a bit in common with another exactly if
a bit of that one lies below the prefix or is set in the lower bound. -/
theorem isTrueWhenAndWith_iff {value : Nat} :
    i.isTrueWhenAndWith value = true ↔ ∃ j, value.testBit j = true ∧
      (j < commonFrom i.lower i.upper w ∨ i.lower.testBit j = true) := by
  have hbit : ∀ j, (2 ^ commonFrom i.lower i.upper w *
      (i.lower / 2 ^ commonFrom i.lower i.upper w) +
        (2 ^ commonFrom i.lower i.upper w - 1)).testBit j = true ↔
      j < commonFrom i.lower i.upper w ∨ i.lower.testBit j = true := by
    intro j
    have hpos : 0 < 2 ^ commonFrom i.lower i.upper w := Nat.two_pow_pos _
    rw [testBit_two_pow_mul_add _ (by omega)]
    split
    · rename_i hlt
      simp [hlt]
    · rename_i hge
      rw [testBit_div_two_pow, Nat.sub_add_cancel (Nat.not_lt.1 hge)]
      simp [hge]
  simp only [isTrueWhenAndWith, bne_iff_ne, ne_eq]
  constructor
  · intro h
    obtain ⟨j, hj⟩ := exists_testBit_of_ne_zero h
    rw [testBit_and, Bool.and_eq_true] at hj
    exact ⟨j, hj.2, (hbit j).1 hj.1⟩
  · intro h hzero
    obtain ⟨j, hv, hj⟩ := h
    have hand := congrArg (fun n => n.testBit j) hzero
    simp only [testBit_and, hv, (hbit j).2 hj, zero_testBit] at hand
    cases hand

/-- On a proper interval `IsTrueWhenAndWith` is exact. -/
theorem isTrueWhenAndWith_exact (h : i.isImproper = false) {value : Nat} :
    i.isTrueWhenAndWith value = true ↔ ∃ x, i.covers x = true ∧ x &&& value ≠ 0 := by
  have hle : i.lower ≤ i.upper := Nat.not_lt.1 (of_decide_eq_false h)
  rw [isTrueWhenAndWith_iff]
  constructor
  · intro hbit
    obtain ⟨j, hv, hj⟩ := hbit
    -- a value between the bounds has the bit of the mask
    have hone : ∃ x, i.lower ≤ x ∧ x ≤ i.upper ∧ x.testBit j = true := by
      rcases hj with hj | hj
      · exact IntervalOps.exists_between_testBit hle i.upper_lt hj true
      · exact ⟨i.lower, le_refl _, hle, hj⟩
    obtain ⟨x, h1, h2, hx⟩ := hone
    refine ⟨x, covers_of_between h1 h2, ?_⟩
    intro hzero
    have hand := congrArg (fun n => n.testBit j) hzero
    simp only [testBit_and, hx, hv, zero_testBit] at hand
    cases hand
  · intro hx
    obtain ⟨x, hc, hne⟩ := hx
    obtain ⟨h1, h2⟩ := (covers_iff_of_le hle).1 hc
    obtain ⟨j, hj⟩ := exists_testBit_of_ne_zero hne
    rw [testBit_and, Bool.and_eq_true] at hj
    refine ⟨j, hj.2, ?_⟩
    by_cases hlow : j < commonFrom i.lower i.upper w
    · exact inl hlow
    · refine inr ?_
      rw [← IntervalOps.testBit_eq_of_between i.upper_lt h1 h2 (Nat.not_lt.1 hlow)]
      exact hj.1

end Interval

namespace StoredIntervalSet

/-! ### The bounds -/

/-- The loop finds the least lower end. -/
theorem lowerLoop_eq (l : List (Interval w)) : lowerLoop none l = (l.map (·.lower)).min? := by
  have hsome : ∀ (l : List (Interval w)) (a : Nat),
      lowerLoop (some a) l = some ((l.map (·.lower)).foldl min a) := by
    intro l
    induction l with
    | nil => simp [lowerLoop]
    | cons i l ih =>
      intro a
      have hstep : (if i.lower < a then some i.lower else some a) = some (min a i.lower) := by
        split
        · rw [Nat.min_eq_right (by omega)]
        · rw [Nat.min_eq_left (by omega)]
      rw [lowerLoop, hstep, ih, map_cons, foldl_cons]
  cases l with
  | nil => rfl
  | cons i l => rw [lowerLoop, hsome, map_cons, min?_cons']

/-- The loop finds the greatest upper end. -/
theorem upperLoop_eq (l : List (Interval w)) : upperLoop none l = (l.map (·.upper)).max? := by
  have hsome : ∀ (l : List (Interval w)) (a : Nat),
      upperLoop (some a) l = some ((l.map (·.upper)).foldl max a) := by
    intro l
    induction l with
    | nil => simp [upperLoop]
    | cons i l ih =>
      intro a
      have hstep : (if a < i.upper then some i.upper else some a) = some (max a i.upper) := by
        split
        · rw [Nat.max_eq_right (by omega)]
        · rw [Nat.max_eq_left (by omega)]
      rw [upperLoop, hstep, ih, map_cons, foldl_cons]
  cases l with
  | nil => rfl
  | cons i l => rw [upperLoop, hsome, map_cons, max?_cons']

variable {s : StoredIntervalSet w}

/-- After `Normalize`, `LowerBound` is the least point. -/
theorem lowerBound_normalize {a : Nat} :
    s.normalize.lowerBound = some a ↔ IsLeast {x | x < 2 ^ w ∧ s.Covers x} a := by
  obtain ⟨t, ht, hcov⟩ := exists_normalize s
  have hrun : s.normalize.lowerBound = t.lowerBound := by
    rw [lowerBound, isNormalized_normalize, if_pos rfl, ← ht, raw, head?_map, Option.map_map]
    rfl
  have hleast : ∀ b, t.lowerBound = some b → IsLeast {x | x < 2 ^ w ∧ s.Covers x} b := by
    intro b hb
    have hne : t.intervals ≠ [] := by
      intro hnil
      simp [IntervalSet.lowerBound, hnil] at hb
    obtain ⟨c, hc, hcc⟩ := exists_lowerBound hne
    rw [hb] at hc
    cases hc
    exact ⟨⟨hcc.lt, (hcov b hcc.lt).1 hcc⟩, fun x hx =>
      lowerBound_le hb ((hcov x hx.1).2 hx.2)⟩
  rw [hrun]
  constructor
  · exact hleast a
  · intro h
    have hne := intervals_ne_nil ((hcov a h.1.1).2 h.1.2)
    obtain ⟨b, hb, -⟩ := exists_lowerBound hne
    rw [hb, (hleast b hb).unique h]

/-- After `Normalize`, `UpperBound` is the greatest point. -/
theorem upperBound_normalize {a : Nat} :
    s.normalize.upperBound = some a ↔ IsGreatest {x | x < 2 ^ w ∧ s.Covers x} a := by
  obtain ⟨t, ht, hcov⟩ := exists_normalize s
  have hrun : s.normalize.upperBound = t.upperBound := by
    rw [upperBound, isNormalized_normalize, if_pos rfl, ← ht, raw, getLast?_map, Option.map_map]
    rfl
  have hgreatest : ∀ b, t.upperBound = some b → IsGreatest {x | x < 2 ^ w ∧ s.Covers x} b := by
    intro b hb
    have hne : t.intervals ≠ [] := by
      intro hnil
      simp [IntervalSet.upperBound, hnil] at hb
    obtain ⟨c, hc, hcc⟩ := exists_upperBound hne
    rw [hb] at hc
    cases hc
    exact ⟨⟨hcc.lt, (hcov b hcc.lt).1 hcc⟩, fun x hx =>
      le_upperBound hb ((hcov x hx.1).2 hx.2)⟩
  rw [hrun]
  constructor
  · exact hgreatest a
  · intro h
    have hne := intervals_ne_nil ((hcov a h.1.1).2 h.1.2)
    obtain ⟨b, hb, -⟩ := exists_upperBound hne
    rw [hb, (hgreatest b hb).unique h]

theorem normalize_of_flag (h : s.isNormalized = true) : s.normalize = s := by
  unfold normalize
  rw [if_pos h]

theorem covers_of_mem {i : Interval w} (hi : i ∈ s.intervals) {x : Nat} (hx : i.covers x = true) :
    s.Covers x := ⟨i, hi, hx⟩

variable {l : List (Interval w)} {value : Nat}

theorem exists_improper (h : ¬∀ i ∈ l, i.isImproper = false) : ∃ i ∈ l, i.isImproper = true := by
  simpa using h

/-- A part of a set that reaches below every element has the same least element. -/
theorem isLeast_iff_of_subset {α : Type} [PartialOrder α] {p q : Set α} (hsub : p ⊆ q)
    (hbelow : ∀ b ∈ q, ∃ a ∈ p, a ≤ b) {x : α} : IsLeast p x ↔ IsLeast q x := by
  constructor
  · intro h
    refine ⟨hsub h.1, fun b hb => ?_⟩
    obtain ⟨a, ha, hab⟩ := hbelow b hb
    exact (h.2 ha).trans hab
  · intro h
    obtain ⟨a, ha, hax⟩ := hbelow x h.1
    have hxa : x = a := le_antisymm (h.2 (hsub ha)) hax
    exact ⟨hxa ▸ ha, fun b hb => h.2 (hsub hb)⟩

theorem isGreatest_iff_of_subset {α : Type} [PartialOrder α] {p q : Set α} (hsub : p ⊆ q)
    (habove : ∀ b ∈ q, ∃ a ∈ p, b ≤ a) {x : α} : IsGreatest p x ↔ IsGreatest q x :=
  @isLeast_iff_of_subset αᵒᵈ _ p q hsub habove x

/-- `LowerBound` of a set with an improper interval is right exactly if some interval starts
at zero. -/
theorem lowerBound_agrees_iff (hflag : s.isNormalized = false) :
    s.lowerBound = s.normalize.lowerBound ↔
      (∀ i ∈ s.intervals, i.isImproper = false) ∨ ∃ i ∈ s.intervals, i.lower = 0 := by
  have hrun : s.lowerBound = (s.intervals.map (·.lower)).min? := by
    rw [lowerBound, hflag, if_neg Bool.false_ne_true, lowerLoop_eq]
  rw [hrun]
  by_cases hproper : ∀ i ∈ s.intervals, i.isImproper = false
  · refine iff_of_true ?_ (inl hproper)
    refine Option.ext fun a => ?_
    rw [lowerBound_normalize, min?_eq_some_iff]
    refine isLeast_iff_of_subset (p := {x | x ∈ s.intervals.map (·.lower)}) ?_ ?_
    · intro x hx
      obtain ⟨i, hi, rfl⟩ := mem_map.1 hx
      exact ⟨i.lower_lt, covers_of_mem hi i.covers_lower⟩
    · intro x hx
      obtain ⟨j, hj, hc⟩ := hx.2
      have hjle : j.lower ≤ j.upper := Nat.not_lt.1 (of_decide_eq_false (hproper j hj))
      exact ⟨j.lower, mem_map_of_mem hj, ((Interval.covers_iff_of_le hjle).1 hc).1⟩
  · -- an improper interval makes zero the least point
    obtain ⟨i, hi, himp⟩ := exists_improper hproper
    have hzero : s.normalize.lowerBound = some 0 := lowerBound_normalize.2
      ⟨⟨Nat.two_pow_pos w, covers_of_mem hi (Interval.covers_ends himp).1⟩,
        fun x _ => Nat.zero_le x⟩
    rw [hzero, min?_eq_some_iff, or_iff_right hproper]
    simp

/-- `UpperBound` of a set with an improper interval is right exactly if some interval ends
at the largest number. -/
theorem upperBound_agrees_iff (hflag : s.isNormalized = false) :
    s.upperBound = s.normalize.upperBound ↔
      (∀ i ∈ s.intervals, i.isImproper = false) ∨ ∃ i ∈ s.intervals, i.upper = 2 ^ w - 1 := by
  have hrun : s.upperBound = (s.intervals.map (·.upper)).max? := by
    rw [upperBound, hflag, if_neg Bool.false_ne_true, upperLoop_eq]
  rw [hrun]
  by_cases hproper : ∀ i ∈ s.intervals, i.isImproper = false
  · refine iff_of_true ?_ (inl hproper)
    refine Option.ext fun a => ?_
    rw [upperBound_normalize, max?_eq_some_iff]
    refine isGreatest_iff_of_subset (p := {x | x ∈ s.intervals.map (·.upper)}) ?_ ?_
    · intro x hx
      obtain ⟨i, hi, rfl⟩ := mem_map.1 hx
      exact ⟨i.upper_lt, covers_of_mem hi i.covers_upper⟩
    · intro x hx
      obtain ⟨j, hj, hc⟩ := hx.2
      have hjle : j.lower ≤ j.upper := Nat.not_lt.1 (of_decide_eq_false (hproper j hj))
      exact ⟨j.upper, mem_map_of_mem hj, ((Interval.covers_iff_of_le hjle).1 hc).2⟩
  · -- an improper interval makes the largest number the greatest point
    obtain ⟨i, hi, himp⟩ := exists_improper hproper
    have hpos := Nat.two_pow_pos w
    have hmax : s.normalize.upperBound = some (2 ^ w - 1) := upperBound_normalize.2
      ⟨⟨by omega, covers_of_mem hi (Interval.covers_ends himp).2⟩,
        fun x hx => le_sub_one_of_lt hx.1⟩
    rw [hmax, max?_eq_some_iff, or_iff_right hproper]
    constructor
    · intro h
      obtain ⟨j, hj, heq⟩ := mem_map.1 h.1
      exact ⟨j, hj, heq⟩
    · intro h
      obtain ⟨j, hj, heq⟩ := h
      refine ⟨mem_map.2 ⟨j, hj, heq⟩, ?_⟩
      intro b hb
      obtain ⟨k, -, rfl⟩ := mem_map.1 hb
      exact le_sub_one_of_lt k.upper_lt

/-! ### The other observers -/

theorem covers_normalize {x : Nat} (hx : x < 2 ^ w) : s.normalize.covers x = s.covers x := by
  rw [Bool.eq_iff_iff, covers_iff, covers_iff]
  exact covers_normalize_iff s hx

/-- The set is precise if it is one point, however often. -/
theorem preciseLoop_some {p : Interval w} :
    preciseLoop (some p) l = true ↔ ∀ i ∈ l, i = p ∧ i.isPrecise = true := by
  induction l generalizing p with
  | nil => simp [preciseLoop]
  | cons i l ih =>
    rw [preciseLoop, forall_mem_cons]
    by_cases hp : i = p
    · subst hp
      by_cases hi : i.isPrecise = true
      · simp [hi, ih]
      · simp [hi]
    · simp [hp, Ne.symm hp]

/-- `IsPrecise` asks whether there is at most one point, however the set is stored. -/
theorem isPrecise_iff :
    s.isPrecise = true ↔ ∀ x < 2 ^ w, ∀ y < 2 ^ w, s.Covers x → s.Covers y → x = y := by
  have hloop : s.isPrecise = true ↔
      ∀ i ∈ s.intervals, ∀ j ∈ s.intervals, i = j ∧ i.isPrecise = true := by
    unfold isPrecise
    cases s.intervals with
    | nil => simp [preciseLoop]
    | cons i l =>
      have hfirst : preciseLoop none (i :: l) = true ↔
          i.isPrecise = true ∧ ∀ j ∈ l, j = i ∧ j.isPrecise = true := by
        rw [preciseLoop, ← preciseLoop_some]
        cases i.isPrecise <;> simp
      rw [hfirst]
      constructor
      · intro h
        have hall : ∀ j ∈ i :: l, j = i := by
          intro j hj
          rcases mem_cons.1 hj with rfl | hj
          · rfl
          · exact (h.2 j hj).1
        intro j hj k hk
        rw [hall j hj, hall k hk]
        exact ⟨rfl, h.1⟩
      · intro h
        exact ⟨(h i mem_cons_self i mem_cons_self).2, fun j hj =>
          h j (mem_cons_of_mem _ hj) i mem_cons_self⟩
  rw [hloop]
  constructor
  · intro h x _ y _ hcx hcy
    obtain ⟨i, hi, hx⟩ := hcx
    obtain ⟨j, hj, hy⟩ := hcy
    obtain ⟨rfl, hp⟩ := h i hi j hj
    have heq : i.lower = i.upper := by simpa [Interval.isPrecise] using hp
    have hx' := (Interval.covers_iff_of_le heq.le).1 hx
    have hy' := (Interval.covers_iff_of_le heq.le).1 hy
    omega
  · intro h i hi j hj
    -- both bounds of an interval are covered, so that they are the same point
    have hpoint : ∀ k ∈ s.intervals, k.lower = k.upper := fun k hk =>
      h _ k.lower_lt _ k.upper_lt (covers_of_mem hk k.covers_lower)
        (covers_of_mem hk k.covers_upper)
    have hlower : i.lower = j.lower :=
      h _ i.lower_lt _ j.lower_lt (covers_of_mem hi i.covers_lower)
        (covers_of_mem hj j.covers_lower)
    have hi' := hpoint i hi
    have hj' := hpoint j hj
    refine ⟨?_, by simp [Interval.isPrecise, hi']⟩
    obtain ⟨_, _, _, _⟩ := i
    obtain ⟨_, _, _, _⟩ := j
    simp only at hlower hi' hj'
    subst hlower hi' hj'
    rfl

theorem isPrecise_normalize (s : StoredIntervalSet w) : s.normalize.isPrecise = s.isPrecise := by
  rw [Bool.eq_iff_iff, isPrecise_iff, isPrecise_iff]
  have hcov : ∀ x < 2 ^ w, s.normalize.Covers x ↔ s.Covers x := fun _ => covers_normalize_iff s
  constructor
  · intro h x hx y hy hcx hcy
    exact h x hx y hy ((hcov x hx).2 hcx) ((hcov y hy).2 hcy)
  · intro h x hx y hy hcx hcy
    exact h x hx y hy ((hcov x hx).1 hcx) ((hcov y hy).1 hcy)

/-- `IsTrueWhenMaskWith` is exact on proper intervals. -/
theorem isTrueWhenMaskWith_exact (h : ∀ i ∈ s.intervals, i.isImproper = false) :
    s.isTrueWhenMaskWith value = true ↔ ∃ x < 2 ^ w, s.Covers x ∧ x &&& value ≠ 0 := by
  unfold isTrueWhenMaskWith
  rw [any_eq_true]
  constructor
  · intro hany
    obtain ⟨i, hi, ht⟩ := hany
    obtain ⟨x, hc, hne⟩ := (Interval.isTrueWhenAndWith_exact (h i hi)).1 ht
    have hle : i.lower ≤ i.upper := Nat.not_lt.1 (of_decide_eq_false (h i hi))
    have hx := ((Interval.covers_iff_of_le hle).1 hc).2.trans_lt i.upper_lt
    exact ⟨x, hx, covers_of_mem hi hc, hne⟩
  · intro hx
    obtain ⟨x, -, ⟨i, hi, hc⟩, hne⟩ := hx
    exact ⟨i, hi, (Interval.isTrueWhenAndWith_exact (h i hi)).2 ⟨x, hc, hne⟩⟩

/-- An interval that ends at the largest number meets every mask but zero. -/
theorem isTrueWhenAndWith_of_upper {i : Interval w} (h : i.upper = 2 ^ w - 1)
    (hlt : value < 2 ^ w) : i.isTrueWhenAndWith value = true ↔ value ≠ 0 := by
  rw [Interval.isTrueWhenAndWith_iff]
  constructor
  · intro hj hzero
    obtain ⟨j, hv, -⟩ := hj
    rw [hzero, zero_testBit] at hv
    cases hv
  · intro hne
    obtain ⟨j, hj⟩ := exists_testBit_of_ne_zero hne
    have hjw : j < w := by
      by_contra hge
      rw [testBit_lt_two_pow (hlt.trans_le (Nat.pow_le_pow_right (by omega)
        (Nat.not_lt.1 hge)))] at hj
      cases hj
    refine ⟨j, hj, ?_⟩
    by_cases hlow : j < commonFrom i.lower i.upper w
    · exact inl hlow
    · refine inr ?_
      rw [IntervalOps.testBit_eq_of_commonFrom (Nat.not_lt.1 hlow) hjw, h, testBit_two_pow_sub_one]
      simpa using hjw

theorem proper_normalize (s : StoredIntervalSet w) :
    ∀ i ∈ s.normalize.intervals, i.isImproper = false :=
  (s.normalize.normalForm (isNormalized_normalize s)).proper

/-- When the bounds are right, `IsTrueWhenMaskWith` is as well. -/
theorem isTrueWhenMaskWith_normalize
    (h : (∀ i ∈ s.intervals, i.isImproper = false) ∨ ∃ i ∈ s.intervals, i.upper = 2 ^ w - 1)
    (hlt : value < 2 ^ w) : s.isTrueWhenMaskWith value = s.normalize.isTrueWhenMaskWith value := by
  have hcov : ∀ x < 2 ^ w, s.normalize.Covers x ↔ s.Covers x := fun _ => covers_normalize_iff s
  rw [Bool.eq_iff_iff, isTrueWhenMaskWith_exact (proper_normalize s)]
  rcases h with h | ⟨i, hi, hmax⟩
  · rw [isTrueWhenMaskWith_exact h]
    exact exists_congr fun x => and_congr_right fun hx => and_congr_left' (hcov x hx).symm
  · have hpos := Nat.two_pow_pos w
    constructor
    · -- the largest number meets whatever mask is not zero
      intro hany
      obtain ⟨j, -, hj⟩ := any_eq_true.1 hany
      obtain ⟨b, hb, -⟩ := Interval.isTrueWhenAndWith_iff.1 hj
      refine ⟨2 ^ w - 1, by omega, (hcov _ (by omega)).2 ?_, ?_⟩
      · rw [← hmax]
        exact covers_of_mem hi i.covers_upper
      · rw [Nat.and_comm, and_two_pow_sub_one_eq_mod, mod_eq_of_lt hlt]
        intro hzero
        rw [hzero, zero_testBit] at hb
        cases hb
    · intro hx
      obtain ⟨x, -, -, hne⟩ := hx
      refine any_eq_true.2 ⟨i, hi, (isTrueWhenAndWith_of_upper hmax hlt).2 ?_⟩
      intro hzero
      rw [hzero, and_zero] at hne
      exact hne rfl

/-! ### Independence of the representation -/

/-- Every observer returns the same on the set and on the set after `Normalize`, where it
does not fail its check for normalization. -/
structure ObserversAgree (s : StoredIntervalSet w) : Prop where
  lowerBound : s.lowerBound = s.normalize.lowerBound
  upperBound : s.upperBound = s.normalize.upperBound
  convexHull : s.convexHull = s.normalize.convexHull
  covers : ∀ x < 2 ^ w, s.covers x = s.normalize.covers x
  coversZero : s.coversZero = s.normalize.coversZero
  coversMax : s.coversMax = s.normalize.coversMax
  isTrueWhenMaskWith : ∀ value < 2 ^ w,
    s.isTrueWhenMaskWith value = s.normalize.isTrueWhenMaskWith value
  isPrecise : s.isPrecise = s.normalize.isPrecise
  isMaximal : ∀ b, s.isMaximal = .ok b → s.normalize.isMaximal = .ok b
  isEmpty : ∀ b, s.isEmpty = .ok b → s.normalize.isEmpty = .ok b

/-- The observers do not depend on the representation exactly if the set is marked as
normalized, has no improper interval, or has an interval that starts at zero and one that
ends at the largest number. -/
theorem observersAgree_iff (s : StoredIntervalSet w) :
    s.ObserversAgree ↔ s.isNormalized = true ∨ (∀ i ∈ s.intervals, i.isImproper = false) ∨
        (∃ i ∈ s.intervals, i.lower = 0) ∧ ∃ i ∈ s.intervals, i.upper = 2 ^ w - 1 := by
  by_cases hflag : s.isNormalized = true
  · refine iff_of_true ?_ (inl hflag)
    constructor <;> simp [normalize_of_flag hflag]
  rw [or_iff_right hflag]
  rw [Bool.not_eq_true] at hflag
  rw [or_and_left, ← lowerBound_agrees_iff hflag, ← upperBound_agrees_iff hflag]
  constructor
  · intro h
    exact ⟨h.lowerBound, h.upperBound⟩
  · intro h
    have hpos := Nat.two_pow_pos w
    have hcheck : s.isMaximal = .error .check ∧ s.isEmpty = .error .check := by
      simp [isMaximal, isEmpty, hflag]
    exact {
      lowerBound := h.1
      upperBound := h.2
      convexHull := by rw [StoredIntervalSet.convexHull, StoredIntervalSet.convexHull, h.1, h.2]
      covers := fun x hx => (covers_normalize hx).symm
      coversZero := (covers_normalize hpos).symm
      coversMax := (covers_normalize (by omega)).symm
      isTrueWhenMaskWith := fun value hv =>
        isTrueWhenMaskWith_normalize ((upperBound_agrees_iff hflag).1 h.2) hv
      isPrecise := (isPrecise_normalize s).symm
      isMaximal := fun b hb => by
        rw [hcheck.1] at hb
        cases hb
      isEmpty := fun b hb => by
        rw [hcheck.2] at hb
        cases hb }

/-- The three-bit interval from five around to two. -/
def wrapped : StoredIntervalSet 3 :=
  (new 3).addInterval ⟨5, 2, by decide, by decide⟩

/-- The bounds of the wrapping interval are five and two, those of its points zero and
seven. -/
theorem observers_wrapped :
    (wrapped.lowerBound = some 5 ∧ wrapped.normalize.lowerBound = some 0) ∧
    (wrapped.upperBound = some 2 ∧ wrapped.normalize.upperBound = some 7) ∧
      ¬wrapped.ObserversAgree := by
  have hlow : wrapped.lowerBound = some 5 := by decide
  have hup : wrapped.upperBound = some 2 := by decide
  have hlow' : wrapped.normalize.lowerBound = some 0 := by decide
  have hup' : wrapped.normalize.upperBound = some 7 := by decide
  refine ⟨⟨hlow, hlow'⟩, ⟨hup, hup'⟩, ?_⟩
  intro h
  have hagree := h.lowerBound
  rw [hlow, hlow'] at hagree
  cases hagree

end StoredIntervalSet

end Xls

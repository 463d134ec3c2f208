import Xls.Interval
import Xls.Status

/-!
# Xls.IntervalSet

Sets of intervals (`xls/ir/interval_set.h`). In the source a set is a vector of
intervals with an `is_normalized_` flag that `AddInterval` clears and
`Normalize` sets. Here a set under construction is a plain list of possibly
improper intervals, and an `IntervalSet` is what `Normalize` makes of it: proper
intervals in increasing order, no two of which overlap or abut. The methods that
`CHECK` the flag take an `IntervalSet`, so that check holds by construction.

`IntervalSet.Covers` is the meaning of a set; every operation is specified by
the points its result covers.
-/

namespace Xls

open ProperInterval Or Option

/-- A normalized set of intervals of `w`-bit numbers. -/
structure IntervalSet (w : Nat) where
  intervals : List (ProperInterval w)
  normal : intervals.Pairwise (fun a b => a.upper + 1 < b.lower)

namespace IntervalSet

open ProperInterval (Mem)

variable {w : Nat}

theorem ext' {a b : IntervalSet w} (h : a.intervals = b.intervals) : a = b := by
  cases a
  cases b
  simp only at h
  subst h
  rfl

instance : DecidableEq (IntervalSet w) := fun a b =>
  decidable_of_iff (a.intervals = b.intervals) ⟨ext', fun h => by rw [h]⟩

/-- `Covers(bits)`, for the unsigned value of `bits`. -/
def Covers (s : IntervalSet w) (x : Nat) : Prop := ∃ i ∈ s.intervals, Mem x i

instance (s : IntervalSet w) (x : Nat) : Decidable (s.Covers x) :=
  inferInstanceAs (Decidable (∃ i ∈ s.intervals, Mem x i))

/-- The points of a set under construction. -/
def RawCovers (l : List (Interval w)) (x : Nat) : Prop := ∃ i ∈ l, i.covers x = true

variable {s : IntervalSet w} {x : Nat} {l : List (ProperInterval w)} {cur : ProperInterval w}

theorem Covers.lt (h : s.Covers x) : x < 2 ^ w := by
  obtain ⟨i, -, hi⟩ := h
  exact hi.lt

/-! ### Normalization -/

/-- Replace each improper interval by its two proper halves. -/
def expandImproper : List (Interval w) → List (ProperInterval w)
  | [] => []
  | i :: is =>
    if h : i.lower ≤ i.upper then { i with le := h } :: expandImproper is
    else
      ⟨⟨0, i.upper, Nat.two_pow_pos w, i.upper_lt⟩, Nat.zero_le _⟩ ::
      ⟨⟨i.lower, 2 ^ w - 1, i.lower_lt, Bits.two_pow_sub_one_lt w⟩,
        Nat.le_sub_one_of_lt i.lower_lt⟩ :: expandImproper is

/-- The merging loop of `Normalize` over the sorted intervals: extend the
current interval while the next one touches it. -/
def mergeFrom (cur : ProperInterval w) : List (ProperInterval w) → List (ProperInterval w)
  | [] => [cur]
  | i :: is =>
    if cur.overlaps i || cur.abuts i then mergeFrom (cur.convexHull i) is
    else cur :: mergeFrom i is

def mergeSorted : List (ProperInterval w) → List (ProperInterval w)
  | [] => []
  | i :: is => mergeFrom i is

/-- Improper intervals are split at the wrap. -/
theorem mem_expandImproper {l : List (Interval w)} (hx : x < 2 ^ w) :
    (∃ i ∈ expandImproper l, Mem x i) ↔ RawCovers l x := by
  induction l with
  | nil => simp [expandImproper, RawCovers]
  | cons i is ih =>
    have hcons : RawCovers (i :: is) x ↔ i.covers x = true ∨ RawCovers is x := by simp [RawCovers]
    rw [hcons, ← ih, expandImproper]
    split
    · rename_i h
      simp only [List.mem_cons, exists_eq_or_imp]
      rw [Interval.covers_iff_of_le h]
      rfl
    · rename_i h
      simp only [List.mem_cons, exists_eq_or_imp]
      rw [Interval.covers_iff_of_lt (by omega)]
      simp only [Mem]
      have hle : x ≤ 2 ^ w - 1 := by omega
      constructor
      · rintro (h1 | h1 | h1)
        · exact inl (inr h1.2)
        · exact inl (inl h1.1)
        · exact inr h1
      · rintro ((h1 | h1) | h1)
        · exact inr (inl ⟨h1, hle⟩)
        · exact inl ⟨Nat.zero_le x, h1⟩
        · exact inr (inr h1)

/-- Merging neighbours keeps the points. -/
theorem mem_mergeFrom : (∃ i ∈ mergeFrom cur l, Mem x i) ↔ Mem x cur ∨ ∃ i ∈ l, Mem x i := by
  induction l generalizing cur with
  | nil => simp [mergeFrom]
  | cons i is ih =>
    rw [mergeFrom]
    split
    · rename_i h
      rw [ih, mem_convexHull_iff (by simpa using h)]
      simp only [List.mem_cons, exists_eq_or_imp]
      tauto
    · simp only [List.mem_cons, exists_eq_or_imp, ih]

theorem mem_mergeSorted : (∃ i ∈ mergeSorted l, Mem x i) ↔ ∃ i ∈ l, Mem x i := by
  cases l with
  | nil => rfl
  | cons i is =>
    rw [mergeSorted, mem_mergeFrom]
    simp

section

variable (hs : ∀ i ∈ l, cur.lower ≤ i.lower) (hp : l.Pairwise (fun a b => a.lower ≤ b.lower))
include hs hp

/-- Every interval the merging loop emits starts at or after the current one. -/
theorem lower_le_of_mem_mergeFrom {j : ProperInterval w} (hj : j ∈ mergeFrom cur l) :
    cur.lower ≤ j.lower := by
  induction l generalizing cur with
  | nil =>
    rw [mergeFrom, List.mem_singleton] at hj
    rw [hj]
  | cons i is ih =>
    have hi : cur.lower ≤ i.lower := hs i List.mem_cons_self
    rw [mergeFrom] at hj
    split at hj
    · have hmin : (cur.convexHull i).lower = cur.lower := min_eq_left hi
      rw [← hmin]
      refine ih ?_ hp.of_cons hj
      intro k hk
      rw [hmin]
      exact hs k (List.mem_cons_of_mem _ hk)
    · rcases List.mem_cons.1 hj with rfl | hj
      · exact le_refl _
      · exact hi.trans (ih (fun k hk => List.rel_of_pairwise_cons hp hk) hp.of_cons hj)

/-- On sorted input the merging loop leaves a gap between consecutive outputs. -/
theorem pairwise_mergeFrom : (mergeFrom cur l).Pairwise (fun a b => a.upper + 1 < b.lower) := by
  induction l generalizing cur with
  | nil => simp [mergeFrom]
  | cons i is ih =>
    have hi : cur.lower ≤ i.lower := hs i List.mem_cons_self
    rw [mergeFrom]
    split
    · have hmin : (cur.convexHull i).lower = cur.lower := min_eq_left hi
      refine ih ?_ hp.of_cons
      intro k hk
      rw [hmin]
      exact hs k (List.mem_cons_of_mem _ hk)
    · rename_i htouch
      have hrest : ∀ k ∈ is, i.lower ≤ k.lower := fun k hk => List.rel_of_pairwise_cons hp hk
      refine List.Pairwise.cons ?_ (ih hrest hp.of_cons)
      intro j hj
      have hij : i.lower ≤ j.lower := lower_le_of_mem_mergeFrom hrest hp.of_cons hj
      have hgap : cur.upper + 1 < i.lower := by
        have hno : ¬(cur.overlaps i = true ∨ cur.abuts i = true) := by simpa using htouch
        rw [overlaps_iff, abuts_iff] at hno
        have := i.le
        omega
      omega

end

instance : IsTrans (ProperInterval w) (fun a b => a.lexLe b = true) where
  trans a b c hab hbc := by
    simp only [lexLe, decide_eq_true_eq] at *
    omega

instance : Std.Total (fun a b : ProperInterval w => a.lexLe b = true) where
  total a b := by
    simp only [lexLe, decide_eq_true_eq]
    omega

theorem pairwise_mergeSorted (hp : l.Pairwise (fun a b => a.lower ≤ b.lower)) :
    (mergeSorted l).Pairwise (fun a b => a.upper + 1 < b.lower) := by
  cases l with
  | nil => simp [mergeSorted]
  | cons i is =>
    exact pairwise_mergeFrom (fun k hk => List.rel_of_pairwise_cons hp hk) hp.of_cons

/-- `std::sort` by the lexicographic order. -/
def sortIntervals (l : List (ProperInterval w)) : List (ProperInterval w) :=
  l.insertionSort (fun a b => a.lexLe b = true)

theorem pairwise_sortIntervals (l : List (ProperInterval w)) :
    (sortIntervals l).Pairwise (fun a b => a.lower ≤ b.lower) := by
  refine (List.pairwise_insertionSort (fun a b => a.lexLe b = true) l).imp ?_
  intro a b h
  simp only [lexLe, decide_eq_true_eq] at h
  omega

/-- `Normalize`: split improper intervals, sort, and merge what touches. -/
def normalize (l : List (Interval w)) : IntervalSet w where
  intervals := mergeSorted (sortIntervals (expandImproper l))
  normal := pairwise_mergeSorted (pairwise_sortIntervals _)

/-- Normalization keeps the set of points. -/
theorem covers_normalize {l : List (Interval w)} (hx : x < 2 ^ w) :
    (normalize l).Covers x ↔ RawCovers l x := by
  unfold Covers normalize
  rw [mem_mergeSorted, ← mem_expandImproper hx]
  simp [sortIntervals]

theorem covers_normalize_of_raw {l : List (Interval w)} (hx : x < 2 ^ w) {i : Interval w}
    (hi : i ∈ l) (hc : i.covers x = true) : (normalize l).Covers x :=
  (covers_normalize hx).2 ⟨i, hi, hc⟩

/-! ### Construction -/

/-- The set with no interval: `IntervalSet(bit_count)`. -/
def empty (w : Nat) : IntervalSet w := ⟨[], List.Pairwise.nil⟩

/-- A single proper interval is normalized as it stands. -/
def single (i : ProperInterval w) : IntervalSet w := ⟨[i], List.pairwise_singleton _ _⟩

/-- `IntervalSet::Maximal`. -/
def maximal (w : Nat) : IntervalSet w := single (ProperInterval.maximal w)

/-- `IntervalSet::Precise`. -/
def precise (x : Nat) (h : x < 2 ^ w) : IntervalSet w := single (ProperInterval.precise x h)

/-- `IntervalSet::Precise` of a bit vector. -/
def ofBits (b : Bits) : IntervalSet b.width := precise b.val b.isLt

/-- `IntervalSet::NonZero`; `UBits(1, 0)` does not exist, so the width must be
positive. -/
def nonZero (w : Nat) : Result (IntervalSet w) :=
  if h : 0 < w then
    .ok (single ⟨⟨1, 2 ^ w - 1, Nat.one_lt_two_pow (by omega),
      Bits.two_pow_sub_one_lt w⟩, by
        have : 1 < 2 ^ w := Nat.one_lt_two_pow (by omega)
        show 1 ≤ 2 ^ w - 1
        omega⟩)
  else .error .check

/-- The intervals forgetting that they are proper, ready for `AddInterval`. -/
def raw (s : IntervalSet w) : List (Interval w) := s.intervals.map (·.toInterval)

/-- `AddInterval` followed by `Normalize`. -/
def addInterval (s : IntervalSet w) (i : Interval w) : IntervalSet w := normalize (s.raw ++ [i])

/-- `IntervalSet::Combine`. -/
def combine (l r : IntervalSet w) : IntervalSet w := normalize (l.raw ++ r.raw)

@[simp] theorem covers_empty : ¬(empty w).Covers x := by simp [Covers, empty]

@[simp] theorem covers_single {i : ProperInterval w} : (single i).Covers x ↔ Mem x i := by
  simp [Covers, single]

theorem covers_maximal (h : x < 2 ^ w) : (maximal w).Covers x :=
  covers_single.2 ⟨Nat.zero_le x, by show x ≤ 2 ^ w - 1; omega⟩

@[simp] theorem covers_precise {y : Nat} {h : x < 2 ^ w} : (precise x h).Covers y ↔ y = x := by
  rw [precise, covers_single]
  show x ≤ y ∧ y ≤ x ↔ y = x
  omega

theorem covers_ofBits (b : Bits) : (ofBits b).Covers b.val := covers_precise.2 rfl

theorem rawCovers_raw : RawCovers s.raw x ↔ s.Covers x := by
  simp [RawCovers, raw, Covers, ProperInterval.covers_iff]

theorem rawCovers_append {a b : List (Interval w)} :
    RawCovers (a ++ b) x ↔ RawCovers a x ∨ RawCovers b x := by
  simp only [RawCovers, List.mem_append, or_and_right, exists_or]

theorem covers_combine {l r : IntervalSet w} :
    (combine l r).Covers x ↔ l.Covers x ∨ r.Covers x := by
  by_cases hx : x < 2 ^ w
  · rw [combine, covers_normalize hx, rawCovers_append, rawCovers_raw, rawCovers_raw]
  · constructor
    · intro h
      exact absurd h.lt hx
    · rintro (h | h) <;> exact absurd h.lt hx

theorem covers_addInterval {i : Interval w} (hx : x < 2 ^ w) :
    (s.addInterval i).Covers x ↔ s.Covers x ∨ i.covers x = true := by
  rw [addInterval, covers_normalize hx, rawCovers_append, rawCovers_raw]
  simp [RawCovers]

/-! ### Queries -/

/-- `IsEmpty`. -/
def isEmpty (s : IntervalSet w) : Bool := s.intervals.isEmpty

/-- `IsPrecise`. The loop finds nothing to object to in an empty set, so it
answers `true` there; two different intervals, or one wider than a point, make
it answer `false`. -/
def isPrecise (s : IntervalSet w) : Bool :=
  match s.intervals with
  | [] => true
  | [i] => i.toInterval.isPrecise
  | _ => false

/-- `GetPreciseValue`: a precise set must have exactly one interval. -/
def getPreciseValue (s : IntervalSet w) : Result (Option Nat) :=
  if s.isPrecise then
    match s.intervals with
    | [i] => .ok (some i.lower)
    | _ => .error .check
  else .ok none

/-- `IsMaximal`. -/
def isMaximal (s : IntervalSet w) : Bool := s.intervals.any (·.toInterval.isMaximal)

/-- `LowerBound` of a normalized set. -/
def lowerBound (s : IntervalSet w) : Option Nat := s.intervals.head?.map (·.lower)

/-- `UpperBound` of a normalized set. -/
def upperBound (s : IntervalSet w) : Option Nat := s.intervals.getLast?.map (·.upper)

variable {a b : ProperInterval w}

theorem lower_le_lower (h : s.intervals = a :: l) (hb : b ∈ a :: l) : a.lower ≤ b.lower := by
  have hn := s.normal
  rw [h] at hn
  rcases List.mem_cons.1 hb with rfl | hb
  · exact le_refl _
  · have := List.rel_of_pairwise_cons hn hb
    have := a.le
    omega

theorem upper_le_upper (h : s.intervals = l ++ [a]) (hb : b ∈ l ++ [a]) : b.upper ≤ a.upper := by
  have hn := s.normal
  rw [h, List.pairwise_append] at hn
  rcases List.mem_append.1 hb with hb | hb
  · have := hn.2.2 b hb a (List.mem_singleton.2 rfl)
    have := a.le
    omega
  · rw [List.mem_singleton.1 hb]

/-- The lower bound is below all points. -/
theorem lowerBound_le {l : Nat} (hl : s.lowerBound = some l) (hx : s.Covers x) : l ≤ x := by
  unfold lowerBound at hl
  obtain ⟨i, hi, hm⟩ := hx
  cases hs : s.intervals with
  | nil => rw [hs] at hi; simp at hi
  | cons a t =>
    rw [hs] at hl hi
    simp only [List.head?_cons, map_some, some.injEq] at hl
    subst hl
    exact (lower_le_lower hs hi).trans hm.1

/-- The upper bound is above all points. -/
theorem le_upperBound {u : Nat} (hu : s.upperBound = some u) (hx : s.Covers x) : x ≤ u := by
  unfold upperBound at hu
  obtain ⟨i, hi, hm⟩ := hx
  cases hs : s.intervals.getLast? with
  | none => rw [hs] at hu; simp at hu
  | some a =>
    rw [hs] at hu
    simp only [map_some, some.injEq] at hu
    subst hu
    obtain ⟨t, ht⟩ := List.getLast?_eq_some_iff.1 hs
    rw [ht] at hi
    exact hm.2.trans (upper_le_upper ht hi)

theorem intervals_ne_nil (h : s.Covers x) : s.intervals ≠ [] := by
  obtain ⟨i, hi, -⟩ := h
  exact List.ne_nil_of_mem hi

theorem isEmpty_iff : s.isEmpty = true ↔ s.intervals = [] := by simp [isEmpty]

theorem isEmpty_eq_false_of_covers (h : s.Covers x) : s.isEmpty = false := by
  have := intervals_ne_nil h
  simp [isEmpty, this]

/-- A covered point of a precise set is its only point, and `GetPreciseValue`
returns it. -/
theorem getPreciseValue_of_covers (hp : s.isPrecise = true) (h : s.Covers x) :
    s.getPreciseValue = .ok (some x) := by
  obtain ⟨i, hi, hm⟩ := h
  unfold getPreciseValue
  rw [if_pos hp]
  unfold isPrecise at hp
  cases hs : s.intervals with
  | nil => rw [hs] at hi; simp at hi
  | cons a t =>
    rw [hs] at hp hi
    cases t with
    | nil =>
      obtain rfl : i = a := by simpa using hi
      have hle : i.lower = i.upper := by simpa [Interval.isPrecise] using hp
      obtain ⟨h1, h2⟩ := hm
      have : i.lower = x := by omega
      simp [this]
    | cons b t => simp at hp

theorem exists_lowerBound (h : s.intervals ≠ []) : ∃ l, s.lowerBound = some l ∧ s.Covers l := by
  cases hs : s.intervals with
  | nil => exact absurd hs h
  | cons a t =>
    refine ⟨a.lower, by simp [lowerBound, hs], a, ?_, le_refl _, a.le⟩
    rw [hs]
    exact List.mem_cons_self

theorem exists_upperBound (h : s.intervals ≠ []) : ∃ u, s.upperBound = some u ∧ s.Covers u := by
  obtain ⟨a, ha⟩ : ∃ a, s.intervals.getLast? = some a := by
    cases hg : s.intervals.getLast? with
    | none => exact absurd (List.getLast?_eq_none_iff.1 hg) h
    | some a => exact ⟨a, rfl⟩
  exact ⟨a.upper, by simp [upperBound, ha], a, List.mem_of_getLast? ha, a.le, le_refl _⟩

/-- `ConvexHull`. -/
def convexHull (s : IntervalSet w) : Option (ProperInterval w) :=
  match s.lowerBound, s.upperBound with
  | some l, some u =>
    if h : l ≤ u ∧ u < 2 ^ w then some ⟨⟨l, u, lt_of_le_of_lt h.1 h.2, h.2⟩, h.1⟩ else none
  | _, _ => none

theorem convexHull_spec (h : s.intervals ≠ []) :
    ∃ i, s.convexHull = some i ∧ s.lowerBound = some i.lower ∧ s.upperBound = some i.upper ∧
      ∀ x, s.Covers x → Mem x i := by
  obtain ⟨l, hl, hlc⟩ := exists_lowerBound h
  obtain ⟨u, hu, huc⟩ := exists_upperBound h
  have hle : l ≤ u := lowerBound_le hl huc
  have hlt : u < 2 ^ w := huc.lt
  refine ⟨⟨⟨l, u, lt_of_le_of_lt hle hlt, hlt⟩, hle⟩, ?_, hl, hu, fun x hx =>
    ⟨lowerBound_le hl hx, le_upperBound hu hx⟩⟩
  rw [convexHull, hl, hu]
  exact dif_pos ⟨hle, hlt⟩

/-- `ForEachElement` visits the points in increasing order. -/
def elements (s : IntervalSet w) : List Nat := s.intervals.flatMap (·.elements)

theorem mem_elements : x ∈ s.elements ↔ s.Covers x := by
  simp [elements, Covers, ProperInterval.mem_elements]

end IntervalSet

end Xls

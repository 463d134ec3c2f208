import Xls.Bits

/-!
# Xls.Interval

Intervals of bit vectors (`xls/ir/interval.h`). Bounds are unsigned and
inclusive. An interval whose upper bound lies below its lower bound is
*improper*: it wraps around the end of the number range.

`Interval w` carries the fact that its bounds fit in `w` bits, and
`ProperInterval w` that it does not wrap. The static operations of the source
that `CHECK` both are asked for at the second type, so the check is a matter of
typing and cannot fail.
-/

namespace Xls

open List

/-- A possibly improper interval of `w`-bit numbers. -/
structure Interval (w : Nat) where
  lower : Nat
  upper : Nat
  lower_lt : lower < 2 ^ w
  upper_lt : upper < 2 ^ w

namespace Interval

variable {w : Nat}

instance : DecidableEq (Interval w)
  | ⟨a, b, _, _⟩, ⟨c, d, _, _⟩ => decidable_of_iff (a = c ∧ b = d) (by rw [mk.injEq])

/-- `IsImproper`. A zero-width interval has equal bounds, so it is proper. -/
def isImproper (i : Interval w) : Bool := decide (i.upper < i.lower)

/-- `Covers(point)` for a point given by its unsigned value. -/
def covers (i : Interval w) (x : Nat) : Bool :=
  if i.isImproper then decide (i.lower ≤ x) || decide (x ≤ i.upper)
  else decide (i.lower ≤ x) && decide (x ≤ i.upper)

/-- `Maximal(w)`. -/
def maximal (w : Nat) : Interval w :=
  ⟨0, 2 ^ w - 1, Nat.two_pow_pos w, Bits.two_pow_sub_one_lt w⟩

/-- `Precise(bits)`. -/
def precise (x : Nat) (h : x < 2 ^ w) : Interval w := ⟨x, x, h, h⟩

/-- The bounds `Bits` values denote, as an interval. -/
def closed (lower upper : Nat) : Interval w :=
  ⟨lower % 2 ^ w, upper % 2 ^ w, Bits.mod_two_pow_lt lower w, Bits.mod_two_pow_lt upper w⟩

/-- `IsPrecise`. -/
def isPrecise (i : Interval w) : Bool := i.lower == i.upper

/-- `IsMaximal`. -/
def isMaximal (i : Interval w) : Bool := i.lower == 0 && i.upper == 2 ^ w - 1

variable {i : Interval w} {x : Nat}

theorem covers_iff_of_le (h : i.lower ≤ i.upper) :
    i.covers x = true ↔ i.lower ≤ x ∧ x ≤ i.upper := by
  have hp : i.isImproper = false := decide_eq_false (by omega)
  simp [covers, hp]

theorem covers_iff_of_lt (h : i.upper < i.lower) :
    i.covers x = true ↔ i.lower ≤ x ∨ x ≤ i.upper := by
  have hp : i.isImproper = true := decide_eq_true h
  simp [covers, hp]

/-- A number between the bounds is covered, whether or not the interval wraps. -/
theorem covers_of_between (h₁ : i.lower ≤ x) (h₂ : x ≤ i.upper) : i.covers x = true :=
  (covers_iff_of_le (h₁.trans h₂)).2 ⟨h₁, h₂⟩

theorem covers_maximal (h : x < 2 ^ w) : (maximal w).covers x = true :=
  covers_of_between (Nat.zero_le x) (by simp only [maximal]; omega)

@[simp] theorem closed_lower {lower upper : Nat} :
    (closed lower upper : Interval w).lower = lower % 2 ^ w := rfl

@[simp] theorem closed_upper {lower upper : Nat} :
    (closed lower upper : Interval w).upper = upper % 2 ^ w := rfl

end Interval

/-- An interval that does not wrap. -/
structure ProperInterval (w : Nat) extends Interval w where
  le : lower ≤ upper
  deriving DecidableEq

namespace ProperInterval

variable {w : Nat}

theorem ext' {a b : ProperInterval w} (hl : a.lower = b.lower) (hu : a.upper = b.upper) :
    a = b := by
  obtain ⟨⟨_, _, _, _⟩, _⟩ := a
  obtain ⟨⟨_, _, _, _⟩, _⟩ := b
  simp only at hl hu
  subst hl hu
  rfl

/-- Membership of a number. -/
def Mem (x : Nat) (i : ProperInterval w) : Prop := i.lower ≤ x ∧ x ≤ i.upper

instance (x : Nat) (i : ProperInterval w) : Decidable (Mem x i) :=
  inferInstanceAs (Decidable (_ ∧ _))

variable {i l r : ProperInterval w} {x : Nat}

theorem covers_iff : i.toInterval.covers x = true ↔ Mem x i :=
  Interval.covers_iff_of_le i.le

theorem Mem.lt (h : Mem x i) : x < 2 ^ w :=
  lt_of_le_of_lt h.2 i.upper_lt

/-- `Maximal(w)`, which never wraps. -/
def maximal (w : Nat) : ProperInterval w := { Interval.maximal w with le := Nat.zero_le _ }

/-- `Precise(bits)`. -/
def precise (x : Nat) (h : x < 2 ^ w) : ProperInterval w :=
  { Interval.precise x h with le := le_refl x }

/-- `Overlaps`: neither interval ends before the other starts. -/
def overlaps (l r : ProperInterval w) : Bool :=
  decide (r.lower ≤ l.upper) && decide (l.lower ≤ r.upper)

/-- `Disjoint`. -/
def disjoint (l r : ProperInterval w) : Bool := !overlaps l r

/-- `Abuts`: one interval starts right after the other ends. Bounds at the top
of the range have no successor, so nothing abuts them from above. -/
def abuts (l r : ProperInterval w) : Bool :=
  if l.upper + 1 < 2 ^ w ∧ l.upper + 1 = r.lower then true
  else if l.upper + 1 < 2 ^ w ∧ l.upper + 1 < r.lower then false
  else decide (r.upper + 1 < 2 ^ w) && decide (r.upper + 1 = l.lower)

/-- `ConvexHull`. -/
def convexHull (l r : ProperInterval w) : ProperInterval w where
  lower := min l.lower r.lower
  upper := max l.upper r.upper
  lower_lt := lt_of_le_of_lt (min_le_left _ _) l.lower_lt
  upper_lt := max_lt l.upper_lt r.upper_lt
  le := (min_le_left _ _).trans (l.le.trans (le_max_left _ _))

/-- `Intersect`. -/
def intersect (l r : ProperInterval w) : Option (ProperInterval w) :=
  if h : max l.lower r.lower ≤ min l.upper r.upper then
    some ⟨⟨max l.lower r.lower, min l.upper r.upper, max_lt l.lower_lt r.lower_lt,
      lt_of_le_of_lt (min_le_left _ _) l.upper_lt⟩, h⟩
  else none

/-- `Difference`: at most one piece below and one above the intersection. -/
def difference (l r : ProperInterval w) : List (ProperInterval w) :=
  match l.intersect r with
  | none => [l]
  | some m =>
    (if h : l.lower < m.lower then
      [⟨⟨l.lower, m.lower - 1, l.lower_lt, by have := m.lower_lt; omega⟩, by
        show l.lower ≤ m.lower - 1
        omega⟩]
    else []) ++
    (if h : m.upper < l.upper then
      [⟨⟨m.upper + 1, l.upper, by have := l.upper_lt; omega, l.upper_lt⟩, h⟩]
    else [])

/-- `Complement`. -/
def complement (i : ProperInterval w) : List (ProperInterval w) := difference (maximal w) i

/-- The lexicographic order `std::sort` uses. -/
def lexLe (a b : ProperInterval w) : Bool :=
  decide (a.lower < b.lower ∨ (a.lower = b.lower ∧ a.upper ≤ b.upper))

/-- The strict lexicographic order `operator<=>` induces. -/
def lexLt (a b : ProperInterval w) : Bool :=
  decide (a.lower < b.lower ∨ (a.lower = b.lower ∧ a.upper < b.upper))

/-- `Elements`, in increasing order. -/
def elements (i : ProperInterval w) : List Nat :=
  (range (i.upper + 1 - i.lower)).map (i.lower + ·)

theorem overlaps_iff : overlaps l r = true ↔ r.lower ≤ l.upper ∧ l.lower ≤ r.upper := by
  simp [overlaps]

/-- Intervals abut if one ends right before the other begins. -/
theorem abuts_iff : abuts l r = true ↔ l.upper + 1 = r.lower ∨ r.upper + 1 = l.lower := by
  have hl := l.le
  have hr := r.le
  have h1 := l.lower_lt
  have h2 := r.lower_lt
  unfold abuts
  split
  · simp only [true_iff]
    omega
  · split
    · simp only [Bool.false_eq_true, false_iff]
      omega
    · simp only [Bool.and_eq_true, decide_eq_true_eq]
      omega

theorem mem_convexHull_left (h : Mem x l) : Mem x (convexHull l r) :=
  ⟨(min_le_left _ _).trans h.1, h.2.trans (le_max_left _ _)⟩

theorem mem_convexHull_right (h : Mem x r) : Mem x (convexHull l r) :=
  ⟨(min_le_right _ _).trans h.1, h.2.trans (le_max_right _ _)⟩

/-- The hull of touching intervals adds no point. -/
theorem mem_convexHull_iff (h : overlaps l r = true ∨ abuts l r = true) :
    Mem x (convexHull l r) ↔ Mem x l ∨ Mem x r := by
  rw [overlaps_iff, abuts_iff] at h
  have hl := l.le
  have hr := r.le
  simp only [Mem, convexHull, min_le_iff, le_max_iff]
  omega

variable {m : ProperInterval w}

theorem intersect_eq_some (h : l.intersect r = some m) :
    m.lower = max l.lower r.lower ∧ m.upper = min l.upper r.upper := by
  unfold intersect at h
  split at h
  · cases h
    exact ⟨rfl, rfl⟩
  · cases h

theorem mem_of_intersect (h : l.intersect r = some m) : Mem x m ↔ Mem x l ∧ Mem x r := by
  obtain ⟨hl, hu⟩ := intersect_eq_some h
  simp only [Mem, hl, hu, max_le_iff, le_min_iff]
  tauto

theorem intersect_eq_none (h : l.intersect r = none) : ¬(Mem x l ∧ Mem x r) := by
  unfold intersect at h
  split at h
  · cases h
  · rename_i hlt
    rintro ⟨⟨h1, h2⟩, h3, h4⟩
    exact hlt ((max_le h1 h3).trans (le_min h2 h4))

/-- The difference of two intervals, in at most two parts. -/
theorem mem_difference : (∃ i ∈ difference l r, Mem x i) ↔ Mem x l ∧ ¬Mem x r := by
  unfold difference
  cases hm : l.intersect r with
  | none =>
    have hno := intersect_eq_none hm (x := x)
    simp only [mem_singleton, exists_eq_left]
    tauto
  | some m =>
    have hmem := mem_of_intersect hm (x := x)
    obtain ⟨hl, hu⟩ := intersect_eq_some hm
    have h1 := m.le
    have hsub : l.lower ≤ m.lower ∧ m.upper ≤ l.upper := by
      rw [hl, hu]
      exact ⟨le_max_left _ _, min_le_left _ _⟩
    have key : (Mem x l ∧ ¬Mem x r) ↔ (Mem x l ∧ ¬Mem x m) := by
      rw [hmem]
      tauto
    rw [key]
    simp only [mem_append]
    constructor
    · rintro ⟨i, hi | hi, hx⟩
      · split at hi
        · simp only [mem_singleton] at hi
          subst hi
          simp only [Mem] at hx ⊢
          omega
        · simp at hi
      · split at hi
        · simp only [mem_singleton] at hi
          subst hi
          simp only [Mem] at hx ⊢
          omega
        · simp at hi
    · rintro ⟨hxl, hxm⟩
      have hx : x < m.lower ∨ m.upper < x := by
        by_contra hcon
        exact hxm ⟨by omega, by omega⟩
      rcases hx with hx | hx
      · have hlt : l.lower < m.lower := lt_of_le_of_lt hxl.1 hx
        rw [dif_pos hlt]
        exact ⟨_, Or.inl (mem_singleton.2 rfl), hxl.1, by show x ≤ m.lower - 1; omega⟩
      · have hlt : m.upper < l.upper := lt_of_lt_of_le hx hxl.2
        rw [dif_pos hlt]
        exact ⟨_, Or.inr (mem_singleton.2 rfl), by show m.upper + 1 ≤ x; omega, hxl.2⟩

theorem mem_complement (hx : x < 2 ^ w) : (∃ j ∈ complement i, Mem x j) ↔ ¬Mem x i := by
  have hmax : Mem x (maximal w) := ⟨Nat.zero_le x, by show x ≤ 2 ^ w - 1; omega⟩
  rw [complement, mem_difference]
  tauto

theorem mem_elements : x ∈ i.elements ↔ Mem x i := by
  have hle := i.le
  simp only [elements, mem_map, mem_range, Mem]
  constructor
  · rintro ⟨k, hk, rfl⟩
    omega
  · rintro ⟨h1, h2⟩
    exact ⟨x - i.lower, by omega, by omega⟩

end ProperInterval

end Xls

import Mathlib.Data.Nat.Count
import Xls.IntervalOps.Optimal

/-!
# Xls.IntervalSet.Count

`IntervalSet::Size` and `IntervalSet::Index`, which count the points of a normalized
set. The specification counts with `Nat.count`: the points below a number, and all of
them below `2 ^ w`.

`Size` adds the sizes of the intervals as `int64_t` values. Each of them is tested to fit,
but their sum is not, so it wraps for a set of `2 ^ 63` points or more none of whose
intervals has that many (`sizeAndIndex_exact_iff`). `Index` works on bit vectors of one bit
more than the set, which hold every count, and is exact.
-/

namespace Xls

open Nat List Or

variable {w : Nat}

/-! ### The sizes of one interval -/

/-- `SizeBits` of the interval `[lower, upper]`, one bit wider than its bounds. -/
def boundsSizeBits (w lower upper : Nat) : Nat :=
  ((upper + 2 ^ w - lower) % 2 ^ w + 1) % 2 ^ (w + 1)

namespace Interval

/-- `SizeBits`; an improper interval is counted as two. -/
def sizeBits (i : Interval w) : Nat :=
  if i.upper < i.lower then
    (boundsSizeBits w i.lower (2 ^ w - 1) + boundsSizeBits w 0 i.upper) % 2 ^ (w + 1)
  else boundsSizeBits w i.lower i.upper

/-- `Size`: nothing unless `SizeBits` fits in an `int64_t`. -/
def size (i : Interval w) : Option Nat :=
  if i.sizeBits < 2 ^ 64 then
    if 2 ^ 63 - 1 < i.sizeBits then none else some i.sizeBits
  else none

end Interval

theorem boundsSizeBits_eq {lower upper : Nat} (hle : lower ≤ upper) (hlt : upper < 2 ^ w) :
    boundsSizeBits w lower upper = upper + 1 - lower := by
  have hdiff : (upper + 2 ^ w - lower) % 2 ^ w = upper - lower := by
    rw [show upper + 2 ^ w - lower = upper - lower + 2 ^ w by omega, add_mod_right]
    exact mod_eq_of_lt (by omega)
  have hpow : 2 ^ w < 2 ^ (w + 1) := Nat.pow_lt_pow_right (by omega) (by omega)
  rw [boundsSizeBits, hdiff, mod_eq_of_lt (by omega)]
  omega

namespace ProperInterval

theorem sizeBits_eq (i : ProperInterval w) : i.sizeBits = i.upper + 1 - i.lower := by
  rw [Interval.sizeBits, if_neg (Nat.not_lt.2 i.le), boundsSizeBits_eq i.le i.upper_lt]

theorem size_eq (i : ProperInterval w) :
    i.size = if i.sizeBits < 2 ^ 63 then some i.sizeBits else none := by
  unfold Interval.size
  split
  · split
    · rw [if_neg (by omega)]
    · rw [if_pos (by omega)]
  · rw [if_neg (by omega)]

end ProperInterval

namespace IntervalSet

open ProperInterval (Mem)

/-! ### The operations -/

/-- The loop of `Size`: the running total is an `int64_t`. -/
def sizeLoop (total : Int) : List (ProperInterval w) → Option Int
  | [] => some total
  | i :: is =>
    match i.size with
    | some size => sizeLoop (Int.bmod (total + size) (2 ^ 64)) is
    | none => none

/-- `IntervalSet::Size`. -/
def size (s : IntervalSet w) : Option Int := sizeLoop 0 s.intervals

/-- The loop of `Index`: skip the intervals that end before the index, which is counted
down on the way. -/
def findIndex : List (ProperInterval w) → Nat → Option (ProperInterval w) × Nat
  | [], soFar => (none, soFar)
  | i :: is, soFar =>
    if soFar < i.sizeBits then (some i, soFar)
    else findIndex is ((soFar + 2 ^ (w + 1) - i.sizeBits) % 2 ^ (w + 1))

/-- `IntervalSet::Index`. -/
def index (s : IntervalSet w) (i : Bits) : Result (Option Bits) :=
  if i.width ≠ w then .error .check
  else
    match findIndex s.intervals i.val with
    | (none, _) => .ok none
    | (some toIndex, soFar) =>
      let result := Bits.ofNat (w + 1) (soFar + toIndex.lower)
      if result.msb then .error .check else .ok (some (Bits.ofNat w result.val))

/-! ### Counting points -/

/-- Points of disjoint kinds are counted apart. -/
theorem count_or {p q : Nat → Prop} [DecidablePred p] [DecidablePred q]
    (h : ∀ x, p x → ¬q x) (n : Nat) : count (fun x => p x ∨ q x) n = count p n + count q n := by
  induction n with
  | zero => simp
  | succ n ih =>
    have hn := h n
    simp only [count_succ, ih]
    by_cases hp : p n
    · simp [hp, hn hp]
      omega
    · by_cases hq : q n <;> simp [hp, hq]
      omega

/-- The points of an interval below `n`. -/
theorem count_mem (i : ProperInterval w) (n : Nat) :
    count (fun x => Mem x i) n = min n (i.upper + 1) - i.lower := by
  have hle := i.le
  induction n with
  | zero => simp
  | succ n ih =>
    rw [count_succ, ih]
    split
    · rename_i hm
      obtain ⟨h1, h2⟩ := hm
      omega
    · rename_i hm
      have hout : n < i.lower ∨ i.upper < n := by
        by_contra hcon
        exact hm ⟨by omega, by omega⟩
      omega

variable {i : ProperInterval w} {l : List (ProperInterval w)} {s : IntervalSet w}

/-- In a normalized list the first interval is counted apart from the others. -/
theorem count_points_cons (h : (i :: l).Pairwise fun a b => a.upper + 1 < b.lower) (n : Nat) :
    count (Points (i :: l)) n = min n (i.upper + 1) - i.lower + count (Points l) n := by
  have hsep : ∀ x, Mem x i → ¬Points l x := by
    intro x hx hp
    obtain ⟨j, hj, hxj⟩ := hp
    have hgap := rel_of_pairwise_cons h hj
    have h1 := hx.2
    have h2 := hxj.1
    omega
  rw [← count_mem i n, ← count_or hsep n]
  refine le_antisymm (count_mono_left ?_) (count_mono_left ?_)
  · intro x _ hx
    simpa [Points] using hx
  · intro x _ hx
    simpa [Points] using hx

/-- Below the end of the first interval there is none of the others' points. -/
theorem count_points_tail (h : (i :: l).Pairwise fun a b => a.upper + 1 < b.lower) {n : Nat}
    (hn : n ≤ i.upper + 1) : count (Points l) n = 0 := by
  rw [count_iff_forall_not]
  intro m hm hp
  obtain ⟨j, hj, hmj⟩ := hp
  have hgap := rel_of_pairwise_cons h hj
  have h1 := hmj.1
  omega

/-- All the points of a normalized list, as the sum of the sizes. -/
theorem count_points (h : l.Pairwise fun a b => a.upper + 1 < b.lower) :
    count (Points l) (2 ^ w) = (l.map fun i => i.sizeBits).sum := by
  induction l with
  | nil =>
    rw [count_iff_forall_not.2 (by simp [Points])]
    rfl
  | cons i l ih =>
    have hlt := i.upper_lt
    rw [count_points_cons h, ih h.of_cons, map_cons, sum_cons, i.sizeBits_eq]
    omega

/-- The number of points of a set. -/
def numPoints (s : IntervalSet w) : Nat := count s.Covers (2 ^ w)

theorem numPoints_eq (s : IntervalSet w) :
    s.numPoints = (s.intervals.map fun i => i.sizeBits).sum := count_points s.normal

/-! ### `Size` -/

/-- The loop of `Size` when every interval is small: the sum, as an `int64_t`. -/
theorem sizeLoop_small (hs : ∀ i ∈ l, i.sizeBits < 2 ^ 63) (n : Nat) :
    sizeLoop (Int.bmod n (2 ^ 64)) l =
      some (Int.bmod (n + (l.map fun i => i.sizeBits).sum : Nat) (2 ^ 64)) := by
  induction l generalizing n with
  | nil => simp [sizeLoop]
  | cons i l ih =>
    have hi := hs i mem_cons_self
    have hstep : Int.bmod (Int.bmod (n : Int) (2 ^ 64) + (i.sizeBits : Nat)) (2 ^ 64) =
        Int.bmod ((n + i.sizeBits : Nat) : Int) (2 ^ 64) := by
      rw [Int.bmod_add_bmod, cast_add]
    rw [sizeLoop, i.size_eq, if_pos hi]
    dsimp only
    rw [hstep, ih (fun j hj => hs j (mem_cons_of_mem _ hj)), map_cons, sum_cons, Nat.add_assoc]

/-- The loop of `Size` gives up at a large interval. -/
theorem sizeLoop_large (hl : ∃ i ∈ l, 2 ^ 63 ≤ i.sizeBits) (total : Int) :
    sizeLoop total l = none := by
  induction l generalizing total with
  | nil => simp at hl
  | cons i l ih =>
    rw [sizeLoop, i.size_eq]
    by_cases hi : i.sizeBits < 2 ^ 63
    · rw [if_pos hi]
      refine ih ?_ _
      obtain ⟨j, hj, hbig⟩ := hl
      rcases mem_cons.1 hj with rfl | hj
      · omega
      · exact ⟨j, hj, hbig⟩
    · rw [if_neg hi]

/-- Some interval alone is too large for an `int64_t`. -/
def HasLargeInterval (s : IntervalSet w) : Prop := ∃ i ∈ s.intervals, 2 ^ 63 ≤ i.sizeBits

theorem size_of_large (h : s.HasLargeInterval) : s.size = none :=
  sizeLoop_large h 0

theorem size_of_small (h : ¬s.HasLargeInterval) :
    s.size = some (Int.bmod s.numPoints (2 ^ 64)) := by
  have hs : ∀ i ∈ s.intervals, i.sizeBits < 2 ^ 63 := by
    intro i hi
    by_contra hbig
    exact h ⟨i, hi, by omega⟩
  have hloop := sizeLoop_small hs 0
  simpa [size, numPoints_eq] using hloop

theorem sizeBits_le_numPoints (hi : i ∈ s.intervals) : i.sizeBits ≤ s.numPoints := by
  rw [numPoints_eq]
  exact single_le_sum (by simp) _ (mem_map_of_mem hi)

/-! ### `Index` -/

/-- What the loop of `Index` finds in a normalized list: the interval with the point, and
the point's position in it. -/
theorem findIndex_spec (h : l.Pairwise fun a b => a.upper + 1 < b.lower) {n : Nat}
    (hn : n < 2 ^ (w + 1)) :
    (∃ i soFar, findIndex l n = (some i, soFar) ∧ soFar < i.sizeBits ∧
        Points l (i.lower + soFar) ∧ count (Points l) (i.lower + soFar) = n) ∨
      (∃ soFar, findIndex l n = (none, soFar)) ∧ (l.map fun i => i.sizeBits).sum ≤ n := by
  induction l generalizing n with
  | nil => exact inr ⟨⟨n, rfl⟩, by simp⟩
  | cons i l ih =>
    have hsize := i.sizeBits_eq
    have hle := i.le
    have hlt := i.upper_lt
    rw [findIndex]
    split
    · -- the index falls into the first interval
      rename_i hhere
      refine inl ⟨i, n, rfl, hhere, ⟨i, mem_cons_self, ?_⟩, ?_⟩
      · exact ⟨by omega, by omega⟩
      · rw [count_points_cons h, count_points_tail h (by omega)]
        omega
    · -- it falls behind it, `sizeBits` places further down
      rename_i hbehind
      have hsub : (n + 2 ^ (w + 1) - i.sizeBits) % 2 ^ (w + 1) = n - i.sizeBits := by
        rw [show n + 2 ^ (w + 1) - i.sizeBits = n - i.sizeBits + 2 ^ (w + 1) by omega,
          add_mod_right]
        exact mod_eq_of_lt (by omega)
      rw [hsub]
      rcases ih h.of_cons (by omega : n - i.sizeBits < 2 ^ (w + 1)) with hfound | hnone
      · obtain ⟨j, soFar, hrun, hin, hp, hcount⟩ := hfound
        refine inl ⟨j, soFar, hrun, hin, ?_, ?_⟩
        · obtain ⟨k, hk, hm⟩ := hp
          exact ⟨k, mem_cons_of_mem _ hk, hm⟩
        · obtain ⟨k, hk, hm⟩ := hp
          have hgap := rel_of_pairwise_cons h hk
          have hlow := hm.1
          rw [count_points_cons h, hcount]
          omega
      · obtain ⟨hrun, hsum⟩ := hnone
        refine inr ⟨hrun, ?_⟩
        rw [map_cons, sum_cons]
        omega

/-- The point at an index has as many points below it, and there is none beyond the size. -/
theorem index_spec (s : IntervalSet w) {i : Bits} (hi : i.width = w) :
    (∃ v, s.index i = .ok (some v) ∧ v.width = w ∧ s.Covers v.val ∧
        count s.Covers v.val = i.val) ∨ s.index i = .ok none ∧ s.numPoints ≤ i.val := by
  have hpow : 2 ^ (w + 1) = 2 * 2 ^ w := by rw [pow_succ, Nat.mul_comm]
  have hival : i.val < 2 ^ (w + 1) := by
    have hlt := i.isLt
    rw [hi] at hlt
    omega
  unfold index
  rw [if_neg (by simp [hi])]
  rcases findIndex_spec s.normal hival with hfound | ⟨⟨soFar, hrun⟩, hsum⟩
  · obtain ⟨j, soFar, hrun, hin, hp, hcount⟩ := hfound
    refine inl ⟨Bits.ofNat w (j.lower + soFar), ?_⟩
    have hcov : s.Covers (j.lower + soFar) := hp
    have hv : (Bits.ofNat w (j.lower + soFar)).val = j.lower + soFar :=
      Bits.ofNat_val_of_lt hcov.lt
    -- the sum is a point of the set, so its top bit is clear
    have hsumv : (Bits.ofNat (w + 1) (soFar + j.lower)).val = j.lower + soFar := by
      rw [Bits.ofNat_val, Nat.add_comm, mod_eq_of_lt]
      have hlt := hcov.lt
      omega
    have hmsb : (Bits.ofNat (w + 1) (soFar + j.lower)).msb = false := by
      rw [Bits.msb, Bits.get, hsumv]
      exact testBit_lt_two_pow hcov.lt
    rw [hrun]
    dsimp only
    rw [if_neg (by simp [hmsb]), hsumv]
    exact ⟨rfl, rfl, by rwa [hv], by rw [hv]; exact hcount⟩
  · refine inr ⟨?_, ?_⟩
    · rw [hrun]
    · rwa [numPoints_eq]

/-! ### Exactness -/

/-- `Size` is the number of points whenever that fits in an `int64_t`, and nothing
otherwise. -/
def SizeExact (s : IntervalSet w) : Prop :=
  s.size = if s.numPoints < 2 ^ 63 then some (s.numPoints : Int) else none

/-- `Index(i)` is the point with `i` points below it, and nothing exactly when there are no
more than `i` points. -/
def IndexExact (s : IntervalSet w) : Prop :=
  ∀ i : Bits, i.width = w →
    (∀ v : Bits, s.index i = .ok (some v) ↔
      v.width = w ∧ s.Covers v.val ∧ count s.Covers v.val = i.val) ∧
    (s.index i = .ok none ↔ s.numPoints ≤ i.val)

/-- `Index` enumerates the points in order. -/
theorem indexExact (s : IntervalSet w) : s.IndexExact := by
  intro i hi
  have hbelow : ∀ v : Bits, s.Covers v.val → count s.Covers v.val < s.numPoints :=
    fun v hv => count_strict_mono hv hv.lt
  rcases index_spec s hi with hsome | hnone
  · obtain ⟨v, hrun, hw, hcov, hcount⟩ := hsome
    have hlt := hbelow v hcov
    constructor
    · intro u
      constructor
      · intro hu
        rw [hrun] at hu
        cases hu
        exact ⟨hw, hcov, hcount⟩
      · intro hu
        obtain ⟨huw, hucov, hucount⟩ := hu
        have heq : u = v := Bits.ext (huw.trans hw.symm)
          (count_injective hucov hcov (hucount.trans hcount.symm))
        rw [hrun, heq]
    · constructor
      · intro hn
        rw [hrun] at hn
        cases hn
      · intro hle
        omega
  · obtain ⟨hrun, hle⟩ := hnone
    constructor
    · intro u
      constructor
      · intro hu
        rw [hrun] at hu
        cases hu
      · intro hu
        obtain ⟨-, hucov, hucount⟩ := hu
        have hlt := hbelow u hucov
        omega
    · exact iff_of_true hrun hle

/-- `Size` is exact unless every interval fits in an `int64_t` and the sum does not. -/
theorem sizeExact_iff (s : IntervalSet w) :
    s.SizeExact ↔ s.numPoints < 2 ^ 63 ∨ s.HasLargeInterval := by
  unfold SizeExact
  by_cases hlarge : s.HasLargeInterval
  · have hbig : ¬s.numPoints < 2 ^ 63 := by
      obtain ⟨i, hi, hsize⟩ := hlarge
      have hle := sizeBits_le_numPoints hi
      omega
    rw [size_of_large hlarge, if_neg hbig]
    simp [hlarge]
  · rw [size_of_small hlarge]
    constructor
    · intro h
      refine inl ?_
      by_contra hbig
      rw [if_neg hbig] at h
      cases h
    · intro h
      have hsmall : s.numPoints < 2 ^ 63 := h.resolve_right hlarge
      rw [if_pos hsmall, Int.bmod_eq_of_le (by omega) (by omega)]

/-- `Size` and `Index` count the points exactly, unless every interval fits in an
`int64_t` and the number of all points does not. -/
theorem sizeAndIndex_exact_iff (s : IntervalSet w) :
    s.SizeExact ∧ s.IndexExact ↔ s.numPoints < 2 ^ 63 ∨ s.HasLargeInterval := by
  rw [and_iff_left (indexExact s)]
  exact sizeExact_iff s

/-- Two intervals of `2 ^ 62` points each, of 64-bit numbers. -/
def twoQuarters : IntervalSet 64 where
  intervals :=
    [⟨⟨0, 2 ^ 62 - 1, by decide, by decide⟩, by decide⟩,
      ⟨⟨2 ^ 63, 2 ^ 63 + (2 ^ 62 - 1), by decide, by decide⟩, by decide⟩]
  normal := by decide

/-- `Size` of the two intervals wraps to the least `int64_t`. -/
theorem size_twoQuarters :
    twoQuarters.size = some (-2 ^ 63) ∧ ¬(twoQuarters.SizeExact ∧ twoQuarters.IndexExact) := by
  have hsize : twoQuarters.size = some (-2 ^ 63) := by decide
  have hcount : twoQuarters.numPoints = 2 ^ 63 := by
    rw [numPoints_eq]
    decide
  refine ⟨hsize, ?_⟩
  intro h
  have hexact := h.1
  rw [SizeExact, hcount, if_neg (by omega), hsize] at hexact
  cases hexact

end IntervalSet

end Xls

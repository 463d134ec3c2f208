import Mathlib.Algebra.Order.Interval.Finset.SuccPred
import Mathlib.Order.Interval.Finset.Nat
import Xls.IntervalOps.Minimize
import Xls.IntervalSet.Canonical
import Xls.Lib.LargestSum

/-!
# Xls.IntervalOps.Optimal

`MinimizeIntervals` adds as few points as any set of so few intervals must
(`minimizeIntervals_optimal`).

The points between the first and the last interval of a set are those of its intervals
and those missing between neighbours. A round of the merging loop gives up the smallest
number of missing points, so after the loop the largest ones are left. A covering set of
`size` intervals can leave out points between at most `size - 1` pairs of neighbours, and
no choice of that many has a larger sum.
-/

namespace Xls.IntervalSet

open List Option
open ProperInterval (Mem)
open LargestSum (dropMin dropMins)

variable {w : Nat}

/-- Sorted, with at least one missing point between neighbours. -/
def Separated (l : List (ProperInterval w)) : Prop :=
  l.Pairwise (fun a b => a.upper + 1 < b.lower)

/-- How many points are missing between neighbours. -/
def missing (prev : ProperInterval w) : List (ProperInterval w) → List Nat
  | [] => []
  | i :: is => (i.lower - prev.upper - 1) :: missing i is

/-- The upper bound of the last interval. -/
def lastUpper (prev : ProperInterval w) : List (ProperInterval w) → Nat
  | [] => prev.upper
  | i :: is => lastUpper i is

/-- The lengths of the intervals together. -/
def lengthSum (l : List (ProperInterval w)) : Nat := (l.map (fun i => i.upper + 1 - i.lower)).sum

@[simp] theorem length_missing (prev : ProperInterval w) (l : List (ProperInterval w)) :
    (missing prev l).length = l.length := by
  induction l generalizing prev with
  | nil => rfl
  | cons i is ih => simp [missing, ih]

variable {l t : List (ProperInterval w)} {prev : ProperInterval w} {s : IntervalSet w}

theorem Separated.lt_lower {a b : ProperInterval w} (h : Separated (a :: b :: l)) :
    a.upper + 1 < b.lower :=
  rel_of_pairwise_cons h mem_cons_self

theorem Separated.cons {a b : ProperInterval w} {l : List (ProperInterval w)}
    (hab : a.upper + 1 < b.lower) (h : Separated (b :: l)) : Separated (a :: b :: l) := by
  refine List.Pairwise.cons ?_ h
  intro j hj
  exact lt_of_lt_of_le hab (lower_le_of_points h ⟨j, hj, le_refl _, j.le⟩)

/-- Lengths and missing points fill the range from the first lower to the last upper
bound. -/
theorem lengthSum_add_missing (h : Separated (prev :: l)) :
    prev.lower + lengthSum (prev :: l) + (missing prev l).sum = lastUpper prev l + 1 := by
  induction l generalizing prev with
  | nil =>
    have hle := prev.le
    simp only [lengthSum, missing, lastUpper, map_cons, map_nil, sum_cons, sum_nil]
    omega
  | cons i is ih =>
    have hrest := ih h.of_cons
    have hgap := h.lt_lower
    have hle := prev.le
    simp only [lengthSum, missing, lastUpper, map_cons, sum_cons] at hrest ⊢
    omega

/-! ### The merging loop -/

/-- The smallest gap between neighbours. -/
theorem smallestGap_eq (h : Separated (prev :: l)) :
    smallestGap prev l = (missing prev l).min?.map (· + 1) := by
  induction l generalizing prev with
  | nil => rfl
  | cons i is ih =>
    have hgap := h.lt_lower
    rw [smallestGap, missing, min?_cons, ih h.of_cons]
    cases (missing i is).min? with
    | none =>
      simp only [map_none, elim_none, map_some]
      congr 1
      omega
    | some g =>
      simp only [map_some, elim_some]
      congr 1
      omega

/-- Merging at a gap closes it and leaves everything else in place. -/
theorem mergeGap_spec {g : Nat} (h : Separated (prev :: l)) (hg : g ∈ missing prev l) :
    ∃ b m, mergeGap (g + 1) prev l = b :: m ∧ b.lower = prev.lower ∧ Separated (b :: m) ∧
      missing b m = (missing prev l).erase g ∧ lastUpper b m = lastUpper prev l := by
  induction l generalizing prev with
  | nil => cases hg
  | cons i is ih =>
    have hgap := h.lt_lower
    have hle := i.le
    have hprev := prev.le
    rw [mergeGap, missing]
    split
    · rename_i heq
      have hlower : (prev.convexHull i).lower = prev.lower :=
        min_eq_left (by omega)
      have hupper : (prev.convexHull i).upper = i.upper := max_eq_right (by omega)
      refine ⟨_, _, rfl, hlower, ?_, ?_, ?_⟩
      · refine List.Pairwise.cons ?_ h.of_cons.of_cons
        intro j hj
        rw [hupper]
        exact rel_of_pairwise_cons h.of_cons hj
      · rw [show i.lower - prev.upper - 1 = g by omega, erase_cons_head]
        cases is with
        | nil => rfl
        | cons j js => rw [missing, missing, hupper]
      · cases is with
        | nil => exact hupper
        | cons j js => rfl
    · rename_i hne
      have hhead : i.lower - prev.upper - 1 ≠ g := by omega
      have hmem : g ∈ missing i is := by
        rw [missing, mem_cons] at hg
        exact hg.resolve_left (fun heq => hhead heq.symm)
      obtain ⟨b, m, hm, hlow, hsep, hmiss, hlast⟩ := ih h.of_cons hmem
      refine ⟨prev, b :: m, by rw [hm], rfl, hsep.cons (by omega), ?_, hlast⟩
      rw [missing, hlow, hmiss, erase_cons_tail (by simpa using hhead)]

/-- A round gives up the smallest number of missing points. -/
theorem mergeSmallest_spec (h : Separated (prev :: l)) :
    ∃ b m, mergeSmallest (prev :: l) = b :: m ∧ b.lower = prev.lower ∧ Separated (b :: m) ∧
      missing b m = dropMin (missing prev l) ∧ lastUpper b m = lastUpper prev l := by
  rw [mergeSmallest, smallestGap_eq h]
  cases hmin : (missing prev l).min? with
  | none => exact ⟨prev, l, rfl, rfl, h, by rw [dropMin, hmin], rfl⟩
  | some g =>
    obtain ⟨hg, hle⟩ := min?_eq_some_iff.1 hmin
    rw [LargestSum.dropMin_of_mem hg hle]
    exact mergeGap_spec h hg

theorem mergeRounds_spec (n : Nat) (h : Separated (prev :: l)) :
    ∃ b m, mergeRounds n (prev :: l) = b :: m ∧ b.lower = prev.lower ∧ Separated (b :: m) ∧
      missing b m = dropMins n (missing prev l) ∧ lastUpper b m = lastUpper prev l := by
  induction n generalizing prev l with
  | zero => exact ⟨prev, l, rfl, rfl, h, rfl, rfl⟩
  | succ n ih =>
    obtain ⟨b, m, hm, hlow, hsep, hmiss, hlast⟩ := mergeSmallest_spec h
    obtain ⟨c, k, hk, hlow', hsep', hmiss', hlast'⟩ := ih hsep
    refine ⟨c, k, ?_, hlow'.trans hlow, hsep', ?_, hlast'.trans hlast⟩
    · rw [mergeRounds, hm, hk]
    · rw [hmiss', hmiss, dropMins]

/-! ### What a covering set must hold -/

instance (l : List (ProperInterval w)) (x : Nat) : Decidable (Points l x) :=
  inferInstanceAs (Decidable (∃ i ∈ l, Mem x i))

/-- The points of a list of intervals from `p` on. -/
def pointsFrom (p : Nat) (l : List (ProperInterval w)) : Finset Nat :=
  (Finset.range (2 ^ w)).filter (fun x => p ≤ x ∧ Points l x)

/-- How many points a list of intervals has. -/
def pointCount (l : List (ProperInterval w)) : Nat := (pointsFrom 0 l).card

variable {p size : Nat}

theorem mem_pointsFrom {x : Nat} : x ∈ pointsFrom p l ↔ p ≤ x ∧ Points l x := by
  rw [pointsFrom, Finset.mem_filter, Finset.mem_range]
  constructor
  · exact fun h => h.2
  · intro h
    obtain ⟨i, -, hi⟩ := h.2
    exact ⟨hi.lt, h⟩

/-- Points up to `q` that are all there count in full. -/
theorem card_pointsFrom_ge {q r : Nat} (hpr : p ≤ r) (hrq : r ≤ q)
    (h : ∀ x, p ≤ x → x < r → Points l x) :
    (r - p) + (pointsFrom q l).card ≤ (pointsFrom p l).card := by
  have hdisj : Disjoint (Finset.Ico p r) (pointsFrom q l) := by
    rw [Finset.disjoint_left]
    intro x hx hq
    rw [Finset.mem_Ico] at hx
    rw [mem_pointsFrom] at hq
    omega
  rw [← Nat.card_Ico, ← Finset.card_union_of_disjoint hdisj]
  refine Finset.card_le_card ?_
  intro x hx
  rcases Finset.mem_union.1 hx with hx | hx
  · rw [Finset.mem_Ico] at hx
    exact mem_pointsFrom.2 ⟨hx.1, h x hx.1 hx.2⟩
  · rw [mem_pointsFrom] at hx
    exact mem_pointsFrom.2 ⟨by omega, hx.2⟩

/-- The points of a set are no more than the lengths of its intervals together. -/
theorem pointCount_le_lengthSum (l : List (ProperInterval w)) : pointCount l ≤ lengthSum l := by
  induction l with
  | nil => simp [pointCount, pointsFrom, Points]
  | cons i is ih =>
    have hsub : pointsFrom 0 (i :: is) ⊆ Finset.Icc i.lower i.upper ∪ pointsFrom 0 is := by
      intro x hx
      obtain ⟨-, j, hj, hjx⟩ := mem_pointsFrom.1 hx
      rcases mem_cons.1 hj with rfl | hj
      · exact Finset.mem_union_left _ (Finset.mem_Icc.2 hjx)
      · exact Finset.mem_union_right _ (mem_pointsFrom.2 ⟨Nat.zero_le _, j, hj, hjx⟩)
    have hcard := (Finset.card_le_card hsub).trans (Finset.card_union_le _ _)
    rw [Nat.card_Icc] at hcard
    simp only [lengthSum, map_cons, sum_cons, pointCount] at ih hcard ⊢
    omega

/-- Where a covering list leaves a point out between two points it has, one of its
intervals ends. -/
theorem live_lt_of_gap {q x : Nat} (hp : Points t p) (hpx : p < x) (hxq : x < q)
    (hx : ¬Points t x) : live q t < live p t := by
  obtain ⟨i, hi, hip⟩ := hp
  have hend : i.upper < x := by
    by_contra hle
    exact hx ⟨i, hi, by have := hip.1; omega, by omega⟩
  calc live q t ≤ live (i.upper + 1) t := live_mono (by omega) t
    _ < live p t := live_lt hi hip.2

/-- A covering list leaves points out between fewer pairs of neighbours than it has
intervals, and the points it has together with those fill the range. -/
theorem exists_left_out (h : Separated (prev :: l)) (ht : ∀ x, Points (prev :: l) x → Points t x) :
    ∃ s ≤ (missing prev l : Multiset Nat), s.card < live prev.lower t ∧
      lastUpper prev l + 1 ≤ prev.lower + (pointsFrom prev.lower t).card + s.sum := by
  have hprev : ∀ x, prev.lower ≤ x → x < prev.upper + 1 → Points t x := fun x hx hx' =>
    ht x ⟨prev, mem_cons_self, hx, by omega⟩
  have hle := prev.le
  induction l generalizing prev with
  | nil =>
    refine ⟨0, Multiset.zero_le _, ?_, ?_⟩
    · obtain ⟨i, hi, hix⟩ := hprev prev.lower (le_refl _) (by omega)
      exact (Nat.zero_le _).trans_lt (live_lt hi hix.2)
    · have hcard := card_pointsFrom_ge (q := prev.upper + 1)
        (show prev.lower ≤ prev.upper + 1 by omega)
        (le_refl _) hprev
      simp only [lastUpper, Multiset.sum_zero]
      omega
  | cons i is ih =>
    have hgap := h.lt_lower
    obtain ⟨s, hs, hlive, hsum⟩ := ih h.of_cons
      (fun x ⟨j, hj, hjx⟩ => ht x ⟨j, mem_cons_of_mem _ hj, hjx⟩)
      (fun x hx hx' => ht x ⟨i, mem_cons_of_mem _ mem_cons_self, hx, by omega⟩) i.le
    rw [missing, ← Multiset.cons_coe, lastUpper]
    by_cases hfull : ∀ x, prev.upper < x → x < i.lower → Points t x
    · -- the list covers the gap, so it has every point up to the next interval
      refine ⟨s, hs.trans (Multiset.le_cons_self _ _), hlive.trans_le (live_mono (by omega) t), ?_⟩
      have hcard := card_pointsFrom_ge (show prev.lower ≤ i.lower by omega) (le_refl _)
        (fun x hx hx' => (Nat.lt_or_ge x (prev.upper + 1)).elim (hprev x hx)
          (fun hge => hfull x (by omega) hx'))
      omega
    · -- one of its intervals ends in the gap
      simp only [not_forall] at hfull
      obtain ⟨x, hx, hx', hout⟩ := hfull
      have hlt : live i.lower t < live prev.upper t :=
        live_lt_of_gap (hprev _ hle (by omega)) hx hx' hout
      have hmono : live prev.upper t ≤ live prev.lower t := live_mono hle t
      have hcard := card_pointsFrom_ge (show prev.lower ≤ prev.upper + 1 by omega)
        (show prev.upper + 1 ≤ i.lower by omega) hprev
      refine ⟨(i.lower - prev.upper - 1) ::ₘ s, Multiset.cons_le_cons _ hs, ?_, ?_⟩
      · rw [Multiset.card_cons]
        omega
      · rw [Multiset.sum_cons]
        omega

/-! ### Optimality -/

/-- A separated list is its own normal form. -/
theorem normalize_of_separated (h : Separated l) :
    (normalize (l.map (·.toInterval))).intervals = l := by
  have hraw : (⟨l, h⟩ : IntervalSet w).raw = l.map (·.toInterval) := rfl
  have heq : normalize (l.map (·.toInterval)) = ⟨l, h⟩ := by
    refine eq_of_covers ?_
    intro x
    by_cases hx : x < 2 ^ w
    · rw [covers_normalize hx, ← hraw, rawCovers_raw]
    · exact iff_of_false (fun hc => hx hc.lt) (fun hc => hx hc.lt)
  rw [heq]

/-- The upper bound is that of the last interval. -/
theorem upperBound_eq (hs : s.intervals = prev :: l) : s.upperBound = some (lastUpper prev l) := by
  have hlast : ∀ (l : List (ProperInterval w)) prev,
      (prev :: l).getLast?.map (·.upper) = some (lastUpper prev l) := by
    intro l
    induction l with
    | nil => exact fun _ => rfl
    | cons i is ih =>
      intro prev
      rw [getLast?_cons_cons, ih, lastUpper]
  rw [upperBound, hs, hlast]

/-- What `MinimizeIntervals` makes of a set with more than `size` intervals. -/
theorem minimizeIntervals_spec (hs : s.intervals = prev :: l) (hsize : 0 < size)
    (hlen : size < s.intervals.length) :
    ∃ b m, (s.minimizeIntervals size).intervals = b :: m ∧ b.lower = prev.lower ∧
      Separated (b :: m) ∧ missing b m = dropMins (s.intervals.length - size) (missing prev l) ∧
      lastUpper b m = lastUpper prev l := by
  have hsep : Separated (prev :: l) := hs ▸ s.normal
  obtain ⟨b, m, hm, hlow, hbm, hmiss, hlast⟩ := mergeRounds_spec (s.intervals.length - size) hsep
  refine ⟨b, m, ?_, hlow, hbm, hmiss, hlast⟩
  rw [minimizeIntervals, if_neg (by omega)]
  split
  · -- the hull is what merging everything leaves
    rename_i hone
    have hcount : m.length = size - 1 := by
      rw [← length_missing b m, hmiss, LargestSum.length_dropMins, length_missing, hs, length_cons]
      omega
    have hnil : m = [] := eq_nil_of_length_eq_zero (by omega)
    subst hnil
    obtain ⟨i, hi, hil, hiu, -⟩ := convexHull_spec (s := s) (by rw [hs]; exact cons_ne_nil _ _)
    have hib : i = b := by
      refine ProperInterval.ext' ?_ ?_
      · rw [lowerBound, hs] at hil
        rw [hlow]
        exact (some.inj hil).symm
      · rw [upperBound_eq hs] at hiu
        exact (some.inj hiu).symm.trans hlast.symm
    rw [hi, hib]
    rfl
  · have hloop : mergeRounds (s.intervals.length - size) s.intervals = b :: m := by
      rw [← hm, hs]
    rw [hloop, normalize_of_separated hbm]

/-- The result has at most `size` intervals. -/
theorem length_minimizeIntervals_le (hsize : 0 < size) :
    (s.minimizeIntervals size).intervals.length ≤ size := by
  by_cases hlen : s.intervals.length ≤ size
  · rw [minimizeIntervals, if_pos hlen]
    exact hlen
  · cases hs : s.intervals with
    | nil =>
      rw [hs] at hlen
      exact absurd (Nat.zero_le _) hlen
    | cons prev l =>
      obtain ⟨b, m, hm, -, -, hmiss, -⟩ := minimizeIntervals_spec hs hsize (by omega)
      have hcount : m.length = l.length - (s.intervals.length - size) := by
        rw [← length_missing b m, hmiss, LargestSum.length_dropMins, length_missing]
      rw [hs, length_cons] at hcount hlen
      rw [hm, length_cons]
      omega

/-- No list of at most `size` intervals with all points of the set has fewer points than
the result. -/
theorem pointCount_minimizeIntervals_le (hsize : 0 < size) (htlen : t.length ≤ size)
    (ht : ∀ x, s.Covers x → Points t x) :
    pointCount (s.minimizeIntervals size).intervals ≤ pointCount t := by
  by_cases hlen : s.intervals.length ≤ size
  · rw [minimizeIntervals, if_pos hlen]
    refine Finset.card_le_card ?_
    intro x hx
    rw [mem_pointsFrom] at hx ⊢
    exact ⟨hx.1, ht x hx.2⟩
  · cases hs : s.intervals with
    | nil =>
      rw [hs] at hlen
      exact absurd (Nat.zero_le _) hlen
    | cons prev l =>
      have hsep : Separated (prev :: l) := hs ▸ s.normal
      obtain ⟨b, m, hm, hlow, hbm, hmiss, hlast⟩ := minimizeIntervals_spec hs hsize (by omega)
      obtain ⟨kept, hkept, hlive, hcover⟩ := exists_left_out hsep
        (fun x hx => ht x (by rw [Covers, hs]; exact hx))
      rw [hs, length_cons] at hlen
      -- the points the list leaves out are no more than those the loop leaves out
      have hsum : kept.sum ≤ (missing b m).sum := by
        rw [hmiss]
        refine LargestSum.sum_le_sum_dropMins hkept ?_ (fun _ _ => Nat.zero_le _)
        have hlive' : live prev.lower t ≤ t.length := countP_le_length
        rw [length_missing, hs, length_cons]
        omega
      have htotal := lengthSum_add_missing hbm
      rw [hlow, hlast] at htotal
      have hfrom : (pointsFrom prev.lower t).card ≤ pointCount t := by
        refine Finset.card_le_card ?_
        intro x hx
        rw [mem_pointsFrom] at hx ⊢
        exact ⟨Nat.zero_le x, hx.2⟩
      calc pointCount (s.minimizeIntervals size).intervals = pointCount (b :: m) := by rw [hm]
        _ ≤ lengthSum (b :: m) := pointCount_le_lengthSum _
        _ ≤ (pointsFrom prev.lower t).card := by omega
        _ ≤ pointCount t := hfrom

/-- `MinimizeIntervals` is an optimal over-approximation: the result has every point of
the set, at most `size` intervals, is the set itself when that is small enough, and no
list of at most `size` intervals with all points of the set has fewer points. -/
theorem minimizeIntervals_optimal (s : IntervalSet w) (size : Nat) (hsize : 1 ≤ size) :
    (∀ x, s.Covers x → (s.minimizeIntervals size).Covers x) ∧
      (s.minimizeIntervals size).intervals.length ≤ size ∧
      (s.intervals.length ≤ size → s.minimizeIntervals size = s) ∧
      ∀ t : List (ProperInterval w), t.length ≤ size → (∀ x, s.Covers x → Points t x) →
        pointCount (s.minimizeIntervals size).intervals ≤ pointCount t := by
  refine ⟨fun x hx => covers_minimizeIntervals size hx, length_minimizeIntervals_le hsize, ?_, ?_⟩
  · intro hlen
    rw [minimizeIntervals, if_pos hlen]
  · intro t htlen ht
    exact pointCount_minimizeIntervals_le hsize htlen ht

/-- Three intervals whose second gap is the wider one. -/
def exampleGaps : IntervalSet 4 :=
  ⟨[⟨⟨0, 1, by decide, by decide⟩, by decide⟩, ⟨⟨3, 3, by decide, by decide⟩, by decide⟩,
    ⟨⟨8, 9, by decide, by decide⟩, by decide⟩], by decide⟩

theorem minimizeIntervals_optimal_exampleGaps :
    (exampleGaps.minimizeIntervals 2).intervals.map (fun i => (i.lower, i.upper)) =
        [(0, 3), (8, 9)] ∧
      ∀ t : List (ProperInterval 4), t.length ≤ 2 → (∀ x, exampleGaps.Covers x → Points t x) →
        pointCount (exampleGaps.minimizeIntervals 2).intervals ≤ pointCount t :=
  ⟨by decide, (minimizeIntervals_optimal exampleGaps 2 (by decide)).2.2.2⟩

end Xls.IntervalSet

import Xls.IntervalSet.Intersect

/-!
# Xls.IntervalOps.Minimize

`interval_ops::MinimizeIntervals`: keep at most `size` intervals by merging neighbours,
smallest gap first (`coarsens_minimizeIntervals`). The source keeps a heap of the intervals
keyed by the gap to their predecessor, ties going to the smaller lower bound. Merging an
interval into its predecessor changes no other gap, so the heap's minimum is the first
interval of the list with the smallest gap.
-/

namespace Xls.IntervalSet

open List
open ProperInterval (Mem)

variable {w : Nat}

/-- The smallest gap between neighbours. -/
def smallestGap (prev : ProperInterval w) : List (ProperInterval w) → Option Nat
  | [] => none
  | i :: is =>
    let gap := i.lower - prev.upper
    match smallestGap i is with
    | none => some gap
    | some g => some (min gap g)

/-- Merge the first interval with the given gap into its predecessor. -/
def mergeGap (gap : Nat) (prev : ProperInterval w) :
    List (ProperInterval w) → List (ProperInterval w)
  | [] => [prev]
  | i :: is =>
    if i.lower - prev.upper = gap then prev.convexHull i :: is
    else prev :: mergeGap gap i is

/-- One round of the merging loop. -/
def mergeSmallest : List (ProperInterval w) → List (ProperInterval w)
  | [] => []
  | prev :: is =>
    match smallestGap prev is with
    | none => prev :: is
    | some gap => mergeGap gap prev is

/-- The given number of rounds. -/
def mergeRounds : Nat → List (ProperInterval w) → List (ProperInterval w)
  | 0, l => l
  | n + 1, l => mergeRounds n (mergeSmallest l)

/-- `MinimizeIntervals`. A set with more than `size` intervals has a hull. -/
def minimizeIntervals (s : IntervalSet w) (size : Nat) : IntervalSet w :=
  if s.intervals.length ≤ size then s
  else if size = 1 then
    match s.convexHull with
    | some i => single i
    | none => empty w
  else normalize ((mergeRounds (s.intervals.length - size) s.intervals).map (·.toInterval))

/-! ### What merging keeps -/

/-- A list is coarser than another: it has all its points, and its bounds are
bounds of the other. -/
structure Coarsens (l l' : List (ProperInterval w)) : Prop where
  points : ∀ x, Points l x → Points l' x
  lower : ∀ i ∈ l', ∃ j ∈ l, j.lower = i.lower
  upper : ∀ i ∈ l', ∃ j ∈ l, j.upper = i.upper

theorem Coarsens.refl (l : List (ProperInterval w)) : Coarsens l l where
  points _ h := h
  lower i hi := ⟨i, hi, rfl⟩
  upper i hi := ⟨i, hi, rfl⟩

theorem Coarsens.trans {a b c : List (ProperInterval w)} (h1 : Coarsens a b) (h2 : Coarsens b c) :
    Coarsens a c where
  points x h := h2.points x (h1.points x h)
  lower i hi := by
    obtain ⟨j, hj, hji⟩ := h2.lower i hi
    obtain ⟨k, hk, hkj⟩ := h1.lower j hj
    exact ⟨k, hk, hkj.trans hji⟩
  upper i hi := by
    obtain ⟨j, hj, hji⟩ := h2.upper i hi
    obtain ⟨k, hk, hkj⟩ := h1.upper j hj
    exact ⟨k, hk, hkj.trans hji⟩

/-- Merging the rest of a list of intervals. -/
theorem Coarsens.cons {a : ProperInterval w} {l l' : List (ProperInterval w)} (h : Coarsens l l') :
    Coarsens (a :: l) (a :: l') where
  points x := by
    rintro ⟨i, hi, hx⟩
    rcases mem_cons.1 hi with rfl | hi
    · exact ⟨i, mem_cons_self, hx⟩
    · obtain ⟨j, hj, hxj⟩ := h.points x ⟨i, hi, hx⟩
      exact ⟨j, mem_cons_of_mem _ hj, hxj⟩
  lower i hi := by
    rcases mem_cons.1 hi with rfl | hi
    · exact ⟨i, mem_cons_self, rfl⟩
    · obtain ⟨j, hj, hji⟩ := h.lower i hi
      exact ⟨j, mem_cons_of_mem _ hj, hji⟩
  upper i hi := by
    rcases mem_cons.1 hi with rfl | hi
    · exact ⟨i, mem_cons_self, rfl⟩
    · obtain ⟨j, hj, hji⟩ := h.upper i hi
      exact ⟨j, mem_cons_of_mem _ hj, hji⟩

/-- Replacing two intervals by their hull coarsens. -/
theorem coarsens_hull (a b : ProperInterval w) (l : List (ProperInterval w)) :
    Coarsens (a :: b :: l) (a.convexHull b :: l) where
  points x := by
    rintro ⟨i, hi, hx⟩
    rcases mem_cons.1 hi with rfl | hi
    · exact ⟨_, mem_cons_self, ProperInterval.mem_convexHull_left hx⟩
    · rcases mem_cons.1 hi with rfl | hi
      · exact ⟨_, mem_cons_self, ProperInterval.mem_convexHull_right hx⟩
      · exact ⟨i, mem_cons_of_mem _ hi, hx⟩
  lower i hi := by
    rcases mem_cons.1 hi with rfl | hi
    · rcases Nat.le_total a.lower b.lower with hle | hle
      · exact ⟨a, mem_cons_self, (min_eq_left hle).symm⟩
      · exact ⟨b, mem_cons_of_mem _ mem_cons_self, (min_eq_right hle).symm⟩
    · exact ⟨i, mem_cons_of_mem _ (mem_cons_of_mem _ hi), rfl⟩
  upper i hi := by
    rcases mem_cons.1 hi with rfl | hi
    · rcases Nat.le_total a.upper b.upper with hle | hle
      · exact ⟨b, mem_cons_of_mem _ mem_cons_self, (max_eq_right hle).symm⟩
      · exact ⟨a, mem_cons_self, (max_eq_left hle).symm⟩
    · exact ⟨i, mem_cons_of_mem _ (mem_cons_of_mem _ hi), rfl⟩

theorem coarsens_mergeGap (gap : Nat) (prev : ProperInterval w) (l : List (ProperInterval w)) :
    Coarsens (prev :: l) (mergeGap gap prev l) := by
  induction l generalizing prev with
  | nil => exact Coarsens.refl _
  | cons i is ih =>
    unfold mergeGap
    split
    · exact coarsens_hull prev i is
    · exact (ih i).cons

theorem coarsens_mergeSmallest (l : List (ProperInterval w)) : Coarsens l (mergeSmallest l) := by
  cases l with
  | nil => exact Coarsens.refl _
  | cons prev is =>
    rw [mergeSmallest]
    cases smallestGap prev is with
    | none => exact Coarsens.refl _
    | some gap => exact coarsens_mergeGap gap prev is

theorem coarsens_mergeRounds (n : Nat) (l : List (ProperInterval w)) :
    Coarsens l (mergeRounds n l) := by
  induction n generalizing l with
  | zero => exact Coarsens.refl _
  | succ n ih => exact (coarsens_mergeSmallest l).trans (ih _)

theorem coarsens_mergeFrom (cur : ProperInterval w) (l : List (ProperInterval w)) :
    Coarsens (cur :: l) (mergeFrom cur l) := by
  induction l generalizing cur with
  | nil => exact Coarsens.refl _
  | cons i is ih =>
    unfold mergeFrom
    split
    · exact (coarsens_hull cur i is).trans (ih _)
    · exact (ih i).cons

section

variable (l : List (ProperInterval w))
include l

theorem coarsens_mergeSorted : Coarsens l (mergeSorted l) := by
  cases l with
  | nil => exact Coarsens.refl _
  | cons i is => exact coarsens_mergeFrom i is

theorem coarsens_sortIntervals : Coarsens l (sortIntervals l) where
  points x := by
    rintro ⟨i, hi, hx⟩
    exact ⟨i, (mem_insertionSort _).2 hi, hx⟩
  lower i hi := ⟨i, (mem_insertionSort _).1 hi, rfl⟩
  upper i hi := ⟨i, (mem_insertionSort _).1 hi, rfl⟩

theorem expandImproper_map_toInterval : expandImproper (l.map (·.toInterval)) = l := by
  induction l with
  | nil => rfl
  | cons i is ih =>
    rw [map_cons, expandImproper, dif_pos i.le, ih]

/-- Normalizing proper intervals coarsens them. -/
theorem coarsens_normalize : Coarsens l (normalize (l.map (·.toInterval))).intervals := by
  show Coarsens l (mergeSorted (sortIntervals (expandImproper (l.map (·.toInterval)))))
  rw [expandImproper_map_toInterval]
  exact (coarsens_sortIntervals l).trans (coarsens_mergeSorted _)

end

variable {s : IntervalSet w} {i : ProperInterval w}

/-- The hull merges all of them. -/
theorem coarsens_convexHull (h : s.convexHull = some i) (hne : s.intervals ≠ []) :
    Coarsens s.intervals [i] := by
  obtain ⟨j, hj, hl, hu, hm⟩ := convexHull_spec hne
  obtain rfl : j = i := Option.some.inj (hj.symm.trans h)
  refine ⟨?_, ?_, ?_⟩
  · intro x hx
    exact ⟨j, mem_singleton.2 rfl, hm x hx⟩
  · intro k hk
    rw [mem_singleton.1 hk]
    unfold lowerBound at hl
    cases hs : s.intervals with
    | nil => exact absurd hs hne
    | cons a t =>
      rw [hs] at hl
      exact ⟨a, mem_cons_self, by simpa using hl⟩
  · intro k hk
    rw [mem_singleton.1 hk]
    unfold upperBound at hu
    cases hs : s.intervals.getLast? with
    | none =>
      rw [hs] at hu
      cases hu
    | some a =>
      rw [hs] at hu
      exact ⟨a, mem_of_getLast? hs, by simpa using hu⟩

/-- Minimizing a set coarsens it. -/
theorem coarsens_minimizeIntervals (s : IntervalSet w) (size : Nat) :
    Coarsens s.intervals (s.minimizeIntervals size).intervals := by
  unfold minimizeIntervals
  split
  · exact Coarsens.refl _
  · rename_i hlen
    have hne : s.intervals ≠ [] := by
      intro h
      rw [h] at hlen
      simp at hlen
    split
    · obtain ⟨i, hi, -⟩ := convexHull_spec hne
      rw [hi]
      exact coarsens_convexHull hi hne
    · exact (coarsens_mergeRounds _ _).trans (coarsens_normalize _)

theorem covers_minimizeIntervals {x : Nat} (size : Nat) (h : s.Covers x) :
    (s.minimizeIntervals size).Covers x :=
  (coarsens_minimizeIntervals s size).points x h

/-- The bounds of a minimized set are points of the set. -/
theorem covers_bounds_minimizeIntervals {size : Nat}
    (hi : i ∈ (s.minimizeIntervals size).intervals) : s.Covers i.lower ∧ s.Covers i.upper := by
  have h := coarsens_minimizeIntervals s size
  obtain ⟨j, hj, hjl⟩ := h.lower i hi
  obtain ⟨k, hk, hku⟩ := h.upper i hi
  exact ⟨⟨j, hj, hjl.le, hjl ▸ j.le⟩, ⟨k, hk, hku ▸ k.le, hku.ge⟩⟩

/-- Minimizing makes no set empty and fills no empty set. -/
theorem isEmpty_minimizeIntervals (size : Nat) :
    (s.minimizeIntervals size).isEmpty = s.isEmpty := by
  cases hs : s.isEmpty with
  | true =>
    rw [isEmpty_iff] at hs ⊢
    unfold minimizeIntervals
    rw [if_pos (by rw [hs]; exact Nat.zero_le _), hs]
  | false =>
    cases hi : s.intervals with
    | nil => simp [isEmpty, hi] at hs
    | cons a t =>
      have hc : s.Covers a.lower := ⟨a, by rw [hi]; exact mem_cons_self, le_refl _, a.le⟩
      exact isEmpty_eq_false_of_covers (covers_minimizeIntervals size hc)

end Xls.IntervalSet

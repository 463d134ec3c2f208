import Xls.IntervalSet.Intersect

/-!
# Xls.IntervalSet.Canonical

`IntervalSet::Normalize` as a canonical form (`normalize_canonical`). The class keeps its
vector together with the flag `is_normalized_`, and `Normalize` returns early when the flag
is set or when the vector holds a single proper interval. `StoredIntervalSet` models that
state: the flag carries the proof of what it promises, so the early returns are covered by
the same result as the merging loop.

The intervals of a normalized set are determined by its points. Equality of normalized
sets is therefore equality of the sets of points they denote.
-/

namespace Xls

open IntervalSet List

namespace IntervalSet

open ProperInterval (Mem)

variable {w : Nat}

/-! ### Points determine a separated list -/

variable {a : ProperInterval w} {l m : List (ProperInterval w)} {x : Nat}

theorem lt_lower_of_points (h : (a :: l).Pairwise (fun a b => a.upper + 1 < b.lower))
    (hx : Points l x) : a.upper + 1 < x := by
  obtain ⟨i, hi, hix⟩ := hx
  exact lt_of_lt_of_le (rel_of_pairwise_cons h hi) hix.1

/-- The first interval of a separated list holds its least point. -/
theorem lower_le_of_points (h : (a :: l).Pairwise (fun a b => a.upper + 1 < b.lower))
    (hx : Points (a :: l) x) : a.lower ≤ x := by
  obtain ⟨i, hi, hix⟩ := hx
  rcases mem_cons.1 hi with rfl | hi
  · exact hix.1
  · have hlt := lt_lower_of_points h ⟨i, hi, hix⟩
    have hle := a.le
    omega

/-- The successor of an upper bound is a gap of a separated list. -/
theorem not_points_succ_upper {i : ProperInterval w}
    (h : l.Pairwise (fun a b => a.upper + 1 < b.lower)) (hi : i ∈ l) : ¬Points l (i.upper + 1) := by
  induction l with
  | nil => cases hi
  | cons a l ih =>
    rintro ⟨j, hj, hjx⟩
    rcases mem_cons.1 hi with rfl | hil
    · rcases mem_cons.1 hj with rfl | hjl
      · exact absurd hjx.2 (by omega)
      · exact absurd (lt_lower_of_points h ⟨j, hjl, hjx⟩) (by omega)
    · rcases mem_cons.1 hj with rfl | hjl
      · have hlt := rel_of_pairwise_cons h hil
        have hle := i.le
        exact absurd hjx.2 (by omega)
      · exact ih h.of_cons hil ⟨j, hjl, hjx⟩

/-- An interval whose points a separated list has ends no later than the interval of
the list that holds one of its points. -/
theorem upper_le_of_points {b : ProperInterval w}
    (hl : l.Pairwise (fun a b => a.upper + 1 < b.lower)) (ha : a ∈ l) (hlow : b.lower ≤ a.upper)
    (h : ∀ x, Mem x b → Points l x) : b.upper ≤ a.upper := by
  by_contra hlt
  exact not_points_succ_upper hl ha (h (a.upper + 1) ⟨by omega, by omega⟩)

theorem points_tail (hl : (a :: l).Pairwise (fun a b => a.upper + 1 < b.lower))
    (h : ∀ x, Points (a :: l) x → Points (a :: m) x) (hx : Points l x) : Points m x := by
  have hlt := lt_lower_of_points hl hx
  obtain ⟨i, hi, hix⟩ := hx
  obtain ⟨j, hj, hjx⟩ := h x ⟨i, mem_cons_of_mem _ hi, hix⟩
  rcases mem_cons.1 hj with rfl | hj
  · exact absurd hjx.2 (by omega)
  · exact ⟨j, hj, hjx⟩

/-- Two separated lists with the same points are equal. -/
theorem eq_of_points (hl : l.Pairwise (fun a b => a.upper + 1 < b.lower))
    (hm : m.Pairwise (fun a b => a.upper + 1 < b.lower)) (h : ∀ x, Points l x ↔ Points m x) :
    l = m := by
  induction l generalizing m with
  | nil =>
    cases m with
    | nil => rfl
    | cons b m =>
      obtain ⟨i, hi, -⟩ := (h b.lower).2 ⟨b, mem_cons_self, le_refl _, b.le⟩
      cases hi
  | cons a l ih =>
    cases m with
    | nil =>
      obtain ⟨i, hi, -⟩ := (h a.lower).1 ⟨a, mem_cons_self, le_refl _, a.le⟩
      cases hi
    | cons b m =>
      have hba : b.lower ≤ a.lower :=
        lower_le_of_points hm ((h _).1 ⟨a, mem_cons_self, le_refl _, a.le⟩)
      have hab : a.lower ≤ b.lower :=
        lower_le_of_points hl ((h _).2 ⟨b, mem_cons_self, le_refl _, b.le⟩)
      have hlow : a.lower = b.lower := le_antisymm hab hba
      have hupp : a.upper = b.upper :=
        le_antisymm
          (upper_le_of_points hm mem_cons_self (hab.trans b.le)
            (fun x hx => (h x).1 ⟨a, mem_cons_self, hx⟩))
          (upper_le_of_points hl mem_cons_self (hba.trans a.le)
            (fun x hx => (h x).2 ⟨b, mem_cons_self, hx⟩))
      obtain rfl : a = b := ProperInterval.ext' hlow hupp
      rw [ih hl.of_cons hm.of_cons]
      intro x
      exact ⟨points_tail hl (fun x => (h x).1), points_tail hm (fun x => (h x).2)⟩

/-- A normalized set is determined by the points it covers. -/
theorem eq_of_covers {s t : IntervalSet w} (h : ∀ x, s.Covers x ↔ t.Covers x) : s = t :=
  ext' (eq_of_points s.normal t.normal h)

/-- Different intervals of a separated list have different upper bounds. -/
theorem nodup_map_upper (h : l.Pairwise (fun a b => a.upper + 1 < b.lower)) :
    (l.map (·.upper)).Nodup := by
  rw [Nodup, pairwise_map]
  refine h.imp ?_
  intro a b hab
  have hle := b.le
  omega

/-- A separated list takes the fewest intervals: any list of proper intervals with the
same points is at least as long. -/
theorem length_le_of_points (hl : l.Pairwise (fun a b => a.upper + 1 < b.lower))
    (h : ∀ x, Points l x ↔ Points m x) : l.length ≤ m.length := by
  -- every upper bound of `l` is an upper bound of `m`
  have hsub : l.map (·.upper) ⊆ m.map (·.upper) := by
    intro u hu
    obtain ⟨i, hi, rfl⟩ := mem_map.1 hu
    obtain ⟨j, hj, hjx⟩ := (h i.upper).1 ⟨i, hi, i.le, le_refl _⟩
    have hle : j.upper ≤ i.upper :=
      upper_le_of_points hl hi hjx.1 (fun x hx => (h x).2 ⟨j, hj, hx⟩)
    exact mem_map.2 ⟨j, hj, le_antisymm hle hjx.2⟩
  simpa using ((nodup_map_upper hl).subperm hsub).length_le

end IntervalSet

/-! ### The class's representation -/

open IntervalSet (RawCovers)

variable {w : Nat}

/-- What the flag `is_normalized_` promises of `intervals_`. -/
structure NormalForm (l : List (Interval w)) : Prop where
  proper : ∀ i ∈ l, i.isImproper = false
  sorted : l.Pairwise (fun a b => a.lower < b.lower)
  separated : l.Pairwise (fun a b => a.upper + 1 < b.lower)

/-- The intervals of a set are proper, sorted and do not abut. -/
theorem IntervalSet.normalForm_raw (s : IntervalSet w) : NormalForm s.raw where
  proper i hi := by
    obtain ⟨j, -, rfl⟩ := mem_map.1 hi
    exact decide_eq_false (Nat.not_lt.2 j.le)
  sorted := by
    rw [raw, pairwise_map]
    refine s.normal.imp ?_
    intro a b hab
    have hle := a.le
    omega
  separated := by
    rw [raw, pairwise_map]
    exact s.normal

/-- A vector in normal form is that of a normalized set. -/
theorem NormalForm.exists_raw {l : List (Interval w)} (h : NormalForm l) :
    ∃ s : IntervalSet w, s.raw = l := by
  have hle : ∀ i ∈ l, i.lower ≤ i.upper := by
    intro i hi
    exact Nat.not_lt.1 (of_decide_eq_false (h.proper i hi))
  refine ⟨⟨l.pmap (fun i hi => { i with le := hi }) hle, ?_⟩, ?_⟩
  · rw [pairwise_pmap]
    exact h.separated.imp (fun hab _ _ => hab)
  · rw [raw, map_pmap]
    simp

/-- An `IntervalSet` as the class stores it; the flag may only be set on a vector in
normal form. -/
structure StoredIntervalSet (w : Nat) where
  intervals : List (Interval w)
  isNormalized : Bool
  normalForm : isNormalized = true → NormalForm intervals

namespace StoredIntervalSet

/-- `IntervalSet(bit_count)`. -/
def new (w : Nat) : StoredIntervalSet w :=
  ⟨[], true, fun _ => ⟨fun _ h => absurd h not_mem_nil, Pairwise.nil, Pairwise.nil⟩⟩

/-- `AddInterval` clears the flag. -/
def addInterval (s : StoredIntervalSet w) (i : Interval w) : StoredIntervalSet w :=
  ⟨s.intervals ++ [i], false, fun h => absurd h Bool.false_ne_true⟩

/-- `SetIntervals`, for the vectors that leave the set a bit count. -/
def setIntervals (l : List (Interval w)) : StoredIntervalSet w :=
  l.foldl addInterval ⟨[], false, fun h => absurd h Bool.false_ne_true⟩

/-- `Normalize`. -/
def normalize (s : StoredIntervalSet w) : StoredIntervalSet w :=
  if s.isNormalized then s
  else
    match s.intervals with
    | [i] =>
      -- a single proper interval only needs its flag set
      if hp : i.isImproper = false then
        ⟨[i], true, fun _ => ⟨by simpa using hp, pairwise_singleton _ _, pairwise_singleton _ _⟩⟩
      else ⟨(IntervalSet.normalize [i]).raw, true, fun _ => normalForm_raw _⟩
    | l => ⟨(IntervalSet.normalize l).raw, true, fun _ => normalForm_raw _⟩

/-- The points of a stored set. -/
def Covers (s : StoredIntervalSet w) (x : Nat) : Prop := RawCovers s.intervals x

@[simp] theorem intervals_setIntervals (l : List (Interval w)) :
    (setIntervals l).intervals = l := by
  have hfold : ∀ (l : List (Interval w)) (s : StoredIntervalSet w),
      (l.foldl addInterval s).intervals = s.intervals ++ l := by
    intro l
    induction l with
    | nil => simp
    | cons i l ih =>
      intro s
      simp [ih, addInterval]
  rw [setIntervals, hfold, nil_append]

@[simp] theorem isNormalized_normalize (s : StoredIntervalSet w) :
    s.normalize.isNormalized = true := by
  unfold normalize
  split
  · assumption
  · split
    · split <;> rfl
    · rfl

theorem intervals_normalize_single {i : Interval w} (hp : i.isImproper = false) :
    (IntervalSet.normalize [i]).raw = [i] := by
  have hle : i.lower ≤ i.upper := Nat.not_lt.1 (of_decide_eq_false hp)
  simp [IntervalSet.normalize, expandImproper, hle, sortIntervals,
    mergeSorted, IntervalSet.mergeFrom, raw]

/-- Whichever way `Normalize` leaves, it stores a normalized set with the same points. -/
theorem exists_normalize (s : StoredIntervalSet w) :
    ∃ t : IntervalSet w, t.raw = s.normalize.intervals ∧ ∀ x < 2 ^ w, t.Covers x ↔ s.Covers x := by
  have hloop : ∀ l : List (Interval w), s.intervals = l → ∃ t : IntervalSet w,
      t.raw = (IntervalSet.normalize l).raw ∧ ∀ x < 2 ^ w, t.Covers x ↔ s.Covers x := by
    rintro l rfl
    exact ⟨_, rfl, fun x hx => IntervalSet.covers_normalize hx⟩
  unfold normalize
  split
  · rename_i hflag
    obtain ⟨t, ht⟩ := (s.normalForm hflag).exists_raw
    refine ⟨t, ht, ?_⟩
    intro x _
    rw [Covers, ← ht, rawCovers_raw]
  · split
    · rename_i i hi
      split
      · rename_i hp
        simpa [intervals_normalize_single hp] using hloop [i] hi
      · exact hloop [i] hi
    · exact hloop _ rfl

theorem covers_normalize_iff (s : StoredIntervalSet w) {x : Nat} (hx : x < 2 ^ w) :
    s.normalize.Covers x ↔ s.Covers x := by
  obtain ⟨t, ht, hst⟩ := exists_normalize s
  rw [← hst x hx, Covers, ← ht, rawCovers_raw]

/-- `Normalize` computes a canonical form: the points stay, the vector is a list of proper
intervals in increasing order that neither overlap nor abut, and two sets with the same
points are stored as the same vector. -/
theorem normalize_canonical (s t : StoredIntervalSet w) :
    (∀ x < 2 ^ w, s.normalize.Covers x ↔ s.Covers x) ∧ NormalForm s.normalize.intervals ∧
      ((∀ x < 2 ^ w, s.Covers x ↔ t.Covers x) ↔ s.normalize.intervals = t.normalize.intervals) := by
  obtain ⟨a, ha, hsa⟩ := exists_normalize s
  obtain ⟨b, hb, htb⟩ := exists_normalize t
  have hcov : ∀ x, s.normalize.Covers x ↔ a.Covers x := by
    intro x
    rw [Covers, ← ha, rawCovers_raw]
  refine ⟨fun x hx => (hcov x).trans (hsa x hx),
    s.normalize.normalForm (isNormalized_normalize s), ?_, ?_⟩
  · intro h
    have hab : a = b := by
      refine IntervalSet.eq_of_covers ?_
      intro x
      by_cases hx : x < 2 ^ w
      · rw [hsa x hx, htb x hx, h x hx]
      · exact iff_of_false (fun hc => hx hc.lt) (fun hc => hx hc.lt)
    rw [← ha, ← hb, hab]
  · intro h x hx
    have hraw : a.raw = b.raw := by rw [ha, hb, h]
    rw [← hsa x hx, ← htb x hx, ← rawCovers_raw, hraw, rawCovers_raw]

/-- The normalized vector is as short as any list of proper intervals with its points. -/
theorem length_normalize_le (s : StoredIntervalSet w) (l : List (ProperInterval w))
    (h : ∀ x < 2 ^ w, s.Covers x ↔ IntervalSet.Points l x) :
    s.normalize.intervals.length ≤ l.length := by
  obtain ⟨a, ha, hsa⟩ := exists_normalize s
  rw [← ha, raw, length_map]
  refine IntervalSet.length_le_of_points a.normal ?_
  intro x
  by_cases hx : x < 2 ^ w
  · exact (hsa x hx).trans (h x hx)
  · refine iff_of_false (fun hc => hx (IntervalSet.Covers.lt (s := a) hc)) ?_
    rintro ⟨i, -, hi⟩
    exact hx hi.lt

theorem length_normalize_le_touching :
    (setIntervals [⟨0, 3, by decide, by decide⟩, ⟨4, 5, by decide, by decide⟩] :
      StoredIntervalSet 3).normalize.intervals.length ≤ 1 := by
  refine length_normalize_le _ [⟨⟨0, 5, by decide, by decide⟩, by decide⟩] ?_
  unfold Covers IntervalSet.RawCovers IntervalSet.Points
  rw [intervals_setIntervals]
  decide

end StoredIntervalSet

end Xls

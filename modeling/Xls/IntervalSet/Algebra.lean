import Xls.IntervalSet.Canonical

/-!
# Xls.IntervalSet.Algebra

The set algebra of normalized interval sets. `Intersect`, `Combine` and `Complement` are
specified by their points in the modules before this one; here the walk of `Intersect` is
shown to return whatever number of rounds it is given beyond its bound, and `Disjoint` to
answer exactly whether the intersection is empty (`setAlgebra_exact`).
-/

namespace Xls.IntervalSet

open List
open ProperInterval (Mem)

variable {w : Nat}

/-! ### Termination of `Intersect` -/

variable {ls rs : List (ProperInterval w)} {s : IntervalSet w}
  {acc out : List (ProperInterval w)} {l r : IntervalSet w}

/-- A walk that returns also returns when it is given one more round. -/
theorem intersectLoop_succ {fuel : Nat} (h : intersectLoop fuel ls rs acc = some out) :
    intersectLoop (fuel + 1) ls rs acc = some out := by
  induction fuel generalizing ls rs acc with
  | zero =>
    cases ls with
    | nil => simpa [intersectLoop] using h
    | cons l ls =>
      cases rs with
      | nil => simpa [intersectLoop] using h
      | cons r rs => simp [intersectLoop] at h
  | succ fuel ih =>
    cases ls with
    | nil => simpa [intersectLoop] using h
    | cons l ls =>
      cases rs with
      | nil => simpa [intersectLoop] using h
      | cons r rs =>
        rw [intersectLoop_cons] at h ⊢
        split
        · rename_i hlt
          rw [if_pos hlt] at h
          exact ih h
        · rename_i hge
          rw [if_neg hge] at h
          split
          · rename_i hlt
            rw [if_pos hlt] at h
            exact ih h
          · rename_i heq
            rw [if_neg heq] at h
            exact ih h

theorem intersectLoop_mono {fuel fuel' : Nat} (hle : fuel ≤ fuel')
    (h : intersectLoop fuel ls rs acc = some out) : intersectLoop fuel' ls rs acc = some out := by
  induction hle with
  | refl => exact h
  | step _ ih => exact intersectLoop_succ ih

/-- The walk of `Intersect` ends within its bound, and what it collects is what
`Intersect` normalizes. -/
theorem intersect_terminates (l r : IntervalSet w) :
    ∃ out, (∀ fuel, intersectFuel l.intervals r.intervals ≤ fuel →
        intersectLoop fuel l.intervals r.intervals [] = some out) ∧
      intersect l r = normalize (out.map (·.toInterval)) := by
  have hsize : walkSize l.intervals r.intervals 0 l.intervals r.intervals ≤
      intersectFuel l.intervals r.intervals := by
    have h1 : live 0 l.intervals ≤ l.intervals.length := countP_le_length
    have h2 : live 0 r.intervals ≤ r.intervals.length := countP_le_length
    simp only [walkSize, intersectFuel]
    omega
  obtain ⟨out, hout, -⟩ := intersectLoop_spec _ 0 _ _ [] (walk_init l r) hsize
  refine ⟨out, fun fuel hfuel => intersectLoop_mono hfuel hout, ?_⟩
  rw [intersect, hout]

/-! ### Exactness of `Disjoint` -/

/-- The loop of `Disjoint` answers `false` at two intervals that overlap. -/
theorem exists_points_of_disjointLoop (h : disjointLoop ls rs = false) :
    ∃ x, Points ls x ∧ Points rs x := by
  induction ls, rs using disjointLoop.induct with
  | case3 l ls r rs hover =>
    -- the larger of the two lower bounds lies in both intervals
    rw [ProperInterval.overlaps_iff] at hover
    refine ⟨max l.lower r.lower, ⟨l, mem_cons_self, le_max_left _ _, ?_⟩,
      ⟨r, mem_cons_self, le_max_right _ _, ?_⟩⟩
    · exact max_le l.le hover.1
    · exact max_le hover.2 r.le
  | case4 l ls r rs hover hlt ih =>
    rw [disjointLoop, if_neg hover, if_pos hlt] at h
    obtain ⟨x, ⟨i, hi, hx⟩, hr⟩ := ih h
    exact ⟨x, ⟨i, mem_cons_of_mem _ hi, hx⟩, hr⟩
  | case5 l ls r rs hover hlt ih =>
    rw [disjointLoop, if_neg hover, if_neg hlt] at h
    obtain ⟨x, hl, j, hj, hx⟩ := ih h
    exact ⟨x, hl, j, mem_cons_of_mem _ hj, hx⟩
  | _ => simp [disjointLoop] at h

theorem exists_covers_of_not_isEmpty (h : s.isEmpty = false) : ∃ x, s.Covers x := by
  have hne : s.intervals ≠ [] := by simpa [isEmpty] using h
  obtain ⟨l, -, hl⟩ := exists_lowerBound hne
  exact ⟨l, hl⟩

/-- A set that `IsMaximal` accepts covers every number of its width. -/
theorem covers_of_isMaximal (h : s.isMaximal = true) {x : Nat} (hx : x < 2 ^ w) : s.Covers x := by
  obtain ⟨i, hi, hmax⟩ := any_eq_true.1 h
  simp only [Interval.isMaximal, Bool.and_eq_true, beq_iff_eq] at hmax
  refine ⟨i, hi, ?_, ?_⟩
  · simp [hmax.1]
  · rw [hmax.2]
    exact Nat.le_sub_one_of_lt hx

/-- Sets that are not reported disjoint share a point. -/
theorem exists_covers_of_not_disjoint (h : disjoint l r = false) :
    ∃ x, l.Covers x ∧ r.Covers x := by
  unfold disjoint at h
  split at h
  · cases h
  · rename_i hempty
    simp only [Bool.or_eq_true, not_or, Bool.not_eq_true] at hempty
    split at h
    · -- a maximal set meets any set that has a point
      rename_i hmax
      rcases Bool.or_eq_true_iff.1 hmax with hl | hr
      · obtain ⟨x, hx⟩ := exists_covers_of_not_isEmpty hempty.2
        exact ⟨x, covers_of_isMaximal hl hx.lt, hx⟩
      · obtain ⟨x, hx⟩ := exists_covers_of_not_isEmpty hempty.1
        exact ⟨x, hx, covers_of_isMaximal hr hx.lt⟩
    · split at h
      · split at h
        · cases h
        · exact exists_points_of_disjointLoop h
      · cases h

theorem isEmpty_iff_forall : s.isEmpty = true ↔ ∀ x, ¬s.Covers x := by
  constructor
  · intro h x hx
    rw [isEmpty_eq_false_of_covers hx] at h
    cases h
  · intro h
    by_contra hne
    obtain ⟨x, hx⟩ := exists_covers_of_not_isEmpty (Bool.not_eq_true _ ▸ hne)
    exact h x hx

/-- Disjoint means that the intersection is empty. -/
theorem disjoint_iff : disjoint l r = true ↔ (intersect l r).isEmpty = true := by
  rw [isEmpty_iff_forall]
  constructor
  · intro h x hx
    obtain ⟨hl, hr⟩ := covers_intersect.1 hx
    exact not_covers_of_disjoint h hl hr
  · intro h
    by_contra hne
    obtain ⟨x, hl, hr⟩ := exists_covers_of_not_disjoint (Bool.not_eq_true _ ▸ hne)
    exact h x (covers_intersect.2 ⟨hl, hr⟩)

/-- Set algebra on normalized sets of one width is exact: `Intersect` returns and its
points are the common ones, `Combine` has the points of either set and `Complement` the
others; all three are stored in normal form, and `Disjoint` holds exactly when the
intersection is empty. -/
theorem setAlgebra_exact (l r : IntervalSet w) :
    (∃ out, (∀ fuel, intersectFuel l.intervals r.intervals ≤ fuel →
        intersectLoop fuel l.intervals r.intervals [] = some out) ∧
      intersect l r = normalize (out.map (·.toInterval))) ∧
    (∀ x, (intersect l r).Covers x ↔ l.Covers x ∧ r.Covers x) ∧
    (∀ x, (combine l r).Covers x ↔ l.Covers x ∨ r.Covers x) ∧
    (∀ x < 2 ^ w, (complement l).Covers x ↔ ¬l.Covers x) ∧
    (NormalForm (intersect l r).raw ∧ NormalForm (combine l r).raw ∧
      NormalForm (complement l).raw) ∧ (disjoint l r = true ↔ (intersect l r).isEmpty = true) :=
  ⟨intersect_terminates l r, fun _ => covers_intersect, fun _ => covers_combine,
    fun _ hx => covers_complement hx,
    ⟨normalForm_raw _, normalForm_raw _, normalForm_raw _⟩, disjoint_iff⟩

end Xls.IntervalSet

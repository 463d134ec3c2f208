import Xls.Lib.BoolList

/-!
# Xls.Lib.BoolRows

Selections among bit lists of one width. A row is a selector bit with a case; the
lists below are the disjunction of the selected cases, the conjunction of the
marked ones, and the first selected one, together with the folds that compute
them row by row.
-/

namespace Xls.BoolList

open List Bool

/-- The disjunction of the selected cases. -/
def orRows (w : Nat) (rows : List (Bool × List Bool)) : List Bool :=
  (range w).map fun j => rows.any fun row => row.2.getD j false && row.1

/-- The conjunction of the marked cases. -/
def andRows (w : Nat) (rows : List (Bool × List Bool)) : List Bool :=
  (range w).map fun j => rows.all fun row => !row.1 || row.2.getD j false

/-- The first selected case, or zero. -/
def firstRow (w : Nat) (rows : List (Bool × List Bool)) : List Bool :=
  match rows.find? Prod.fst with
  | some row => row.2
  | none => replicate w false

@[simp] theorem length_orRows (w : Nat) (rows : List (Bool × List Bool)) :
    (orRows w rows).length = w := by
  simp [orRows]

@[simp] theorem length_andRows (w : Nat) (rows : List (Bool × List Bool)) :
    (andRows w rows).length = w := by
  simp [andRows]

theorem map_range_getD (bs : List Bool) : (range bs.length).map (bs.getD · false) = bs := by
  apply ext_getElem
  · simp
  · intro i h1 h2
    simp [getElem?_eq_getElem h2]

variable {w j : Nat} {bs : List Bool} {rows : List (Bool × List Bool)}

theorem getD_orRows (hj : j < w) (rows : List (Bool × List Bool)) :
    (orRows w rows).getD j false = rows.any fun row => row.2.getD j false && row.1 := by
  simp [orRows, hj]

theorem getD_andRows (hj : j < w) (rows : List (Bool × List Bool)) :
    (andRows w rows).getD j false = rows.all fun row => !row.1 || row.2.getD j false := by
  simp [andRows, hj]

theorem getD_zipWith {f : Bool → Bool → Bool} {as : List Bool} (ha : j < as.length)
    (hb : j < bs.length) :
    (zipWith f as bs).getD j false = f (as.getD j false) (bs.getD j false) := by
  rw [getD_eq_getElem _ _ (by simp [ha, hb]), getElem_zipWith,
    getD_eq_getElem _ _ ha, getD_eq_getElem _ _ hb]

theorem getD_map_not (hj : j < bs.length) : (bs.map not).getD j false = !bs.getD j false := by
  rw [getD_eq_getElem _ _ (by simpa using hj), getElem_map, getD_eq_getElem _ _ hj]

theorem getD_map_range {f : Nat → Bool} {n : Nat} (hj : j < n) :
    ((range n).map f).getD j false = f j := by
  simp [hj]

/-- Lists of one length are equal if they agree below it. -/
theorem ext_getD {as : List Bool} (hlen : as.length = bs.length)
    (h : ∀ j, j < as.length → as.getD j false = bs.getD j false) : as = bs := by
  rw [← map_range_getD as, ← map_range_getD bs, ← hlen]
  exact map_congr_left fun j hj => h j (mem_range.1 hj)

variable {acc : List Bool}

/-- The disjunction of the guarded rows, added one by one. -/
theorem foldl_orRows (hw : ∀ row ∈ rows, row.2.length = acc.length) :
    rows.foldl (fun acc row => zipWith (fun r c => r || (c && row.1)) acc row.2) acc =
      zipWith or acc (orRows acc.length rows) := by
  induction rows generalizing acc with
  | nil =>
    refine ext_getD (by simp) fun j hj => ?_
    rw [foldl_nil] at hj ⊢
    rw [getD_zipWith hj (by simpa using hj), getD_orRows hj]
    simp
  | cons row rows ih =>
    rw [forall_mem_cons] at hw
    have hlen : (zipWith (fun r c => r || (c && row.1)) acc row.2).length = acc.length := by
      simp [hw.1]
    rw [foldl_cons, ih (by rw [hlen]; exact hw.2), hlen]
    refine ext_getD (by simp [hw.1]) fun j hj => ?_
    have hj' : j < acc.length := by simpa [hw.1] using hj
    rw [getD_zipWith (by omega) (by simpa using hj'), getD_zipWith hj' (by omega),
      getD_zipWith hj' (by simpa using hj'), getD_orRows hj', getD_orRows hj', any_cons,
      Bool.or_assoc]

/-- The conjunction of the rows whose guard is set. -/
theorem foldl_andRows (hw : ∀ row ∈ rows, row.2.length = acc.length) :
    rows.foldl (fun acc row => if row.1 then zipWith and acc row.2 else acc) acc =
      zipWith and acc (andRows acc.length rows) := by
  induction rows generalizing acc with
  | nil =>
    refine ext_getD (by simp) fun j hj => ?_
    rw [foldl_nil] at hj ⊢
    rw [getD_zipWith hj (by simpa using hj), getD_andRows hj]
    simp
  | cons row rows ih =>
    rw [forall_mem_cons] at hw
    rw [foldl_cons]
    cases hr : row.1 with
    | false =>
      rw [if_neg Bool.false_ne_true, ih hw.2]
      simp [andRows, hr]
    | true =>
      have hlen : (zipWith and acc row.2).length = acc.length := by simp [hw.1]
      rw [if_pos rfl, ih (by rw [hlen]; exact hw.2), hlen]
      refine ext_getD (by simp [hw.1]) fun j hj => ?_
      have hj' : j < acc.length := by simpa [hw.1] using hj
      rw [getD_zipWith (by omega) (by simpa using hj'), getD_zipWith hj' (by omega),
        getD_zipWith hj' (by simpa using hj'), getD_andRows hj', getD_andRows hj',
        all_cons, hr, Bool.not_true, Bool.false_or, Bool.and_assoc]

theorem length_firstRow (hw : ∀ row ∈ rows, row.2.length = w) : (firstRow w rows).length = w := by
  unfold firstRow
  cases hf : rows.find? Prod.fst with
  | none => simp
  | some r => exact hw r (mem_of_find?_eq_some hf)

/-- Selecting from the last row to the first gives the first row whose guard is set. -/
theorem foldl_firstRow (hw : ∀ row ∈ rows, row.2.length = w) :
    rows.reverse.foldl (fun acc row =>
        zipWith (fun r c => (c && row.1) || (r && !row.1)) acc row.2)
      (replicate w false) = firstRow w rows := by
  rw [foldl_reverse]
  induction rows with
  | nil => rfl
  | cons row rows ih =>
    rw [forall_mem_cons] at hw
    rw [foldr_cons, ih hw.2]
    have hlen := length_firstRow hw.2
    have hstep : zipWith (fun r c => (c && row.1) || (r && !row.1)) (firstRow w rows) row.2 =
        if row.1 then row.2 else firstRow w rows := by
      cases hr : row.1 with
      | _ =>
        refine ext_getD (by simp [hlen, hw.1]) fun j hj => ?_
        have hj' : j < w := by simpa [hlen, hw.1] using hj
        rw [getD_zipWith (by omega) (by omega)]
        simp
    rw [hstep]
    cases hr : row.1 <;> simp [firstRow, hr]

/-- Bits common to all marked cases are bits of `bits`, if some marked case is
below it. -/
theorem zipWith_or_andRows {marked : List (Bool × List Bool)} {bits : List Bool}
    (hbits : bits.length = w) (hrow : ∃ row ∈ marked, row.1 = true ∧
      ∀ j, row.2.getD j false = true → bits.getD j false = true) :
    zipWith or (andRows w marked) bits = bits := by
  obtain ⟨row, hmem, hone, himp⟩ := hrow
  refine ext_getD (by simp [hbits]) fun j hj => ?_
  have hj' : j < w := by simpa [hbits] using hj
  rw [getD_zipWith (by simpa using hj') (by omega), getD_andRows hj']
  cases hall : marked.all fun row => !row.1 || row.2.getD j false with
  | false => rfl
  | true =>
    have hbit := all_eq_true.1 hall row hmem
    rw [hone, Bool.not_true, Bool.false_or] at hbit
    rw [himp j hbit]
    rfl

/-- Exactly one selected row: the disjunction is that row. -/
theorem orRows_unique {k : Nat} (hw : ∀ row ∈ rows, row.2.length = w) (hk : k < rows.length)
    (hsel : ∀ i, (h : i < rows.length) → rows[i].1 = decide (i = k)) :
    orRows w rows = rows[k].2 := by
  have hlen := hw rows[k] (getElem_mem hk)
  refine ext_getD (by simp [hlen]) fun j hj => ?_
  have hj' : j < w := by simpa using hj
  rw [getD_orRows hj', Bool.eq_iff_iff, any_eq_true]
  constructor
  · rintro ⟨row, hmem, hrow⟩
    obtain ⟨i, hi, rfl⟩ := getElem_of_mem hmem
    rw [and_eq_true, hsel i hi, decide_eq_true_eq] at hrow
    obtain ⟨hrow, rfl⟩ := hrow
    exact hrow
  · intro h
    refine ⟨rows[k], getElem_mem hk, ?_⟩
    rw [and_eq_true, hsel k hk]
    exact ⟨h, decide_eq_true rfl⟩

end Xls.BoolList

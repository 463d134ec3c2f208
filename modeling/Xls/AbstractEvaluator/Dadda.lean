import Xls.AbstractEvaluator.TotalArith

/-!
# Xls.AbstractEvaluator.Dadda

No check of the Dadda multiplier fails (`TotalOps.umul` and `TotalOps.smul`). Columns are
counted from the top: a column with `t` columns above it starts with at most `t` partial
products. A stage that lowers the maximum height from `H` to `d` sends at most `min (t + 1) H
- d` carries out of it. So the `d - 1` columns below the last one receive no carry at all,
the last column never needs a reduction, and after the last stage it is empty and receives at
most one carry.
-/

namespace Xls.Evaluator

open List

variable {S E : Type} [Preorder S]

open Grow (Ensures ensures_bind ensures_pure ensures_guardThat)

variable {ev : Evaluator S E} {V : S → E → Prop} {s : S}

/-! ### Column heights -/

/-- The height allowed between stages of a column with `above` columns above it. -/
def heightBound (H above : Nat) : Nat := if above + 2 ≤ H then above else H

/-- Every column respects the bound of its position. -/
def Fits (H : Nat) : List (List E) → Prop
  | [] => True
  | column :: columns => column.length ≤ heightBound H columns.length ∧ Fits H columns

/-- How many carries a stage from `H` to `d` sends into the first of `n` columns. -/
def carryBound (H d n : Nat) : Nat := min (n + 1) H - d

/-- The columns hold valid elements only. -/
abbrev ValidColumns (V : S → E → Prop) (s : S) (columns : List (List E)) : Prop :=
  ∀ column ∈ columns, AllValid V s column

variable {columns : List (List E)} {H pending : Nat} {b : List E}

theorem TotalOps.columnsMono (h : ev.TotalOps V) {t : S} (hst : s ≤ t)
    (hv : ValidColumns V s columns) : ValidColumns V t columns :=
  fun column hc => h.allMono hst (hv column hc)

variable {d above size fuel : Nat} {a : List E}

/-- A column that is too high for the next stage has a column above it. -/
theorem above_pos (hd : 2 ≤ d) (hH : d < H) (hsize : size ≤ heightBound H above)
    (hpending : pending ≤ carryBound H d (above + 1)) (hbig : d < size + pending) : 0 < above := by
  unfold heightBound at hsize
  unfold carryBound at hpending
  split at hsize <;> omega

section

variable (hH : d < H) (hsize : size ≤ heightBound H above)
  (hpending : pending ≤ carryBound H d (above + 1))
include hH hsize hpending

theorem carry_le : (size + pending - d + 1) / 2 ≤ carryBound H d above := by
  unfold heightBound at hsize
  unfold carryBound at hpending ⊢
  split at hsize <;> omega

theorem reduced_le : min (size + pending) d ≤ heightBound d above := by
  unfold heightBound at hsize ⊢
  unfold carryBound at hpending
  split at hsize <;> split <;> omega

end

/-! ### Stages -/

/-- A column comes out no higher than the stage's height, and every two elements too many
cost one carry. -/
theorem TotalOps.reduceColumn (h : ev.TotalOps V) {height : Nat} (hheight : 2 ≤ height)
    {column carries : List E} (hfuel : column.length ≤ height + fuel) (hcol : AllValid V s column)
    (hcar : AllValid V s carries) :
    Ensures s (ev.reduceColumn height fuel column carries) fun t r =>
      ValidVec V (min column.length height) t r.1 ∧
        ValidVec V (carries.length + (column.length - height + 1) / 2) t r.2 := by
  induction fuel generalizing column carries s with
  | zero =>
    refine ensures_pure fun t ht => ⟨⟨?_, h.allMono ht hcol⟩, ?_, h.allMono ht hcar⟩
    · exact (min_eq_left hfuel).symm
    · show carries.length = _
      omega
  | succ fuel ih =>
    unfold Evaluator.reduceColumn
    split
    · rename_i hbig
      obtain _ | ⟨a, _ | ⟨b, _ | ⟨c, rest⟩⟩⟩ := column
      · exact absurd hbig (by simp)
      · exact absurd hbig (by simp)
      · exact absurd hbig (by simp; omega)
      · simp only [length_cons] at hbig hfuel
        rw [AllValid, forall_mem_cons, forall_mem_cons, forall_mem_cons] at hcol
        refine ensures_bind (h.fullAdder hcol.1 hcol.2.1 hcol.2.2.1) fun t r ht hr => ?_
        have hcolumn : AllValid V t (rest ++ [r.1]) := forall_mem_append.2
          ⟨h.allMono ht hcol.2.2.2, forall_mem_singleton.2 hr.1⟩
        have hcarries : AllValid V t (carries ++ [r.2]) := forall_mem_append.2
          ⟨h.allMono ht hcar, forall_mem_singleton.2 hr.2⟩
        refine (ih (by simp; omega) hcolumn hcarries).imp ?_
        intro t' res _ hres
        simp only [length_append, length_cons, length_nil] at hres ⊢
        refine ⟨⟨hres.1.1.trans ?_, hres.1.2⟩, hres.2.1.trans ?_, hres.2.2⟩
        · omega
        · omega
    · rename_i hsmall
      split
      · rename_i hone
        obtain _ | ⟨a, _ | ⟨b, rest⟩⟩ := column
        · exact absurd hone (by simp)
        · exact absurd hone (by simp; omega)
        · simp only [length_cons] at hone hsmall
          rw [AllValid, forall_mem_cons, forall_mem_cons] at hcol
          refine ensures_bind (h.halfAdder hcol.1 hcol.2.1) fun t r ht hr => ?_
          refine ensures_pure fun t' ht' => ⟨⟨?_, ?_⟩, ?_, ?_⟩
          · simp only [length_append, length_cons, length_nil]
            omega
          · exact forall_mem_append.2 ⟨h.allMono (ht.trans ht') hcol.2.2,
              forall_mem_singleton.2 (h.mono ht' hr.1)⟩
          · simp only [length_append, length_cons, length_nil]
            omega
          · exact forall_mem_append.2 ⟨h.allMono (ht.trans ht') hcar,
              forall_mem_singleton.2 (h.mono ht' hr.2)⟩
      · rename_i hnone
        refine ensures_pure fun t ht => ⟨⟨?_, h.allMono ht hcol⟩, ?_, h.allMono ht hcar⟩
        · show column.length = _
          omega
        · show carries.length = _
          omega

/-- A stage of the reduction accepts columns that fit the previous height. -/
theorem TotalOps.reduceColumns (h : ev.TotalOps V) (hd : 2 ≤ d) (hH : d < H) {pending : List E}
    (hfits : Fits H columns) (hpending : pending.length ≤ carryBound H d columns.length)
    (hp : AllValid V s pending) (hc : ValidColumns V s columns) :
    Ensures s (ev.reduceColumns d pending columns) fun t r =>
      r.length = columns.length ∧ Fits d r ∧ ValidColumns V t r := by
  induction columns generalizing pending s with
  | nil =>
    have hnil : pending = [] := by
      refine eq_nil_of_length_eq_zero ?_
      simp only [carryBound, length_nil] at hpending
      omega
    subst hnil
    exact ensures_pure fun _ _ => ⟨rfl, trivial, fun _ hx => absurd hx not_mem_nil⟩
  | cons column columns ih =>
    rw [length_cons] at hpending
    rw [ValidColumns, forall_mem_cons] at hc
    have hall : AllValid V s (column ++ pending) := forall_mem_append.2 ⟨hc.1, hp⟩
    have hlen : (column ++ pending).length = column.length + pending.length :=
      length_append
    have hred := reduced_le hH hfits.1 hpending
    rw [Evaluator.reduceColumns]
    split
    · rename_i hle
      refine ensures_bind (ih hfits.2 (Nat.zero_le _) (fun _ hx => absurd hx not_mem_nil) hc.2)
        fun t rest ht hrest => ?_
      refine ensures_pure fun t' ht' => ⟨congrArg (· + 1) hrest.1, ⟨?_, hrest.2.1⟩, ?_⟩
      · rw [hrest.1]
        omega
      · exact forall_mem_cons.2
          ⟨h.allMono (ht.trans ht') hall, h.columnsMono ht' hrest.2.2⟩
    · rename_i hbig
      have habove : 0 < columns.length := above_pos hd hH hfits.1 hpending (by omega)
      refine ensures_bind (ensures_guardThat (decide_eq_true habove)) fun t1 _ h1 _ => ?_
      refine ensures_bind (h.reduceColumn hd (by omega) (h.allMono h1 hall)
        (fun _ hx => absurd hx not_mem_nil)) fun t2 r h2 hr => ?_
      have hcarry : r.2.length ≤ carryBound H d columns.length := by
        rw [hr.2.1, length_nil, Nat.zero_add, hlen]
        exact carry_le hH hfits.1 hpending
      refine ensures_bind (ih hfits.2 hcarry hr.2.2 (h.columnsMono (h1.trans h2) hc.2))
        fun t3 rest h3 hrest => ?_
      refine ensures_pure fun t4 h4 => ⟨congrArg (· + 1) hrest.1, ⟨?_, hrest.2.1⟩, ?_⟩
      · rw [hrest.1, hr.1.1, hlen]
        exact hred
      · exact forall_mem_cons.2
          ⟨h.allMono (h3.trans h4) hr.1.2, h.columnsMono h4 hrest.2.2⟩

/-- The stages end with columns of height two. -/
theorem TotalOps.stages (h : ev.TotalOps V) (hfuel : H ≤ fuel + 2) (hH : 2 ≤ H)
    (hfits : Fits H columns) (hc : ValidColumns V s columns) :
    Ensures s (Grow.foldList (fun columns d => ev.reduceColumns d [] columns) columns
      (stageHeights fuel H)) fun t r =>
        r.length = columns.length ∧ Fits 2 r ∧ ValidColumns V t r := by
  induction fuel generalizing H columns s with
  | zero =>
    obtain rfl : H = 2 := by omega
    exact ensures_pure fun t ht => ⟨rfl, hfits, h.columnsMono ht hc⟩
  | succ fuel ih =>
    rw [stageHeights]
    split
    · rename_i hlarge
      have hnil : AllValid V s ([] : List E) := fun _ hx => absurd hx not_mem_nil
      refine ensures_bind (h.reduceColumns (d := (2 * H + 2) / 3) (by omega) (by omega) hfits
        (Nat.zero_le _) hnil hc) fun t r ht hr => ?_
      refine (ih (by omega) (by omega) hr.2.1 hr.2.2).imp ?_
      intro t' res _ hres
      exact ⟨hres.1.trans hr.1, hres.2⟩
    · obtain rfl : H = 2 := by omega
      exact ensures_pure fun t ht => ⟨rfl, hfits, h.columnsMono ht hc⟩

/-! ### The final adder -/

/-- The ripple-carry adder takes columns of height two and passes no carry past the last
one. -/
theorem TotalOps.sumColumns (h : ev.TotalOps V) {pending : List E} (hfits : Fits 2 columns)
    (hpending : pending.length ≤ min columns.length 1) (hp : AllValid V s pending)
    (hc : ValidColumns V s columns) :
    Ensures s (ev.sumColumns pending columns) (ValidVec V columns.length) := by
  induction columns generalizing pending s with
  | nil =>
    have hnil : pending = [] := eq_nil_of_length_eq_zero (by simpa using hpending)
    subst hnil
    exact ensures_pure fun _ _ => ⟨rfl, fun _ hx => absurd hx not_mem_nil⟩
  | cons column columns ih =>
    rw [length_cons] at hpending
    rw [ValidColumns, forall_mem_cons] at hc
    have hall : AllValid V s (column ++ pending) := forall_mem_append.2 ⟨hc.1, hp⟩
    have hlen : (column ++ pending).length ≤ heightBound 2 columns.length + 1 := by
      rw [length_append]
      have := hfits.1
      omega
    have hheight : heightBound 2 columns.length = if columns.length = 0 then 0 else 2 := by
      unfold heightBound
      split <;> split <;> omega
    rw [hheight] at hlen
    -- the rest of the sum, whatever this column's entry and carry are
    have hrest : ∀ {t : S} {e : E} {carry : List E}, s ≤ t → V t e →
        carry.length ≤ min columns.length 1 → AllValid V t carry →
        Ensures t (do
          let rest ← ev.sumColumns carry columns
          return e :: rest) (ValidVec V (columns.length + 1)) := by
      intro t e carry ht he hcarry hvalid
      refine ensures_bind (ih hfits.2 hcarry hvalid (h.columnsMono ht hc.2))
        fun t' rest ht' hr => ?_
      exact ensures_pure fun t'' ht'' => ⟨congrArg (· + 1) hr.1,
        forall_mem_cons.2 ⟨h.mono (ht'.trans ht'') he, h.allMono ht'' hr.2⟩⟩
    have hnone : AllValid V s ([] : List E) := fun _ hx => absurd hx not_mem_nil
    rw [Evaluator.sumColumns]
    generalize hfull : column ++ pending = full at hall hlen
    obtain _ | ⟨a, _ | ⟨b, _ | ⟨c, _ | ⟨_, _⟩⟩⟩⟩ := full
    · exact hrest (le_refl s) (h.zero s) (Nat.zero_le _) hnone
    · exact hrest (le_refl s) (hall a mem_cons_self) (Nat.zero_le _) hnone
    · rw [AllValid, forall_mem_cons, forall_mem_singleton] at hall
      refine ensures_bind (h.halfAdder hall.1 hall.2) fun t r ht hr => ?_
      refine hrest ht hr.1 ?_ (forall_mem_singleton.2 hr.2)
      simp only [length_cons, length_nil] at hlen ⊢
      split at hlen <;> omega
    · rw [AllValid, forall_mem_cons, forall_mem_cons, forall_mem_singleton] at hall
      refine ensures_bind (h.fullAdder hall.1 hall.2.1 hall.2.2) fun t r ht hr => ?_
      refine hrest ht hr.1 ?_ (forall_mem_singleton.2 hr.2)
      simp only [length_cons, length_nil] at hlen ⊢
      split at hlen <;> omega
    · simp only [length_cons] at hlen
      split at hlen <;> omega

/-! ### Partial products -/

/-- How many elements the column at an index holds. -/
def columnHeight (columns : List (List E)) (c : Nat) : Nat := (columns.getD c []).length

@[simp] theorem pushAt_nil (e : E) (k : Nat) : pushAt e k [] = [] := by
  cases k <;> rfl

theorem length_pushAt (e : E) (k : Nat) (columns : List (List E)) :
    (pushAt e k columns).length = columns.length := by
  induction columns generalizing k with
  | nil => rw [pushAt_nil]
  | cons column columns ih =>
    cases k with
    | zero => rfl
    | succ k => exact congrArg (· + 1) (ih k)

/-- Only the column that is pushed to gets higher, by at most one. -/
theorem columnHeight_pushAt (e : E) (k : Nat) (columns : List (List E)) (c : Nat) :
    columnHeight (pushAt e k columns) c ≤ columnHeight columns c + if c = k then 1 else 0 := by
  induction columns generalizing k c with
  | nil =>
    rw [pushAt_nil]
    exact Nat.le_add_right _ _
  | cons column columns ih =>
    cases k with
    | zero =>
      cases c with
      | _ => simp [columnHeight, pushAt]
    | succ k =>
      cases c with
      | zero => simp [columnHeight, pushAt]
      | succ c => simpa [columnHeight, pushAt] using ih k c

omit [Preorder S] in
/-- Pushing a valid element keeps all columns valid. -/
theorem validColumns_pushAt {e : E} (he : V s e) {k : Nat} (hc : ValidColumns V s columns) :
    ValidColumns V s (pushAt e k columns) := by
  induction columns generalizing k with
  | nil =>
    rw [pushAt_nil]
    exact hc
  | cons column columns ih =>
    rw [ValidColumns, forall_mem_cons] at hc
    cases k with
    | zero =>
      exact forall_mem_cons.2
        ⟨forall_mem_append.2 ⟨hc.1, forall_mem_singleton.2 he⟩, hc.2⟩
    | succ k => exact forall_mem_cons.2 ⟨hc.1, ih hc.2⟩

/-- A row of partial products raises the columns from its bit's index on, one for each
bit of the other operand, by one. -/
theorem TotalOps.productRow (h : ev.TotalOps V) {a : E} {i j : Nat} (ha : V s a)
    (hb : AllValid V s b) (hc : ValidColumns V s columns) :
    Ensures s (Grow.foldList (fun columns p => do
      let x ← ev.and a p.1
      return pushAt x (i + p.2) columns) columns (b.zipIdx j)) fun t r =>
        r.length = columns.length ∧ ValidColumns V t r ∧ ∀ c, columnHeight r c ≤
          columnHeight columns c + if i + j ≤ c ∧ c < i + j + b.length then 1 else 0 := by
  induction b generalizing columns j s with
  | nil =>
    exact ensures_pure fun t ht => ⟨rfl, h.columnsMono ht hc, fun c => Nat.le_add_right _ _⟩
  | cons e b ih =>
    rw [AllValid, forall_mem_cons] at hb
    rw [zipIdx_cons]
    have hstep : Ensures s (do
        let x ← ev.and a e
        return pushAt x (i + j) columns) fun t r => r.length = columns.length ∧
          ValidColumns V t r ∧ ∀ c, columnHeight r c ≤
            columnHeight columns c + if c = i + j then 1 else 0 := by
      refine ensures_bind (h.and ha hb.1) fun t x ht hx => ?_
      exact ensures_pure fun t' ht' => ⟨length_pushAt _ _ _,
        validColumns_pushAt (h.mono ht' hx) (h.columnsMono (ht.trans ht') hc),
        columnHeight_pushAt _ _ _⟩
    refine ensures_bind hstep fun t next ht hnext => ?_
    refine (ih (h.mono ht ha) (h.allMono ht hb.2) hnext.2.1).imp ?_
    intro t' r _ hr
    refine ⟨hr.1.trans hnext.1, hr.2.1, fun c => ?_⟩
    have h1 := hr.2.2 c
    have h2 := hnext.2.2 c
    rw [length_cons]
    split at h1 <;> split at h2 <;> split <;> omega

/-- The heights after the rows of the first `k` bits. -/
def productBound (n k c : Nat) : Nat := min k (k + n - 1 - c)

/-- After `i` rows no column is higher than the bound for `i` rows. -/
theorem TotalOps.productRows (h : ev.TotalOps V) {i : Nat} (ha : AllValid V s a)
    (hb : AllValid V s b) (hc : ValidColumns V s columns)
    (hcol : ∀ c, columnHeight columns c ≤ productBound b.length i c) :
    Ensures s (Grow.foldList (ev.productRow b) columns (a.zipIdx i)) fun t r =>
      r.length = columns.length ∧ ValidColumns V t r ∧
        ∀ c, columnHeight r c ≤ productBound b.length (i + a.length) c := by
  induction a generalizing columns i s with
  | nil => exact ensures_pure fun t ht => ⟨rfl, h.columnsMono ht hc, hcol⟩
  | cons e a ih =>
    rw [AllValid, forall_mem_cons] at ha
    rw [zipIdx_cons]
    refine ensures_bind (h.productRow (i := i) (j := 0) ha.1 hb hc) fun t r ht hr => ?_
    have hnext : ∀ c, columnHeight r c ≤ productBound b.length (i + 1) c := by
      intro c
      have h1 := hr.2.2 c
      have h2 := hcol c
      unfold productBound at h2 ⊢
      split at h1 <;> omega
    refine (ih (h.allMono ht ha.2) (h.allMono ht hb) hr.2.1 hnext).imp ?_
    intro t' r' _ hr'
    rw [length_cons, Nat.add_comm a.length, ← Nat.add_assoc]
    exact ⟨hr'.1.trans hr.1, hr'.2⟩

/-- Columns within the height of a stage fit the stage. -/
theorem fits_of_columnHeight
    (h : ∀ c < columns.length, columnHeight columns c ≤ heightBound H (columns.length - 1 - c)) :
    Fits H columns := by
  induction columns with
  | nil => trivial
  | cons column columns ih =>
    refine ⟨by simpa [columnHeight] using h 0 (Nat.succ_pos _), ih ?_⟩
    intro c hc
    have hnext := h (c + 1) (Nat.succ_lt_succ hc)
    rw [length_cons, show columns.length + 1 - 1 - (c + 1) = columns.length - 1 - c by omega]
      at hnext
    simpa [columnHeight] using hnext

theorem le_growHeight {target height : Nat} (hh : 2 ≤ height) (hf : target ≤ height + fuel) :
    target ≤ growHeight target fuel height ∧ 2 ≤ growHeight target fuel height := by
  induction fuel generalizing height with
  | zero => exact ⟨hf, hh⟩
  | succ fuel ih =>
    rw [growHeight]
    split
    · exact ih (by omega) (by omega)
    · exact ⟨by omega, hh⟩

/-- The multiplier accepts operands of any widths. -/
theorem TotalOps.umul (h : ev.TotalOps V) (ha : AllValid V s a) (hb : AllValid V s b) :
    Ensures s (ev.umul a b) (ValidVec V (a.length + b.length)) := by
  have hempty : ValidColumns V s (replicate (a.length + b.length) []) := by
    intro column hc
    rw [eq_of_mem_replicate hc]
    exact fun _ hx => absurd hx not_mem_nil
  have hzero : ∀ c, columnHeight (replicate (a.length + b.length) ([] : List E)) c ≤
      productBound b.length 0 c := by
    intro c
    have hcol : (replicate (a.length + b.length) ([] : List E)).getD c [] = [] := by
      rw [getD_eq_getElem?_getD, getElem?_replicate]
      split <;> rfl
    rw [columnHeight, hcol]
    exact Nat.zero_le _
  refine ensures_bind (h.productRows ha hb hempty hzero) fun t1 columns h1 hcolumns => ?_
  rw [length_replicate, Nat.zero_add] at hcolumns
  obtain ⟨hlen, hvalid, hheight⟩ := hcolumns
  have hgrow := le_growHeight (le_refl 2) (Nat.le_add_left (max a.length b.length) 2)
  -- the partial products of a column are limited by the columns above it
  have hfits : Fits (growHeight (max a.length b.length) (max a.length b.length) 2) columns := by
    refine fits_of_columnHeight ?_
    intro c hc
    have hbound := hheight c
    unfold productBound at hbound
    unfold heightBound
    rw [hlen] at hc ⊢
    split <;> omega
  refine ensures_bind (h.stages (Nat.le_add_right _ 2) hgrow.2 hfits hvalid)
    fun t2 reduced h2 hred => ?_
  rw [← hlen, ← hred.1]
  exact h.sumColumns hred.2.1 (Nat.zero_le _) (fun _ hx => absurd hx not_mem_nil) hred.2.2

/-- The signed multiplier asks for a sign bit of both operands. -/
theorem TotalOps.smul (h : ev.TotalOps V) (hpa : 0 < a.length) (hpb : 0 < b.length)
    (ha : AllValid V s a) (hb : AllValid V s b) :
    Ensures s (ev.smul a b) (ValidVec V (a.length + b.length)) := by
  refine ensures_bind (ensures_signExtend h.monotonic ha hpa (by omega)) fun t1 tempA h1 htA => ?_
  refine ensures_bind (ensures_signExtend h.monotonic (h.allMono h1 hb) hpb (by omega))
    fun t2 tempB h2 htB => ?_
  refine ensures_bind (h.umul (h.allMono h2 htA.2) htB.2) fun t3 result h3 hres => ?_
  exact ensures_bitSlice h.monotonic hres.2 (by rw [hres.1, htA.1, htB.1]; omega)

end Xls.Evaluator

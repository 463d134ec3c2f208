import Xls.IntervalOps.TernaryConv

/-!
# Xls.IntervalOps.CoversExact

`CoversTernary` is exact: it answers whether some value that the vector admits lies in the
interval, proper or not (`intervalCoversTernary_iff`). A value of the vector is split at the
highest bit in which the bounds differ: above it the common prefix decides, below it the two
half searches `could_be_le` and `could_be_ge` do.
-/

namespace Xls.IntervalOps

open IntervalSet BoolList TernaryVector List Nat

/-! ### The half searches -/

theorem exists_admits (v : TernaryVector) : ∃ bs, Admits v bs := by
  induction v with
  | nil => exact ⟨[], Forall₂.nil⟩
  | cons t v ih =>
    obtain ⟨bs, hbs⟩ := ih
    cases t with
    | knownZero => exact ⟨false :: bs, Forall₂.cons rfl hbs⟩
    | knownOne => exact ⟨true :: bs, Forall₂.cons rfl hbs⟩
    | unknown => exact ⟨false :: bs, Forall₂.cons trivial hbs⟩

variable {t : TernaryValue} {v : TernaryVector} {k : Nat}

theorem admits_false_of_ne (h : t ≠ .knownOne) : TernaryValue.Admits t false := by
  cases t with
  | knownZero => rfl
  | knownOne => exact absurd rfl h
  | unknown => trivial

theorem admits_true_of_ne (h : t ≠ .knownZero) : TernaryValue.Admits t true := by
  cases t with
  | knownZero => exact absurd rfl h
  | knownOne => rfl
  | unknown => trivial

/-- `could_be_le` finds a value at most the bound, both most significant bit first. -/
theorem exists_of_couldBeLe {ls : List Bool} (hlen : v.length = ls.length)
    (h : couldBeLe (v.zip ls) = true) : ∃ xs, Admits v xs ∧
      toNat xs.reverse ≤ toNat ls.reverse := by
  induction v generalizing ls with
  | nil => exact ⟨[], Forall₂.nil, Nat.zero_le _⟩
  | cons t v ih =>
    cases ls with
    | nil => simp at hlen
    | cons l ls =>
      have hl : v.length = ls.length := succ.inj hlen
      rw [zip_cons_cons] at h
      cases l with
      | true =>
        unfold couldBeLe at h
        split at h
        · rename_i ht
          obtain ⟨xs, hxs, hle⟩ := ih hl h
          have hxl : xs.length = ls.length := hxs.length_eq.symm.trans hl
          refine ⟨true :: xs, Forall₂.cons (ht ▸ rfl) hxs, ?_⟩
          rw [toNat_reverse_cons, toNat_reverse_cons, hxl]
          exact Nat.add_le_add_right hle _
        · -- a zero here makes every value smaller
          rename_i ht
          obtain ⟨xs, hxs⟩ := exists_admits v
          have hxl : xs.length = ls.length := hxs.length_eq.symm.trans hl
          have hlt := toNat_lt xs.reverse
          rw [length_reverse, hxl] at hlt
          refine ⟨false :: xs, Forall₂.cons (admits_false_of_ne ht) hxs, ?_⟩
          rw [toNat_reverse_cons, toNat_reverse_cons]
          simp only [Bool.toNat_false, Bool.toNat_true]
          omega
      | false =>
        unfold couldBeLe at h
        split at h
        · cases h
        · rename_i ht
          obtain ⟨xs, hxs, hle⟩ := ih hl h
          refine ⟨false :: xs, Forall₂.cons (admits_false_of_ne ht) hxs, ?_⟩
          rw [toNat_reverse_cons, toNat_reverse_cons]
          simpa using hle

/-- `could_be_ge` finds a value at least the bound, both most significant bit first. -/
theorem exists_of_couldBeGe {ls : List Bool} (hlen : v.length = ls.length)
    (h : couldBeGe (v.zip ls) = true) : ∃ xs, Admits v xs ∧
      toNat ls.reverse ≤ toNat xs.reverse := by
  induction v generalizing ls with
  | nil =>
    obtain rfl : ls = [] := eq_nil_of_length_eq_zero hlen.symm
    exact ⟨[], Forall₂.nil, le_refl _⟩
  | cons t v ih =>
    cases ls with
    | nil => simp at hlen
    | cons l ls =>
      have hl : v.length = ls.length := succ.inj hlen
      rw [zip_cons_cons] at h
      cases l with
      | true =>
        unfold couldBeGe at h
        split at h
        · cases h
        · rename_i ht
          obtain ⟨xs, hxs, hle⟩ := ih hl h
          have hxl : xs.length = ls.length := hxs.length_eq.symm.trans hl
          refine ⟨true :: xs, Forall₂.cons (admits_true_of_ne ht) hxs, ?_⟩
          rw [toNat_reverse_cons, toNat_reverse_cons, hxl]
          exact Nat.add_le_add_right hle _
      | false =>
        unfold couldBeGe at h
        split at h
        · rename_i ht
          obtain ⟨xs, hxs, hle⟩ := ih hl h
          refine ⟨false :: xs, Forall₂.cons (ht ▸ rfl) hxs, ?_⟩
          rw [toNat_reverse_cons, toNat_reverse_cons]
          simpa using hle
        · -- a one here makes every value larger
          rename_i ht
          obtain ⟨xs, hxs⟩ := exists_admits v
          have hxl : xs.length = ls.length := hxs.length_eq.symm.trans hl
          have hlt := toNat_lt ls.reverse
          rw [length_reverse] at hlt
          refine ⟨true :: xs, Forall₂.cons (admits_true_of_ne ht) hxs, ?_⟩
          rw [toNat_reverse_cons, toNat_reverse_cons, hxl]
          simp only [Bool.toNat_false, Bool.toNat_true]
          omega

/-- `could_be_le` on a vector and the low bits of a number. -/
theorem couldBeLe_iff (hv : v.length = k) (n : Nat) :
    couldBeLe (v.zip (ofNat k n)).reverse = true ↔ ∃ ys, Admits v ys ∧ toNat ys ≤ n % 2 ^ k := by
  rw [zip_reverse_of_length_eq (by simp [hv])]
  constructor
  · intro h
    obtain ⟨xs, hxs, hle⟩ := exists_of_couldBeLe (by simp [hv]) h
    rw [reverse_reverse, toNat_ofNat] at hle
    refine ⟨xs.reverse, ?_, hle⟩
    have hrev := rel_reverse hxs
    rwa [reverse_reverse] at hrev
  · intro h
    obtain ⟨ys, hys, hle⟩ := h
    refine couldBeLe_of_le (rel_reverse hys) (by simp [hv]) ?_
    rwa [reverse_reverse, reverse_reverse, toNat_ofNat]

/-- `could_be_ge` on a vector and the low bits of a number. -/
theorem couldBeGe_iff (hv : v.length = k) (n : Nat) :
    couldBeGe (v.zip (ofNat k n)).reverse = true ↔ ∃ ys, Admits v ys ∧ n % 2 ^ k ≤ toNat ys := by
  rw [zip_reverse_of_length_eq (by simp [hv])]
  constructor
  · intro h
    obtain ⟨xs, hxs, hle⟩ := exists_of_couldBeGe (by simp [hv]) h
    rw [reverse_reverse, toNat_ofNat] at hle
    refine ⟨xs.reverse, ?_, hle⟩
    have hrev := rel_reverse hxs
    rwa [reverse_reverse] at hrev
  · intro h
    obtain ⟨ys, hys, hle⟩ := h
    refine couldBeGe_of_ge (rel_reverse hys) (by simp [hv]) ?_
    rwa [reverse_reverse, reverse_reverse, toNat_ofNat]

/-! ### The prefix -/

/-- A vector with an unknown position admits two different values. -/
theorem exists_admits_ne {ps : List Bool}
    (h : ¬(v.isFullyKnown = true ∧ v.toKnownBitsValues = ps)) : ∃ bs, Admits v bs ∧ bs ≠ ps := by
  induction v generalizing ps with
  | nil => exact ⟨[], Forall₂.nil, fun hnil => h ⟨rfl, hnil⟩⟩
  | cons t v ih =>
    cases ps with
    | nil =>
      obtain ⟨bs, hbs⟩ := exists_admits (t :: v)
      refine ⟨bs, hbs, ?_⟩
      rintro rfl
      cases hbs
    | cons p ps =>
      cases t with
      | unknown =>
        -- the bit that differs from the prefix is free to choose
        obtain ⟨bs, hbs⟩ := exists_admits v
        refine ⟨(!p) :: bs, Forall₂.cons trivial hbs, ?_⟩
        simp
      | knownZero =>
        by_cases hp : p = false
        · subst hp
          obtain ⟨bs, hbs, hne⟩ := @ih ps fun hk => h ⟨by
            simpa [isFullyKnown, TernaryValue.isKnown] using hk.1, by
            simpa [toKnownBitsValues] using hk.2⟩
          exact ⟨false :: bs, Forall₂.cons rfl hbs, by simpa using hne⟩
        · obtain ⟨bs, hbs⟩ := exists_admits v
          refine ⟨false :: bs, Forall₂.cons rfl hbs, ?_⟩
          intro heq
          exact hp (List.cons.inj heq).1.symm
      | knownOne =>
        by_cases hp : p = true
        · subst hp
          obtain ⟨bs, hbs, hne⟩ := @ih ps fun hk => h ⟨by
            simpa [isFullyKnown, TernaryValue.isKnown] using hk.1, by
            simpa [toKnownBitsValues] using hk.2⟩
          exact ⟨true :: bs, Forall₂.cons rfl hbs, by simpa using hne⟩
        · obtain ⟨bs, hbs⟩ := exists_admits v
          refine ⟨true :: bs, Forall₂.cons rfl hbs, ?_⟩
          intro heq
          exact hp (List.cons.inj heq).1.symm

/-- Numbers in blocks of `2 ^ k` compare by block first. -/
theorem block_le_iff {a b m n : Nat} (ha : a < 2 ^ k) (hb : b < 2 ^ k) :
    a + 2 ^ k * m ≤ b + 2 ^ k * n ↔ m < n ∨ m = n ∧ a ≤ b := by
  rcases Nat.lt_trichotomy m n with hlt | rfl | hgt
  · have hmul : 2 ^ k * (m + 1) ≤ 2 ^ k * n := Nat.mul_le_mul_left _ hlt
    rw [Nat.mul_add] at hmul
    constructor
    · intro _
      exact Or.inl hlt
    · intro _
      omega
  · simp
  · have hmul : 2 ^ k * (n + 1) ≤ 2 ^ k * m := Nat.mul_le_mul_left _ hgt
    rw [Nat.mul_add] at hmul
    constructor
    · intro _
      omega
    · intro _
      omega

/-- A number by its low bits, one bit and the rest. -/
theorem split_at_bit (n k : Nat) :
    n = n % 2 ^ k + 2 ^ k * ((n.testBit k).toNat + 2 * (n / 2 ^ (k + 1))) := by
  have h1 := mod_add_div n (2 ^ k)
  have h2 := mod_add_div (n / 2 ^ k) 2
  have hbit : (n.testBit k).toNat = n / 2 ^ k % 2 := by
    rw [testBit_eq_decide_div_mod_eq]
    rcases mod_two_eq_zero_or_one (n / 2 ^ k) with h | h <;> simp [h]
  rw [hbit, pow_succ, ← Nat.div_div_eq_div_mul, h2]
  exact h1.symm

/-- The value of bits split at a position. -/
theorem toNat_split_at (ys : List Bool) (b : Bool) (hs : List Bool) :
    toNat (ys ++ b :: hs) = toNat ys + 2 ^ ys.length * (b.toNat + 2 * toNat hs) := by
  rw [toNat_append, toNat_cons]

/-- The values of a vector, split at a position. -/
theorem exists_admits_split (hk : v[k]? = some t) {P : List Bool → Prop} :
    (∃ bs, Admits v bs ∧ P bs) ↔ ∃ ys b hs, Admits (v.take k) ys ∧ TernaryValue.Admits t b ∧
        Admits (v.drop (k + 1)) hs ∧ P (ys ++ b :: hs) := by
  obtain ⟨hlt, hget⟩ := List.getElem?_eq_some_iff.1 hk
  have hv : v = v.take k ++ t :: v.drop (k + 1) := by
    rw [← hget, getElem_cons_drop, take_append_drop]
  constructor
  · intro hx
    obtain ⟨bs, hbs, hP⟩ := hx
    have htail : Admits (t :: v.drop (k + 1)) (bs.drop k) := by
      have hdrop := forall₂_drop k hbs
      rwa [← getElem_cons_drop hlt, hget] at hdrop
    have hbsplit := take_append_drop k bs
    cases htail' : bs.drop k with
    | nil =>
      rw [htail'] at htail
      cases htail
    | cons b hs =>
      rw [htail'] at htail hbsplit
      cases htail with
      | cons hb hh =>
        exact ⟨bs.take k, b, hs, forall₂_take k hbs, hb, hh, by rwa [hbsplit]⟩
  · intro hx
    obtain ⟨ys, b, hs, hys, hb, hhs, hP⟩ := hx
    refine ⟨ys ++ b :: hs, ?_, hP⟩
    rw [hv]
    exact rel_append hys (Forall₂.cons hb hhs)

/-! ### One interval -/

variable {w : Nat} {i : Interval w}

/-- The bounds of an interval that is not precise differ in a highest bit, where the upper
bound has a one exactly if the interval is proper. -/
theorem exists_highest_difference (h : i.isPrecise = false) :
    ∃ k, commonFrom i.lower i.upper w = k + 1 ∧ k < w ∧
      i.lower / 2 ^ (k + 1) = i.upper / 2 ^ (k + 1) ∧ i.lower.testBit k = !i.upper.testBit k := by
  have hne : i.lower ≠ i.upper := by simpa [Interval.isPrecise] using h
  have hdiv := div_eq_of_commonFrom i.lower_lt i.upper_lt
  have hle := commonFrom_le i.lower i.upper w
  cases hc : commonFrom i.lower i.upper w with
  | zero =>
    rw [hc] at hdiv
    simp at hdiv
    exact absurd hdiv hne
  | succ k =>
    rw [hc] at hdiv hle
    refine ⟨k, rfl, by omega, hdiv, ?_⟩
    have hbit := testBit_ne_of_commonFrom hc
    cases hu : i.upper.testBit k <;> cases hl : i.lower.testBit k <;> simp_all

/-- What the bits below the highest difference have to satisfy when the bits above it are
those of the bounds. -/
def InHalf (i : Interval w) (k : Nat) (b : Bool) (ys : List Bool) : Prop :=
  if b = i.upper.testBit k then toNat ys ≤ i.upper % 2 ^ k
  else i.lower % 2 ^ k ≤ toNat ys

/-- Whether a value is covered, by its high bits, its bit at the highest difference and its
low bits. -/
theorem covers_split (hdiv : i.lower / 2 ^ (k + 1) = i.upper / 2 ^ (k + 1))
    (hbit : i.lower.testBit k = !i.upper.testBit k) {ys : List Bool} (hys : ys.length = k)
    (b : Bool) (hs : List Bool) :
    i.covers (toNat (ys ++ b :: hs)) = true ↔
      if i.upper.testBit k then toNat hs = i.lower / 2 ^ (k + 1) ∧ InHalf i k b ys
      else toNat hs ≠ i.lower / 2 ^ (k + 1) ∨ InHalf i k b ys := by
  have hpos : 0 < 2 ^ k := Nat.two_pow_pos k
  have hL : i.lower % 2 ^ k < 2 ^ k := mod_lt _ hpos
  have hU : i.upper % 2 ^ k < 2 ^ k := mod_lt _ hpos
  have hy : toNat ys < 2 ^ k := hys ▸ toNat_lt ys
  have hlow := split_at_bit i.lower k
  have hup := split_at_bit i.upper k
  have hx := toNat_split_at ys b hs
  rw [hys] at hx
  rw [hbit] at hlow
  rw [← hdiv] at hup
  have hge := block_le_iff (m := (!i.upper.testBit k).toNat + 2 * (i.lower / 2 ^ (k + 1)))
    (n := b.toNat + 2 * toNat hs) hL hy
  have hle := block_le_iff (m := b.toNat + 2 * toNat hs)
    (n := (i.upper.testBit k).toNat + 2 * (i.lower / 2 ^ (k + 1))) hy hU
  have hbounds := block_le_iff (m := (!i.upper.testBit k).toNat + 2 * (i.lower / 2 ^ (k + 1)))
    (n := (i.upper.testBit k).toNat + 2 * (i.lower / 2 ^ (k + 1))) hL hU
  rw [← hlow, ← hx] at hge
  rw [← hup, ← hx] at hle
  rw [← hlow, ← hup] at hbounds
  generalize toNat (ys ++ b :: hs) = x at hge hle ⊢
  unfold InHalf
  -- at the highest difference the upper bound has the one exactly when the interval is proper
  cases hu : i.upper.testBit k with
  | true =>
    rw [hu] at hge hle hbounds
    have hproper : i.lower ≤ i.upper := by simp [hbounds]
    rw [Interval.covers_iff_of_le hproper, hge, hle, if_pos rfl]
    cases b <;> simp <;> omega
  | false =>
    rw [hu] at hge hle hbounds
    have himproper : i.upper < i.lower := by
      rw [← not_le, hbounds]
      simp
    rw [Interval.covers_iff_of_lt himproper, hge, hle, if_neg Bool.false_ne_true]
    cases b <;> simp <;> omega

/-- The two half searches together decide whether the low bits can be chosen. -/
theorem halfSearch_iff {le ge : Bool}
    (hge : ge = true ↔ ∃ ys, Admits v ys ∧ i.lower % 2 ^ k ≤ toNat ys)
    (hle : le = true ↔ ∃ ys, Admits v ys ∧ toNat ys ≤ i.upper % 2 ^ k) :
    (if t = .unknown then le || ge
      else if (t == .knownZero) == i.upper.testBit k then ge else le) = true ↔
      ∃ ys b, Admits v ys ∧ TernaryValue.Admits t b ∧ InHalf i k b ys := by
  have hcases : (∃ ys b, Admits v ys ∧ TernaryValue.Admits t b ∧ InHalf i k b ys) ↔
      (TernaryValue.Admits t (i.upper.testBit k) ∧ le = true) ∨
        (TernaryValue.Admits t (!i.upper.testBit k) ∧ ge = true) := by
    rw [hge, hle]
    constructor
    · intro hx
      obtain ⟨ys, b, hys, hb, hin⟩ := hx
      unfold InHalf at hin
      split at hin
      · rename_i heq
        exact Or.inl ⟨heq ▸ hb, ys, hys, hin⟩
      · rename_i hne
        have hb' : b = !i.upper.testBit k := by
          cases b <;> cases hu : i.upper.testBit k <;> simp_all
        exact Or.inr ⟨hb' ▸ hb, ys, hys, hin⟩
    · rintro (⟨hb, ys, hys, hin⟩ | ⟨hb, ys, hys, hin⟩)
      · exact ⟨ys, _, hys, hb, by rwa [InHalf, if_pos rfl]⟩
      · exact ⟨ys, _, hys, hb, by rwa [InHalf, if_neg (by simp)]⟩
  rw [hcases]
  cases t <;> cases i.upper.testBit k <;> simp [TernaryValue.Admits]

/-- `CoversTernary` of an interval whose bounds differ, at the highest difference. -/
theorem intervalCoversTernary_eq (hlen : v.length = w) (hknown : v.isFullyKnown = false)
    (hprecise : i.isPrecise = false) (hk : commonFrom i.lower i.upper w = k + 1)
    (ht : v[k]? = some t) :
    intervalCoversTernary i v = let proper := i.upper.testBit k
      let lcp := (ofNat w i.lower).drop (k + 1)
      let high : TernaryVector := v.drop (k + 1)
      let lower := ((v.take k).zip (ofNat k i.lower)).reverse
      let upper := ((v.take k).zip (ofNat k i.upper)).reverse
      if proper && !isCompatible high lcp then false
      else if !proper && !(high.isFullyKnown && high.toKnownBitsValues == lcp) then true
      else if t = .unknown then couldBeLe upper || couldBeGe lower
      else if (t == .knownZero) == proper then couldBeGe lower else couldBeLe upper := by
  unfold intervalCoversTernary
  rw [if_neg (by simp [hlen]), if_neg (by simp [hknown]), if_neg (by simp [hprecise])]
  simp only [hk, Nat.add_sub_cancel, ht]
  cases t <;> simp

/-- The high bits of the lower bound. -/
theorem toNat_lcp (i : Interval w) (k : Nat) :
    toNat ((ofNat w i.lower).drop k) = i.lower / 2 ^ k := by
  rw [toNat_drop, toNat_ofNat, mod_eq_of_lt i.lower_lt]

/-- A fully known vector admits one value. -/
theorem intervalCoversTernary_of_isFullyKnown (hlen : v.length = w)
    (hknown : v.isFullyKnown = true) :
    intervalCoversTernary i v = true ↔ ∃ bs, Admits v bs ∧ i.covers (toNat bs) = true := by
  have hrun : intervalCoversTernary i v = i.covers (toNat v.toKnownBitsValues) := by
    unfold intervalCoversTernary
    rw [if_neg (by simp [hlen]), if_pos hknown]
  rw [hrun]
  constructor
  · intro h
    obtain ⟨bs, hbs⟩ := exists_admits v
    refine ⟨bs, hbs, ?_⟩
    rwa [eq_of_isFullyKnown hknown hbs]
  · intro h
    obtain ⟨bs, hbs, hc⟩ := h
    rwa [← eq_of_isFullyKnown hknown hbs]

/-- A precise interval has one value. -/
theorem intervalCoversTernary_of_isPrecise (hlen : v.length = w) (hknown : v.isFullyKnown = false)
    (hprecise : i.isPrecise = true) :
    intervalCoversTernary i v = true ↔ ∃ bs, Admits v bs ∧ i.covers (toNat bs) = true := by
  have heq : i.lower = i.upper := by simpa [Interval.isPrecise] using hprecise
  have hrun : intervalCoversTernary i v = isCompatible v (ofNat w i.lower) := by
    unfold intervalCoversTernary
    rw [if_neg (by simp [hlen]), if_neg (by simp [hknown]), if_pos hprecise]
  rw [hrun, isCompatible, decide_eq_true_iff]
  constructor
  · intro h
    refine ⟨_, h, Interval.covers_of_between ?_ ?_⟩
    · rw [toNat_ofNat, mod_eq_of_lt i.lower_lt]
    · rw [toNat_ofNat, mod_eq_of_lt i.lower_lt, heq]
  · intro h
    obtain ⟨bs, hbs, hc⟩ := h
    obtain ⟨h1, h2⟩ := (Interval.covers_iff_of_le heq.le).1 hc
    have hval : toNat bs = i.lower := by omega
    have hbl : bs.length = w := hbs.length_eq.symm.trans hlen
    rwa [← hval, ← hbl, ofNat_toNat]

/-- Bounds that differ split the values at their highest difference. -/
theorem intervalCoversTernary_of_difference (hlen : v.length = w) (hknown : v.isFullyKnown = false)
    (hprecise : i.isPrecise = false) :
    intervalCoversTernary i v = true ↔ ∃ bs, Admits v bs ∧ i.covers (toNat bs) = true := by
  obtain ⟨k, hk, hkw, hdiv, hbit⟩ := exists_highest_difference hprecise
  obtain ⟨t, ht⟩ : ∃ t, v[k]? = some t := ⟨_, getElem?_eq_getElem (by omega)⟩
  have htake : (v.take k).length = k := by
    rw [length_take]
    omega
  have hge := couldBeGe_iff htake i.lower
  have hle := couldBeLe_iff htake i.upper
  have hlcp := toNat_lcp i (k + 1)
  rw [intervalCoversTernary_eq hlen hknown hprecise hk ht, exists_admits_split ht]
  dsimp only
  generalize hgl : couldBeGe ((v.take k).zip (ofNat k i.lower)).reverse = ge at hge ⊢
  generalize hle' : couldBeLe ((v.take k).zip (ofNat k i.upper)).reverse = le at hle ⊢
  generalize hlc : (ofNat w i.lower).drop (k + 1) = lcp at hlcp ⊢
  have hlcplen : lcp.length = (v.drop (k + 1)).length := by
    rw [← hlc]
    simp [hlen]
  -- high bits that admit agree with the prefix when their value does
  have hlead : ∀ hs, Admits (v.drop (k + 1)) hs →
      toNat hs = i.lower / 2 ^ (k + 1) → hs = lcp := by
    intro hs hhs hval
    exact toNat_inj (by rw [hlcplen, hhs.length_eq]) (hval.trans hlcp.symm)
  have hsplit : ∀ ys, Admits (v.take k) ys → ∀ b hs, _ :=
    fun ys hys => covers_split hdiv hbit (hys.length_eq.symm.trans htake)
  have hhalf := halfSearch_iff (i := i) (k := k) (t := t) hge hle
  cases hu : i.upper.testBit k with
  | true =>
    simp only [hu, if_true] at hsplit hhalf
    by_cases hcompat : isCompatible (v.drop (k + 1)) lcp = true
    · rw [if_neg (by simp [hcompat]), if_neg (by simp), hhalf]
      constructor
      · intro hx
        obtain ⟨ys, b, hys, hb, hin⟩ := hx
        exact ⟨ys, b, lcp, hys, hb, of_decide_eq_true hcompat, (hsplit ys hys b lcp).2 ⟨hlcp, hin⟩⟩
      · intro hx
        obtain ⟨ys, b, hs, hys, hb, -, hc⟩ := hx
        exact ⟨ys, b, hys, hb, ((hsplit ys hys b hs).1 hc).2⟩
    · -- no value has the prefix, and only these are covered
      rw [if_pos (by simp [hcompat])]
      refine iff_of_false Bool.false_ne_true ?_
      intro hx
      obtain ⟨ys, b, hs, hys, -, hhs, hc⟩ := hx
      have heq := hlead hs hhs ((hsplit ys hys b hs).1 hc).1
      exact hcompat (decide_eq_true (heq ▸ hhs))
  | false =>
    simp only [hu, Bool.false_eq_true, if_false] at hsplit hhalf
    rw [if_neg (by simp)]
    by_cases hsame : isFullyKnown (v.drop (k + 1)) = true ∧
        toKnownBitsValues (v.drop (k + 1)) = lcp
    · rw [if_neg (by simp [hsame]), hhalf]
      have hadmits := exists_admits (v.drop (k + 1))
      constructor
      · intro hx
        obtain ⟨ys, b, hys, hb, hin⟩ := hx
        obtain ⟨hs, hhs⟩ := hadmits
        exact ⟨ys, b, hs, hys, hb, hhs, (hsplit ys hys b hs).2 (Or.inr hin)⟩
      · intro hx
        obtain ⟨ys, b, hs, hys, hb, hhs, hc⟩ := hx
        refine ⟨ys, b, hys, hb, ((hsplit ys hys b hs).1 hc).resolve_left ?_⟩
        rw [eq_of_isFullyKnown hsame.1 hhs, hsame.2]
        exact not_not.2 hlcp
    · -- some value leaves the prefix, and everything else is covered
      have hleave : (!(isFullyKnown (v.drop (k + 1)) &&
          toKnownBitsValues (v.drop (k + 1)) == lcp)) = true := by
        rw [Bool.not_eq_true', ← Bool.not_eq_true, Bool.and_eq_true, beq_iff_eq]
        exact hsame
      rw [if_pos (by rw [hleave]; rfl)]
      refine iff_of_true rfl ?_
      obtain ⟨hs, hhs, hne⟩ := exists_admits_ne hsame
      obtain ⟨ys, hys⟩ := exists_admits (v.take k)
      obtain ⟨bs, hbs⟩ := exists_admits [t]
      cases hbs with
      | @cons _ b _ _ hb _ =>
        refine ⟨ys, b, hs, hys, hb, hhs, (hsplit ys hys b hs).2 (Or.inl ?_)⟩
        exact fun hval => hne (hlead hs hhs hval)

/-- `CoversTernary` is exact: it answers whether the vector has the interval's width and
some value that it admits lies in the interval. -/
theorem intervalCoversTernary_iff (i : Interval w) (v : TernaryVector) :
    intervalCoversTernary i v = true ↔
      v.length = w ∧ ∃ b : Bits, Admits v b.toBools ∧ i.covers b.val = true := by
  have hbools : (∃ b : Bits, Admits v b.toBools ∧ i.covers b.val = true) ↔
      ∃ bs, Admits v bs ∧ i.covers (toNat bs) = true := by
    constructor
    · intro hx
      obtain ⟨b, hb, hc⟩ := hx
      exact ⟨b.toBools, hb, by rwa [Bits.toNat_toBools]⟩
    · intro hx
      obtain ⟨bs, hb, hc⟩ := hx
      exact ⟨Bits.ofBools bs, by rwa [Bits.toBools_ofBools], hc⟩
  rw [hbools]
  by_cases hlen : v.length = w
  · rw [and_iff_right hlen]
    cases hknown : v.isFullyKnown with
    | true => exact intervalCoversTernary_of_isFullyKnown hlen hknown
    | false =>
      cases hprecise : i.isPrecise with
      | true => exact intervalCoversTernary_of_isPrecise hlen hknown hprecise
      | false => exact intervalCoversTernary_of_difference hlen hknown hprecise
  · have hfalse : intervalCoversTernary i v = false := by
      unfold intervalCoversTernary
      rw [if_pos fun h => hlen h.symm]
    simp [hfalse, hlen]

end Xls.IntervalOps

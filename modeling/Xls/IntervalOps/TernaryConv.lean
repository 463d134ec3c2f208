import Xls.IntervalOps.Minimize
import Xls.Ternary

/-!
# Xls.IntervalOps.TernaryConv

The bridges between interval sets and ternary vectors in
`xls/ir/interval_ops.cc`: `ExtractTernaryVector` reads off the bits all points of
a set share, `FromTernary` builds a set around the values a vector admits, and
`CoversTernary` asks whether the two have a value in common.
-/

namespace Xls.IntervalOps

open BoolList TernaryVector Interval Nat
open ProperInterval (Mem)
open IntervalSet

/-! ### Common prefixes -/

/-- One more than the position of the highest differing bit, scanning down from
position `n`: everything at or above it is the common prefix
(`LongestCommonPrefixMSB`). -/
def commonFrom (lo hi : Nat) : Nat → Nat
  | 0 => 0
  | n + 1 => if lo.testBit n == hi.testBit n then commonFrom lo hi n else n + 1

theorem commonFrom_le (lo hi n : Nat) : commonFrom lo hi n ≤ n := by
  induction n with
  | zero => exact le_refl _
  | succ n ih =>
    unfold commonFrom
    split <;> omega

variable {lo hi k : Nat} {v : TernaryVector} {n x : Nat}

/-- Above the common prefix both bounds have the same bits. -/
theorem testBit_eq_of_commonFrom (hk : commonFrom lo hi n ≤ k) (hn : k < n) :
    lo.testBit k = hi.testBit k := by
  induction n with
  | zero => omega
  | succ n ih =>
    unfold commonFrom at hk
    split at hk
    · rename_i heq
      rcases Nat.lt_succ_iff_lt_or_eq.1 hn with h | rfl
      · exact ih hk h
      · exact beq_iff_eq.1 heq
    · omega

/-- Below the common prefix the bounds differ. -/
theorem testBit_ne_of_commonFrom (hk : commonFrom lo hi n = k + 1) :
    lo.testBit k ≠ hi.testBit k := by
  induction n with
  | zero => simp [commonFrom] at hk
  | succ n ih =>
    unfold commonFrom at hk
    split at hk
    · exact ih hk
    · rename_i hne
      obtain rfl : n = k := by omega
      simpa using hne

/-- The bounds share everything above the common prefix position. -/
theorem div_eq_of_commonFrom {w : Nat} (hlo : lo < 2 ^ w) (hhi : hi < 2 ^ w) :
    lo / 2 ^ commonFrom lo hi w = hi / 2 ^ commonFrom lo hi w := by
  refine eq_of_testBit_eq fun i => ?_
  rw [testBit_div_two_pow, testBit_div_two_pow]
  by_cases h : i + commonFrom lo hi w < w
  · exact testBit_eq_of_commonFrom (by omega) h
  · have hle : 2 ^ w ≤ 2 ^ (i + commonFrom lo hi w) := Nat.pow_le_pow_right (by omega) (by omega)
    rw [testBit_lt_two_pow (lt_of_lt_of_le hlo hle), testBit_lt_two_pow (lt_of_lt_of_le hhi hle)]

/-- A number between the bounds shares their prefix. -/
theorem div_eq_of_between {w : Nat} (hhi : hi < 2 ^ w) (h1 : lo ≤ x) (h2 : x ≤ hi) :
    x / 2 ^ commonFrom lo hi w = lo / 2 ^ commonFrom lo hi w := by
  have heq := div_eq_of_commonFrom (lt_of_le_of_lt (h1.trans h2) hhi) hhi
  have ha : lo / 2 ^ commonFrom lo hi w ≤ x / 2 ^ commonFrom lo hi w := Nat.div_le_div_right h1
  have hb : x / 2 ^ commonFrom lo hi w ≤ hi / 2 ^ commonFrom lo hi w := Nat.div_le_div_right h2
  omega

theorem testBit_eq_of_between {w : Nat} (hhi : hi < 2 ^ w) (h1 : lo ≤ x) (h2 : x ≤ hi)
    (hk : commonFrom lo hi w ≤ k) : x.testBit k = lo.testBit k := by
  have h := congrArg (fun n => n.testBit (k - commonFrom lo hi w)) (div_eq_of_between hhi h1 h2)
  simpa [testBit_div_two_pow, Nat.sub_add_cancel hk] using h

/-! ### Reading off known bits -/

variable {w : Nat} {is : List (ProperInterval w)}

/-- `ExtractTernaryInterval`. -/
def extractTernaryInterval (i : ProperInterval w) : TernaryVector :=
  (List.range w).map fun k =>
    if k < commonFrom i.lower i.upper w then .unknown else .ofBool (i.lower.testBit k)

/-- `ExtractTernaryVector`. -/
def extractTernaryVector (s : IntervalSet w) : Result TernaryVector :=
  match s.intervals with
  | [] => .error .check
  | i :: is =>
    .ok (is.foldl (fun result j => intersection result (extractTernaryInterval j))
      (extractTernaryInterval i))

@[simp] theorem length_extractTernaryInterval (i : ProperInterval w) :
    (extractTernaryInterval i).length = w := by
  simp [extractTernaryInterval]

theorem forall₂_range_map {α β : Type} {P : α → β → Prop} {f : Nat → α} {g : Nat → β}
    (h : ∀ k, k < n → P (f k) (g k)) :
    List.Forall₂ P ((List.range n).map f) ((List.range n).map g) := by
  induction n with
  | zero => exact List.Forall₂.nil
  | succ n ih =>
    rw [List.range_succ, List.map_append, List.map_append]
    exact List.rel_append (ih fun k hk => h k (by omega))
      (List.Forall₂.cons (h n (by omega)) List.Forall₂.nil)

theorem boolList_ofNat_eq_map (n x : Nat) : ofNat n x = (List.range n).map x.testBit := by
  refine List.ext_getElem (by simp) fun k h1 h2 => ?_
  rw [getElem_ofNat h1]
  simp

theorem admits_extractTernaryInterval {i : ProperInterval w} (h : Mem x i) :
    Admits (extractTernaryInterval i) (ofNat w x) := by
  rw [boolList_ofNat_eq_map]
  refine forall₂_range_map fun k hk => ?_
  split
  · trivial
  · rename_i hge
    rw [← testBit_eq_of_between i.upper_lt h.1 h.2 (by omega : commonFrom i.lower i.upper w ≤ k)]
    exact TernaryValue.admits_ofBool _

/-- The intersection of what the intervals have in common admits what they cover. -/
theorem admits_foldl_intersection (hv : v.length = w) (h : Admits v (ofNat w x) ∨ Points is x) :
    Admits (is.foldl (fun result j =>
      intersection result (extractTernaryInterval j)) v) (ofNat w x) := by
  induction is generalizing v with
  | nil =>
    rcases h with h | ⟨i, hi, -⟩
    · exact h
    · simp at hi
  | cons j js ih =>
    rw [List.foldl_cons]
    refine ih (by simp [hv]) ?_
    rcases h with h | ⟨i, hi, hx⟩
    · exact Or.inl (h.intersection_left (by simp [hv]))
    · rcases List.mem_cons.1 hi with rfl | hi
      · exact Or.inl (Admits.intersection_right (admits_extractTernaryInterval hx)
          (by simp [hv]))
      · exact Or.inr ⟨i, hi, hx⟩

theorem length_foldl_intersection (hv : v.length = w) :
    (is.foldl (fun result j =>
      intersection result (extractTernaryInterval j)) v).length = w := by
  induction is generalizing v with
  | nil => exact hv
  | cons j js ih => exact ih (by simp [hv])

/-- Every point of the set is admitted by the extracted vector. -/
theorem extractTernaryVector_spec {s : IntervalSet w} (hne : s.isEmpty = false) :
    ∃ v, extractTernaryVector s = .ok v ∧ v.length = w ∧
      ∀ x, s.Covers x → Admits v (ofNat w x) := by
  unfold extractTernaryVector
  cases hs : s.intervals with
  | nil => simp [isEmpty, hs] at hne
  | cons i is =>
    refine ⟨_, rfl, length_foldl_intersection (by simp), fun x hx => ?_⟩
    refine admits_foldl_intersection (by simp) ?_
    obtain ⟨j, hj, hxj⟩ := hx
    rw [hs] at hj
    rcases List.mem_cons.1 hj with rfl | hj
    · exact Or.inl (admits_extractTernaryInterval hxj)
    · exact Or.inr ⟨j, hj, hxj⟩

/-! ### Building a set from a vector -/

/-- The positions from `start` on that are unknown. -/
def unknownFrom (v : TernaryVector) (start : Nat) : List Nat :=
  (List.range v.length).filter fun k => decide (start ≤ k) && (v[k]? == some .unknown)

/-- The number of unknown bits at the low end. -/
def lsbUnknown (v : TernaryVector) : Nat := (v.takeWhile fun t => !t.isKnown).length

/-- The last `maxIntervalBits + 1` unknown positions above the low end: what the
bounded queue holds after the scan. -/
def unknownQueue (v : TernaryVector) (maxIntervalBits : Nat) : List Nat :=
  let xs := unknownFrom v (lsbUnknown v)
  xs.drop (xs.length - (maxIntervalBits + 1))

/-- Where the block of bits treated as unknown ends, and the unknown positions
left above it. -/
def unknownBlock (v : TernaryVector) (maxIntervalBits : Nat) : Nat × List Nat :=
  match unknownQueue v maxIntervalBits with
  | [] => (lsbUnknown v, [])
  | x :: xs =>
    if maxIntervalBits < (x :: xs).length then (x + 1, xs) else (lsbUnknown v, x :: xs)

/-- The interval of values whose bits from `k` on are `high`. -/
def blockInterval (w k : Nat) (high : List Bool) : Interval w :=
  closed (2 ^ k * toNat high) (2 ^ k * toNat high + (2 ^ k - 1))

/-- `FromTernary`; `w` is the length of the vector. -/
def fromTernary (w : Nat) (v : TernaryVector) (maxIntervalBits : Nat) : IntervalSet w :=
  if v.isFullyKnown then
    normalize [closed (toNat v.toKnownBitsValues)
      (toNat v.toKnownBitsValues)]
  else
    let block := unknownBlock v maxIntervalBits
    if block.2.isEmpty then
      normalize [blockInterval w block.1 (toKnownBitsValues (v.drop block.1))]
    else
      normalize ((allBitsValues (v.drop block.1)).map (blockInterval w block.1))

/-- The default bound on the number of intervals' free bits. -/
def defaultIntervalBits : Nat := 4

theorem toNat_split (bs : List Bool) (k : Nat) (hk : k ≤ bs.length) :
    toNat bs = toNat (bs.take k) + 2 ^ k * toNat (bs.drop k) := by
  conv_lhs => rw [← List.take_append_drop k bs]
  rw [toNat_append, List.length_take, min_eq_left hk]

/-- A block of the vector covers the values that agree with its known upper bits. -/
theorem covers_blockInterval {bs : List Bool} (hk : k ≤ bs.length) :
    (blockInterval bs.length k (bs.drop k)).covers (toNat bs) = true := by
  have hsplit := toNat_split bs k hk
  have hlt := toNat_lt (bs.take k)
  rw [List.length_take, min_eq_left hk] at hlt
  have hdrop := toNat_lt (bs.drop k)
  rw [List.length_drop] at hdrop
  have hpow : 2 ^ bs.length = 2 ^ k * 2 ^ (bs.length - k) := by
    rw [← pow_add, Nat.add_sub_cancel' hk]
  have hbound : 2 ^ k * toNat (bs.drop k) + (2 ^ k - 1) < 2 ^ bs.length := by
    rw [hpow]
    have h1 : 2 ^ k * (toNat (bs.drop k) + 1) ≤ 2 ^ k * 2 ^ (bs.length - k) :=
      Nat.mul_le_mul_left _ (by omega)
    have h2 : 0 < 2 ^ k := Nat.two_pow_pos k
    rw [mul_add] at h1
    omega
  refine covers_of_between ?_ ?_
  · rw [blockInterval, closed_lower, mod_eq_of_lt (by omega)]
    omega
  · rw [blockInterval, closed_upper, mod_eq_of_lt hbound]
    omega

theorem lsbUnknown_le (v : TernaryVector) : lsbUnknown v ≤ v.length :=
  (List.takeWhile_prefix _).length_le

theorem mem_unknownFrom {start : Nat} :
    k ∈ unknownFrom v start ↔ start ≤ k ∧ v[k]? = some .unknown := by
  simp only [unknownFrom, List.mem_filter, List.mem_range, Bool.and_eq_true, decide_eq_true_eq,
    beq_iff_eq]
  constructor
  · rintro ⟨-, h⟩
    exact h
  · rintro ⟨h1, h2⟩
    exact ⟨(List.getElem?_eq_some_iff.1 h2).1, h1, h2⟩

theorem pairwise_unknownFrom (v : TernaryVector) (start : Nat) :
    (unknownFrom v start).Pairwise (· < ·) :=
  List.Pairwise.filter _ List.pairwise_lt_range

/-- The block ends inside the vector, and if no unknown position is left above
it there is none. -/
theorem unknownBlock_spec (v : TernaryVector) (n : Nat) :
    (unknownBlock v n).1 ≤ v.length ∧
      ((unknownBlock v n).2 = [] → ∀ k, (unknownBlock v n).1 ≤ k → v[k]? ≠ some .unknown) := by
  have hle := lsbUnknown_le v
  have hpw := pairwise_unknownFrom v (lsbUnknown v)
  unfold unknownBlock
  cases hq : unknownQueue v n with
  | nil =>
    refine ⟨hle, fun _ k hk hunk => ?_⟩
    have hmem := mem_unknownFrom.2 ⟨hk, hunk⟩
    unfold unknownQueue at hq
    rw [List.drop_eq_nil_iff] at hq
    have : 0 < (unknownFrom v (lsbUnknown v)).length := List.length_pos_of_mem hmem
    omega
  | cons x xs =>
    have hx : x ∈ unknownFrom v (lsbUnknown v) := by
      have : x ∈ unknownQueue v n := by rw [hq]; exact List.mem_cons_self
      exact List.mem_of_mem_drop this
    have hxlen : x < v.length :=
      (List.getElem?_eq_some_iff.1 (mem_unknownFrom.1 hx).2).1
    dsimp only
    split
    · refine ⟨hxlen, fun hnil k hk hunk => ?_⟩
      simp only at hnil hk
      subst hnil
      -- the queue is the last position alone, so nothing above it is unknown
      have hmem := mem_unknownFrom.2 ⟨(mem_unknownFrom.1 hx).1.trans (by omega), hunk⟩
      unfold unknownQueue at hq
      dsimp only at hq
      rw [← List.take_append_drop ((unknownFrom v (lsbUnknown v)).length - (n + 1))
        (unknownFrom v (lsbUnknown v)), hq] at hmem hpw
      rw [List.pairwise_append] at hpw
      rcases List.mem_append.1 hmem with hk' | hk'
      · have := hpw.2.2 k hk' x (List.mem_singleton.2 rfl)
        omega
      · have := List.mem_singleton.1 hk'
        omega
    · exact ⟨hle, fun hnil => by simp at hnil⟩

/-- No unknown bit from a place on. -/
theorem isFullyKnown_drop (h : ∀ j, k ≤ j → v[j]? ≠ some .unknown) :
    isFullyKnown (v.drop k) = true := by
  rw [isFullyKnown, List.all_eq_true]
  intro t ht
  obtain ⟨j, hj⟩ := List.getElem?_of_mem ht
  rw [List.getElem?_drop] at hj
  have hne := h (k + j) (by omega)
  rw [hj] at hne
  cases t
  · rfl
  · rfl
  · exact absurd rfl hne

/-- `FromTernary` covers every value its vector admits. -/
theorem covers_fromTernary {bs : List Bool} (h : Admits v bs) (n : Nat) {w : Nat}
    (hw : bs.length = w) : (fromTernary w v n).Covers (toNat bs) := by
  subst hw
  have hlt := toNat_lt bs
  unfold fromTernary
  split
  · rename_i hk
    rw [← eq_of_isFullyKnown hk h]
    refine covers_normalize_of_raw hlt (List.mem_singleton.2 rfl) (covers_of_between ?_ ?_)
    · exact mod_le _ _
    · exact (mod_eq_of_lt hlt).ge
  · obtain ⟨hlen, hknown⟩ := unknownBlock_spec v n
    rw [h.length_eq] at hlen
    have hdrop : Admits (v.drop (unknownBlock v n).1)
        (bs.drop (unknownBlock v n).1) := List.forall₂_drop _ h
    dsimp only
    split
    · rename_i hempty
      have hk := isFullyKnown_drop (hknown (List.isEmpty_iff.1 hempty))
      rw [← eq_of_isFullyKnown hk hdrop]
      exact covers_normalize_of_raw hlt (List.mem_singleton.2 rfl) (covers_blockInterval hlen)
    · exact covers_normalize_of_raw hlt
        (List.mem_map.2 ⟨_, mem_allBitsValues.2 hdrop, rfl⟩)
        (covers_blockInterval hlen)

/-! ### Common values -/

/-- `IsCompatible`. -/
def isCompatible (v : TernaryVector) (bs : List Bool) : Bool := decide (Admits v bs)

/-- `could_be_le`, on the positions from the most significant down. -/
def couldBeLe : List (TernaryValue × Bool) → Bool
  | [] => true
  | (t, true) :: rest => if t = .knownOne then couldBeLe rest else true
  | (t, false) :: rest => if t = .knownOne then false else couldBeLe rest

/-- `could_be_ge`, on the positions from the most significant down. -/
def couldBeGe : List (TernaryValue × Bool) → Bool
  | [] => true
  | (t, true) :: rest => if t = .knownZero then false else couldBeGe rest
  | (t, false) :: rest => if t = .knownZero then couldBeGe rest else true

/-- `CoversTernary` for one interval. -/
def intervalCoversTernary (i : Interval w) (v : TernaryVector) : Bool :=
  if w ≠ v.length then false
  else if v.isFullyKnown then i.covers (toNat v.toKnownBitsValues)
  else if i.isPrecise then isCompatible v (ofNat w i.lower)
  else
    let k := commonFrom i.lower i.upper w
    let proper := i.upper.testBit (k - 1)
    let lcp := (ofNat w i.lower).drop k
    let high : TernaryVector := v.drop k
    if proper && !isCompatible high lcp then false
    else if !proper && !(high.isFullyKnown && high.toKnownBitsValues == lcp) then true
    else
      let lower := ((v.take (k - 1)).zip (ofNat (k - 1) i.lower)).reverse
      let upper := ((v.take (k - 1)).zip (ofNat (k - 1) i.upper)).reverse
      match v[k - 1]? with
      | some .unknown => couldBeLe upper || couldBeGe lower
      | some x => if (x == .knownZero) == proper then couldBeGe lower else couldBeLe upper
      | none => false

theorem toNat_reverse_cons (b : Bool) (bs : List Bool) :
    toNat (b :: bs).reverse = toNat bs.reverse + 2 ^ bs.length * b.toNat := by
  rw [List.reverse_cons, toNat_append]
  simp

/-- The bits of two numbers, most significant first, with the vector that admits
the first. -/
theorem couldBeLe_of_le {xs ls : List Bool} (hv : Admits v xs)
    (hlen : v.length = ls.length) (hle : toNat xs.reverse ≤ toNat ls.reverse) :
    couldBeLe (v.zip ls) = true := by
  induction hv generalizing ls with
  | nil => rfl
  | @cons t x ts xs ht hrest ih =>
    cases ls with
    | nil => simp at hlen
    | cons l ls =>
      have hl : ts.length = ls.length := succ.inj hlen
      have hxl : xs.length = ls.length := by rw [← hl, hrest.length_eq]
      rw [toNat_reverse_cons, toNat_reverse_cons, hxl] at hle
      have hlt := toNat_lt ls.reverse
      rw [List.length_reverse] at hlt
      rw [List.zip_cons_cons]
      cases l with
      | true =>
        unfold couldBeLe
        split
        · rename_i h1
          obtain rfl : x = true := by rw [h1] at ht; exact ht
          exact ih hl (by simpa using hle)
        · rfl
      | false =>
        have hx : x = false := by
          cases x
          · rfl
          · simp at hle
            omega
        subst hx
        unfold couldBeLe
        split
        · rename_i h1
          rw [h1] at ht
          cases ht
        · exact ih hl (by simpa using hle)

/-- If an admitted value is not below the limit, the comparison of the vectors says so. -/
theorem couldBeGe_of_ge {xs ls : List Bool} (hv : Admits v xs)
    (hlen : v.length = ls.length) (hle : toNat ls.reverse ≤ toNat xs.reverse) :
    couldBeGe (v.zip ls) = true := by
  induction hv generalizing ls with
  | nil => rfl
  | @cons t x ts xs ht hrest ih =>
    cases ls with
    | nil => simp at hlen
    | cons l ls =>
      have hl : ts.length = ls.length := succ.inj hlen
      have hxl : xs.length = ls.length := by rw [← hl, hrest.length_eq]
      rw [toNat_reverse_cons, toNat_reverse_cons, hxl] at hle
      have hlt := toNat_lt xs.reverse
      rw [List.length_reverse, hxl] at hlt
      rw [List.zip_cons_cons]
      cases l with
      | true =>
        have hx : x = true := by
          cases x
          · simp at hle
            omega
          · rfl
        subst hx
        unfold couldBeGe
        split
        · rename_i h1
          rw [h1] at ht
          cases ht
        · exact ih hl (by simpa using hle)
      | false =>
        unfold couldBeGe
        split
        · rename_i h1
          obtain rfl : x = false := by rw [h1] at ht; exact ht
          exact ih hl (by simpa using hle)
        · rfl

/-- Zipping commutes with reversing lists of one length. -/
theorem zip_reverse_of_length_eq {α β : Type} {as : List α} {bs : List β}
    (h : as.length = bs.length) : (as.zip bs).reverse = as.reverse.zip bs.reverse := by
  induction as generalizing bs with
  | nil =>
    obtain rfl : bs = [] := List.eq_nil_of_length_eq_zero h.symm
    rfl
  | cons a as ih =>
    cases bs with
    | nil => simp at h
    | cons b bs =>
      have hl := succ.inj h
      rw [List.zip_cons_cons, List.reverse_cons, ih hl, List.reverse_cons, List.reverse_cons,
        List.zip_append (by simpa using hl)]
      rfl

end Xls.IntervalOps

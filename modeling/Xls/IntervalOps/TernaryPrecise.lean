import Xls.IntervalOps.CoversExact
import Xls.IntervalSet.Canonical

/-!
# Xls.IntervalOps.TernaryPrecise

How precise the conversions between interval sets and ternary vectors are
(`ternaryConversions_precise`). Below the highest bit in which the bounds of an interval
differ every bit takes both values in the interval, so `ExtractTernaryVector` loses no known
bit. `FromTernary` makes at most `2 ^ max_interval_bits` intervals, and covers nothing that
its vector does not admit as long as no unknown bit above the low end has to be blurred.
-/

namespace Xls.IntervalOps

open TernaryVector BoolList Nat
open ProperInterval (Mem)
open IntervalSet

/-! ### The bits in an interval -/

variable {j k : Nat} {c : Bool} {v : TernaryVector} {hs : List Bool}

/-- Below the common prefix of the bounds, every bit takes both values between them. -/
theorem exists_between_testBit {w lo hi : Nat} (hle : lo ≤ hi) (hhi : hi < 2 ^ w)
    (hj : j < commonFrom lo hi w) (c : Bool) : ∃ x, lo ≤ x ∧ x ≤ hi ∧ x.testBit j = c := by
  obtain ⟨k, hk⟩ : ∃ k, commonFrom lo hi w = k + 1 := ⟨commonFrom lo hi w - 1, by omega⟩
  have hdiv := div_eq_of_commonFrom (lt_of_le_of_lt hle hhi) hhi
  have hne := testBit_ne_of_commonFrom hk
  rw [hk] at hdiv hj
  have hlow := split_at_bit lo k
  have hup := split_at_bit hi k
  rw [← hdiv] at hup
  have hpos : 0 < 2 ^ k := Nat.two_pow_pos k
  have hL : lo % 2 ^ k < 2 ^ k := mod_lt _ hpos
  have hU : hi % 2 ^ k < 2 ^ k := mod_lt _ hpos
  -- the upper bound has the one
  have hbits : lo.testBit k = false ∧ hi.testBit k = true := by
    have horder := block_le_iff (m := (lo.testBit k).toNat + 2 * (lo / 2 ^ (k + 1)))
      (n := (hi.testBit k).toNat + 2 * (lo / 2 ^ (k + 1))) hL hU
    rw [← hlow, ← hup, iff_true_left hle] at horder
    cases hl : lo.testBit k with
    | false =>
      rw [hl] at hne
      exact ⟨rfl, Bool.eq_not_of_ne (Ne.symm hne)⟩
    | true =>
      have hu : hi.testBit k = false := Bool.eq_not_of_ne (Ne.symm (hl ▸ hne))
      rw [hl, hu] at horder
      simp at horder
  rw [hbits.1] at hlow
  rw [hbits.2] at hup
  simp only [Bool.toNat_false, Bool.toNat_true, Nat.zero_add, Nat.mul_add, Nat.mul_one]
    at hlow hup
  rcases Nat.lt_succ_iff_lt_or_eq.1 hj with hjk | rfl
  · -- the middle of the interval: the prefix, a zero and ones, or the prefix, a one and zeroes
    cases c with
    | true =>
      refine ⟨2 ^ k * (2 * (lo / 2 ^ (k + 1))) + (2 ^ k - 1), by omega, by omega, ?_⟩
      rw [testBit_two_pow_mul_add _ (by omega), if_pos hjk, testBit_two_pow_sub_one]
      simpa using hjk
    | false =>
      have hmiddle := Nat.mul_add (2 ^ k) (2 * (lo / 2 ^ (k + 1))) 1
      refine ⟨2 ^ k * (2 * (lo / 2 ^ (k + 1)) + 1) + 0, by omega, by omega, ?_⟩
      rw [testBit_two_pow_mul_add _ hpos, if_pos hjk, zero_testBit]
  · cases c with
    | true => exact ⟨hi, hle, le_refl _, hbits.2⟩
    | false => exact ⟨lo, le_refl _, hle, hbits.1⟩

variable {w : Nat} {i : ProperInterval w}

/-- A bit has one value over an interval exactly from the common prefix on. -/
theorem forall_testBit_iff :
    (∀ x, Mem x i → x.testBit j = c) ↔
      commonFrom i.lower i.upper w ≤ j ∧ i.lower.testBit j = c := by
  constructor
  · intro h
    refine ⟨?_, h i.lower ⟨le_refl _, i.le⟩⟩
    by_contra hlt
    obtain ⟨x, h1, h2, hx⟩ :=
      exists_between_testBit (w := w) i.le i.upper_lt (Nat.not_le.1 hlt) (!c)
    rw [h x ⟨h1, h2⟩] at hx
    cases c <;> cases hx
  · intro h x hx
    rw [testBit_eq_of_between i.upper_lt hx.1 hx.2 h.1, h.2]

/-! ### `ExtractTernaryVector` -/

theorem ofBool_ne_unknown (c : Bool) : TernaryValue.ofBool c ≠ .unknown := by
  cases c <;> simp [TernaryValue.ofBool]

theorem ofBool_inj {b : Bool} : TernaryValue.ofBool b = TernaryValue.ofBool c ↔ b = c := by
  cases b <;> cases c <;> simp [TernaryValue.ofBool]

/-- The meet is known only where both are, and agree. -/
theorem meet_eq_ofBool {s t : TernaryValue} :
    TernaryValue.meet s t = .ofBool c ↔ s = .ofBool c ∧ t = .ofBool c := by
  unfold TernaryValue.meet
  split
  · rename_i heq
    rw [heq, and_self]
  · rename_i hne
    constructor
    · intro h
      exact absurd h.symm (ofBool_ne_unknown c)
    · intro h
      exact absurd (h.1.trans h.2.symm) hne

/-- `ExtractTernaryInterval` knows exactly the bits with one value in the interval. -/
theorem extractTernaryInterval_exact (hj : j < w) :
    (extractTernaryInterval i)[j]? = some (.ofBool c) ↔ ∀ x, Mem x i → x.testBit j = c := by
  rw [forall_testBit_iff, extractTernaryInterval, List.getElem?_map, List.getElem?_range hj]
  simp only [Option.map_some, Option.some.injEq]
  split
  · rename_i hlt
    refine iff_of_false (ofBool_ne_unknown c).symm ?_
    omega
  · rename_i hge
    rw [ofBool_inj, and_iff_right (Nat.not_lt.1 hge)]

theorem getElem?_intersection {a b : TernaryVector} (hlen : a.length = b.length) :
    (intersection a b)[j]? = some (.ofBool c) ↔
      a[j]? = some (.ofBool c) ∧ b[j]? = some (.ofBool c) := by
  rw [intersection, List.getElem?_zipWith]
  by_cases hj : j < a.length
  · rw [List.getElem?_eq_getElem hj, List.getElem?_eq_getElem (hlen ▸ hj)]
    simpa using meet_eq_ofBool
  · rw [List.getElem?_eq_none (Nat.not_lt.1 hj)]
    simp

/-- Intersecting with the vectors of more intervals keeps the bits they agree on. -/
theorem foldl_intersection_exact {is : List (ProperInterval w)} (hv : v.length = w) (hj : j < w) :
    (is.foldl (fun result i => intersection result (extractTernaryInterval i))
        v)[j]? = some (.ofBool c) ↔
      v[j]? = some (.ofBool c) ∧ ∀ x, Points is x → x.testBit j = c := by
  induction is generalizing v with
  | nil => simp [Points]
  | cons i is ih =>
    have hcons : (∀ x, Points (i :: is) x → x.testBit j = c) ↔
        (∀ x, Mem x i → x.testBit j = c) ∧ ∀ x, Points is x → x.testBit j = c := by
      simp [Points, or_imp, forall_and]
    rw [List.foldl_cons, ih (by simp [hv]), getElem?_intersection (by simp [hv]),
      extractTernaryInterval_exact hj, hcons, and_assoc]

/-- `ExtractTernaryVector` returns on a set that is not empty, and marks a bit known with a
value exactly if all points have that value in the bit. -/
theorem extractTernaryVector_exact {s : IntervalSet w} (hne : s.isEmpty = false) :
    ∃ v, extractTernaryVector s = .ok v ∧ v.length = w ∧
      ∀ j < w, ∀ c : Bool, v[j]? = some (.ofBool c) ↔ ∀ x, s.Covers x → x.testBit j = c := by
  unfold extractTernaryVector
  cases hs : s.intervals with
  | nil => simp [isEmpty, hs] at hne
  | cons i is =>
    refine ⟨_, rfl, length_foldl_intersection (by simp), ?_⟩
    intro j hj c
    rw [foldl_intersection_exact (by simp) hj, extractTernaryInterval_exact hj]
    simp only [Covers, hs, Points, List.mem_cons, or_and_right, exists_or, exists_eq_left, or_imp,
      forall_and]

/-! ### `FromTernary` -/

/-- The unknown bits above the run of unknown bits at the low end. -/
def unknownAbove (v : TernaryVector) : Nat :=
  (v.dropWhile fun t => !t.isKnown).countP fun t => !t.isKnown

theorem drop_lsbUnknown (v : TernaryVector) :
    v.drop (lsbUnknown v) = v.dropWhile fun t => !t.isKnown := by
  unfold lsbUnknown
  induction v with
  | nil => rfl
  | cons t v ih =>
    rw [List.takeWhile_cons, List.dropWhile_cons]
    split
    · simpa using ih
    · rfl

/-- As many unknown places as there are unknown bits. -/
theorem length_unknownFrom (v : TernaryVector) (start : Nat) :
    (unknownFrom v start).length = (v.drop start).countP fun t => !t.isKnown := by
  rw [unknownFrom, ← List.countP_eq_length_filter]
  induction v generalizing start with
  | nil => simp
  | cons t v ih =>
    rw [List.length_cons, List.range_succ_eq_map, List.countP_cons, List.countP_map]
    cases start with
    | zero =>
      have hrest := ih 0
      rw [List.drop_zero] at hrest ⊢
      rw [List.countP_cons, ← hrest]
      have hhead : (decide (0 ≤ 0) && (t :: v)[0]? == some TernaryValue.unknown) =
          !t.isKnown := by
        cases t <;> rfl
      rw [hhead]
      congr 1
    | succ start =>
      rw [List.drop_succ_cons, ← ih start, if_neg (by simp), Nat.add_zero]
      refine List.countP_congr ?_
      simp

/-- Above a position at or beyond the start, the unknown positions are a filter of those
from the start on. -/
theorem unknownFrom_filter {start : Nat} (h : start ≤ k) :
    unknownFrom v k = (unknownFrom v start).filter fun j => decide (k ≤ j) := by
  rw [unknownFrom, unknownFrom, List.filter_filter]
  refine List.filter_congr ?_
  intro j _
  by_cases hk : k ≤ j
  · simp [hk, h.trans hk]
  · simp [hk]

/-- The number of values that a vector admits. -/
theorem length_allBitsValues (v : TernaryVector) :
    (allBitsValues v).length = 2 ^ v.countP fun t => !t.isKnown := by
  induction v with
  | nil => rfl
  | cons t v ih =>
    rw [allBitsValues, List.length_flatMap, List.countP_cons]
    cases t with
    | unknown => simp [TernaryValue.isKnown, ih, pow_succ]
    | _ => simp [TernaryValue.isKnown, ih]

/-- The block leaves at most `n` unknown positions above it; when there are no more than
that, it is the run at the low end. -/
theorem unknownBlock_above (v : TernaryVector) (n : Nat) :
    ((v.drop (unknownBlock v n).1).countP fun t => !t.isKnown) ≤ n ∧
      (unknownAbove v ≤ n → (unknownBlock v n).1 = lsbUnknown v) := by
  have hlen := length_unknownFrom v (lsbUnknown v)
  rw [drop_lsbUnknown] at hlen
  change _ = unknownAbove v at hlen
  have hcount : ∀ k, ((v.drop k).countP fun t => !t.isKnown) = (unknownFrom v k).length :=
    fun k => (length_unknownFrom v k).symm
  unfold unknownBlock
  -- an empty queue means that there is no unknown bit above the first one
  cases hq : unknownQueue v n with
  | nil =>
    have hdrop : (unknownFrom v (lsbUnknown v)).length = 0 := by
      unfold unknownQueue at hq
      rw [List.drop_eq_nil_iff] at hq
      omega
    dsimp only
    refine ⟨?_, fun _ => rfl⟩
    rw [hcount, hdrop]
    exact Nat.zero_le n
  | cons x xs =>
    have hql : (unknownQueue v n).length = min (unknownFrom v (lsbUnknown v)).length (n + 1) := by
      unfold unknownQueue
      rw [List.length_drop]
      omega
    have hsplit : (unknownFrom v (lsbUnknown v)).take
        ((unknownFrom v (lsbUnknown v)).length - (n + 1)) ++ x :: xs =
          unknownFrom v (lsbUnknown v) := by
      rw [← hq]
      exact List.take_append_drop _ _
    rw [hq] at hql
    dsimp only
    split
    · rename_i hbig
      refine ⟨?_, fun hfew => by omega⟩
      -- the queue holds `n` more positions, and everything before it lies below
      have hpw := pairwise_unknownFrom v (lsbUnknown v)
      have hx : lsbUnknown v ≤ x :=
        (mem_unknownFrom.1 (hsplit ▸ List.mem_append_right _ List.mem_cons_self)).1
      rw [← hsplit, List.pairwise_append] at hpw
      rw [hcount, unknownFrom_filter (show lsbUnknown v ≤ x + 1 by omega), ← hsplit,
        List.filter_append, List.filter_cons_of_neg (by simp)]
      have hlow : ((unknownFrom v (lsbUnknown v)).take
          ((unknownFrom v (lsbUnknown v)).length - (n + 1))).filter
            (fun j => decide (x + 1 ≤ j)) = [] := by
        rw [List.filter_eq_nil_iff]
        intro j hj
        have hlt := hpw.2.2 j hj x List.mem_cons_self
        simpa using hlt.le
      rw [hlow, List.nil_append]
      refine (List.length_filter_le _ _).trans ?_
      rw [List.length_cons] at hql
      omega
    · rename_i hsmall
      refine ⟨?_, fun _ => rfl⟩
      rw [hcount]
      dsimp only
      omega

/-- The values whose bits from `k` on are given form an interval that does not wrap. -/
theorem blockInterval_bounds (hw : w = k + hs.length) :
    (blockInterval w k hs).lower = 2 ^ k * toNat hs ∧
      (blockInterval w k hs).upper = 2 ^ k * toNat hs + (2 ^ k - 1) := by
  have hlt := toNat_lt hs
  have hpos : 0 < 2 ^ k := Nat.two_pow_pos k
  have hmul : 2 ^ k * (toNat hs + 1) ≤ 2 ^ k * 2 ^ hs.length := Nat.mul_le_mul_left _ hlt
  rw [← pow_add, ← hw, Nat.mul_add] at hmul
  constructor
  · rw [blockInterval, Interval.closed_lower, mod_eq_of_lt (by omega)]
  · rw [blockInterval, Interval.closed_upper, mod_eq_of_lt (by omega)]

theorem covers_blockInterval_iff (hw : w = k + hs.length) {x : Nat} :
    (blockInterval w k hs).covers x = true ↔ x / 2 ^ k = toNat hs := by
  obtain ⟨hlow, hup⟩ := blockInterval_bounds hw
  have hpos : 0 < 2 ^ k := Nat.two_pow_pos k
  rw [Interval.covers_iff_of_le (by omega), hlow, hup, Nat.div_eq_iff hpos, Nat.mul_comm]
  omega

/-- Normalizing proper intervals makes no more of them. -/
theorem length_normalize_of_proper {l : List (Interval w)} (h : ∀ i ∈ l, i.lower ≤ i.upper) :
    (normalize l).intervals.length ≤ l.length := by
  have hpoints : ∀ x, Points (normalize l).intervals x ↔
      Points (l.pmap (fun i hi => { i with le := hi }) h) x := by
    intro x
    have hpmap : Points (l.pmap (fun i hi => { i with le := hi }) h) x ↔ RawCovers l x := by
      simp only [Points, RawCovers, List.mem_pmap]
      constructor
      · intro hx
        obtain ⟨_, ⟨i, hi, rfl⟩, hm⟩ := hx
        exact ⟨i, hi, (Interval.covers_iff_of_le (h i hi)).2 hm⟩
      · intro hx
        obtain ⟨i, hi, hc⟩ := hx
        exact ⟨_, ⟨i, hi, rfl⟩, (Interval.covers_iff_of_le (h i hi)).1 hc⟩
    by_cases hx : x < 2 ^ w
    · rw [hpmap]
      exact covers_normalize hx
    · refine iff_of_false (fun hc => hx (Covers.lt (s := normalize l) hc)) ?_
      intro hp
      obtain ⟨i, -, hm⟩ := hp
      exact hx hm.lt
  have hle := length_le_of_points (normalize l).normal hpoints
  rwa [List.length_pmap] at hle

/-- The intervals that `FromTernary` makes before it normalizes them. -/
theorem exists_fromTernary (v : TernaryVector) (n : Nat) :
    ∃ l, fromTernary v.length v n = normalize l ∧ l.length ≤ 2 ^ n ∧
      ∀ i ∈ l, ∃ k hs, k ≤ v.length ∧ Admits (v.drop k) hs ∧
        i = blockInterval v.length k hs ∧ (unknownAbove v ≤ n → k ≤ lsbUnknown v) := by
  obtain ⟨hle, hnone⟩ := unknownBlock_spec v n
  obtain ⟨hfew, hlsb⟩ := unknownBlock_above v n
  unfold fromTernary
  split
  · rename_i hk
    refine ⟨_, rfl, Nat.one_le_two_pow, ?_⟩
    intro i hi
    obtain ⟨bs, hbs⟩ := exists_admits v
    refine ⟨0, bs, Nat.zero_le _, by simpa using hbs, ?_, fun _ => Nat.zero_le _⟩
    rw [List.mem_singleton.1 hi, ← eq_of_isFullyKnown hk hbs]
    simp [blockInterval]
  · dsimp only
    split
    · rename_i hempty
      refine ⟨_, rfl, Nat.one_le_two_pow, ?_⟩
      intro i hi
      obtain ⟨hs, hhs⟩ := exists_admits (v.drop (unknownBlock v n).1)
      have hk := isFullyKnown_drop (hnone (List.isEmpty_iff.1 hempty))
      refine ⟨_, hs, hle, hhs, ?_, fun h => (hlsb h).le⟩
      rw [List.mem_singleton.1 hi, ← eq_of_isFullyKnown hk hhs]
    · refine ⟨_, rfl, ?_, ?_⟩
      · rw [List.length_map, length_allBitsValues]
        exact Nat.pow_le_pow_right (by omega) hfew
      · intro i hi
        obtain ⟨hs, hhs, rfl⟩ := List.mem_map.1 hi
        exact ⟨_, hs, hle, mem_allBitsValues.1 hhs, rfl, fun h => (hlsb h).le⟩

theorem block_width (hk : k ≤ v.length) (hhs : Admits (v.drop k) hs) :
    v.length = k + hs.length := by
  rw [← hhs.length_eq, List.length_drop]
  omega

theorem length_fromTernary (v : TernaryVector) (n : Nat) :
    (fromTernary v.length v n).intervals.length ≤ 2 ^ n := by
  obtain ⟨l, hl, hlen, hblocks⟩ := exists_fromTernary v n
  rw [hl]
  refine (length_normalize_of_proper ?_).trans hlen
  intro i hi
  obtain ⟨k, hs, hk, hhs, rfl, -⟩ := hblocks i hi
  obtain ⟨hlow, hup⟩ := blockInterval_bounds (block_width hk hhs)
  rw [hlow, hup]
  exact Nat.le_add_right _ _

/-- The positions of the run at the low end admit any bits. -/
theorem admits_take_of_le (hk : k ≤ lsbUnknown v) {bs : List Bool}
    (hlen : bs.length = (v.take k).length) : Admits (v.take k) bs := by
  have hunknown : ∀ t ∈ v.take k, t = .unknown := by
    intro t ht
    have htake : v.take k = (v.takeWhile fun t => !t.isKnown).take k := by
      rw [List.prefix_iff_eq_take.1 (List.takeWhile_prefix fun t : TernaryValue => !t.isKnown),
        List.take_take]
      exact congrArg (v.take ·) (Nat.min_eq_left hk).symm
    rw [htake] at ht
    have hknown := List.all_eq_true.1 List.all_takeWhile t (List.mem_of_mem_take ht)
    cases t
    · simp [TernaryValue.isKnown] at hknown
    · simp [TernaryValue.isKnown] at hknown
    · rfl
  rw [Admits, List.forall₂_iff_get]
  refine ⟨hlen.symm, ?_⟩
  intro j h1 h2
  rw [hunknown _ (List.get_mem _ _)]
  trivial

/-- Without blurring, `FromTernary` covers only what its vector admits. -/
theorem admits_of_covers_fromTernary {n : Nat} (h : unknownAbove v ≤ n) {x : Nat}
    (hx : (fromTernary v.length v n).Covers x) : Admits v (ofNat v.length x) := by
  obtain ⟨l, hl, -, hblocks⟩ := exists_fromTernary v n
  have hlt := hx.lt
  rw [hl, covers_normalize hlt] at hx
  obtain ⟨i, hi, hc⟩ := hx
  obtain ⟨k, hs, hk, hhs, rfl, hlow⟩ := hblocks i hi
  rw [covers_blockInterval_iff (block_width hk hhs)] at hc
  have hdrop : (ofNat v.length x).drop k = hs := by
    refine toNat_inj ?_ ?_
    · rw [← hhs.length_eq]
      simp
    · rw [toNat_drop, toNat_ofNat, mod_eq_of_lt hlt, hc]
  rw [← List.take_append_drop k v, ← List.take_append_drop k (ofNat _ x)]
  refine List.rel_append (admits_take_of_le (hlow h) (by simp)) ?_
  rwa [List.take_append_drop, hdrop]

/-- The conversions between interval sets and ternary vectors are as precise as they can
be. The vector of a set that is not empty marks a bit known exactly if it has one value
over the set; the set of a vector covers all its values with at most `2 ^ n` intervals, and
nothing else if no more than `n` unknown bits lie above the run at the low end. -/
theorem ternaryConversions_precise (s : IntervalSet w) (t : TernaryVector) (n : Nat) :
    (s.isEmpty = false → ∃ v, extractTernaryVector s = .ok v ∧ v.length = w ∧
      ∀ j < w, ∀ c : Bool, v[j]? = some (.ofBool c) ↔ ∀ x, s.Covers x → x.testBit j = c) ∧
    (∀ b : Bits, Admits t b.toBools → (fromTernary t.length t n).Covers b.val) ∧
    (fromTernary t.length t n).intervals.length ≤ 2 ^ n ∧
    (unknownAbove t ≤ n → ∀ b : Bits, b.width = t.length →
      (fromTernary t.length t n).Covers b.val → Admits t b.toBools) := by
  refine ⟨extractTernaryVector_exact, ?_, length_fromTernary t n, ?_⟩
  · intro b hb
    have hcov := covers_fromTernary hb n hb.length_eq.symm
    rwa [Bits.toNat_toBools] at hcov
  · intro h b hw hcov
    rw [Bits.toBools, hw]
    exact admits_of_covers_fromTernary h hcov

end Xls.IntervalOps

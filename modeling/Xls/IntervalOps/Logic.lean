import Xls.IntervalOps.Arith
import Xls.IntervalOps.TernaryConv

/-!
# Xls.IntervalOps.Logic

The bitwise, reducing and comparing operations of `xls/ir/interval_ops.cc`, and
their soundness. The bitwise ones go through ternary vectors; sets of one-bit
values take a shortcut.
-/

namespace Xls.IntervalOps

open Result BoolList Grow Evaluator TernaryValue ProperInterval Bits List Option
open ProperInterval (Mem)
open IntervalSet

/-- `OneBitRangeToTernary`. -/
def oneBitRangeToTernary (s : IntervalSet 1) : TernaryValue :=
  if s.isPrecise then if s.Covers 0 then .knownZero else .knownOne else .unknown

/-- `TernaryToOneBitRange`. -/
def ternaryToOneBitRange : TernaryValue → IntervalSet 1
  | .knownZero => precise 0 (by decide)
  | .knownOne => precise 1 (by decide)
  | .unknown => maximal 1

/-! ### Bitwise operations -/

/-- `Not`. -/
def not : {w : Nat} → IntervalSet w → Result (IntervalSet w)
  | 1, a => .ok (ternaryToOneBitRange (oneBitRangeToTernary a).not)
  | w, a => do
    let vec ← extractTernaryVector a
    let res ← eval (ternaryEvaluator.bitwiseNot vec)
    return fromTernary w res defaultIntervalBits

/-- The shape shared by `And`, `Or` and `Xor`: the element operation on one-bit
sets, the vector operation on the others. -/
def bitwiseOp (one : TernaryValue → TernaryValue → EvalM Unit TernaryValue)
    (many : List TernaryVector → EvalM Unit TernaryVector) :
    {w : Nat} → IntervalSet w → IntervalSet w → Result (IntervalSet w)
  | 1, a, b => do
    let r ← eval (one (oneBitRangeToTernary a) (oneBitRangeToTernary b))
    return ternaryToOneBitRange r
  | w, a, b => do
    let va ← extractTernaryVector a
    let vb ← extractTernaryVector b
    let res ← eval (many [va, vb])
    return fromTernary w res defaultIntervalBits

def and {w : Nat} (a b : IntervalSet w) : Result (IntervalSet w) :=
  bitwiseOp ternaryEvaluator.and ternaryEvaluator.bitwiseAnd a b

def or {w : Nat} (a b : IntervalSet w) : Result (IntervalSet w) :=
  bitwiseOp ternaryEvaluator.or ternaryEvaluator.bitwiseOr a b

def xor {w : Nat} (a b : IntervalSet w) : Result (IntervalSet w) :=
  bitwiseOp ternaryEvaluator.xor ternaryEvaluator.bitwiseXor a b

variable {w : Nat}

/-! ### Reductions -/

def andReduce (a : IntervalSet w) : IntervalSet 1 :=
  if !decide (a.Covers (2 ^ w - 1)) then ternaryToOneBitRange .knownZero
  else if a.isPrecise then ternaryToOneBitRange .knownOne
  else ternaryToOneBitRange .unknown

def orReduce (a : IntervalSet w) : IntervalSet 1 :=
  if !decide (a.Covers 0) then ternaryToOneBitRange .knownOne
  else if a.isPrecise then ternaryToOneBitRange .knownZero
  else ternaryToOneBitRange .unknown

/-- `XorReduce`: known when all intervals are points of one parity. -/
def xorReduce (a : IntervalSet w) : IntervalSet 1 :=
  match a.intervals with
  | [] => ternaryToOneBitRange .unknown
  | i :: is =>
    if !i.toInterval.isPrecise then ternaryToOneBitRange .unknown
    else
      let output := (Bits.ofNat w i.lower).xorReduce
      if is.any fun j => !j.toInterval.isPrecise || (Bits.ofNat w j.lower).xorReduce != output then
        ternaryToOneBitRange .unknown
      else ternaryToOneBitRange (.ofBool output.isOne)

/-! ### Comparisons -/

def eq (a b : IntervalSet w) : Result (IntervalSet 1) :=
  if a.isPrecise && b.isPrecise then do
    let x ← a.getPreciseValue
    let x ← derefOption x
    let y ← b.getPreciseValue
    let y ← derefOption y
    return ternaryToOneBitRange (.ofBool (x == y))
  else return ternaryToOneBitRange (if disjoint a b then .knownZero else .unknown)

def ne (a b : IntervalSet w) : Result (IntervalSet 1) := do
  let r ← eq a b
  not r

/-- Compare two hulls that do not overlap. -/
def compareHulls (less : ProperInterval w → ProperInterval w → Bool) (a b : IntervalSet w) :
    Result (IntervalSet 1) := do
  let lhsHull ← derefOption a.convexHull
  let rhsHull ← derefOption b.convexHull
  if lhsHull.disjoint rhsHull then
    return ternaryToOneBitRange (.ofBool (less lhsHull rhsHull))
  else return ternaryToOneBitRange .unknown

def ult (a b : IntervalSet w) : Result (IntervalSet 1) := compareHulls lexLt a b

def ugt (a b : IntervalSet w) : Result (IntervalSet 1) :=
  compareHulls (fun l r => lexLt r l) a b

/-- Whether the sign bits of both ends of a set are the given ones. -/
def bothEndsSigned (sign : Bool) (a : IntervalSet w) : Result Bool := do
  let l ← derefOption a.lowerBound
  let u ← derefOption a.upperBound
  return (l.testBit (w - 1) == sign) && (u.testBit (w - 1) == sign)

/-- The value with only the sign bit set, as a set. -/
def signOffset (w : Nat) : IntervalSet w :=
  precise (2 ^ (w - 1) % 2 ^ w) (Nat.mod_lt _ (Nat.two_pow_pos w))

/-- `SLt` and `SGt`: compare unsigned when all signs agree, otherwise after
adding the offset that swaps the halves of the range. A zero-width operand has
no sign bit. -/
def compareSigned (compare : IntervalSet w → IntervalSet w → Result (IntervalSet 1))
    (a b : IntervalSet w) : Result (IntervalSet 1) := do
  checkThat (decide (0 < w))
  let aPositive ← bothEndsSigned false a
  let bPositive ← bothEndsSigned false b
  let aNegative ← bothEndsSigned true a
  let bNegative ← bothEndsSigned true b
  if (aPositive && bPositive) || (aNegative && bNegative) then compare a b
  else
    let a' ← add a (signOffset w)
    let b' ← add b (signOffset w)
    compare a' b'

def slt (a b : IntervalSet w) : Result (IntervalSet 1) := compareSigned ult a b

def sgt (a b : IntervalSet w) : Result (IntervalSet 1) := compareSigned ugt a b

/-! ### Gating and one-hot -/

def gate {v : Nat} (cond : IntervalSet v) (val : IntervalSet w) : IntervalSet w :=
  let zero : IntervalSet w := precise 0 (Nat.two_pow_pos w)
  if cond.isPrecise then if cond.Covers 0 then zero else val
  else if cond.Covers 0 then combine val zero
  else val

def oneHot (val : IntervalSet w) (lsbOrMsb : LsbOrMsb) (maxIntervalBits : Nat) :
    Result (IntervalSet (w + 1)) := do
  let src ← extractTernaryVector val
  let res ← eval (match lsbOrMsb with
    | .lsb => ternaryEvaluator.oneHotLsbToMsb src
    | .msb => ternaryEvaluator.oneHotMsbToLsb src)
  return fromTernary (w + 1) res maxIntervalBits

/-! ### Soundness of one-bit answers -/

theorem covers_ternaryToOneBitRange {t : TernaryValue} {b : Bool} (h : t.Admits b) :
    (ternaryToOneBitRange t).Covers b.toNat := by
  cases t
  · obtain rfl : b = false := h
    exact covers_precise.2 rfl
  · obtain rfl : b = true := h
    exact covers_precise.2 rfl
  · exact covers_maximal (by cases b <;> decide)

/-- A ternary bit of a one-bit set admits what the set covers. -/
theorem admits_oneBitRangeToTernary {s : IntervalSet 1} {b : Bool} (h : s.Covers b.toNat) :
    (oneBitRangeToTernary s).Admits b := by
  unfold oneBitRangeToTernary
  split
  · rename_i hp
    have hget := getPreciseValue_of_covers hp h
    split
    · rename_i h0
      have hget0 := getPreciseValue_of_covers hp h0
      rw [hget] at hget0
      have : b.toNat = 0 := by simpa using hget0
      cases b
      · rfl
      · simp at this
    · rename_i h0
      cases b
      · exact absurd h h0
      · rfl
  · trivial

variable {x y : Nat} {a b : IntervalSet w}

theorem toNat_eq_of_lt_two (h : x < 2 ^ 1) : ∃ b : Bool, x = b.toNat := by
  rcases (show x = 0 ∨ x = 1 by omega) with rfl | rfl
  · exact ⟨false, rfl⟩
  · exact ⟨true, rfl⟩

theorem covers_one_bit_unknown (b : Bool) : (ternaryToOneBitRange .unknown).Covers b.toNat :=
  covers_ternaryToOneBitRange trivial

/-! ### Soundness of the bitwise operations -/

/-- The general case of `Not`, also right for one-bit sets. -/
theorem covers_not (hx : a.Covers x) : ∃ r, not a = .ok r ∧ r.Covers (2 ^ w - 1 - x) := by
  have hne := isEmpty_eq_false_of_covers hx
  obtain ⟨vec, hvec, hlen, hadm⟩ := extractTernaryVector_spec hne
  by_cases h1 : w = 1
  · subst h1
    obtain ⟨b, rfl⟩ := toNat_eq_of_lt_two hx.lt
    refine ⟨_, rfl, ?_⟩
    have := covers_ternaryToOneBitRange (admits_oneBitRangeToTernary hx).not
    cases b <;> exact this
  · obtain ⟨res, hres, -⟩ := (ternaryEvaluator_total.bitwiseNot (anyTernary_all vec)).eval
    have hsound := ternaryEvaluator_sound.bitwiseNot (hadm x hx) (returns_of_eval hres)
    have hc := covers_fromTernary hsound defaultIntervalBits (w := w) (by simp)
    rw [toNat_map_not, toNat_ofNat, length_ofNat, Nat.mod_eq_of_lt hx.lt] at hc
    refine ⟨_, ?_, hc⟩
    unfold not
    split
    · exact absurd rfl h1
    · rw [hvec, ok_bind, hres, ok_bind]
      rfl

/-- A bitwise operation goes through ternary vectors and back. -/
theorem covers_bitwiseOp {one : TernaryValue → TernaryValue → EvalM Unit TernaryValue}
    {many : List TernaryVector → EvalM Unit TernaryVector} {g : Bool → Bool → Bool}
    (hone : ∀ s t r x y, s.Admits x → t.Admits y → Returns () (one s t) r → r.Admits (g x y))
    (honeT : TotalBinary AnyTernary () one)
    (hmany : ∀ vs bs r, Forall₂ TernaryVector.Admits vs bs → Returns () (many vs) r →
      TernaryVector.Admits r (naryBits g bs)) (hmanyT : ∀ vs n, vs ≠ [] → (∀ v ∈ vs, v.length = n) →
      Ensures () (many vs) fun t r => r.length = n ∧ AllValid AnyTernary t r)
    (hx : a.Covers x) (hy : b.Covers y) :
    ∃ r, bitwiseOp one many a b = .ok r ∧
      r.Covers (BoolList.toNat (zipWith g (BoolList.ofNat w x) (BoolList.ofNat w y))) := by
  by_cases h1 : w = 1
  · subst h1
    obtain ⟨p, rfl⟩ := toNat_eq_of_lt_two hx.lt
    obtain ⟨q, rfl⟩ := toNat_eq_of_lt_two hy.lt
    obtain ⟨r, hr, -⟩ := (honeT () (oneBitRangeToTernary a) (oneBitRangeToTernary b) (le_refl _)
      trivial trivial).eval
    have hs := hone _ _ _ _ _ (admits_oneBitRangeToTernary hx) (admits_oneBitRangeToTernary hy)
      (returns_of_eval hr)
    refine ⟨ternaryToOneBitRange r, ?_, ?_⟩
    · rw [bitwiseOp, hr]
      rfl
    · have hbit : ∀ z : Bool, BoolList.ofNat 1 z.toNat = [z] := by decide
      rw [hbit, hbit]
      simpa using covers_ternaryToOneBitRange hs
  · obtain ⟨va, hva, hla, hadma⟩ := extractTernaryVector_spec (isEmpty_eq_false_of_covers hx)
    obtain ⟨vb, hvb, hlb, hadmb⟩ := extractTernaryVector_spec (isEmpty_eq_false_of_covers hy)
    obtain ⟨res, hres, -⟩ := (hmanyT [va, vb] w (by simp) (by simp [hla, hlb])).eval
    have hs := hmany _ _ _ (Forall₂.cons (hadma x hx)
      (Forall₂.cons (hadmb y hy) Forall₂.nil)) (returns_of_eval hres)
    have hc := covers_fromTernary hs defaultIntervalBits (w := w) (by simp [naryBits])
    refine ⟨_, ?_, hc⟩
    unfold bitwiseOp
    split
    · exact absurd rfl h1
    · rw [hva, ok_bind, hvb, ok_bind, hres, ok_bind]
      rfl

theorem covers_and (hx : a.Covers x) (hy : b.Covers y) :
    ∃ r, and a b = .ok r ∧ r.Covers (x &&& y) := by
  have h := covers_bitwiseOp (g := Bool.and)
    (fun _ _ _ _ _ ha hb hr => ternaryEvaluator_sound.and ha hb hr)
    (fun _ _ _ _ => ternaryEvaluator_total.and)
    (fun _ _ _ hv hr => ternaryEvaluator_sound.bitwiseAnd hv hr)
    (fun _ _ hne hlen => ensures_naryOp ternaryEvaluator_total.monotonic
      (fun _ _ _ _ => ternaryEvaluator_total.and) hne (fun v _ => anyTernary_all v) hlen) hx hy
  rwa [toNat_zipWith_and (by simp), toNat_ofNat, toNat_ofNat,
    Nat.mod_eq_of_lt hx.lt, Nat.mod_eq_of_lt hy.lt] at h

theorem covers_or (hx : a.Covers x) (hy : b.Covers y) :
    ∃ r, or a b = .ok r ∧ r.Covers (x ||| y) := by
  have h := covers_bitwiseOp (g := Bool.or)
    (fun _ _ _ _ _ ha hb hr => ternaryEvaluator_sound.or ha hb hr)
    (fun _ _ _ _ => ternaryEvaluator_total.or)
    (fun _ _ _ hv hr => ternaryEvaluator_sound.bitwiseOr hv hr)
    (fun _ _ hne hlen => ensures_naryOp ternaryEvaluator_total.monotonic
      (fun _ _ _ _ => ternaryEvaluator_total.or) hne (fun v _ => anyTernary_all v) hlen) hx hy
  rwa [toNat_zipWith_or (by simp), toNat_ofNat, toNat_ofNat,
    Nat.mod_eq_of_lt hx.lt, Nat.mod_eq_of_lt hy.lt] at h

theorem covers_xor (hx : a.Covers x) (hy : b.Covers y) :
    ∃ r, xor a b = .ok r ∧ r.Covers (x ^^^ y) := by
  have h := covers_bitwiseOp (g := Bool.xor)
    (fun _ _ _ _ _ ha hb hr => ternaryEvaluator_sound.xor ha hb hr)
    (fun _ _ _ _ => ternaryEvaluator_total.xor)
    (fun _ _ _ hv hr => ternaryEvaluator_sound.bitwiseXor hv hr)
    (fun _ _ hne hlen => ensures_naryOp ternaryEvaluator_total.monotonic
      (fun _ _ _ _ => ternaryEvaluator_total.xor) hne (fun v _ => anyTernary_all v) hlen) hx hy
  rwa [toNat_zipWith_xor (by simp), toNat_ofNat, toNat_ofNat,
    Nat.mod_eq_of_lt hx.lt, Nat.mod_eq_of_lt hy.lt] at h

/-! ### Soundness of reductions and comparisons -/

/-- The only point of a precise set. -/
theorem eq_of_isPrecise (hp : a.isPrecise = true) (hx : a.Covers x) (hy : a.Covers y) : x = y := by
  have h1 := getPreciseValue_of_covers hp hx
  have h2 := getPreciseValue_of_covers hp hy
  rw [h1] at h2
  simpa using h2

/-- The conjunction of all bits. -/
theorem covers_andReduce (hx : a.Covers x) : (andReduce a).Covers (x == 2 ^ w - 1).toNat := by
  unfold andReduce
  by_cases hm : a.Covers (2 ^ w - 1)
  · simp only [hm, decide_true, Bool.not_true, Bool.false_eq_true, if_false]
    split
    · rename_i hp
      rw [eq_of_isPrecise hp hx hm]
      exact covers_ternaryToOneBitRange (by simp [Admits])
    · exact covers_one_bit_unknown _
  · simp only [hm, decide_false, Bool.not_false, if_true]
    have hne : x ≠ 2 ^ w - 1 := by
      rintro rfl
      exact hm hx
    exact covers_ternaryToOneBitRange (by simp [Admits, hne])

/-- The disjunction of all bits. -/
theorem covers_orReduce (hx : a.Covers x) : (orReduce a).Covers (x != 0).toNat := by
  unfold orReduce
  by_cases hz : a.Covers 0
  · simp only [hz, decide_true, Bool.not_true, Bool.false_eq_true, if_false]
    split
    · rename_i hp
      rw [eq_of_isPrecise hp hx hz]
      exact covers_ternaryToOneBitRange (by simp [Admits])
    · exact covers_one_bit_unknown _
  · simp only [hz, decide_false, Bool.not_false, if_true]
    have hne : x ≠ 0 := by
      rintro rfl
      exact hz hx
    exact covers_ternaryToOneBitRange (by simp [Admits, hne])

theorem xorReduce_isOne (b : Bits) : b.xorReduce.isOne = (b.popCount % 2 == 1) := by
  unfold Bits.xorReduce isOne
  rw [ofBool_val]
  cases b.popCount % 2 == 1 <;> rfl

/-- The parity of all bits. -/
theorem covers_xorReduce (hx : a.Covers x) :
    (xorReduce a).Covers ((Bits.ofNat w x).popCount % 2 == 1).toNat := by
  unfold xorReduce
  obtain ⟨j, hj, hm⟩ := hx
  cases hs : a.intervals with
  | nil => exact covers_one_bit_unknown _
  | cons i is =>
    rw [hs] at hj
    dsimp only
    split
    · exact covers_one_bit_unknown _
    · rename_i hi
      split
      · exact covers_one_bit_unknown _
      · rename_i hall
        -- the interval of `x` is a point with the common parity
        have hsame : j.toInterval.isPrecise = true ∧
            (Bits.ofNat w j.lower).xorReduce = (Bits.ofNat w i.lower).xorReduce := by
          rcases mem_cons.1 hj with rfl | hj
          · exact ⟨by simpa using hi, rfl⟩
          · have hno : ¬((!j.toInterval.isPrecise ||
                (Bits.ofNat w j.lower).xorReduce != (Bits.ofNat w i.lower).xorReduce) = true) :=
              fun hcon => hall (any_eq_true.2 ⟨j, hj, hcon⟩)
            simpa using hno
        have hpoint : j.lower = j.upper := by simpa [Interval.isPrecise] using hsame.1
        obtain rfl : j.lower = x := by
          have := hm.1
          have := hm.2
          omega
        rw [← hsame.2, xorReduce_isOne]
        exact covers_ternaryToOneBitRange (admits_ofBool _)

/-- Equality is decided when the sets are disjoint or single points. -/
theorem covers_eq (hx : a.Covers x) (hy : b.Covers y) :
    ∃ r, eq a b = .ok r ∧ r.Covers (x == y).toNat := by
  unfold eq
  split
  · rename_i hp
    rw [Bool.and_eq_true] at hp
    rw [getPreciseValue_of_covers hp.1 hx, getPreciseValue_of_covers hp.2 hy]
    exact ⟨_, rfl, covers_ternaryToOneBitRange (admits_ofBool _)⟩
  · refine ⟨_, rfl, ?_⟩
    split
    · rename_i hd
      have hne : x ≠ y := by
        rintro rfl
        exact not_covers_of_disjoint hd hx hy
      exact covers_ternaryToOneBitRange (by simp [Admits, hne])
    · exact covers_one_bit_unknown _

theorem covers_ne (hx : a.Covers x) (hy : b.Covers y) :
    ∃ r, ne a b = .ok r ∧ r.Covers (x != y).toNat := by
  obtain ⟨r, hr, hc⟩ := covers_eq hx hy
  obtain ⟨s, hs, hcs⟩ := covers_not hc
  refine ⟨s, by rw [ne, hr, ok_bind, hs], ?_⟩
  have hval : 2 ^ 1 - 1 - (x == y).toNat = (x != y).toNat := by
    rw [bne]
    cases x == y <;> rfl
  rwa [hval] at hcs

/-- An unsigned comparison looks at the hulls of the sets. -/
theorem covers_compareHulls {less : ProperInterval w → ProperInterval w → Bool}
    {q : Nat → Nat → Bool}
    (hless : ∀ l r x y, ProperInterval.disjoint l r = true → Mem x l → Mem y r → less l r = q x y)
    (hx : a.Covers x) (hy : b.Covers y) :
    ∃ r, compareHulls less a b = .ok r ∧ r.Covers (q x y).toNat := by
  obtain ⟨i, hi, -, -, hmi⟩ := convexHull_spec (intervals_ne_nil hx)
  obtain ⟨j, hj, -, -, hmj⟩ := convexHull_spec (intervals_ne_nil hy)
  unfold compareHulls
  rw [hi, hj]
  simp only [derefOption, ok_bind]
  split
  · rename_i hd
    refine ⟨_, rfl, ?_⟩
    rw [← hless i j x y hd (hmi x hx) (hmj y hy)]
    exact covers_ternaryToOneBitRange (admits_ofBool _)
  · exact ⟨_, rfl, covers_one_bit_unknown _⟩

theorem lexLt_of_disjoint {l r : ProperInterval w} (hd : ProperInterval.disjoint l r = true)
    (hx : Mem x l) (hy : Mem y r) : l.lexLt r = decide (x < y) := by
  rw [ProperInterval.disjoint, Bool.not_eq_true', ← Bool.not_eq_true, overlaps_iff] at hd
  unfold lexLt
  rw [decide_eq_decide]
  obtain ⟨h1, h2⟩ := hx
  obtain ⟨h3, h4⟩ := hy
  omega

theorem covers_ult (hx : a.Covers x) (hy : b.Covers y) :
    ∃ r, ult a b = .ok r ∧ r.Covers (decide (x < y)).toNat :=
  covers_compareHulls (fun _ _ _ _ hd hx hy => lexLt_of_disjoint hd hx hy) hx hy

theorem covers_ugt (hx : a.Covers x) (hy : b.Covers y) :
    ∃ r, ugt a b = .ok r ∧ r.Covers (decide (y < x)).toNat := by
  refine covers_compareHulls (q := fun x y => decide (y < x)) ?_ hx hy
  intro l r x y hd hx hy
  have hd' : ProperInterval.disjoint r l = true := by
    rw [ProperInterval.disjoint, Bool.not_eq_true', ← Bool.not_eq_true, overlaps_iff] at hd ⊢
    omega
  exact lexLt_of_disjoint hd' hy hx

/-! ### Signed comparison -/

theorem bothEndsSigned_of_covers (hx : a.Covers x) (sign : Bool) :
    ∃ l u, a.lowerBound = some l ∧ a.upperBound = some u ∧ l ≤ x ∧ x ≤ u ∧ u < 2 ^ w ∧
      bothEndsSigned sign a = .ok ((l.testBit (w - 1) == sign) && (u.testBit (w - 1) == sign)) := by
  obtain ⟨l, hl, -⟩ := exists_lowerBound (intervals_ne_nil hx)
  obtain ⟨u, hu, huc⟩ := exists_upperBound (intervals_ne_nil hx)
  refine ⟨l, u, hl, hu, lowerBound_le hl hx, le_upperBound hu hx, huc.lt, ?_⟩
  rw [bothEndsSigned, hl, hu]
  rfl

/-- The top bit of a number that fits. -/
theorem testBit_top (hw : 0 < w) (hx : x < 2 ^ w) :
    x.testBit (w - 1) = decide (2 ^ (w - 1) ≤ x) := by
  have hpow : 2 ^ w = 2 * 2 ^ (w - 1) := by
    rw [← pow_succ', Nat.sub_add_cancel hw]
  rw [Nat.testBit_eq_decide_div_mod_eq, decide_eq_decide]
  have hpos := Nat.two_pow_pos (w - 1)
  by_cases h : 2 ^ (w - 1) ≤ x
  · have : x / 2 ^ (w - 1) = 1 := Nat.div_eq_of_lt_le (by omega) (by omega)
    simp [this, h]
  · have : x / 2 ^ (w - 1) = 0 := Nat.div_eq_of_lt (by omega)
    simp [this, h]

/-- Swapping the halves of the range turns the signed order into the unsigned
one. -/
theorem toInt_lt_iff (hw : 0 < w) (hx : x < 2 ^ w) (hy : y < 2 ^ w) :
    (Bits.ofNat w x).toInt < (Bits.ofNat w y).toInt ↔
      (x + 2 ^ (w - 1)) % 2 ^ w < (y + 2 ^ (w - 1)) % 2 ^ w := by
  have hpow : 2 ^ w = 2 * 2 ^ (w - 1) := by
    rw [← pow_succ', Nat.sub_add_cancel hw]
  have hmod : ∀ z, z < 2 ^ w → (z + 2 ^ (w - 1)) % 2 ^ w =
      if z < 2 ^ (w - 1) then z + 2 ^ (w - 1) else z - 2 ^ (w - 1) := by
    intro z hz
    split
    · exact Nat.mod_eq_of_lt (by omega)
    · rw [Nat.mod_eq_sub_mod (by omega), Nat.mod_eq_of_lt (by omega)]
      omega
  rw [hmod x hx, hmod y hy]
  simp only [toInt, ofNat_val, ofNat_width, Nat.mod_eq_of_lt hx, Nat.mod_eq_of_lt hy]
  generalize hp : 2 ^ (w - 1) = p at *
  rw [hpow]
  split <;> split <;> split <;> split <;> omega

/-- On one half of the range the signed order is the unsigned one. -/
theorem toInt_lt_iff_of_same_sign (hw : 0 < w) (hx : x < 2 ^ w) (hy : y < 2 ^ w)
    (hs : 2 ^ (w - 1) ≤ x ↔ 2 ^ (w - 1) ≤ y) :
    (Bits.ofNat w x).toInt < (Bits.ofNat w y).toInt ↔ x < y := by
  have hpow : 2 ^ w = 2 * 2 ^ (w - 1) := by
    rw [← pow_succ', Nat.sub_add_cancel hw]
  simp only [toInt, ofNat_val, ofNat_width, Nat.mod_eq_of_lt hx, Nat.mod_eq_of_lt hy]
  generalize hp : 2 ^ (w - 1) = p at *
  rw [hpow]
  split <;> split <;> omega

theorem covers_signOffset (hw : 0 < w) : (signOffset w).Covers (2 ^ (w - 1)) := by
  have hlt : 2 ^ (w - 1) < 2 ^ w := Nat.pow_lt_pow_right (by omega) (by omega)
  rw [signOffset, covers_precise, Nat.mod_eq_of_lt hlt]

/-- A signed comparison is the unsigned one with the signs moved. -/
theorem covers_compareSigned {compare : IntervalSet w → IntervalSet w → Result (IntervalSet 1)}
    {p : Nat → Nat → Prop} {q : Bits → Bits → Prop} [DecidableRel p] [DecidableRel q]
    (hcmp : ∀ {a b : IntervalSet w} {x y : Nat}, a.Covers x → b.Covers y →
      ∃ r, compare a b = .ok r ∧ r.Covers (decide (p x y)).toNat)
    (hsame : ∀ x y, x < 2 ^ w → y < 2 ^ w → (2 ^ (w - 1) ≤ x ↔ 2 ^ (w - 1) ≤ y) →
      (q (Bits.ofNat w x) (Bits.ofNat w y) ↔ p x y))
    (hoff : ∀ x y, x < 2 ^ w → y < 2 ^ w → (q (Bits.ofNat w x) (Bits.ofNat w y) ↔
      p ((x + 2 ^ (w - 1)) % 2 ^ w) ((y + 2 ^ (w - 1)) % 2 ^ w))) (hw : 0 < w) (hx : a.Covers x)
    (hy : b.Covers y) :
    ∃ r, compareSigned compare a b = .ok r ∧
      r.Covers (decide (q (Bits.ofNat w x) (Bits.ofNat w y))).toNat := by
  obtain ⟨la, ua, hla, hua, hlx, hxu, hult, hap⟩ := bothEndsSigned_of_covers hx false
  obtain ⟨lb, ub, hlb, hub, hly, hyu, hublt, hbp⟩ := bothEndsSigned_of_covers hy false
  obtain ⟨la', ua', hla', hua', -, -, -, han⟩ := bothEndsSigned_of_covers hx true
  obtain ⟨lb', ub', hlb', hub', -, -, -, hbn⟩ := bothEndsSigned_of_covers hy true
  obtain rfl : la = la' := some.inj (hla.symm.trans hla')
  obtain rfl : ua = ua' := some.inj (hua.symm.trans hua')
  obtain rfl : lb = lb' := some.inj (hlb.symm.trans hlb')
  obtain rfl : ub = ub' := some.inj (hub.symm.trans hub')
  unfold compareSigned
  rw [decide_eq_true hw, checkThat_true, ok_bind, hap, ok_bind, hbp, ok_bind,
    han, ok_bind, hbn, ok_bind]
  split
  · rename_i hsign
    have hiff : 2 ^ (w - 1) ≤ x ↔ 2 ^ (w - 1) ≤ y := by
      rw [testBit_top hw (by omega), testBit_top hw hult, testBit_top hw (by omega),
        testBit_top hw hublt] at hsign
      simp only [beq_false, beq_true, Bool.or_eq_true, Bool.and_eq_true, Bool.not_eq_true',
        decide_eq_false_iff_not, decide_eq_true_eq] at hsign
      omega
    obtain ⟨r, hr, hc⟩ := hcmp hx hy
    refine ⟨r, hr, ?_⟩
    rwa [decide_eq_decide.2 (hsame x y hx.lt hy.lt hiff)]
  · obtain ⟨ra, hra, hca⟩ := covers_add hx (covers_signOffset hw)
    obtain ⟨rb, hrb, hcb⟩ := covers_add hy (covers_signOffset hw)
    obtain ⟨r, hr, hc⟩ := hcmp hca hcb
    refine ⟨r, ?_, ?_⟩
    · rw [hra, ok_bind, hrb, ok_bind, hr]
    · rwa [decide_eq_decide.2 (hoff x y hx.lt hy.lt)]

theorem covers_slt (hw : 0 < w) (hx : a.Covers x) (hy : b.Covers y) :
    ∃ r, slt a b = .ok r ∧
      r.Covers (decide ((Bits.ofNat w x).toInt < (Bits.ofNat w y).toInt)).toNat :=
  covers_compareSigned (p := (· < ·)) (q := fun p q => p.toInt < q.toInt) covers_ult
    (fun _ _ hx hy hs => toInt_lt_iff_of_same_sign hw hx hy hs)
    (fun _ _ hx hy => toInt_lt_iff hw hx hy) hw hx hy

theorem covers_sgt (hw : 0 < w) (hx : a.Covers x) (hy : b.Covers y) :
    ∃ r, sgt a b = .ok r ∧
      r.Covers (decide ((Bits.ofNat w y).toInt < (Bits.ofNat w x).toInt)).toNat :=
  covers_compareSigned (p := fun p q => q < p) (q := fun p q => q.toInt < p.toInt) covers_ugt
    (fun _ _ hx hy hs => toInt_lt_iff_of_same_sign hw hy hx hs.symm)
    (fun _ _ hx hy => toInt_lt_iff hw hy hx) hw hx hy

/-! ### Gating and one-hot -/

variable {val : IntervalSet w}

/-- A gate whose condition may be zero adds zero to the set. -/
theorem covers_gate {v : Nat} {cond : IntervalSet v} {c : Nat} (hc : cond.Covers c)
    (hx : val.Covers x) : (gate cond val).Covers (if c = 0 then 0 else x) := by
  have hzero : (precise 0 (Nat.two_pow_pos w) : IntervalSet w).Covers 0 := covers_precise.2 rfl
  unfold gate
  dsimp only
  split
  · rename_i hp
    split
    · rename_i h0
      rw [if_pos (eq_of_isPrecise hp hc h0)]
      exact hzero
    · rename_i h0
      have hne : c ≠ 0 := by
        rintro rfl
        exact h0 hc
      rwa [if_neg hne]
  · split
    · rw [covers_combine]
      by_cases hc0 : c = 0
      · rw [if_pos hc0]
        exact Or.inr hzero
      · rw [if_neg hc0]
        exact Or.inl hx
    · rename_i h0
      have hne : c ≠ 0 := by
        rintro rfl
        exact h0 hc
      rwa [if_neg hne]

/-- The bits of the one-hot code chosen by the priority. -/
def oneHotBits (lsbOrMsb : LsbOrMsb) (bs : List Bool) : List Bool :=
  match lsbOrMsb with
  | .lsb => BoolList.oneHot bs
  | .msb => oneHotMsb bs

/-- The one-hot values are covered, by the priority of the bits. -/
theorem covers_oneHot (lsbOrMsb : LsbOrMsb) (n : Nat) (hx : val.Covers x) :
    ∃ r, oneHot val lsbOrMsb n = .ok r ∧
      r.Covers (BoolList.toNat (oneHotBits lsbOrMsb (BoolList.ofNat w x))) := by
  obtain ⟨src, hsrc, -, hadm⟩ := extractTernaryVector_spec (isEmpty_eq_false_of_covers hx)
  unfold oneHot
  rw [hsrc, ok_bind]
  cases lsbOrMsb with
  | lsb =>
    obtain ⟨res, hres, -⟩ := (ternaryEvaluator_total.oneHotLsbToMsb (anyTernary_all src)).eval
    have hs := ternaryEvaluator_sound.oneHotLsbToMsb (hadm x hx) (returns_of_eval hres)
    dsimp only
    rw [hres]
    exact ⟨_, rfl, covers_fromTernary hs n (by simp)⟩
  | msb =>
    obtain ⟨res, hres, -⟩ := (ternaryEvaluator_total.oneHotMsbToLsb (anyTernary_all src)).eval
    have hs := ternaryEvaluator_sound.oneHotMsbToLsb (hadm x hx) (returns_of_eval hres)
    dsimp only
    rw [hres]
    exact ⟨_, rfl, covers_fromTernary hs n (by simp [oneHotMsb])⟩

end Xls.IntervalOps

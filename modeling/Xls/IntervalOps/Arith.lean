import Xls.IntervalOps.Variadic

/-!
# Xls.IntervalOps.Arith

The arithmetic and bit-moving operations of `xls/ir/interval_ops.cc` on interval
sets, and their soundness: the concrete operation on covered values lands in the
returned set.
-/

namespace Xls.IntervalOps

open Bits Interval List Nat Prod
open ProperInterval (Mem)
open IntervalSet

variable {w v : Nat}

/-! ### Lifting by arity -/

/-- `PerformBinOp`. -/
def performBinOp {out : Nat} (calculate : Nat → Nat → OverflowResult out) (lhs : IntervalSet w)
    (lhsBehavior : ArgumentBehavior) (rhs : IntervalSet v) (rhsBehavior : ArgumentBehavior) :
    Result (IntervalSet out) :=
  performVariadicOp
    (fun bits =>
      match bits with
      | [x, y] => calculate x y
      | _ => .plain 0)
    [lhsBehavior, rhsBehavior] [⟨w, lhs⟩, ⟨v, rhs⟩]

/-- `PerformUnaryOp` for a function without overflow. -/
def performUnaryOp {out : Nat} (calculate : Nat → Nat) (arg : IntervalSet w)
    (behavior : ArgumentBehavior) : Result (IntervalSet out) :=
  performVariadicOp
    (fun bits =>
      match bits with
      | [x] => .plain (calculate x)
      | _ => .plain 0)
    [behavior] [⟨w, arg⟩]

variable {xs : List Nat} {a : IntervalSet w} {b : IntervalSet v} {k : ArgumentBehavior}
  {x y width : Nat}
  {out o : Nat} {behaviors : List ArgumentBehavior} {l : ArgumentBehavior} {g : Nat → Nat}
  {sets : List AnyIntervalSet} {widths : List Nat}

/-- What a choice of intervals must satisfy when the function never reports an
overflow. -/
theorem spans_of_plain {calculate : List Nat → OverflowResult out} {f : List Nat → Int}
    {los his : List Nat} (hplain : ∀ ys, (calculate ys).firstOverflowBit = false)
    (h1 : f los ≤ f xs) (h2 : f xs ≤ f his) (hlap : f his - f los < 2 ^ out) :
    Spans calculate f behaviors los xs his where
  le_left := h1
  le_right := h2
  noOverflow _ _ := hlap
  size _ := hlap
  high _ h := by
    rw [hplain] at h
    cases h
  low h := by
    rw [hplain] at h
    cases h

theorem plain_result_int {n : Nat} :
    (((OverflowResult.plain n : OverflowResult out).result : Nat) : Int) = (n : Int) % 2 ^ out := by
  simp [OverflowResult.plain]

theorem coversAll_pair :
    CoversAll [⟨w, a⟩, ⟨v, b⟩] xs ↔ ∃ x y, xs = [x, y] ∧ a.Covers x ∧ b.Covers y := by
  constructor
  · intro h
    obtain ⟨x, t, hx, ht, rfl⟩ := forall₂_cons_left_iff.1 h
    obtain ⟨y, t', hy, ht', rfl⟩ := forall₂_cons_left_iff.1 ht
    obtain rfl := forall₂_nil_left_iff.1 ht'
    exact ⟨x, y, rfl, hx, hy⟩
  · rintro ⟨x, y, rfl, hx, hy⟩
    exact Forall₂.cons hx (Forall₂.cons hy Forall₂.nil)

theorem coversAll_single : CoversAll [⟨w, a⟩] xs ↔ ∃ x, xs = [x] ∧ a.Covers x := by
  constructor
  · intro h
    obtain ⟨x, t, hx, ht, rfl⟩ := forall₂_cons_left_iff.1 h
    obtain rfl := forall₂_nil_left_iff.1 ht
    exact ⟨x, rfl, hx⟩
  · rintro ⟨x, rfl, hx⟩
    exact Forall₂.cons hx Forall₂.nil

/-- Soundness of a lifted binary function, from the spans of its bounds. -/
theorem covers_performBinOp {g : Nat → Nat → OverflowResult o} (f : Nat → Nat → Int)
    (hcalc : ∀ x y, a.Covers x → b.Covers y → ((g x y).result : Int) = f x y % 2 ^ o)
    (hspan : ∀ p q x y, p.1 ≤ x → x ≤ p.2 → q.1 ≤ y → y ≤ q.2 → a.Covers x → b.Covers y →
      a.Covers (lowEnd k p) → a.Covers (highEnd k p) → b.Covers (lowEnd l q) →
      b.Covers (highEnd l q) → Spans (fun bits =>
          match bits with
          | [x, y] => g x y
          | _ => .plain 0)
        (fun bits =>
          match bits with
          | [x, y] => f x y
          | _ => 0)
        [k, l] [lowEnd k p, lowEnd l q] [x, y] [highEnd k p, highEnd l q]) (hx : a.Covers x)
    (hy : b.Covers y) : ∃ r, performBinOp g a k b l = .ok r ∧ r.Covers (g x y).result := by
  have hcov : CoversAll [⟨w, a⟩, ⟨v, b⟩] [x, y] := coversAll_pair.2 ⟨x, y, rfl, hx, hy⟩
  refine covers_performVariadicOp
    (fun bits =>
      match bits with
      | [x, y] => f x y
      | _ => 0) rfl ?_ ?_ hcov
  · intro xs hxs
    obtain ⟨x, y, rfl, hx, hy⟩ := coversAll_pair.1 hxs
    exact hcalc x y hx hy
  · intro c xs hin hxs hlo hhi
    obtain ⟨x, y, rfl, hx, hy⟩ := coversAll_pair.1 hxs
    obtain ⟨p, t, hp, ht, rfl⟩ := forall₂_cons_left_iff.1 hin
    obtain ⟨q, t', hq, ht', rfl⟩ := forall₂_cons_left_iff.1 ht
    obtain rfl := forall₂_nil_left_iff.1 ht'
    obtain ⟨l1, l2, hl, hl1, hl2⟩ := coversAll_pair.1 hlo
    obtain ⟨u1, u2, hu, hu1, hu2⟩ := coversAll_pair.1 hhi
    cases hl
    cases hu
    exact hspan p q x y hp.1 hp.2 hq.1 hq.2 hx hy hl1 hu1 hl2 hu2

/-- Soundness of a lifted unary function: the bounds give bounds less than one
lap apart. -/
theorem covers_performUnaryOp (f : Nat → Int)
    (hcalc : ∀ x, a.Covers x → ((g x : Nat) : Int) % 2 ^ o = f x % 2 ^ o)
    (hspan : ∀ p x, p.1 ≤ x → x ≤ p.2 → a.Covers x → a.Covers (lowEnd k p) →
      a.Covers (highEnd k p) → f (lowEnd k p) ≤ f x ∧ f x ≤ f (highEnd k p) ∧
        f (highEnd k p) - f (lowEnd k p) < 2 ^ o) (hx : a.Covers x) :
    ∃ r, (performUnaryOp g a k : Result (IntervalSet o)) = .ok r ∧ r.Covers (g x % 2 ^ o) := by
  have hcov : CoversAll [⟨w, a⟩] [x] := coversAll_single.2 ⟨x, rfl, hx⟩
  refine covers_performVariadicOp
    (fun bits =>
      match bits with
      | [x] => f x
      | _ => 0) rfl ?_ ?_ hcov
  · intro xs hxs
    obtain ⟨x, rfl, hx⟩ := coversAll_single.1 hxs
    exact plain_result_int.trans (hcalc x hx)
  · intro c xs hin hxs hlo hhi
    obtain ⟨x, rfl, hx⟩ := coversAll_single.1 hxs
    obtain ⟨p, t, hp, ht, rfl⟩ := forall₂_cons_left_iff.1 hin
    obtain rfl := forall₂_nil_left_iff.1 ht
    obtain ⟨l1, hl, hl1⟩ := coversAll_single.1 hlo
    obtain ⟨u1, hu, hu1⟩ := coversAll_single.1 hhi
    cases hl
    cases hu
    obtain ⟨h1, h2, h3⟩ := hspan p x hp.1 hp.2 hx hl1 hu1
    refine spans_of_plain ?_ h1 h2 h3
    intro ys
    split <;> rfl

/-! ### Arithmetic -/

/-- The ideal sum exceeds the width when the padded sum's top bit is set. -/
def addOverflow (w x y : Nat) : OverflowResult w :=
  ⟨(x + y) % 2 ^ w, mod_lt _ (Nat.two_pow_pos w), decide (2 ^ w ≤ x + y), false⟩

def add (a b : IntervalSet w) : Result (IntervalSet w) :=
  performBinOp (addOverflow w) a monotoneSizePreserving b monotoneSizePreserving

/-- The ideal difference is negative when `x < y`. -/
def subOverflow (w x y : Nat) : OverflowResult w :=
  ⟨(x + 2 ^ w - y) % 2 ^ w, mod_lt _ (Nat.two_pow_pos w), decide (x < y), false⟩

def sub (a b : IntervalSet w) : Result (IntervalSet w) :=
  performBinOp (subOverflow w) a monotoneSizePreserving b antitoneSizePreserving

def neg (a : IntervalSet w) : Result (IntervalSet w) :=
  performUnaryOp (fun x => (ofNat w x).negate.val) a antitoneSizePreserving

/-- The product and whether its top set bit lies past the output, or past one
more bit. -/
def umulOverflow (out x y : Nat) : OverflowResult out :=
  ⟨x * y % 2 ^ out, mod_lt _ (Nat.two_pow_pos out), decide (out < minBitCountUnsigned (x * y)),
    decide (out + 1 < minBitCountUnsigned (x * y))⟩

def umul (a : IntervalSet w) (b : IntervalSet v) (outputBitwidth : Nat) :
    Result (IntervalSet outputBitwidth) :=
  performBinOp (umulOverflow outputBitwidth) a monotoneNonSizePreserving b
    monotoneNonSizePreserving

/-- `bits_ops::UDiv` lifted; the divisor is known not to be zero. -/
def udivNonZero (a : IntervalSet w) (b : IntervalSet v) : Result (IntervalSet w) :=
  performBinOp (fun x y => .plain ((ofNat w x).udiv (ofNat v y)).val) a
    monotoneNonSizePreserving b antitoneNonSizePreserving

/-- The quotients by the non-zero divisors, if there are any. -/
def udivResults (a : IntervalSet w) (nonzeroDivisor : IntervalSet v) : Result (IntervalSet w) :=
  if nonzeroDivisor.isEmpty then .ok (empty w) else udivNonZero a nonzeroDivisor

/-- `UDiv`: a zero divisor adds the all-ones value. -/
def udiv (a : IntervalSet w) (b : IntervalSet v) : Result (IntervalSet w) :=
  if !decide (b.Covers 0) then udivNonZero a b
  else do
    let nonZeroSet ← nonZero v
    let results ← udivResults a (intersect b nonZeroSet)
    return results.addInterval (Interval.precise (2 ^ w - 1) (Bits.two_pow_sub_one_lt w))

/-- `Shrl`; shifting out every bit leaves zero, however large the amount. -/
def shrl (a : IntervalSet w) (b : IntervalSet v) : Result (IntervalSet w) :=
  performBinOp (fun x y => .plain ((ofNat w x).shiftRightLogical y).val) a
    monotoneNonSizePreserving b antitoneNonSizePreserving

/-- The loop of `Decode` over the elements in increasing order; it stops at the
first one that selects no bit. -/
def decodeLoop (width : Nat) : List Nat → List (Interval width)
  | [] => []
  | x :: xs =>
    if width ≤ x then [closed 0 0]
    else closed (2 ^ x) (2 ^ x) :: decodeLoop width xs

def decode (a : IntervalSet w) (width : Nat) : IntervalSet width :=
  normalize (decodeLoop width a.elements)

def signExtend (a : IntervalSet w) (width : Nat) : Result (IntervalSet width) :=
  performUnaryOp (fun x => ((ofNat w x).signExtend width).val) a monotoneSizePreserving

def zeroExtend (a : IntervalSet w) (width : Nat) : Result (IntervalSet width) :=
  performUnaryOp (fun x => ((ofNat w x).zeroExtend width).val) a monotoneSizePreserving

/-- `Truncate`: an interval longer than the output space covers it. -/
def truncate (a : IntervalSet w) (width : Nat) : IntervalSet width :=
  if a.intervals.any fun i => decide (2 ^ width - 1 < i.upper - i.lower) then maximal width
  else normalize (a.intervals.map fun i => closed i.lower i.upper)

/-- `BitSlice`; the start is passed as a 64-bit value. -/
def bitSlice (a : IntervalSet w) (start width : Nat) : Result (IntervalSet width) := do
  let shifted ← shrl a (ofBits (ofNat 64 start))
  return truncate shifted width

/-- The operands of a concatenation, with their widths. -/
def concatBits (widths : List Nat) (xs : List Nat) : Bits :=
  Bits.concat (zipWith ofNat widths xs)

/-- The behaviours of `Concat`'s operands: only the last one preserves sizes. -/
def concatBehaviors : List AnyIntervalSet → List ArgumentBehavior
  | [] => []
  | [_] => [monotoneSizePreserving]
  | _ :: rest => monotoneNonSizePreserving :: concatBehaviors rest

/-- `Concat`; the last operand of an empty list is undefined. -/
def concat (sets : List AnyIntervalSet) : Result (IntervalSet (sets.map Sigma.fst).sum) :=
  if sets.isEmpty then .error .check
  else performVariadicOp (fun xs => .plain (concatBits (sets.map Sigma.fst) xs).val)
    (concatBehaviors sets) sets

/-! ### Soundness of the arithmetic -/

/-- Of two bounds that vary once, one is fixed. -/
theorem variesOnce_pair {b₁ b₂ : ArgumentBehavior} {l₁ l₂ h₁ h₂ : Nat}
    (h : VariesOnce [b₁, b₂] [l₁, l₂] [h₁, h₂]) :
    (l₂ = h₂ ∧ b₁.sizePreserving = true) ∨ (l₁ = h₁ ∧ b₂.sizePreserving = true) := by
  cases h with
  | here hb => exact Or.inl ⟨rfl, hb⟩
  | there h =>
    cases h with
    | here hb => exact Or.inr ⟨rfl, hb⟩
    | there h => cases h

theorem ofNat_val_of_covers (hx : a.Covers x) : (ofNat w x).val = x :=
  ofNat_val_of_lt hx.lt

/-- The sums of covered values are covered. -/
theorem covers_add {b : IntervalSet w} (hx : a.Covers x) (hy : b.Covers y) :
    ∃ r, add a b = .ok r ∧ r.Covers ((x + y) % 2 ^ w) := by
  refine covers_performBinOp (fun x y => (x : Int) + y) ?_ ?_ hx hy
  · intro x y _ _
    simp [addOverflow]
  · intro p q x y hp1 hp2 hq1 hq2 _ _ hl1 hu1 hl2 hu2
    simp only [lowEnd, highEnd, monotoneSizePreserving] at hl1 hu1 hl2 hu2 ⊢
    have h1 : (p.2 : Int) < 2 ^ w := by exact_mod_cast hu1.lt
    have h2 : (q.2 : Int) < 2 ^ w := by exact_mod_cast hu2.lt
    refine ⟨by dsimp only; omega, by dsimp only; omega, ?_, ?_, ?_, ?_⟩
    · intro _ hno
      have hno' : ¬2 ^ w ≤ p.2 + q.2 := of_decide_eq_false hno
      have : ((p.2 + q.2 : Nat) : Int) < 2 ^ w := by exact_mod_cast (by omega : p.2 + q.2 < 2 ^ w)
      push_cast at this
      dsimp only
      omega
    · intro hv
      have hfix := variesOnce_pair hv
      dsimp only
      omega
    · intro hno _ _
      have hno' : ¬2 ^ w ≤ p.1 + q.1 := of_decide_eq_false hno
      have : ((p.1 + q.1 : Nat) : Int) < 2 ^ w := by exact_mod_cast (by omega : p.1 + q.1 < 2 ^ w)
      push_cast at this
      dsimp only
      omega
    · intro hover hno
      have h3 : 2 ^ w ≤ p.1 + q.1 := of_decide_eq_true hover
      have h4 : ¬2 ^ w ≤ p.2 + q.2 := of_decide_eq_false hno
      omega

/-- The differences of covered values are covered. -/
theorem covers_sub {b : IntervalSet w} (hx : a.Covers x) (hy : b.Covers y) :
    ∃ r, sub a b = .ok r ∧ r.Covers ((x + 2 ^ w - y) % 2 ^ w) := by
  refine covers_performBinOp (fun x y => (x : Int) - y) ?_ ?_ hx hy
  · intro x y _ hy
    have := hy.lt
    show (((x + 2 ^ w - y) % 2 ^ w : Nat) : Int) = _
    rw [Int.natCast_mod, cast_sub (by omega)]
    push_cast
    rw [show (x : Int) + 2 ^ w - y = (x - y) + 2 ^ w by ring, Int.add_emod_right]
  · intro p q x y hp1 hp2 hq1 hq2 _ _ hl1 hu1 hl2 hu2
    simp only [lowEnd, highEnd, monotoneSizePreserving, antitoneSizePreserving]
      at hl1 hu1 hl2 hu2 ⊢
    have h1 : (p.2 : Int) < 2 ^ w := by exact_mod_cast hu1.lt
    have h2 : (q.2 : Int) < 2 ^ w := by exact_mod_cast hl2.lt
    refine ⟨by dsimp only; omega, by dsimp only; omega, ?_, ?_, ?_, ?_⟩
    · intro hno _
      have hno' : ¬p.1 < q.2 := of_decide_eq_false hno
      dsimp only
      omega
    · intro hv
      have hfix := variesOnce_pair hv
      dsimp only
      omega
    · intro hno hover
      have h3 : ¬p.1 < q.2 := of_decide_eq_false hno
      have h4 : p.2 < q.1 := of_decide_eq_true hover
      omega
    · intro hover hno _
      have h3 : p.1 < q.2 := of_decide_eq_true hover
      have h4 : ¬p.2 < q.1 := of_decide_eq_false hno
      dsimp only
      omega

/-- The negations of covered values are covered. -/
theorem covers_neg (hx : a.Covers x) : ∃ r, neg a = .ok r ∧ r.Covers ((2 ^ w - x) % 2 ^ w) := by
  have hval : ∀ y, a.Covers y → (ofNat w y).negate.val = (2 ^ w - y) % 2 ^ w := by
    intro y hy
    simp only [negate, ofNat_val, ofNat_width, mod_eq_of_lt hy.lt]
  have h := covers_performUnaryOp (o := w) (g := fun x => (ofNat w x).negate.val)
    (k := antitoneSizePreserving) (fun x => -(x : Int)) ?_ ?_ hx
  · obtain ⟨r, hr, hc⟩ := h
    rw [hval x hx, mod_mod] at hc
    exact ⟨r, hr, hc⟩
  · intro y hy
    have := hy.lt
    rw [hval y hy, Int.natCast_mod, cast_sub (by omega)]
    push_cast
    rw [Int.emod_emod_of_dvd _ (dvd_refl _), show (2 : Int) ^ w - y = -y + 2 ^ w by ring,
      Int.add_emod_right]
  · intro p y h1 h2 _ hl hu
    simp only [lowEnd, highEnd, antitoneSizePreserving] at hl hu ⊢
    have : (p.2 : Int) < 2 ^ w := by exact_mod_cast hl.lt
    omega

theorem lt_two_pow_of_not_overflow {n : Nat}
    (h : decide (out < minBitCountUnsigned n) = false) : n < 2 ^ out := by
  have := of_decide_eq_false h
  exact lt_two_pow_iff_minBitCountUnsigned.2 (by omega)

/-- The products of covered values are covered, at the width of the result. -/
theorem covers_umul (out : Nat) (hx : a.Covers x) (hy : b.Covers y) :
    ∃ r, umul a b out = .ok r ∧ r.Covers (x * y % 2 ^ out) := by
  refine covers_performBinOp (fun x y => ((x * y : Nat) : Int)) ?_ ?_ hx hy
  · intro x y _ _
    simp [umulOverflow]
  · intro p q x y hp1 hp2 hq1 hq2 _ _ hl1 hu1 hl2 hu2
    simp only [lowEnd, highEnd, monotoneNonSizePreserving] at hl1 hu1 hl2 hu2 ⊢
    have hle1 : p.1 * q.1 ≤ x * y := Nat.mul_le_mul hp1 hq1
    have hle2 : x * y ≤ p.2 * q.2 := Nat.mul_le_mul hp2 hq2
    refine ⟨Int.ofNat_le.2 hle1, Int.ofNat_le.2 hle2, ?_, ?_, ?_, ?_⟩
    · intro _ hno
      have hlt := lt_two_pow_of_not_overflow hno
      have : ((p.2 * q.2 : Nat) : Int) < 2 ^ out := by exact_mod_cast hlt
      dsimp only
      omega
    · intro hv
      rcases variesOnce_pair hv with ⟨-, hb⟩ | ⟨-, hb⟩ <;> cases hb
    · intro hno _ hno2
      have hlt := lt_two_pow_of_not_overflow hno
      have hlt2 := lt_two_pow_of_not_overflow hno2
      have h1 : ((p.1 * q.1 : Nat) : Int) < 2 ^ out := by exact_mod_cast hlt
      have h2 : ((p.2 * q.2 : Nat) : Int) < 2 ^ (out + 1) := by exact_mod_cast hlt2
      rw [pow_succ] at h2
      dsimp only
      omega
    · intro hover hno
      have h1 : out < minBitCountUnsigned (p.1 * q.1) := of_decide_eq_true hover
      have h2 := lt_two_pow_of_not_overflow hno
      have h3 : ¬p.1 * q.1 < 2 ^ out := by
        rw [lt_two_pow_iff_minBitCountUnsigned]
        omega
      omega

/-- Soundness of a lifted binary function whose values fit and that is monotone
or antitone in each argument. -/
theorem covers_performBinOp_plain {g : Nat → Nat → Nat}
    (hlt : ∀ x y, a.Covers x → b.Covers y → g x y < 2 ^ o)
    (hmono : ∀ p q x y, p.1 ≤ x → x ≤ p.2 → q.1 ≤ y → y ≤ q.2 → a.Covers x → b.Covers y →
      a.Covers (lowEnd k p) → a.Covers (highEnd k p) → b.Covers (lowEnd l q) →
      b.Covers (highEnd l q) →
      g (lowEnd k p) (lowEnd l q) ≤ g x y ∧ g x y ≤ g (highEnd k p) (highEnd l q)) (hx : a.Covers x)
    (hy : b.Covers y) :
    ∃ r : IntervalSet o, performBinOp (fun x y => .plain (g x y)) a k b l = .ok r ∧
      r.Covers (g x y) := by
  have h := covers_performBinOp (o := o) (g := fun x y => .plain (g x y)) (k := k)
    (l := l) (fun x y => (g x y : Int)) ?_ ?_ hx hy
  · obtain ⟨r, hr, hc⟩ := h
    have hres : (OverflowResult.plain (w := o) (g x y)).result = g x y :=
      mod_eq_of_lt (hlt x y hx hy)
    rw [hres] at hc
    exact ⟨r, hr, hc⟩
  · intro x y _ _
    exact plain_result_int
  · intro p q x y h1 h2 h3 h4 hx hy hl1 hu1 hl2 hu2
    obtain ⟨hle, hge⟩ := hmono p q x y h1 h2 h3 h4 hx hy hl1 hu1 hl2 hu2
    have hb : (g (highEnd k p) (highEnd l q) : Int) < 2 ^ o := by exact_mod_cast hlt _ _ hu1 hu2
    refine spans_of_plain ?_ (Int.ofNat_le.2 hle) (Int.ofNat_le.2 hge) ?_
    · intro ys
      split <;> rfl
    · dsimp only
      omega

theorem udiv_val_of_pos (hx : x < 2 ^ w) (hy : y < 2 ^ v) (hpos : 0 < y) :
    ((ofNat w x).udiv (ofNat v y)).val = x / y := by
  have hz : (ofNat v y).isZero = false := by
    simp only [isZero, ofNat_val, mod_eq_of_lt hy, beq_eq_false_iff_ne]
    omega
  have hlt : x / y < 2 ^ w := lt_of_le_of_lt (Nat.div_le_self x y) hx
  simp only [Bits.udiv, hz, Bool.false_eq_true, if_false, ofNat_val, ofNat_width,
    mod_eq_of_lt hx, mod_eq_of_lt hy, mod_eq_of_lt hlt]

/-- The quotients are covered if the divisor set has no zero. -/
theorem covers_udivNonZero (hnz : ¬b.Covers 0) (hx : a.Covers x) (hy : b.Covers y) :
    ∃ r, udivNonZero a b = .ok r ∧ r.Covers (x / y) := by
  have hpos : ∀ z, b.Covers z → 0 < z := by
    intro z hz
    rcases Nat.eq_zero_or_pos z with rfl | h
    · exact absurd hz hnz
    · exact h
  have hval : ∀ x y, a.Covers x → b.Covers y →
      ((ofNat w x).udiv (ofNat v y)).val = x / y := fun x y hx hy =>
    udiv_val_of_pos hx.lt hy.lt (hpos y hy)
  have h := covers_performBinOp_plain (o := w) (k := monotoneNonSizePreserving)
    (l := antitoneNonSizePreserving)
    (g := fun x y => ((ofNat w x).udiv (ofNat v y)).val) ?_ ?_ hx hy
  · rw [hval x y hx hy] at h
    exact h
  · intro x y hx hy
    rw [hval x y hx hy]
    exact lt_of_le_of_lt (Nat.div_le_self x y) hx.lt
  · intro p q x y h1 h2 h3 h4 hx hy hl1 hu1 hl2 hu2
    rw [hval _ _ hl1 hl2, hval _ _ hx hy, hval _ _ hu1 hu2]
    simp only [lowEnd, highEnd, monotoneNonSizePreserving, antitoneNonSizePreserving]
      at hl1 hu1 hl2 hu2 ⊢
    exact ⟨Nat.div_le_div h1 h4 (hpos _ hy).ne', Nat.div_le_div h2 h3 (hpos _ hu2).ne'⟩

theorem covers_nonZero (hv : 0 < v) :
    ∃ s, nonZero v = .ok s ∧ (s.Covers x ↔ 0 < x ∧ x < 2 ^ v) := by
  unfold nonZero
  rw [dif_pos hv]
  refine ⟨_, rfl, ?_⟩
  rw [covers_single]
  show 1 ≤ x ∧ x ≤ 2 ^ v - 1 ↔ _
  have := Nat.two_pow_pos v
  omega

/-- A division by zero gives the maximal value. -/
theorem covers_udiv (hv : 0 < v) (hx : a.Covers x) (hy : b.Covers y) :
    ∃ r, udiv a b = .ok r ∧ r.Covers (if y = 0 then 2 ^ w - 1 else x / y) := by
  unfold udiv
  by_cases hz : b.Covers 0
  · simp only [hz, decide_true, Bool.not_true, Bool.false_eq_true, if_false]
    obtain ⟨s, hs, hsc⟩ := covers_nonZero (x := y) hv
    obtain ⟨s', hs', hsz⟩ := covers_nonZero (x := 0) hv
    obtain rfl : s = s' := by
      rw [hs] at hs'
      exact Except.ok.inj hs'
    have hdiv0 : ¬(intersect b s).Covers 0 := by
      rw [covers_intersect, hsz]
      omega
    rw [hs]
    simp only [Result.ok_bind]
    have hmax : 2 ^ w - 1 < 2 ^ w := sub_lt (Nat.two_pow_pos w) Nat.one_pos
    by_cases hy0 : y = 0
    · -- whatever the other results are, the all-ones value is added
      rw [if_pos hy0]
      have hres : ∃ t, udivResults a (intersect b s) = .ok t := by
        unfold udivResults
        split
        · exact ⟨_, rfl⟩
        · rename_i hne
          have hne' : (intersect b s).intervals ≠ [] := by simpa [IntervalSet.isEmpty] using hne
          obtain ⟨l, -, hl⟩ := exists_lowerBound hne'
          obtain ⟨r, hr, -⟩ := covers_udivNonZero hdiv0 hx hl
          exact ⟨r, hr⟩
      obtain ⟨t, ht⟩ := hres
      rw [ht]
      refine ⟨_, rfl, ?_⟩
      rw [covers_addInterval hmax]
      exact Or.inr (covers_of_between (le_refl _) (le_refl _))
    · rw [if_neg hy0]
      have hyi : (intersect b s).Covers y := covers_intersect.2 ⟨hy, hsc.2 ⟨by omega, hy.lt⟩⟩
      obtain ⟨r, hr, hc⟩ := covers_udivNonZero hdiv0 hx hyi
      rw [udivResults, isEmpty_eq_false_of_covers hyi]
      simp only [Bool.false_eq_true, if_false]
      rw [hr]
      exact ⟨_, rfl, (covers_addInterval hc.lt).2 (Or.inl hc)⟩
  · simp only [hz, decide_false, Bool.not_false, if_true]
    have hy0 : y ≠ 0 := by
      rintro rfl
      exact hz hy
    rw [if_neg hy0]
    exact covers_udivNonZero hz hx hy

/-- The shifted values are covered. -/
theorem covers_shrl (hx : a.Covers x) (hy : b.Covers y) :
    ∃ r, shrl a b = .ok r ∧ r.Covers (x / 2 ^ y) := by
  have hval : ∀ x y, a.Covers x → ((ofNat w x).shiftRightLogical y).val = x / 2 ^ y := by
    intro x y hx
    rw [shiftRightLogical_val, ofNat_val_of_covers hx]
  have h := covers_performBinOp_plain (o := w) (b := b) (k := monotoneNonSizePreserving)
    (l := antitoneNonSizePreserving)
    (g := fun x y => ((ofNat w x).shiftRightLogical y).val) ?_ ?_ hx hy
  · rw [hval x y hx] at h
    exact h
  · intro x y hx _
    exact ((ofNat w x).shiftRightLogical y).isLt
  · intro p q x y h1 h2 h3 h4 hx hy hl1 hu1 hl2 hu2
    rw [hval _ _ hl1, hval _ _ hx, hval _ _ hu1]
    simp only [lowEnd, highEnd, monotoneNonSizePreserving, antitoneNonSizePreserving]
    exact ⟨Nat.div_le_div h1 (Nat.pow_le_pow_right (by omega) h4) (Nat.two_pow_pos _).ne',
      Nat.div_le_div h2 (Nat.pow_le_pow_right (by omega) h3) (Nat.two_pow_pos _).ne'⟩

/-- Soundness of a lifted unary function whose values fit and that is monotone. -/
theorem covers_performUnaryOp_monotone (hb : k.tonicity = .monotone)
    (hlt : ∀ x, a.Covers x → g x < 2 ^ o)
    (hmono : ∀ x y, a.Covers x → a.Covers y → x ≤ y → g x ≤ g y) (hx : a.Covers x) :
    ∃ r : IntervalSet o, performUnaryOp g a k = .ok r ∧ r.Covers (g x) := by
  have h := covers_performUnaryOp (o := o) (g := g) (k := k) (fun x => (g x : Int))
    (fun _ _ => rfl) ?_ hx
  · rwa [mod_eq_of_lt (hlt x hx)] at h
  · intro p y h1 h2 hy hl hu
    have hlow : lowEnd k p = p.1 := by simp [lowEnd, hb]
    have hhigh : highEnd k p = p.2 := by simp [highEnd, hb]
    rw [hlow] at hl ⊢
    rw [hhigh] at hu ⊢
    have hlt' : (g p.2 : Int) < 2 ^ o := by exact_mod_cast hlt _ hu
    have hle := hmono _ _ hl hy h1
    have hge := hmono _ _ hy hu h2
    omega

/-- Extended values keep their number. -/
theorem covers_zeroExtend (hw : w ≤ width) (hx : a.Covers x) :
    ∃ r, zeroExtend a width = .ok r ∧ r.Covers x := by
  have hval : ∀ y, a.Covers y → ((ofNat w y).zeroExtend width).val = y := by
    intro y hy
    rw [zeroExtend_val hw, ofNat_val_of_covers hy]
  have h := covers_performUnaryOp_monotone (o := width) (k := monotoneSizePreserving)
    (g := fun x => ((ofNat w x).zeroExtend width).val) rfl ?_ ?_ hx
  · rwa [hval x hx] at h
  · intro y _
    exact ((ofNat w y).zeroExtend width).isLt
  · intro y z hy hz hle
    rw [hval y hy, hval z hz]
    exact hle

theorem covers_signExtend (hw : w ≤ width) (hx : a.Covers x) :
    ∃ r, signExtend a width = .ok r ∧ r.Covers ((ofNat w x).signExtend width).val := by
  refine covers_performUnaryOp_monotone rfl ?_ ?_ hx
  · intro y _
    exact ((ofNat w y).signExtend width).isLt
  · intro y z hy hz hle
    have hpow : 2 ^ w ≤ 2 ^ width := Nat.pow_le_pow_right (by omega) hw
    rw [signExtend_val hw, signExtend_val hw, ofNat_val_of_covers hy,
      ofNat_val_of_covers hz, ofNat_width, ofNat_width]
    split <;> split <;> omega

/-- The elements of a set come in increasing order. -/
theorem pairwise_elements (s : IntervalSet w) : s.elements.Pairwise (· < ·) := by
  have hgen : ∀ l : List (ProperInterval w), l.Pairwise (fun a b => a.upper + 1 < b.lower) →
      (l.flatMap ProperInterval.elements).Pairwise (· < ·) := by
    intro l hl
    induction l with
    | nil => exact Pairwise.nil
    | cons i is ih =>
      rw [flatMap_cons, pairwise_append]
      refine ⟨?_, ih hl.of_cons, ?_⟩
      · unfold ProperInterval.elements
        rw [pairwise_map]
        exact pairwise_lt_range.imp fun h => by omega
      · intro x hx y hy
        obtain ⟨j, hj, hyj⟩ := mem_flatMap.1 hy
        have h1 := ProperInterval.mem_elements.1 hx
        have h2 := ProperInterval.mem_elements.1 hyj
        have h3 := rel_of_pairwise_cons hl hj
        have := h1.2
        have := h2.1
        omega
  exact hgen _ s.normal

/-- The decoder's loop lists the powers of two in order. -/
theorem rawCovers_decodeLoop {l : List Nat} (hl : l.Pairwise (· < ·)) (hx : x ∈ l) :
    RawCovers (decodeLoop width l) (if x < width then 2 ^ x else 0) := by
  induction l with
  | nil => simp at hx
  | cons y ys ih =>
    unfold decodeLoop
    have hzero : 0 < 2 ^ width := Nat.two_pow_pos width
    split
    · rename_i hge
      have hxy : y ≤ x := by
        rcases mem_cons.1 hx with rfl | hx
        · exact le_refl _
        · exact (rel_of_pairwise_cons hl hx).le
      rw [if_neg (by omega)]
      exact ⟨_, mem_singleton.2 rfl, covers_of_between (by simp) (by simp)⟩
    · rename_i hlt
      rcases mem_cons.1 hx with rfl | hx
      · have hpow : 2 ^ x < 2 ^ width := Nat.pow_lt_pow_right (by omega) (by omega)
        rw [if_pos (by omega)]
        refine ⟨_, mem_cons_self, covers_of_between ?_ ?_⟩
        · rw [closed_lower, mod_eq_of_lt hpow]
        · rw [closed_upper, mod_eq_of_lt hpow]
      · obtain ⟨i, hi, hc⟩ := ih hl.of_cons hx
        exact ⟨i, mem_cons_of_mem _ hi, hc⟩

theorem covers_decode (hx : a.Covers x) :
    (decode a width).Covers (if x < width then 2 ^ x else 0) := by
  have hlt : (if x < width then 2 ^ x else 0) < 2 ^ width := by
    split
    · exact Nat.pow_lt_pow_right (by omega) (by assumption)
    · exact Nat.two_pow_pos width
  rw [decode, covers_normalize hlt]
  exact rawCovers_decodeLoop (pairwise_elements a) (mem_elements.2 hx)

/-- The truncated values are covered. -/
theorem covers_truncate (hx : a.Covers x) : (truncate a width).Covers (x % 2 ^ width) := by
  have hlt : x % 2 ^ width < 2 ^ width := mod_lt _ (Nat.two_pow_pos width)
  unfold truncate
  split
  · exact covers_maximal hlt
  · rename_i hany
    obtain ⟨i, hi, hm⟩ := hx
    have hsmall : ¬2 ^ width - 1 < i.upper - i.lower := by
      intro hcon
      exact hany (any_eq_true.2 ⟨i, hi, decide_eq_true hcon⟩)
    have hpos := Nat.two_pow_pos width
    have hint : ((2 ^ width : Nat) : Int) = 2 ^ width := by push_cast; rfl
    refine covers_normalize_of_raw hlt (mem_map.2 ⟨i, hi, rfl⟩) ?_
    refine covers_of_mod (a := i.lower) (b := i.upper) (y := x) (by exact_mod_cast hm.1)
      (by exact_mod_cast hm.2) ?_ (by simp) (by simp) (by simp)
    have := i.le
    omega

theorem covers_bitSlice {start : Nat} (hs : start < 2 ^ 64) (hx : a.Covers x) :
    ∃ r, bitSlice a start width = .ok r ∧ r.Covers (x / 2 ^ start % 2 ^ width) := by
  have hstart : (ofBits (ofNat 64 start)).Covers start := by
    have := covers_ofBits (ofNat 64 start)
    rwa [ofNat_val_of_lt hs] at this
  obtain ⟨r, hr, hc⟩ := covers_shrl hx hstart
  rw [bitSlice, hr]
  exact ⟨_, rfl, covers_truncate hc⟩

/-! ### Concatenation -/

theorem length_concatBehaviors (sets : List AnyIntervalSet) :
    (concatBehaviors sets).length = sets.length := by
  induction sets with
  | nil => rfl
  | cons s rest ih =>
    cases rest with
    | nil => rfl
    | cons t rest => simpa [concatBehaviors] using ih

/-- A concatenation is monotone in each of its parts. -/
theorem tonicity_concatBehaviors {b : ArgumentBehavior} (hb : b ∈ concatBehaviors sets) :
    b.tonicity = .monotone := by
  induction sets with
  | nil => simp [concatBehaviors] at hb
  | cons s rest ih =>
    cases rest with
    | nil =>
      obtain rfl : b = monotoneSizePreserving := by simpa [concatBehaviors] using hb
      rfl
    | cons t rest =>
      rcases mem_cons.1 hb with rfl | hb
      · rfl
      · exact ih hb

/-- With monotone behaviours the ends of a choice are its lower and upper
bounds. -/
theorem zipWith_ends_of_monotone {c : List (Nat × Nat)} (hlen : behaviors.length = c.length)
    (hb : ∀ b ∈ behaviors, b.tonicity = .monotone) :
    zipWith lowEnd behaviors c = c.map fst ∧ zipWith highEnd behaviors c = c.map snd := by
  induction behaviors generalizing c with
  | nil =>
    obtain rfl : c = [] := eq_nil_of_length_eq_zero hlen.symm
    exact ⟨rfl, rfl⟩
  | cons b bs ih =>
    cases c with
    | nil => simp at hlen
    | cons p c =>
      obtain ⟨h1, h2⟩ := ih (succ.inj hlen) fun b' hb' => hb b' (mem_cons_of_mem _ hb')
      have hm := hb b mem_cons_self
      rw [zipWith_cons_cons, zipWith_cons_cons, h1, h2]
      simp [lowEnd, highEnd, hm]

theorem concatBits_width (hlen : widths.length = xs.length) :
    (concatBits widths xs).width = widths.sum := by
  rw [concatBits, concat_width]
  congr 1
  induction widths generalizing xs with
  | nil => simp
  | cons n ns ih =>
    cases xs with
    | nil => simp at hlen
    | cons x xs => simp [ih (succ.inj hlen)]

/-- Concatenation is monotone in each operand. -/
theorem concatBits_mono {ys : List Nat} (hx : Forall₂ (fun n x => x < 2 ^ n) widths xs)
    (hy : Forall₂ (fun n y => y < 2 ^ n) widths ys) (hle : Forall₂ (· ≤ ·) xs ys) :
    (concatBits widths xs).val ≤ (concatBits widths ys).val := by
  induction hx generalizing ys with
  | nil =>
    cases hle
    exact le_refl _
  | @cons n x ns xs hn hns ih =>
    cases hle with
    | @cons _ y _ ys hxy hrest =>
      cases hy with
      | cons hny hys =>
        have hw : (Bits.concat (zipWith ofNat ns xs)).width =
            (Bits.concat (zipWith ofNat ns ys)).width := by
          have h1 := concatBits_width hns.length_eq
          have h2 := concatBits_width hys.length_eq
          unfold concatBits at h1 h2
          rw [h1, h2]
        simp only [concatBits, zipWith_cons_cons, Bits.concat, append_val,
          ofNat_val, mod_eq_of_lt hn, mod_eq_of_lt hny, hw]
        exact Nat.add_le_add (Nat.mul_le_mul_right _ hxy) (ih hys hrest)

theorem lt_of_coversAll {operands : List AnyIntervalSet} (h : CoversAll operands xs) :
    Forall₂ (fun n x => x < 2 ^ n) (operands.map Sigma.fst) xs := by
  induction h with
  | nil => exact Forall₂.nil
  | cons hx _ ih => exact Forall₂.cons hx.lt ih

/-- The concatenations of covered values are covered. -/
theorem covers_concat (hne : sets ≠ []) (h : CoversAll sets xs) :
    ∃ r, concat sets = .ok r ∧ r.Covers (concatBits (sets.map Sigma.fst) xs).val := by
  have hlen : ∀ ys, CoversAll sets ys → (sets.map Sigma.fst).length = ys.length := by
    intro ys hys
    rw [length_map, hys.length_eq]
  have hlt : ∀ ys, CoversAll sets ys →
      (concatBits (sets.map Sigma.fst) ys).val < 2 ^ (sets.map Sigma.fst).sum := by
    intro ys hys
    rw [← concatBits_width (hlen ys hys)]
    exact (concatBits (sets.map Sigma.fst) ys).isLt
  unfold concat
  rw [if_neg (by simpa using hne)]
  have hcov := covers_performVariadicOp (w := (sets.map Sigma.fst).sum)
    (g := fun xs => .plain (concatBits (sets.map Sigma.fst) xs).val)
    (fun xs => ((concatBits (sets.map Sigma.fst) xs).val : Int))
    (length_concatBehaviors sets).symm (fun _ _ => plain_result_int) ?_ h
  · obtain ⟨r, hr, hc⟩ := hcov
    refine ⟨r, hr, ?_⟩
    have hres : (OverflowResult.plain (w := (sets.map Sigma.fst).sum)
        (concatBits (sets.map Sigma.fst) xs).val).result =
        (concatBits (sets.map Sigma.fst) xs).val := mod_eq_of_lt (hlt xs h)
    rwa [hres] at hc
  · intro c ys hin hys hlo hhi
    have hclen : (concatBehaviors sets).length = c.length := by
      rw [length_concatBehaviors, hys.length_eq, hin.length_eq]
    obtain ⟨h1, h2⟩ := zipWith_ends_of_monotone hclen fun b hb => tonicity_concatBehaviors hb
    rw [h1] at hlo ⊢
    rw [h2] at hhi ⊢
    have hin1 : Forall₂ (· ≤ ·) (c.map fst) ys := by
      rw [forall₂_map_left_iff]
      exact hin.flip.imp fun _ _ hp => hp.1
    have hin2 : Forall₂ (· ≤ ·) ys (c.map snd) := by
      rw [forall₂_map_right_iff]
      exact hin.imp fun _ _ hp => hp.2
    have hm1 := concatBits_mono (lt_of_coversAll hlo) (lt_of_coversAll hys) hin1
    have hm2 := concatBits_mono (lt_of_coversAll hys) (lt_of_coversAll hhi) hin2
    have hb : ((concatBits (sets.map Sigma.fst) (c.map snd)).val : Int) <
        2 ^ (sets.map Sigma.fst).sum := by exact_mod_cast hlt _ hhi
    refine spans_of_plain (fun _ => rfl) (Int.ofNat_le.2 hm1) (Int.ofNat_le.2 hm2) ?_
    omega

end Xls.IntervalOps

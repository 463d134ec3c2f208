import Xls.NumberParser.Literals

/-!
# Xls.NumberParser.Exact

The inputs on which `ParseNumber` and the conversions to machine types follow the grammar
(`followsGrammar_iff`).
-/

namespace Xls.NumberParser

open BitsOps Bits Result List BoolList

variable (simpleAtoi : Name → Option Nat)

/-- The value of a literal. -/
def signed (neg : Bool) (n : Nat) : Int := if neg then -n else n

/-- The narrowest bits with a value: in two's complement if it is negative. -/
def IsNarrowest (b : Bits) (v : Int) : Prop :=
  if v < 0 then b.toInt = v ∧ ∀ c : Bits, c.toInt = v → b.width ≤ c.width
  else (b.val : Int) = v ∧ ∀ c : Bits, (c.val : Int) = v → b.width ≤ c.width

/-- A conversion that returns a value exactly when the type has it. -/
def ReturnsWhen {α : Type} (r : Result α) (a : α) (p : Prop) : Prop :=
  (p → r = .ok a) ∧ (¬p → IsStatus r)

/-- The parser accepts exactly the literals and returns their values: `ParseNumber` in the
narrowest bits, and the other functions when the type has the value. The words `true` and
`false`, which `ParseNumberAsBool` takes before it parses a number, are left out. -/
def FollowsGrammar (s : Name) : Prop :=
  match literal? s with
  | none =>
    IsStatus (parseNumber simpleAtoi s) ∧ IsStatus (parseNumberAsInt64 simpleAtoi s) ∧
      IsStatus (parseNumberAsUint64 simpleAtoi s) ∧
      (s ≠ ['t', 'r', 'u', 'e'] → s ≠ ['f', 'a', 'l', 's', 'e'] →
        IsStatus (parseNumberAsBool simpleAtoi s))
  | some (neg, n) =>
    (∃ b, parseNumber simpleAtoi s = .ok b ∧ IsNarrowest b (signed neg n)) ∧
      ReturnsWhen (parseNumberAsInt64 simpleAtoi s) (signed neg n)
        (-2 ^ 63 ≤ signed neg n ∧ signed neg n < 2 ^ 63) ∧
      ReturnsWhen (parseNumberAsUint64 simpleAtoi s) (signed neg n).toNat
        (0 ≤ signed neg n ∧ signed neg n < 2 ^ 64) ∧
      ReturnsWhen (parseNumberAsBool simpleAtoi s) (decide (signed neg n = 1))
        (signed neg n = 0 ∨ signed neg n = 1)

/-- The inputs on which the parser follows the grammar: what it does not refuse is a literal,
and not one of zero. -/
def ReadsOnlyLiterals (s : Name) : Prop :=
  (Read s → (literal? s).isSome = true) ∧ ∀ neg n, literal? s = some (neg, n) → n ≠ 0

variable {simpleAtoi}

/-! ### Negative numbers -/

/-- The bits below the leading ones are those that the complement needs. -/
theorem width_sub_leadingOnes (b : Bits) :
    b.width - leadingOnes b = minBitCountUnsigned (2 ^ b.width - 1 - b.val) ∧
      leadingOnes b ≤ b.width := by
  have hlength : leadingOnes b = ((b.toBools.map Bool.not).reverse.takeWhile (! ·)).length := by
    have hcomp : ((! ·) ∘ Bool.not : Bool → Bool) = id := by
      funext x
      cases x <;> rfl
    rw [← map_reverse, takeWhile_map, length_map, hcomp]
    rfl
  have hsplit := congrArg List.length
    (takeWhile_append_dropWhile (p := (! ·)) (l := (b.toBools.map Bool.not).reverse))
  rw [length_append, length_reverse, length_map, toBools_length,
    length_dropWhile_not, toNat_map_not, toBools_length, toNat_toBools] at hsplit
  omega

/-- The complement of a magnitude in one bit more than it has. -/
theorem negate_zeroExtend_val {m : Bits} (h : m.val ≠ 0) :
    (m.zeroExtend (m.width + 1)).negate.val = 2 ^ (m.width + 1) - m.val := by
  have hlt := m.isLt
  have hpow : 2 ^ (m.width + 1) = 2 ^ m.width * 2 := pow_succ 2 m.width
  rw [Bits.negate, ofNat_val, zeroExtend_val (by omega), zeroExtend_width]
  exact Nat.mod_eq_of_lt (by omega)

/-- Shaving off all but one of the leading ones leaves the narrowest negative number. -/
theorem shaved_isNarrowest {m : Bits} (h : m.val ≠ 0) :
    leadingOnes (m.zeroExtend (m.width + 1)).negate ≠ 0 ∧
      IsNarrowest ((m.zeroExtend (m.width + 1)).negate.slice 0
        ((m.zeroExtend (m.width + 1)).negate.width -
          leadingOnes (m.zeroExtend (m.width + 1)).negate + 1)) (-m.val) := by
  have hlt := m.isLt
  have hpow : 2 ^ (m.width + 1) = 2 ^ m.width * 2 := pow_succ 2 m.width
  obtain ⟨hones, hle⟩ := width_sub_leadingOnes (m.zeroExtend (m.width + 1)).negate
  have hrest : 2 ^ (m.width + 1) - 1 - (2 ^ (m.width + 1) - m.val) = m.val - 1 := by omega
  rw [negate_width, zeroExtend_width] at hones hle
  rw [negate_zeroExtend_val h, hrest] at hones
  -- The magnitude less one has `k` bits, so the number has `k + 1`.
  obtain ⟨k, hk⟩ : ∃ k, k = minBitCountUnsigned (m.val - 1) := ⟨_, rfl⟩
  have hk_le : k ≤ m.width := by
    rw [hk]
    exact lt_two_pow_iff_minBitCountUnsigned.mp (by omega)
  have hm : m.val ≤ 2 ^ k := by
    have := lt_two_pow_iff_minBitCountUnsigned.mpr (le_of_eq hk.symm)
    omega
  refine ⟨by omega, ?_⟩
  rw [negate_width, zeroExtend_width, hones, ← hk, IsNarrowest, if_pos (by omega)]
  have hk2 : 2 ^ (k + 1) = 2 ^ k * 2 := pow_succ 2 k
  have hval : ((m.zeroExtend (m.width + 1)).negate.slice 0 (k + 1)).val = 2 ^ (k + 1) - m.val := by
    have hmul : 2 ^ (m.width + 1) = 2 ^ (k + 1) * 2 ^ (m.width - k) := by
      rw [← pow_add]
      congr 1
      omega
    have hpos : 0 < 2 ^ (m.width - k) := Nat.two_pow_pos _
    have hsplit : 2 ^ (m.width + 1) - m.val =
        2 ^ (k + 1) - m.val + 2 ^ (k + 1) * (2 ^ (m.width - k) - 1) := by
      rw [hmul, Nat.mul_sub, Nat.mul_one]
      have := Nat.le_mul_of_pos_right (2 ^ (k + 1)) hpos
      omega
    rw [slice_val, pow_zero, Nat.div_one, negate_zeroExtend_val h, hsplit,
      Nat.add_mul_mod_self_left]
    exact Nat.mod_eq_of_lt (by omega)
  constructor
  · rw [toInt, hval, slice_width, if_neg (by omega)]
    omega
  · intro c hc
    have hclt := c.isLt
    unfold toInt at hc
    split at hc
    · omega
    · rename_i hneg
      rw [slice_width]
      cases hw : c.width with
      | zero =>
        rw [hw, pow_zero] at hclt hneg
        omega
      | succ w =>
        rw [hw, pow_succ] at hclt hc hneg
        have : minBitCountUnsigned (m.val - 1) ≤ w :=
          lt_two_pow_iff_minBitCountUnsigned.mp (by omega)
        omega

theorem narrow_isNarrowest (n : Nat) : IsNarrowest (narrow n) n := by
  rw [IsNarrowest, if_neg (by omega), narrow_val]
  refine ⟨rfl, fun c hc => ?_⟩
  rw [narrow_width, ← Int.ofNat_inj.mp hc]
  exact minBitCount_le c

/-- A word with the sign as its only bit set. -/
theorem popCount_msb {b : Bits} (hw : b.width = 64) (hmsb : b.msb = true)
    (hcount : b.popCount = 1) :
    b.val = 2 ^ 63 := by
  have hlen : b.toBools.length = 64 := by rw [toBools_length, hw]
  obtain ⟨l, x, hl⟩ : ∃ l x, b.toBools = l ++ [x] := by
    refine ⟨b.toBools.dropLast, b.toBools.getLast (by rintro h0; simp [h0] at hlen), ?_⟩
    exact (dropLast_append_getLast _).symm
  have hlength : l.length = 63 := by
    rw [hl, length_append] at hlen
    simpa using hlen
  have hx : x = true := by
    have hget : b.toBools[63]? = some (b.get 63) := toBools_getElem? (by omega)
    rw [hl, getElem?_append_right (by omega), hlength] at hget
    have hlast : b.get 63 = true := by
      unfold Bits.msb at hmsb
      rwa [hw] at hmsb
    simpa [hlast] using hget
  have hfalse : ∀ y ∈ l, y = false := by
    have hzero : (l.filter id).length = 0 := by
      unfold popCount at hcount
      rw [hl, filter_append, length_append, hx] at hcount
      simpa using hcount
    intro y hy
    by_contra hne
    have hmem : y ∈ l.filter id := mem_filter.mpr ⟨hy, by simpa using hne⟩
    rw [eq_nil_of_length_eq_zero hzero] at hmem
    cases hmem
  have hl0 : toNat l = 0 := by
    rw [eq_replicate_of_mem hfalse]
    exact toNat_replicate_false _
  have hval := toNat_toBools b
  rw [hl, toNat_append, hl0, hlength, hx] at hval
  rw [← hval]
  rfl

/-! ### The functions on a sign and a magnitude -/

section

variable {s : Name} {neg : Bool} {n : Nat}
  (h : getSignAndMagnitude simpleAtoi s = .ok (neg, narrow n))
include h

/-- A number is parsed as the narrowest bits of its sign and magnitude. -/
theorem parseNumber_eq : ∃ b, parseNumber simpleAtoi s = .ok b ∧ IsNarrowest b (signed neg n) := by
  by_cases hcase : neg = true ∧ n ≠ 0
  · obtain ⟨rfl, hn⟩ := hcase
    have hval : (narrow n).val ≠ 0 := by rwa [narrow_val]
    obtain ⟨hones, hnarrow⟩ := shaved_isNarrowest hval
    rw [narrow_val] at hnarrow
    refine ⟨_, ?_, hnarrow⟩
    simp only [parseNumber, h, ok_bind, isZero, narrow_val, hn, Bool.true_and,
      Bool.not_eq_true', beq_eq_false_iff_ne, ne_eq, not_false_eq_true, if_true, hones, if_false]
    rfl
  · have hsigned : signed neg n = n := by
      unfold signed
      split
      · rename_i hneg
        have : n = 0 := by
          by_contra hn
          exact hcase ⟨hneg, hn⟩
        omega
      · rfl
    rw [hsigned]
    refine ⟨narrow n, ?_, narrow_isNarrowest n⟩
    have hcond : (neg && !(narrow n).isZero) = false := by
      simp only [isZero, narrow_val]
      rw [Bool.and_eq_false_iff]
      by_cases hneg : neg = true
      · right
        have : n = 0 := by
          by_contra hn
          exact hcase ⟨hneg, hn⟩
        simp [this]
      · left
        simpa using hneg
    simp only [parseNumber, h, ok_bind, hcond]
    rfl

/-- As `uint64_t` it is read exactly if it is in range. -/
theorem parseNumberAsUint64_eq :
    ReturnsWhen (parseNumberAsUint64 simpleAtoi s) (signed neg n).toNat
      (0 ≤ signed neg n ∧ signed neg n < 2 ^ 64) := by
  have hwidth : 64 < (narrow n).width ↔ 2 ^ 64 ≤ n := by
    rw [narrow_width, ← not_le, ← lt_two_pow_iff_minBitCountUnsigned, not_lt]
  simp only [parseNumberAsUint64, h, ok_bind]
  constructor
  · intro hrange
    have hn : n < 2 ^ 64 ∧ (neg = true → n = 0) ∧ (signed neg n).toNat = n := by
      unfold signed at hrange ⊢
      split at hrange <;> simp_all
    have hcond : ((neg && !(narrow n).isZero) || decide (64 < (narrow n).width)) = false := by
      rw [Bool.or_eq_false_iff]
      constructor
      · cases neg with
        | false => rfl
        | true => simp [isZero, narrow_val, hn.2.1 rfl]
      · simp only [decide_eq_false_iff_not, hwidth]
        omega
    rw [hcond, hn.2.2]
    simp only [Bool.false_eq_true, if_false]
    rw [toUint64_eq (by omega), narrow_val]
  · intro hrange
    have hcond : ((neg && !(narrow n).isZero) || decide (64 < (narrow n).width)) = true := by
      rw [Bool.or_eq_true, decide_eq_true_iff, hwidth]
      unfold signed at hrange
      cases neg with
      | false =>
        right
        simp at hrange
        omega
      | true =>
        left
        simp only [isZero, narrow_val, Bool.true_and, Bool.not_eq_true', beq_eq_false_iff_ne]
        rintro rfl
        simp at hrange
    rw [hcond, if_pos rfl]
    exact ⟨_, rfl⟩

/-- As `int64_t` it is read exactly if it is in range. -/
theorem parseNumberAsInt64_eq :
    ReturnsWhen (parseNumberAsInt64 simpleAtoi s) (signed neg n)
      (-2 ^ 63 ≤ signed neg n ∧ signed neg n < 2 ^ 63) := by
  have hwidth : ∀ w, w < (narrow n).width ↔ 2 ^ w ≤ n := by
    intro w
    rw [narrow_width, ← not_le, ← lt_two_pow_iff_minBitCountUnsigned, not_lt]
  have h63 := hwidth 63
  have h64 := hwidth 64
  have hval : n < 2 ^ 63 → ((narrow n).zeroExtend 64).val = n := by
    intro hn
    rw [zeroExtend_val (by omega), narrow_val]
  simp only [parseNumberAsInt64, h, ok_bind]
  cases neg with
  | false =>
    simp only [signed, Bool.not_false, if_true, Bool.false_eq_true, if_false]
    constructor
    · intro hrange
      rw [if_neg (by omega), toInt64_eq (by simp)]
      congr 1
      rw [toInt, hval (by omega), zeroExtend_width, if_pos (by omega)]
    · intro hrange
      rw [if_pos (by omega)]
      exact ⟨_, rfl⟩
  | true =>
    simp only [signed, Bool.not_true, Bool.false_eq_true, if_false, if_true]
    constructor
    · intro hrange
      by_cases hmin : n = 2 ^ 63
      · subst hmin
        rw [if_pos (by omega), if_pos (by decide)]
        rfl
      · rw [if_neg (by omega), toInt64_eq (by simp)]
        congr 1
        rw [toInt, Bits.negate, ofNat_val, ofNat_width, hval (by omega), zeroExtend_width]
        by_cases hzero : n = 0
        · rw [hzero]
          rfl
        · rw [Nat.mod_eq_of_lt (by omega), if_neg (by omega)]
          omega
    · intro hrange
      rw [if_pos (by omega), if_neg]
      · exact ⟨_, rfl⟩
      · rintro ⟨hw, hmsb, hcount⟩
        have := popCount_msb hw hmsb hcount
        rw [narrow_val] at this
        omega

/-- The conversion to a truth value is right for literals other than those of zero. -/
theorem parseNumberAsBool_eq (ht : s ≠ ['t', 'r', 'u', 'e']) (hf : s ≠ ['f', 'a', 'l', 's', 'e'])
    (hn : n ≠ 0) :
    ReturnsWhen (parseNumberAsBool simpleAtoi s) (decide (signed neg n = 1))
      (signed neg n = 0 ∨ signed neg n = 1) := by
  have hwidth : 1 < (narrow n).width ↔ 2 ^ 1 ≤ n := by
    rw [narrow_width, ← not_le, ← lt_two_pow_iff_minBitCountUnsigned, not_lt]
  simp only [parseNumberAsBool, ht, hf, if_false, h, ok_bind]
  cases neg with
  | true =>
    simp only [signed, if_true, Bool.true_or]
    exact ⟨fun hone => absurd hone (by omega), fun _ => ⟨_, rfl⟩⟩
  | false =>
    simp only [signed, Bool.false_eq_true, if_false, Bool.false_or]
    constructor
    · intro hone
      obtain rfl : n = 1 := by omega
      rfl
    · intro hone
      rw [if_pos (by rw [decide_eq_true_iff, hwidth]; omega)]
      exact ⟨_, rfl⟩

/-- A literal of zero aborts or is refused. -/
theorem parseNumberAsBool_zero (ht : s ≠ ['t', 'r', 'u', 'e']) (hf : s ≠ ['f', 'a', 'l', 's', 'e'])
    (hn : n = 0) (b : Bool) : parseNumberAsBool simpleAtoi s ≠ .ok b := by
  subst hn
  simp only [parseNumberAsBool, ht, hf, if_false, h, ok_bind]
  cases neg with
  | true =>
    intro hok
    cases hok
  | false =>
    intro hok
    cases hok

end

/-! ### Every input -/

theorem not_word_of_literal {s : Name} {p : Bool × Nat} (h : literal? s = some p) :
    s ≠ ['t', 'r', 'u', 'e'] ∧ s ≠ ['f', 'a', 'l', 's', 'e'] := by
  constructor <;>
  · rintro rfl
    cases h

/-- `ParseNumber` refuses only what `GetSignAndMagnitude` refuses. -/
theorem parseNumber_status {s : Name} (h : IsStatus (parseNumber simpleAtoi s)) :
    IsStatus (getSignAndMagnitude simpleAtoi s) := by
  obtain ⟨message, hm⟩ := h
  rcases hg : getSignAndMagnitude simpleAtoi s with (_ | m) | ⟨neg, magnitude⟩
  · simp [parseNumber, hg] at hm
  · exact ⟨m, rfl⟩
  · exfalso
    simp only [parseNumber, hg, ok_bind] at hm
    split at hm
    · rename_i hcond
      have hval : magnitude.val ≠ 0 := by
        have := (Bool.and_eq_true_iff.mp hcond).2
        simpa [isZero] using this
      rw [if_neg (shaved_isNarrowest hval).1] at hm
      cases hm
    · cases hm

/-- The parser follows the grammar exactly on the inputs where what it does not refuse is a
literal, and not one of zero. -/
theorem followsGrammar_iff (atoi : SingleDigitAtoi simpleAtoi) (s : Name) :
    FollowsGrammar simpleAtoi s ↔ ReadsOnlyLiterals s := by
  unfold FollowsGrammar ReadsOnlyLiterals
  cases hlit : literal? s with
  | none =>
    constructor
    · rintro ⟨hparse, -⟩
      refine ⟨fun hread => ?_, by simp⟩
      exact absurd (parseNumber_status hparse) (getSignAndMagnitude_read atoi hread)
    · rintro ⟨hread, -⟩
      have hstatus := getSignAndMagnitude_status atoi fun h => by simpa using hread h
      refine ⟨hstatus.bind _, hstatus.bind _, hstatus.bind _, fun ht hf => ?_⟩
      simp only [parseNumberAsBool, ht, hf, if_false]
      exact hstatus.bind _
  | some p =>
    obtain ⟨neg, n⟩ := p
    have hsign := getSignAndMagnitude_literal atoi hlit
    obtain ⟨ht, hf⟩ := not_word_of_literal hlit
    constructor
    · rintro ⟨-, -, -, hbool⟩
      refine ⟨fun _ => rfl, ?_⟩
      rintro neg' n' heq rfl
      cases heq
      refine parseNumberAsBool_zero hsign ht hf rfl _ (hbool.1 (.inl ?_))
      cases neg <;> rfl
    · rintro ⟨-, hzero⟩
      exact ⟨parseNumber_eq hsign, parseNumberAsInt64_eq hsign, parseNumberAsUint64_eq hsign,
        parseNumberAsBool_eq hsign ht hf (hzero neg n rfl)⟩

/-- A conversion of single characters that behaves as documented. -/
def documentedDigit : Name → Option Nat
  | [c] => digit? 10 c
  | _ => none

theorem followsGrammar_iff_minus_ten :
    FollowsGrammar documentedDigit "-1_0".toList ↔ ReadsOnlyLiterals "-1_0".toList :=
  followsGrammar_iff ⟨fun _ => rfl⟩ "-1_0".toList

/-- A minus after the prefix of the base makes the process abort. -/
theorem not_followsGrammar_hex_minus : ¬FollowsGrammar documentedDigit "0x-1".toList := by
  rintro ⟨⟨message, h⟩, -⟩
  have habort : parseNumber documentedDigit "0x-1".toList = .error .check := by decide
  cases habort.symm.trans h

end Xls.NumberParser

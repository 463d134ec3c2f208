import Xls.BitsOps

/-!
# Xls.BitsOps.Exact

The word paths and the big-integer paths of `xls/ir/bits_ops.cc` compute the same thing: the
mathematical result, reduced to the width of the result (`exact_arithmetic`).
-/

namespace Xls

open Result List Nat Except

namespace Bits

/-! ### Two's complement -/

/-- Integers that agree modulo `2 ^ w` have one encoding. -/
theorem ofInt_congr {w : Nat} {i j : Int} (h : i % (2 ^ w : Nat) = j % (2 ^ w : Nat)) :
    ofInt w i = ofInt w j := by
  unfold ofInt
  rw [h]

theorem ofInt_val_cast (w : Nat) (i : Int) : ((ofInt w i).val : Int) = i % (2 ^ w : Nat) := by
  have hpos : (0 : Int) < (2 ^ w : Nat) := by exact_mod_cast Nat.two_pow_pos w
  rw [ofInt, ofNat_val, Int.natCast_mod, Int.toNat_of_nonneg (Int.emod_nonneg i hpos.ne'),
    Int.emod_emod_of_dvd _ (dvd_refl _)]

theorem ofInt_natCast (w n : Nat) : ofInt w n = ofNat w n := by
  refine ext rfl ?_
  rw [ofInt, ofNat_val, ofNat_val, ← Int.natCast_mod, Int.toNat_natCast, mod_mod]

theorem toInt_emod (b : Bits) : b.toInt % (2 ^ b.width : Nat) = b.val := by
  have hlt := b.isLt
  unfold toInt
  split
  · exact Int.emod_eq_of_lt (by omega) (by omega)
  · rw [Int.sub_emod_right]
    exact Int.emod_eq_of_lt (by omega) (by omega)

theorem toInt_emod_eq (b : Bits) {w : Nat} (h : b.width = w) :
    b.toInt % (2 ^ w : Nat) = (b.val : Int) % (2 ^ w : Nat) := by
  subst h
  rw [toInt_emod, Int.emod_eq_of_lt (by omega) (by exact_mod_cast b.isLt)]

/-- The integer has a two's complement encoding of `n` bits. -/
def FitsSigned (n : Nat) (i : Int) : Prop := -(2 ^ n : Nat) ≤ 2 * i ∧ 2 * i < (2 ^ n : Nat)

theorem fitsSigned_toInt (b : Bits) : FitsSigned b.width b.toInt := by
  have hlt := b.isLt
  unfold FitsSigned toInt
  split <;> constructor <;> omega

/-- A number that fits is read back. -/
theorem toInt_ofInt {n : Nat} {i : Int} (h : FitsSigned n i) : (ofInt n i).toInt = i := by
  obtain ⟨hlo, hhi⟩ := h
  have hpos : (0 : Int) < (2 ^ n : Nat) := by exact_mod_cast Nat.two_pow_pos n
  have hnn := Int.emod_nonneg i hpos.ne'
  have hlt := Int.emod_lt_of_pos i hpos
  have hval : (ofInt n i).val = (i % (2 ^ n : Nat)).toNat := by
    rw [ofInt, ofNat_val, mod_eq_of_lt (by omega)]
  unfold toInt
  rw [hval, ofInt_width]
  by_cases hi : 0 ≤ i
  · rw [Int.emod_eq_of_lt hi (by omega)] at *
    rw [if_pos (by omega)]
    omega
  · have hmod : i % (2 ^ n : Nat) = i + (2 ^ n : Nat) := by
      rw [← Int.add_emod_right]
      exact Int.emod_eq_of_lt (by omega) (by omega)
    rw [hmod, if_neg (by omega)]
    omega

end Bits

namespace BitsOps

open Limbs Bits

/-! ### Words -/

theorem mask_eq (n : Nat) : mask n = 2 ^ n - 1 := by
  unfold mask
  split
  · rename_i hn
    rw [hn]
  · rw [one_shiftLeft]

theorem and_mask (n x : Nat) : x &&& mask n = x % 2 ^ n := by
  rw [mask_eq, and_two_pow_sub_one_eq_mod]

theorem lt_two_pow_words {k : Nat} (hk : 0 < k) (b : Bits) :
    b.val < 2 ^ (k * ((b.width + k - 1) / k)) := by
  have hle : b.width ≤ k * ((b.width + k - 1) / k) := by
    have := div_add_mod (b.width + k - 1) k
    have := mod_lt (b.width + k - 1) hk
    omega
  exact lt_of_lt_of_le b.isLt (Nat.pow_le_pow_right (by omega) hle)

theorem value_words (b : Bits) : ofDigits (2 ^ 64) (words b) = b.val := by
  rw [words, value_limbs]
  exact mod_eq_of_lt (lt_two_pow_words (k := 64) (by omega) b)

theorem value_toBytes (b : Bits) : ofDigits (2 ^ 8) (toBytes b) = b.val := by
  rw [toBytes, value_limbs]
  exact mod_eq_of_lt (lt_two_pow_words (k := 8) (by omega) b)

variable {b : Bits} {w : Nat} {i : Int}

/-- The first word of a vector of one word. -/
theorem headD_words (h : b.width ≤ 64) : (words b).headD 0 = b.val := by
  have hlt := b.isLt
  by_cases hw : b.width = 0
  · rw [hw] at hlt
    rw [words, hw, limbs]
    simp only [headD_nil]
    omega
  · have hone : (b.width + 63) / 64 = 1 := by omega
    have hpow : 2 ^ b.width ≤ 2 ^ 64 := Nat.pow_le_pow_right (by omega) h
    rw [words, hone, limbs, headD_cons, mod_eq_of_lt (by omega)]

/-- `ToUint64` of at most 64 bits. -/
theorem toUint64_eq (h : b.width ≤ 64) : toUint64 b = .ok b.val := by
  unfold toUint64
  split
  · rename_i hw
    have hlt := b.isLt
    rw [hw] at hlt
    congr 1
    omega
  · have hfits : fitsInNBitsUnsigned b 64 = true := by
      rw [fitsInNBitsUnsigned, drop_eq_nil_of_le (by rwa [toBools_length])]
      rfl
    rw [hfits, headD_words h]
    rfl

/-- At most 64 bits fit 64 signed bits. -/
theorem fitsInNBitsSigned_of_le (h : b.width ≤ 64) : fitsInNBitsSigned b 64 = true := by
  rw [fitsInNBitsSigned, if_neg (by decide), all_eq_true]
  intro x hx
  obtain ⟨i, hi, rfl⟩ := getElem_of_mem hx
  rw [length_drop, toBools_length] at hi
  have hw : b.width = 64 := by omega
  have hi0 : i = 0 := by omega
  subst hi0
  rw [getElem_drop, toBools_getElem, Bits.msb, hw]
  exact beq_self_eq_true _

/-- The sign as a comparison with half of the range. -/
theorem msb_eq (b : Bits) : (decide (0 < b.width) && b.msb) = decide (2 ^ b.width ≤ 2 * b.val) := by
  have hlt := b.isLt
  by_cases hw : b.width = 0
  · rw [hw] at hlt ⊢
    have : b.val = 0 := by omega
    simp [this]
  · obtain ⟨n, hn⟩ : ∃ n, b.width = n + 1 := ⟨b.width - 1, by omega⟩
    unfold Bits.msb Bits.get
    rw [hn, Nat.add_sub_cancel, testBit_eq_decide_div_mod_eq]
    rw [hn, pow_succ] at hlt
    have hdiv : b.val / 2 ^ n < 2 := Nat.div_lt_of_lt_mul (by omega)
    rw [mod_eq_of_lt hdiv, pow_succ]
    have hiff : b.val / 2 ^ n = 1 ↔ 2 ^ n * 2 ≤ 2 * b.val := by
      constructor
      · intro h1
        have := div_mul_le_self b.val (2 ^ n)
        rw [h1] at this
        omega
      · intro hle
        have h1 : 1 ≤ b.val / 2 ^ n := (Nat.le_div_iff_mul_le (Nat.two_pow_pos n)).2 (by omega)
        omega
    simp [hiff]

theorem u64_eq_of_neg_pow (h : w < 64) : u64 (-1 * 2 ^ w) = 2 ^ 64 - 2 ^ w := by
  have hlt : 2 ^ w < 2 ^ 64 := Nat.pow_lt_pow_right (by omega) h
  have hpos := Nat.two_pow_pos w
  have hcast : (-1 * 2 ^ w : Int) = -((2 ^ w : Nat) : Int) := by push_cast; ring
  unfold u64
  rw [hcast, ← Int.add_emod_right, Int.emod_eq_of_lt (by omega) (by omega)]
  omega

/-- The signed reading of a word is the signed value. -/
theorem toInt64_eq (h : b.width ≤ 64) : toInt64 b = .ok b.toInt := by
  have hlt := b.isLt
  unfold toInt64
  rw [fitsInNBitsSigned_of_le h, headD_words h, msb_eq]
  simp only [checkThat_true, ok_bind, pure_eq_ok, ok.injEq]
  unfold toInt
  by_cases hneg : 2 ^ b.width ≤ 2 * b.val
  · rw [if_neg (show ¬2 * b.val < 2 ^ b.width by omega)]
    by_cases hw : b.width < 64
    · have hpow : 2 ^ 64 = 2 ^ b.width * 2 ^ (64 - b.width) := by
        rw [← pow_add, Nat.add_sub_cancel' hw.le]
      have hor : b.val ||| (2 ^ 64 - 2 ^ b.width) = 2 ^ 64 - 2 ^ b.width + b.val := by
        have hmul : 2 ^ 64 - 2 ^ b.width = 2 ^ b.width * (2 ^ (64 - b.width) - 1) := by
          rw [hpow, Nat.mul_sub, Nat.mul_one]
        rw [hmul, two_pow_add_eq_or_of_lt hlt, Nat.or_comm]
      have hhalf : 2 ^ b.width ≤ 2 ^ 63 := Nat.pow_le_pow_right (by omega) (by omega)
      simp only [hneg, hw, decide_true, Bool.and_self, if_true]
      rw [u64_eq_of_neg_pow hw, hor, s64, if_neg (by omega)]
      omega
    · have hw64 : b.width = 64 := by omega
      rw [hw64] at hneg ⊢
      simp only [Nat.lt_irrefl, decide_false, Bool.and_false, Bool.false_eq_true, if_false]
      rw [s64, if_neg (by omega)]
  · rw [if_pos (show 2 * b.val < 2 ^ b.width by omega)]
    have hhalf : 2 ^ b.width ≤ 2 ^ 64 := Nat.pow_le_pow_right (by omega) h
    simp only [hneg, decide_false, Bool.false_and, Bool.false_eq_true, if_false]
    rw [s64, if_pos (by omega)]

theorem uBits_eq {v : Nat} (hw : w ≤ 64) (h : v < 2 ^ w) : uBits v w = .ok (ofNat w v) := by
  unfold uBits
  rw [lt_two_pow_iff_minBitCountUnsigned] at h
  rw [decide_eq_true h, Nat.min_eq_left hw, and_mask]
  simp only [checkThat_true, ok_bind, pure_eq_ok]
  congr 1
  refine Bits.ext rfl ?_
  rw [ofNat_val, ofNat_val, mod_mod]

theorem u64_mod (hw : w ≤ 64) (i : Int) : ((u64 i % 2 ^ w : Nat) : Int) = i % (2 ^ w : Nat) := by
  have hpos : (0 : Int) < (2 ^ 64 : Nat) := by exact_mod_cast Nat.two_pow_pos 64
  have hnn := Int.emod_nonneg i hpos.ne'
  rw [Int.natCast_mod, u64, Int.toNat_of_nonneg hnn]
  exact Int.emod_emod_of_dvd _ (by exact_mod_cast pow_dvd_pow 2 hw)

/-- A masked word is the encoding of the integer it was reduced from. -/
theorem uBits_masked (hw : w ≤ 64) (i : Int) : uBits (u64 i &&& mask w) w = .ok (ofInt w i) := by
  rw [and_mask, uBits_eq hw (mod_lt _ (Nat.two_pow_pos w)), ← ofInt_natCast]
  congr 1
  refine ofInt_congr ?_
  rw [u64_mod hw, Int.emod_emod_of_dvd _ (dvd_refl _)]

/-! ### Big integers -/

theorem makeUnsigned_eq (b : Bits) : makeUnsigned b = b.val := by
  rw [makeUnsigned, bin2bn, reverse_reverse, value_toBytes]

theorem lt_of_mem_toBytes {d : Nat} (h : d ∈ toBytes b) : d < 2 ^ 8 :=
  lt_of_mem_limbs h

/-- Inverting the bytes and clearing the padding subtracts from all ones. -/
theorem bin2bn_invertedBytes (hw : 0 < b.width) :
    bin2bn (invertedBytes b) + b.val + 1 = 2 ^ b.width := by
  have hlen : (toBytes b).length = (b.width + 7) / 8 := length_limbs _ _
  have hcomp := value_complement (k := 8) fun d hd => lt_of_mem_toBytes (b := b) hd
  rw [value_toBytes, hlen] at hcomp
  have hmap : (toBytes b).reverse.map complementByte =
      ((toBytes b).map complementByte).reverse := by
    rw [map_reverse]
  unfold invertedBytes
  rw [hmap]
  have hrev : ((toBytes b).map complementByte).reverse.reverse =
      (toBytes b).map complementByte := reverse_reverse _
  have hne : ((toBytes b).map complementByte).reverse.length = (b.width + 7) / 8 := by
    rw [length_reverse, length_map, hlen]
  have hbyte : ∀ d ∈ ((toBytes b).map complementByte).reverse, d < 2 ^ 8 := by
    intro d hd
    obtain ⟨e, -, rfl⟩ := mem_map.1 (mem_reverse.1 hd)
    unfold complementByte
    omega
  have hvalue : ofDigits (2 ^ 8) ((toBytes b).map complementByte).reverse.reverse + b.val + 1 =
      2 ^ (8 * ((b.width + 7) / 8)) := by
    rw [hrev]
    exact hcomp
  generalize ((toBytes b).map complementByte).reverse = bytes at hne hbyte hvalue
  cases bytes with
  | nil =>
    rw [length_nil] at hne
    omega
  | cons top rest =>
    dsimp only
    rw [reverse_cons] at hvalue
    rw [length_cons] at hne
    by_cases hm : b.width % 8 = 0
    · rw [if_pos hm, bin2bn, reverse_cons, hvalue]
      congr 1
      omega
    · have hrest : ∀ e ∈ rest.reverse, e < 2 ^ 8 := fun e he =>
        hbyte e (mem_cons_of_mem _ (mem_reverse.1 he))
      have hwidth : 8 * rest.reverse.length + b.width % 8 = b.width := by
        rw [length_reverse]
        omega
      rw [if_neg hm, bin2bn, reverse_cons, and_mask, value_mask_top hrest, hwidth]
      have hlt := b.isLt
      have hpow : 2 ^ (8 * ((b.width + 7) / 8)) =
          2 ^ b.width * 2 ^ (8 * ((b.width + 7) / 8) - b.width) := by
        rw [← pow_add]
        congr 1
        omega
      rw [hpow] at hvalue
      generalize ofDigits (2 ^ 8) (rest.reverse ++ [top]) = x at hvalue
      have hpos := Nat.two_pow_pos (8 * ((b.width + 7) / 8) - b.width)
      have hposw := Nat.two_pow_pos b.width
      have hx : x = 2 ^ b.width - 1 - b.val +
          2 ^ b.width * (2 ^ (8 * ((b.width + 7) / 8) - b.width) - 1) := by
        have := Nat.le_mul_of_pos_right (2 ^ b.width) hpos
        rw [Nat.mul_sub, Nat.mul_one]
        omega
      rw [hx, add_mul_mod_self_left, mod_eq_of_lt (by omega)]
      omega

/-- The number built from the words and the sign. -/
theorem makeSigned_eq (b : Bits) : makeSigned b = b.toInt := by
  have hmsb := msb_eq b
  unfold makeSigned toInt
  by_cases hw : b.width = 0
  · have hlt := b.isLt
    rw [hw] at hlt
    rw [if_pos (.inl hw), makeUnsigned_eq, if_pos (by rw [hw]; omega)]
  · rw [decide_eq_true (Nat.pos_of_ne_zero hw), Bool.true_and] at hmsb
    by_cases hb : b.msb = false
    · rw [hb] at hmsb
      rw [if_pos (.inr hb), makeUnsigned_eq, if_pos (by simpa using hmsb.symm)]
    · have hinv := bin2bn_invertedBytes (Nat.pos_of_ne_zero hw)
      rw [Bool.not_eq_false] at hb
      rw [hb] at hmsb
      have hge : 2 ^ b.width ≤ 2 * b.val := of_decide_eq_true hmsb.symm
      rw [if_neg (by simp [hw, hb]), if_neg (by omega)]
      omega

variable {n : Nat}

/-- `Bits::MinBitCountSigned` as the least width in which the number fits. -/
theorem signedBitCount_le : signedBitCount i ≤ n ↔ FitsSigned n i := by
  unfold signedBitCount FitsSigned
  have hpos := Nat.two_pow_pos n
  split
  · rename_i hi
    subst hi
    constructor
    · intro _
      constructor <;> omega
    · intro _
      exact Nat.zero_le n
  · cases n with
    | zero =>
      rw [pow_zero]
      constructor
      · intro h
        split at h <;> omega
      · intro h
        omega
    | succ n =>
      rw [pow_succ]
      split
      · rw [Nat.add_le_add_iff_right, ← lt_two_pow_iff_minBitCountUnsigned]
        push_cast
        have hcast : ((2 ^ n : Nat) : Int) = 2 ^ n := by push_cast; rfl
        rw [← hcast]
        constructor
        · intro h
          constructor <;> omega
        · intro h
          omega
      · rw [Nat.add_le_add_iff_right, ← lt_two_pow_iff_minBitCountUnsigned]
        push_cast
        have hcast : ((2 ^ n : Nat) : Int) = 2 ^ n := by push_cast; rfl
        rw [← hcast]
        constructor
        · intro h
          constructor <;> omega
        · intro h
          omega

theorem fitsSigned_signedBitCount (i : Int) : FitsSigned (signedBitCount i) i :=
  signedBitCount_le.1 (le_refl _)

/-- Bytes of a magnitude, read back at its own width. -/
theorem fromBytes_bn2bin (m : Nat) :
    fromBytes (bn2bin (numBytes m) m).reverse (minBitCountUnsigned m) =
      .ok (ofNat (minBitCountUnsigned m) m) := by
  have hlt : m < 2 ^ minBitCountUnsigned m := lt_two_pow_iff_minBitCountUnsigned.2 (le_refl _)
  have hle : 2 ^ minBitCountUnsigned m ≤ 2 ^ (8 * numBytes m) :=
    Nat.pow_le_pow_right (by omega) (by unfold numBytes; omega)
  unfold fromBytes bn2bin
  rw [reverse_reverse, length_limbs, value_limbs, mod_eq_of_lt (by omega)]
  simp [numBytes]

/-- The bytes of the complement, as negative numbers are written. -/
theorem fromBytes_complement (m : Nat) :
    fromBytes ((bn2bin (numBytes m) m).map complementByte).reverse (minBitCountUnsigned m) =
      .ok (ofNat (minBitCountUnsigned m) (2 ^ minBitCountUnsigned m - 1 - m)) := by
  have hlt : m < 2 ^ minBitCountUnsigned m := lt_two_pow_iff_minBitCountUnsigned.2 (le_refl _)
  have hle : minBitCountUnsigned m ≤ 8 * numBytes m := by
    unfold numBytes
    omega
  have hpow : 2 ^ (8 * numBytes m) =
      2 ^ minBitCountUnsigned m * 2 ^ (8 * numBytes m - minBitCountUnsigned m) := by
    rw [← pow_add, Nat.add_sub_cancel' hle]
  have hpos := Nat.two_pow_pos (8 * numBytes m - minBitCountUnsigned m)
  have hmul := Nat.le_mul_of_pos_right (2 ^ minBitCountUnsigned m) hpos
  have hcomp := value_complement (k := 8)
    fun d (hd : d ∈ limbs 8 (numBytes m) m) => lt_of_mem_limbs hd
  rw [value_limbs, length_limbs, mod_eq_of_lt (by omega)] at hcomp
  unfold fromBytes bn2bin
  rw [← map_reverse, reverse_reverse, length_map, length_limbs]
  have hval : ofDigits (2 ^ 8) ((limbs 8 (numBytes m) m).map complementByte) =
      2 ^ minBitCountUnsigned m - 1 - m + 2 ^ minBitCountUnsigned m *
        (2 ^ (8 * numBytes m - minBitCountUnsigned m) - 1) := by
    rw [Nat.mul_sub, Nat.mul_one]
    have hcomp' : ofDigits (2 ^ 8) ((limbs 8 (numBytes m) m).map complementByte) + m + 1 =
        2 ^ (8 * numBytes m) := hcomp
    omega
  rw [hval]
  simp only [numBytes, BEq.rfl, checkThat_true, ok_bind, pure_eq_ok, ok.injEq]
  refine Bits.ext rfl ?_
  rw [ofNat_val, ofNat_val, add_mul_mod_self_left]

/-- The conversion of an integer to its smallest signed encoding. -/
theorem toSignedBits_eq (i : Int) : toSignedBits i = .ok (ofInt (signedBitCount i) i) := by
  have hfit := fitsSigned_signedBitCount i
  unfold toSignedBits
  split
  · rename_i hi
    subst hi
    rfl
  · rename_i hi
    by_cases hneg : i < 0
    · have hcount : signedBitCount i = minBitCountUnsigned (i.natAbs - 1) + 1 := by
        rw [signedBitCount, if_neg hi, if_pos hneg]
      have hlt : i.natAbs - 1 < 2 ^ minBitCountUnsigned (i.natAbs - 1) :=
        lt_two_pow_iff_minBitCountUnsigned.2 (le_refl _)
      simp only [if_pos hneg]
      rw [hcount, Nat.add_sub_cancel, fromBytes_complement]
      simp only [ok_bind, pure_eq_ok, ok.injEq]
      refine Bits.ext (by simp [Nat.add_comm]) ?_
      rw [append_val, ofNat_width, ofNat_val_of_lt (by omega), allOnes_val]
      have hval := ofInt_val_cast (minBitCountUnsigned (i.natAbs - 1) + 1) i
      rw [← Int.add_emod_right, pow_succ] at hval
      generalize 2 ^ minBitCountUnsigned (i.natAbs - 1) = p at hlt hval ⊢
      rw [Int.emod_eq_of_lt (by omega) (by omega)] at hval
      omega
    · have hcount : signedBitCount i = minBitCountUnsigned i.natAbs + 1 := by
        rw [signedBitCount, if_neg hi, if_neg hneg]
      have hlt : i.natAbs < 2 ^ minBitCountUnsigned i.natAbs :=
        lt_two_pow_iff_minBitCountUnsigned.2 (le_refl _)
      simp only [if_neg hneg]
      rw [hcount, Nat.add_sub_cancel, fromBytes_bn2bin]
      simp only [ok_bind, pure_eq_ok, ok.injEq]
      have hcast : i = (i.natAbs : Int) := by omega
      have hnat : ofInt (minBitCountUnsigned i.natAbs + 1) i =
          ofNat (minBitCountUnsigned i.natAbs + 1) i.natAbs := by
        rw [← ofInt_natCast, ← hcast]
      rw [hnat]
      refine Bits.ext (by simp [Nat.add_comm]) ?_
      rw [append_val, ofNat_val_of_lt hlt, ofNat_val_of_lt (by rw [pow_succ]; omega), zero_val]
      omega

theorem toUnsignedBits_eq (n : Nat) : toUnsignedBits n = .ok (ofNat (minBitCountUnsigned n) n) := by
  unfold toUnsignedBits
  rw [decide_eq_true (by omega), Int.natAbs_natCast]
  exact fromBytes_bn2bin n

/-- A number that fits is kept by truncation and by extension. -/
theorem truncateOrSignExtend_ofInt (h : FitsSigned n i) (w : Nat) :
    truncateOrSignExtend (ofInt n i) w = ofInt w i := by
  unfold truncateOrSignExtend
  rw [ofInt_width]
  split
  · rename_i hw
    rw [hw]
  · split
    · rw [signExtend, toInt_ofInt h]
    · rename_i hw hlt
      refine Bits.ext rfl ?_
      have hdvd : ((2 ^ w : Nat) : Int) ∣ (2 ^ n : Nat) := by
        exact_mod_cast pow_dvd_pow 2 (show w ≤ n by omega)
      have hcast : (((ofInt n i).truncate w).val : Int) = ((ofInt w i).val : Int) := by
        rw [truncate_val, Int.natCast_mod, ofInt_val_cast, ofInt_val_cast,
          Int.emod_emod_of_dvd _ hdvd]
      exact_mod_cast hcast

/-- An integer converted and then cut or extended to a width is reduced to it. -/
theorem reduce_eq (i : Int) (w : Nat) :
    (do
      let bits ← toSignedBits i
      return truncateOrSignExtend bits w : Result Bits) = .ok (ofInt w i) := by
  rw [toSignedBits_eq, ok_bind, truncateOrSignExtend_ofInt (fitsSigned_signedBitCount i)]
  rfl

/-- A number that fits the requested width is written in it. -/
theorem toSignedBitsWithBitCount_eq (h : FitsSigned w i) :
    toSignedBitsWithBitCount i w = .ok (ofInt w i) := by
  have hle := signedBitCount_le.2 h
  have hfit := fitsSigned_signedBitCount i
  unfold toSignedBitsWithBitCount
  rw [decide_eq_true hle, toSignedBits_eq]
  simp only [checkThat_true, ok_bind, pure_eq_ok, ok.injEq]
  have hext := truncateOrSignExtend_ofInt hfit w
  have hpow : 2 ^ w = 2 ^ (w - signedBitCount i) * 2 ^ signedBitCount i := by
    rw [← pow_add, Nat.sub_add_cancel hle]
  have hlt := (ofInt (signedBitCount i) i).isLt
  have hval := Bits.toInt_ofInt hfit
  have hsx := signExtend_val (a := ofInt (signedBitCount i) i) (w := w) hle
  have heq : ofInt w i = (ofInt (signedBitCount i) i).signExtend w := by
    rw [signExtend, hval]
  rw [heq]
  refine Bits.ext ?_ ?_
  · split <;> simp [hle]
  · rw [hsx]
    unfold toInt at hval
    rw [ofInt_width] at hval hlt ⊢
    split
    · rename_i hneg
      rw [if_neg (by split at hval <;> omega), append_val, allOnes_val, ofInt_width, Nat.sub_mul,
        ← hpow]
      omega
    · rename_i hneg
      rw [if_pos (by split at hval <;> omega), append_val, zero_val]
      omega

theorem toUnsignedBitsWithBitCount_eq (h : n < 2 ^ w) :
    toUnsignedBitsWithBitCount n w = .ok (ofNat w n) := by
  have hle := lt_two_pow_iff_minBitCountUnsigned.1 h
  unfold toUnsignedBitsWithBitCount
  rw [decide_eq_true (by omega), Int.natAbs_natCast, decide_eq_true hle, toUnsignedBits_eq]
  simp only [checkThat_true, ok_bind, pure_eq_ok, ok.injEq]
  refine Bits.ext (by simp [hle]) ?_
  rw [append_val, zero_val, ofNat_val_of_lt (lt_two_pow_iff_minBitCountUnsigned.2 (le_refl _)),
    ofNat_val_of_lt h]
  omega

/-! ### Operations -/

/-- A 64-bit number that fits is written in the width. -/
theorem sBits_eq (hw : w ≤ 64) (h : FitsSigned w i) : sBits i w = .ok (ofInt w i) := by
  have hcount : minBitCountSigned i ≤ w := by
    have hsame : minBitCountSigned i = signedBitCount i := by
      unfold minBitCountSigned signedBitCount
      split
      · rfl
      · split
        · congr 2
          omega
        · congr 2
          omega
    rw [hsame]
    exact signedBitCount_le.2 h
  unfold sBits
  rw [decide_eq_true hcount, Nat.min_eq_left hw, Nat.sub_self, and_mask]
  simp only [checkThat_true, ok_bind, ite_self, Nat.add_zero, pure_eq_ok]
  congr 1
  rw [← ofInt_natCast]
  refine ofInt_congr ?_
  rw [u64_mod hw, Int.emod_emod_of_dvd _ (dvd_refl _)]

/-- Casting to unsigned and back keeps a number of 64 bits. -/
theorem s64_u64 (h : FitsSigned 64 i) : s64 (u64 i) = i := by
  obtain ⟨hlo, hhi⟩ := h
  have hmod := u64_mod (le_refl 64) i
  have hlt : u64 i < 2 ^ 64 := by
    have hpos : (0 : Int) < (2 ^ 64 : Nat) := by exact_mod_cast Nat.two_pow_pos 64
    have := Int.emod_lt_of_pos i hpos
    unfold u64
    omega
  rw [mod_eq_of_lt hlt] at hmod
  unfold s64
  split <;> omega

section Ops

variable (a b : Bits)

/-- Operands may be read as signed or unsigned, if the operation is a ring
operation. -/
theorem ofInt_add_toInt (h : a.width = b.width) :
    ofInt a.width (a.toInt + b.toInt) = ofInt a.width (a.val + b.val) := by
  refine ofInt_congr ?_
  rw [Int.add_emod, toInt_emod_eq a rfl, toInt_emod_eq b h.symm, ← Int.add_emod]

theorem ofInt_sub_toInt (h : a.width = b.width) :
    ofInt a.width (a.toInt - b.toInt) = ofInt a.width (a.val - b.val) := by
  refine ofInt_congr ?_
  rw [Int.sub_emod, toInt_emod_eq a rfl, toInt_emod_eq b h.symm, ← Int.sub_emod]

theorem ofInt_neg_toInt : ofInt a.width (-a.toInt) = ofInt a.width (-a.val) := by
  refine ofInt_congr ?_
  rw [← Int.zero_sub, ← Int.zero_sub, Int.sub_emod, toInt_emod_eq a rfl, ← Int.sub_emod]

theorem wordOp_eq (f : Int → Int → Int) (ha : a.width ≤ 64) (hb : b.width ≤ 64) :
    wordOp f a b = .ok (ofInt a.width (f a.val b.val)) := by
  unfold wordOp
  rw [toUint64_eq ha, toUint64_eq hb]
  exact uBits_masked ha _

theorem bigOp_eq (f : Int → Int → Int) : bigOp f a b = .ok (ofInt a.width (f a.toInt b.toInt)) := by
  unfold bigOp
  rw [makeSigned_eq, makeSigned_eq]
  exact reduce_eq _ _

theorem add_eq (h : a.width = b.width) : add a b = .ok (ofInt a.width (a.val + b.val)) := by
  unfold add
  rw [beq_iff_eq.2 h, checkThat_true, ok_bind]
  split
  · exact wordOp_eq a b (· + ·) ‹_› (by omega)
  · rw [bigOp_eq, ofInt_add_toInt a b h]

theorem sub_eq (h : a.width = b.width) : sub a b = .ok (ofInt a.width (a.val - b.val)) := by
  unfold sub
  rw [beq_iff_eq.2 h, checkThat_true, ok_bind]
  split
  · exact wordOp_eq a b (· - ·) ‹_› (by omega)
  · rw [bigOp_eq, ofInt_sub_toInt a b h]

theorem wordNegate_eq (h : a.width ≤ 64) : wordNegate a = .ok (ofInt a.width (-a.val)) := by
  unfold wordNegate
  rw [toInt64_eq h, ← ofInt_neg_toInt]
  exact uBits_masked h _

theorem bigNegate_eq : bigNegate a = .ok (ofInt a.width (-a.val)) := by
  unfold bigNegate
  rw [makeSigned_eq, ← ofInt_neg_toInt]
  exact reduce_eq _ _

theorem negate_eq : negate a = .ok (ofInt a.width (-a.val)) := by
  unfold negate
  split
  · exact wordNegate_eq a (by omega)
  · exact bigNegate_eq a

/-- Increment adds one modulo the width. -/
theorem increment_eq : increment a = ofInt a.width (a.val + 1) := by
  have hval := value_words a
  have hlen : (words a).length = (a.width + 64 - 1) / 64 := length_limbs _ _
  have hstep := value_increment (by omega) hlen (fun d hd => lt_of_mem_limbs hd)
    (by rw [hval]; exact a.isLt)
  rw [hval] at hstep
  rw [increment, hstep, show (a.val : Int) + 1 = ((a.val + 1 : Nat) : Int) by push_cast; rfl,
    ofInt_natCast]
  refine Bits.ext rfl ?_
  rw [ofNat_val, ofNat_val, mod_mod]

/-- Decrement subtracts one modulo the width. -/
theorem decrement_eq : decrement a = ofInt a.width (a.val - 1) := by
  have hval := value_words a
  have hpos := Nat.two_pow_pos a.width
  have hlen : (words a).length = (a.width + 64 - 1) / 64 := length_limbs _ _
  have hstep := value_decrement (by omega) hlen (fun d hd => lt_of_mem_limbs hd)
    (by rw [hval]; exact a.isLt)
  rw [hval] at hstep
  rw [decrement, hstep]
  refine Bits.ext rfl ?_
  have hcast : (((a.val + 2 ^ a.width - 1) % 2 ^ a.width : Nat) : Int) =
      ((ofInt a.width (a.val - 1)).val : Int) := by
    rw [ofInt_val_cast, Int.natCast_mod, cast_sub (by omega), cast_add, cast_one,
      add_sub_right_comm, Int.add_emod_right]
  rw [ofNat_val, mod_mod]
  exact_mod_cast hcast

/-- A product fits the sum of the widths. -/
theorem fitsSigned_mul {m n : Nat} {i j : Int} (hi : FitsSigned m i) (hj : FitsSigned n j) :
    FitsSigned (m + n) (i * j) := by
  obtain ⟨hilo, hihi⟩ := hi
  obtain ⟨hjlo, hjhi⟩ := hj
  have habs : |2 * i| ≤ (2 ^ m : Nat) := abs_le.2 ⟨hilo, hihi.le⟩
  have habs' : |2 * j| ≤ (2 ^ n : Nat) := abs_le.2 ⟨hjlo, hjhi.le⟩
  have hmul : |2 * i| * |2 * j| ≤ (2 ^ m : Nat) * (2 ^ n : Nat) :=
    mul_le_mul habs habs' (abs_nonneg _) (by positivity)
  rw [← abs_mul] at hmul
  have hpow : ((2 ^ (m + n) : Nat) : Int) = (2 ^ m : Nat) * (2 ^ n : Nat) := by
    rw [pow_add]
    push_cast
    rfl
  have hpos : (0 : Int) < (2 ^ (m + n) : Nat) := by exact_mod_cast Nat.two_pow_pos (m + n)
  have hfour : 2 * i * (2 * j) = 2 * (2 * (i * j)) := by ring
  rw [hfour, ← hpow, abs_le] at hmul
  unfold FitsSigned
  constructor <;> omega

/-- The fast path of the signed product, for results of one word. -/
theorem wordSMul_eq (h : a.width + b.width ≤ 64) :
    wordSMul a b = .ok (ofInt (a.width + b.width) (a.toInt * b.toInt)) := by
  have hfit := fitsSigned_mul (fitsSigned_toInt a) (fitsSigned_toInt b)
  have hfit64 : FitsSigned 64 (a.toInt * b.toInt) := by
    have hle : ((2 ^ (a.width + b.width) : Nat) : Int) ≤ (2 ^ 64 : Nat) := by
      exact_mod_cast Nat.pow_le_pow_right (by omega) h
    exact ⟨by have := hfit.1; omega, by have := hfit.2; omega⟩
  unfold wordSMul
  rw [toInt64_eq (by omega), toInt64_eq (by omega)]
  simp only [ok_bind]
  rw [s64_u64 hfit64, sBits_eq h hfit]

theorem bigSMul_eq : bigSMul a b = .ok (ofInt (a.width + b.width) (a.toInt * b.toInt)) := by
  unfold bigSMul
  rw [makeSigned_eq, makeSigned_eq]
  exact toSignedBitsWithBitCount_eq (fitsSigned_mul (fitsSigned_toInt a) (fitsSigned_toInt b))

theorem sMul_eq : sMul a b = .ok (ofInt (a.width + b.width) (a.toInt * b.toInt)) := by
  unfold sMul
  split
  · exact wordSMul_eq a b ‹_›
  · exact bigSMul_eq a b

theorem mul_lt : a.val * b.val < 2 ^ (a.width + b.width) := by
  rw [pow_add]
  exact Nat.mul_lt_mul'' a.isLt b.isLt

/-- The fast path of the unsigned product, for results of one word. -/
theorem wordUMul_eq (h : a.width + b.width ≤ 64) :
    wordUMul a b = .ok (ofInt (a.width + b.width) (a.val * b.val)) := by
  have hlt := mul_lt a b
  have hle : 2 ^ (a.width + b.width) ≤ 2 ^ 64 := Nat.pow_le_pow_right (by omega) h
  have hword : u64 ((a.val : Int) * b.val) = a.val * b.val := by
    unfold u64
    rw [← cast_mul, Int.emod_eq_of_lt (by omega) (by omega), Int.toNat_natCast]
  unfold wordUMul
  rw [toUint64_eq (by omega), toUint64_eq (by omega)]
  simp only [ok_bind]
  rw [hword, uBits_eq h hlt, ← cast_mul, ofInt_natCast]

theorem bigUMul_eq : bigUMul a b = .ok (ofInt (a.width + b.width) (a.val * b.val)) := by
  unfold bigUMul
  rw [makeUnsigned_eq, makeUnsigned_eq, ← cast_mul,
    toUnsignedBitsWithBitCount_eq (mul_lt a b), ofInt_natCast]

theorem uMul_eq : uMul a b = .ok (ofInt (a.width + b.width) (a.val * b.val)) := by
  unfold uMul
  split
  · exact wordUMul_eq a b ‹_›
  · exact bigUMul_eq a b

theorem zeroExtend_ofNat {n w : Nat} (h : n < 2 ^ w) :
    zeroExtend (ofNat (minBitCountUnsigned n) n) w = .ok (ofInt w n) := by
  unfold zeroExtend
  rw [ofNat_width, decide_eq_true (lt_two_pow_iff_minBitCountUnsigned.1 h)]
  simp only [checkThat_true, ok_bind, pure_eq_ok, ok.injEq]
  rw [ofInt_natCast, Bits.zeroExtend,
    ofNat_val_of_lt (lt_two_pow_iff_minBitCountUnsigned.2 (le_refl _))]

theorem uDiv_eq : uDiv a b =
    .ok (if b.val = 0 then allOnes a.width else ofInt a.width (a.val / b.val)) := by
  unfold uDiv isZero
  by_cases hb : b.val = 0
  · simp [hb]
  · rw [if_neg (by simpa using hb), if_neg hb, makeUnsigned_eq, makeUnsigned_eq, div,
      Int.tdiv_eq_ediv_of_nonneg (by omega), ← Int.natCast_ediv, toUnsignedBits_eq]
    simp only [ok_bind]
    exact zeroExtend_ofNat (lt_of_le_of_lt (Nat.div_le_self _ _) a.isLt)

theorem uMod_eq : uMod a b =
    .ok (if b.val = 0 then zero b.width else ofInt b.width (a.val % b.val)) := by
  unfold uMod isZero
  by_cases hb : b.val = 0
  · simp [hb]
  · rw [if_neg (by simpa using hb), if_neg hb, makeUnsigned_eq, makeUnsigned_eq, mod,
      Int.tmod_eq_emod_of_nonneg (by omega), ← Int.natCast_emod, toUnsignedBits_eq]
    simp only [ok_bind]
    exact zeroExtend_ofNat (lt_trans (mod_lt _ (Nat.pos_of_ne_zero hb)) b.isLt)

/-- The three-way comparison is the sign of the difference. -/
theorem uCmp_eq : uCmp a b = sign a.val b.val := by
  have ha := value_words a
  have hb := value_words b
  have halt : ∀ d ∈ words a, d < 2 ^ 64 := fun d hd => lt_of_mem_limbs hd
  have hblt : ∀ d ∈ words b, d < 2 ^ 64 := fun d hd => lt_of_mem_limbs hd
  unfold uCmp
  dsimp only
  split
  · rename_i hex
    have hle := le_value_of_excess (k := 64) hex
    have hlt := value_lt hblt
    rw [ha] at hle
    rw [hb] at hlt
    rw [sign, if_pos (by omega)]
  · rename_i hex
    split
    · rename_i hex'
      have hle := le_value_of_excess (k := 64) hex'
      have hlt := value_lt halt
      rw [hb] at hle
      rw [ha] at hlt
      rw [sign, if_neg (by omega), if_pos (by omega)]
    · rename_i hex'
      rw [compare_eq_sign (k := 64) (by simp [Nat.min_comm])
        (fun d hd => halt d (mem_of_mem_take (mem_reverse.1 hd)))
        (fun d hd => hblt d (mem_of_mem_take (mem_reverse.1 hd))),
        reverse_reverse, reverse_reverse, value_take (by simpa using hex),
        value_take (by simpa using hex'), ha, hb]

theorem sLessThan_eq : sLessThan a b = .ok (decide (a.toInt < b.toInt)) := by
  unfold sLessThan
  split
  · rename_i h
    rw [toInt64_eq h.1, toInt64_eq h.2]
    rfl
  · rw [makeSigned_eq, makeSigned_eq]
    rfl

theorem sEqual_eq : sEqual a b = decide (a.toInt = b.toInt) := by
  rw [sEqual, makeSigned_eq, makeSigned_eq]
  rfl

/-- The signed comparison compares the signed numbers. -/
theorem sLessThanOrEqual_eq : sLessThanOrEqual a b = .ok (decide (a.toInt ≤ b.toInt)) := by
  unfold sLessThanOrEqual
  rw [sEqual_eq, sLessThan_eq]
  split
  · rename_i h
    rw [decide_eq_true_iff] at h
    rw [decide_eq_true (by omega)]
    rfl
  · rename_i h
    rw [decide_eq_true_iff] at h
    congr 1
    exact decide_eq_decide.2 (by omega)

end Ops

section Division

variable (a b : Bits)

theorem uBits_of_lt {v w : Nat} (h : v < 2 ^ w) (hword : v < 2 ^ 64) :
    uBits v w = .ok (ofNat w v) := by
  have hmin : v < 2 ^ min w 64 := by
    rcases Nat.le_total w 64 with hw | hw
    · rwa [Nat.min_eq_left hw]
    · rwa [Nat.min_eq_right hw]
  unfold uBits
  rw [decide_eq_true (lt_two_pow_iff_minBitCountUnsigned.1 h), and_mask, mod_eq_of_lt hmin]
  rfl

/-- Division by zero yields the extreme value on the side of the dividend. -/
theorem sDiv_zero (hb : b.val = 0) : sDiv a b =
    .ok (if a.toInt < 0 then ofInt a.width (-(2 ^ (a.width - 1) : Nat))
      else ofInt a.width ((2 ^ (a.width - 1) : Nat) - 1)) := by
  have hlt := a.isLt
  unfold sDiv isZero
  rw [if_pos (by simpa using hb)]
  by_cases hw : a.width = 0
  · rw [if_pos hw, uBits_of_lt (by omega) (by omega)]
    congr 1
    rw [hw]
    split <;> rfl
  · have hzero : (ofNat a.width 0).toInt = 0 := by
      unfold toInt
      rw [ofNat_val, zero_mod, if_pos (by simp)]
      rfl
    have hpow : 2 ^ a.width = 2 ^ (a.width - 1) * 2 := by
      rw [← pow_succ, Nat.sub_add_cancel (Nat.pos_of_ne_zero hw)]
    have hpos := Nat.two_pow_pos (a.width - 1)
    rw [if_neg hw, uBits_of_lt (Nat.two_pow_pos _) (by omega)]
    simp only [ok_bind]
    rw [sLessThan_eq, hzero]
    simp only [ok_bind, decide_eq_true_eq]
    split
    · rw [uBits_of_lt (by omega) (by omega), uBits_of_lt (Nat.two_pow_pos _) (by omega)]
      simp only [ok_bind, pure_eq_ok, ok.injEq]
      refine Bits.ext ?_ ?_
      · simp only [Bits.concat, append_width, ofNat_width, zero_width, ofInt_width]
        omega
      · have hval := ofInt_val_cast a.width (-(2 ^ (a.width - 1) : Nat))
        rw [← Int.add_emod_right, Int.emod_eq_of_lt (by omega) (by omega)] at hval
        simp only [Bits.concat, append_val, ofNat_val, ofNat_width, zero_val, zero_width,
          append_width, zero_mod, Nat.add_zero]
        omega
    · unfold zeroExtend
      rw [allOnes_width, decide_eq_true (by omega)]
      simp only [checkThat_true, ok_bind, pure_eq_ok, ok.injEq]
      refine Bits.ext rfl ?_
      have hval := ofInt_val_cast a.width ((2 ^ (a.width - 1) : Nat) - 1)
      rw [Int.emod_eq_of_lt (by omega) (by omega)] at hval
      rw [Bits.zeroExtend_val (by rw [allOnes_width]; omega), allOnes_val]
      omega

theorem sDiv_eq : sDiv a b = .ok (if b.val = 0 then
      if a.toInt < 0 then ofInt a.width (-(2 ^ (a.width - 1) : Nat))
      else ofInt a.width ((2 ^ (a.width - 1) : Nat) - 1)
    else ofInt a.width (a.toInt.tdiv b.toInt)) := by
  by_cases hb : b.val = 0
  · rw [if_pos hb]
    exact sDiv_zero a b hb
  · unfold sDiv isZero
    rw [if_neg (by simpa using hb), if_neg hb, makeSigned_eq, makeSigned_eq]
    exact reduce_eq _ _

theorem sMod_eq : sMod a b =
    .ok (if b.val = 0 then zero b.width else ofInt b.width (a.toInt.tmod b.toInt)) := by
  unfold sMod isZero
  by_cases hb : b.val = 0
  · simp [hb]
  · rw [if_neg (by simpa using hb), if_neg hb, makeSigned_eq, makeSigned_eq]
    exact reduce_eq _ _

end Division

/-- The unsigned comparisons are those of the numbers, at any widths. -/
theorem uCompare_eq (a b : Bits) :
    uEqual a b = decide (a.val = b.val) ∧ uLessThan a b = decide (a.val < b.val) ∧
      uLessThanOrEqual a b = decide (a.val ≤ b.val) ∧ uGreaterThan a b = decide (b.val < a.val) ∧
      uGreaterThanOrEqual a b = decide (b.val ≤ a.val) := by
  unfold uEqual uLessThan uLessThanOrEqual uGreaterThan uGreaterThanOrEqual
  rw [uCmp_eq, sign]
  rcases Nat.lt_trichotomy a.val b.val with h | h | h
  · rw [if_neg (by omega), if_pos h]
    refine ⟨?_, ?_, ?_, ?_, ?_⟩ <;> simp <;> omega
  · rw [if_neg (by omega), if_neg (by omega)]
    refine ⟨?_, ?_, ?_, ?_, ?_⟩ <;> simp <;> omega
  · rw [if_pos h]
    refine ⟨?_, ?_, ?_, ?_, ?_⟩ <;> simp <;> omega

/-- The signed comparisons are those of the two's complement values. -/
theorem sCompare_eq (a b : Bits) :
    sEqual a b = decide (a.toInt = b.toInt) ∧ sLessThan a b = .ok (decide (a.toInt < b.toInt)) ∧
      sLessThanOrEqual a b = .ok (decide (a.toInt ≤ b.toInt)) ∧
      sGreaterThan a b = .ok (decide (b.toInt < a.toInt)) ∧
      sGreaterThanOrEqual a b = .ok (decide (b.toInt ≤ a.toInt)) := by
  refine ⟨sEqual_eq a b, sLessThan_eq a b, sLessThanOrEqual_eq a b, ?_, ?_⟩
  · unfold sGreaterThan
    rw [sLessThanOrEqual_eq]
    simp only [ok_bind, pure_eq_ok, ← decide_not, not_le]
  · unfold sGreaterThanOrEqual
    rw [sLessThan_eq]
    simp only [ok_bind, pure_eq_ok, ← decide_not, not_lt]

/-- An `int64_t` operand of a comparison stands for itself. -/
theorem operand_eq (hlo : -(2 ^ 63 : Nat) ≤ i) (hhi : i < (2 ^ 63 : Nat)) :
    (0 ≤ i → ∃ r, uOperand i = .ok r ∧ (r.val : Int) = i) ∧
      ∃ r, sOperand i = .ok r ∧ r.toInt = i := by
  have hfit : FitsSigned 64 i := ⟨by omega, by omega⟩
  constructor
  · intro hnn
    refine ⟨ofNat 64 i.toNat, ?_, ?_⟩
    · unfold uOperand
      rw [decide_eq_true hnn, checkThat_true, ok_bind]
      exact uBits_eq (le_refl 64) (by omega)
    · rw [ofNat_val_of_lt (by omega)]
      omega
  · exact ⟨ofInt 64 i, sBits_eq (le_refl 64) hfit, toInt_ofInt hfit⟩

/-- The arithmetic of `bits_ops` is exact: every operation returns the mathematical
result of the unsigned or signed operands, reduced to the width of the result, with
the documented results for a divisor of zero, and no check fails. -/
theorem exact_arithmetic (a b : Bits) :
    (a.width = b.width → add a b = .ok (ofInt a.width (a.val + b.val)) ∧
      sub a b = .ok (ofInt a.width (a.val - b.val))) ∧ negate a = .ok (ofInt a.width (-a.val)) ∧
    increment a = ofInt a.width (a.val + 1) ∧ decrement a = ofInt a.width (a.val - 1) ∧
    uMul a b = .ok (ofInt (a.width + b.width) (a.val * b.val)) ∧
    sMul a b = .ok (ofInt (a.width + b.width) (a.toInt * b.toInt)) ∧
    uDiv a b = .ok (if b.val = 0 then allOnes a.width else ofInt a.width (a.val / b.val)) ∧
    uMod a b = .ok (if b.val = 0 then zero b.width else ofInt b.width (a.val % b.val)) ∧
    sDiv a b = .ok (if b.val = 0 then
        if a.toInt < 0 then ofInt a.width (-(2 ^ (a.width - 1) : Nat))
        else ofInt a.width ((2 ^ (a.width - 1) : Nat) - 1)
      else ofInt a.width (a.toInt.tdiv b.toInt)) ∧
    sMod a b = .ok (if b.val = 0 then zero b.width else ofInt b.width (a.toInt.tmod b.toInt)) ∧
    (uEqual a b = decide (a.val = b.val) ∧ uLessThan a b = decide (a.val < b.val) ∧
      uLessThanOrEqual a b = decide (a.val ≤ b.val) ∧ uGreaterThan a b = decide (b.val < a.val) ∧
      uGreaterThanOrEqual a b = decide (b.val ≤ a.val)) ∧
    (sEqual a b = decide (a.toInt = b.toInt) ∧ sLessThan a b = .ok (decide (a.toInt < b.toInt)) ∧
      sLessThanOrEqual a b = .ok (decide (a.toInt ≤ b.toInt)) ∧
      sGreaterThan a b = .ok (decide (b.toInt < a.toInt)) ∧
      sGreaterThanOrEqual a b = .ok (decide (b.toInt ≤ a.toInt))) ∧
    (∀ i : Int, -(2 ^ 63 : Nat) ≤ i → i < (2 ^ 63 : Nat) →
      (0 ≤ i → ∃ r, uOperand i = .ok r ∧ (r.val : Int) = i) ∧
        ∃ r, sOperand i = .ok r ∧ r.toInt = i) ∧
    (a.width = b.width → a.width ≤ 64 → wordOp (· + ·) a b = bigOp (· + ·) a b ∧
      wordOp (· - ·) a b = bigOp (· - ·) a b) ∧ (a.width ≤ 64 → wordNegate a = bigNegate a) ∧
    (a.width + b.width ≤ 64 → wordUMul a b = bigUMul a b ∧ wordSMul a b = bigSMul a b) := by
  refine ⟨fun h => ⟨add_eq a b h, sub_eq a b h⟩, negate_eq a, increment_eq a, decrement_eq a,
    uMul_eq a b, sMul_eq a b, uDiv_eq a b, uMod_eq a b, sDiv_eq a b, sMod_eq a b,
    uCompare_eq a b, sCompare_eq a b, fun i hlo hhi => operand_eq hlo hhi, ?_, ?_, ?_⟩
  · intro h hw
    rw [wordOp_eq a b _ hw (by omega), bigOp_eq, wordOp_eq a b _ hw (by omega), bigOp_eq,
      ofInt_add_toInt a b h, ofInt_sub_toInt a b h]
    exact ⟨rfl, rfl⟩
  · intro h
    rw [wordNegate_eq a h, bigNegate_eq]
  · intro h
    rw [wordUMul_eq a b h, bigUMul_eq, wordSMul_eq a b h, bigSMul_eq]
    exact ⟨rfl, rfl⟩

/-- The smallest number of 65 bits minus one wraps around. -/
theorem exact_arithmetic_wraps :
    sub (ofNat 65 (2 ^ 64)) (ofNat 65 1) = .ok (ofNat 65 (2 ^ 64 - 1)) := by
  have h := ((exact_arithmetic (ofNat 65 (2 ^ 64)) (ofNat 65 1)).1 rfl).2
  rw [h]
  rfl

end BitsOps

end Xls

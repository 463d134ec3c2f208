import Xls.BitsOps.Exact
import Xls.InlineBitmap.Clean

/-!
# Xls.InlineBitmap.Observers

The words of a clean bitmap are the words of the number that its bits spell
(`words_toBits`), so equality, comparison, the tests for all ones and all zeroes
and the hash value are those of a number of `bitCount` bits
(`observers_of_built`).
-/

namespace Xls.InlineBitmap

open BitsOps Limbs List Nat

/-! ### Limbs and bits -/

theorem getElem?_limbs {k n i : Nat} (x : Nat) (hi : i < n) :
    (limbs k n x)[i]? = some (x / 2 ^ (k * i) % 2 ^ k) := by
  induction n generalizing x i with
  | zero => omega
  | succ n ih =>
    cases i with
    | zero => simp [limbs]
    | succ i =>
      rw [limbs, getElem?_cons_succ, ih _ (by omega), Nat.div_div_eq_div_mul,
        ← pow_add, mul_succ, Nat.add_comm]

@[simp] theorem toBits_width (b : InlineBitmap) : b.toBits.width = b.bitCount := by simp [toBits]

variable {b other : InlineBitmap}

/-- The bits of the number are the stored bits. -/
theorem testBit_toBits (h : b.Clean) (i : Nat) : b.toBits.val.testBit i = bitAt b.data i := by
  rw [toBits, Bits.ofBools_val, BoolList.testBit_toNat]
  by_cases hi : i < b.bitCount
  · rw [getD_eq_getElem _ _ (by simpa using hi)]
    simp
  · rw [getD_eq_default _ _ (by simpa using hi), h.stray i (by omega)]

/-- Without stray bits the stored words are the words of the number. -/
theorem words_toBits (h : b.Clean) : words b.toBits = b.data.map BitVec.toNat := by
  have hlen : b.data.length = (b.bitCount + 63) / 64 := h.sized
  apply ext_getElem?
  intro n
  by_cases hn : n < b.data.length
  · rw [words, toBits_width, getElem?_limbs _ (by omega), getElem?_map,
      getElem?_eq_getElem hn, Option.map_some]
    congr 1
    apply eq_of_testBit_eq
    intro j
    rw [testBit_mod_two_pow, testBit_div_two_pow, testBit_toBits h]
    by_cases hj : j < 64
    · have hdiv : (64 * n + j) / 64 = n := by omega
      have hmod : (64 * n + j) % 64 = j := by omega
      rw [decide_eq_true hj, Bool.true_and, bitAt, Nat.add_comm, hdiv, hmod, getD_eq_getElem _ _ hn]
      rfl
    · rw [decide_eq_false hj, Bool.false_and]
      exact (BitVec.getLsbD_of_ge _ _ (by omega)).symm
  · rw [getElem?_eq_none (by rw [words, toBits_width, length_limbs]; omega),
      getElem?_eq_none (by rw [length_map]; omega)]

/-- A clean bitmap is determined by its bit count and its number. -/
theorem eq_of_toBits (hb : b.Clean) (ho : other.Clean) (h : b.toBits = other.toBits) :
    b = other := by
  have hcount : b.bitCount = other.bitCount := by
    rw [← toBits_width, h, toBits_width]
  have hwords : b.data.map BitVec.toNat = other.data.map BitVec.toNat := by
    rw [← words_toBits hb, h, words_toBits ho]
  have hdata : b.data = other.data :=
    map_injective_iff.2 (fun _ _ => BitVec.eq_of_toNat_eq) hwords
  cases b
  cases other
  simp_all

theorem toBits_inj (hb : b.Clean) (ho : other.Clean) :
    b = other ↔ b.bitCount = other.bitCount ∧ b.toBits.val = other.toBits.val := by
  constructor
  · intro h
    rw [h]
    exact ⟨rfl, rfl⟩
  · intro h
    apply eq_of_toBits hb ho
    exact Bits.ext (by simpa using h.1) h.2

/-! ### Words and all words -/

/-- A test of every word is a test of every bit. -/
theorem all_words_iff (f : Nat → BitVec 64) :
    ((List.range b.wordCount).all fun wordno => b.data.getD wordno 0 == f wordno) = true ↔
      ∀ i, i < 64 * b.data.length → bitAt b.data i = (f (i / 64)).getLsbD (i % 64) := by
  rw [all_eq_true]
  constructor
  · intro h i hi
    have hword := h (i / 64) (mem_range.2 (by rw [wordCount]; omega))
    rw [beq_iff_eq] at hword
    rw [bitAt, hword]
  · intro h wordno hmem
    rw [mem_range, wordCount] at hmem
    rw [beq_iff_eq]
    apply BitVec.eq_of_getLsbD_eq
    intro j hj
    have hdiv : (64 * wordno + j) / 64 = wordno := by omega
    have hmod : (64 * wordno + j) % 64 = j := by omega
    have hbit := h (64 * wordno + j) (by omega)
    rwa [bitAt, hdiv, hmod] at hbit

/-- `operator==` compares bit counts and numbers. -/
theorem eq_iff (hb : b.Clean) (ho : other.Clean) :
    b.eq other = true ↔ b.bitCount = other.bitCount ∧ b.toBits.val = other.toBits.val := by
  unfold eq
  split
  · rename_i hne
    constructor
    · intro h
      cases h
    · intro h
      exact absurd h.1 hne
  · rename_i hcount
    have hcount : b.bitCount = other.bitCount := not_not.1 hcount
    have hbound := sized_bound hb.sized
    rw [all_words_iff fun wordno => other.data.getD wordno 0]
    constructor
    · intro h
      refine ⟨hcount, eq_of_testBit_eq fun i => ?_⟩
      rw [testBit_toBits hb, testBit_toBits ho]
      by_cases hi : i < 64 * b.data.length
      · exact h i hi
      · rw [hb.stray i (by omega), ho.stray i (by omega)]
    · intro h i _
      have hbit := congrArg (fun n => n.testBit i) h.2
      rwa [testBit_toBits hb, testBit_toBits ho] at hbit

/-- `IsAllOnes` is the largest number of the bit count. -/
theorem isAllOnes_iff (hb : b.Clean) : b.isAllOnes = true ↔ b.toBits.val = 2 ^ b.bitCount - 1 := by
  have hbound := sized_bound hb.sized
  have hmask : ∀ i, i < 64 * b.data.length →
      (b.maskForWord (i / 64 : Nat)).getLsbD (i % 64) = decide (i < b.bitCount) := by
    intro i hi
    rw [getLsbD_maskForWord hb.sized (by omega) (mod_lt _ (by omega)), div_add_mod]
  unfold isAllOnes
  rw [all_words_iff fun wordno => b.maskForWord wordno]
  constructor
  · intro h
    apply eq_of_testBit_eq
    intro i
    rw [testBit_toBits hb, testBit_two_pow_sub_one]
    by_cases hi : i < 64 * b.data.length
    · rw [h i hi, hmask i hi]
    · rw [hb.stray i (by omega), decide_eq_false (by omega)]
  · intro h i hi
    rw [← testBit_toBits hb, h, testBit_two_pow_sub_one, hmask i hi]

/-- `IsAllZeroes` is the number zero. -/
theorem isAllZeroes_iff (hb : b.Clean) : b.isAllZeroes = true ↔ b.toBits.val = 0 := by
  have hbound := sized_bound hb.sized
  unfold isAllZeroes
  rw [all_words_iff fun _ => 0]
  constructor
  · intro h
    apply eq_of_testBit_eq
    intro i
    rw [testBit_toBits hb, zero_testBit]
    by_cases hi : i < 64 * b.data.length
    · rw [h i hi]
      exact BitVec.getLsbD_zero
    · rw [hb.stray i (by omega)]
  · intro h i _
    rw [← testBit_toBits hb, h, zero_testBit]
    exact BitVec.getLsbD_zero.symm

/-- `UCmp` is the comparison of the numbers. -/
theorem uCmp_eq_sign (hb : b.Clean) (ho : other.Clean) :
    b.uCmp other = sign b.toBits.val other.toBits.val := by
  have hwords : b.uCmp other = BitsOps.uCmp b.toBits other.toBits := by
    rw [uCmp, ← words_toBits hb, ← words_toBits ho]
    rfl
  rw [hwords, uCmp_eq]

/-- After any sequence of constructions and operations, no bit is stored at or above the bit
count, the number read has the bits that `Get` returns, and every observer agrees with that
number. -/
theorem observers_of_built {b other : InlineBitmap} (hb : Built b) (ho : Built other) :
    (b.data.length = ceilOfRatio b.bitCount 64 ∧ ∀ i, b.bitCount ≤ i → bitAt b.data i = false) ∧
    (b.toBits.width = b.bitCount ∧ ∀ i, i < b.bitCount → b.get i = .ok (b.toBits.get i)) ∧
    (b.eq other = true ↔ b.bitCount = other.bitCount ∧ b.toBits.val = other.toBits.val) ∧
    b.uCmp other = (if other.toBits.val < b.toBits.val then 1
        else if b.toBits.val < other.toBits.val then -1 else 0) ∧
    (b.isAllOnes = true ↔ b.toBits.val = 2 ^ b.bitCount - 1) ∧
    (b.isAllZeroes = true ↔ b.toBits.val = 0) ∧
    ((∀ (H : Type) (combine : H → Nat × List (BitVec 64) → H) (h : H),
        b.hashValue combine h = other.hashValue combine h) ↔
      b.bitCount = other.bitCount ∧ b.toBits.val = other.toBits.val) := by
  have hb := hb.clean
  have ho := ho.clean
  refine ⟨⟨hb.sized, hb.stray⟩, ⟨toBits_width b, ?_⟩, eq_iff hb ho, uCmp_eq_sign hb ho,
    isAllOnes_iff hb, isAllZeroes_iff hb, ?_⟩
  · intro i hi
    rw [get, decide_eq_true hi, Bits.get, testBit_toBits hb]
    rfl
  · rw [← toBits_inj hb ho]
    constructor
    · intro h
      -- a hash state that keeps what is combined into it
      have hkeys := h (Nat × List (BitVec 64)) (fun _ key => key) (0, [])
      exact InlineBitmap.ext (congrArg Prod.fst hkeys) (congrArg Prod.snd hkeys)
    · intro h H combine state
      rw [h]

/-- Seven in three bits, from a word with stray bits and from its bits. -/
theorem observers_of_seven :
    (fromWord 255 3 false).eq (fromBits [true, true, true]) = true ∧
      (fromWord 255 3 false).isAllOnes = true := by
  obtain ⟨-, -, heq, -, hones, -, -⟩ :=
    observers_of_built (.fromWord 255 3 false) (.fromBits [true, true, true])
  exact ⟨heq.2 (by decide), hones.2 (by decide)⟩

end Xls.InlineBitmap

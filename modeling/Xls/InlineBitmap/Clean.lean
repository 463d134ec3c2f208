import Xls.InlineBitmap

/-!
# Xls.InlineBitmap.Clean

Every operation on a bitmap is specified by the bits it leaves, and none leaves a stored bit
at or above the bit count (`Clean`), whatever constructions and operations came before
(`Built`) (`Built.clean`).
-/

namespace Xls.InlineBitmap

open Result List BitVec Nat

/-! ### What an operation leaves -/

/-- The shape of a bitmap: as many words as the bits need. -/
def Sized (b : InlineBitmap) : Prop := b.data.length = ceilOfRatio b.bitCount 64

/-- No bit is stored at or above the bit count. -/
structure Clean (b : InlineBitmap) : Prop where
  sized : b.Sized
  stray : ∀ i, b.bitCount ≤ i → bitAt b.data i = false

variable {b c other : InlineBitmap}

theorem sized_bound (h : b.Sized) :
    b.bitCount ≤ 64 * b.data.length ∧ 64 * b.data.length < b.bitCount + 64 := by
  have hlen : b.data.length = (b.bitCount + 64 - 1) / 64 := h
  omega

variable {n : Nat} {bytes : List (BitVec 8)} {value : Bool} {f : BitVec 64 → BitVec 64 → BitVec 64}
  {g : Bool → Bool → Bool}

/-- In a word the bitmap has, the mask selects the positions below the bit count. -/
theorem getLsbD_maskForWord {j : Nat} (h : b.Sized) (hn : n < b.data.length) (hj : j < 64) :
    (b.maskForWord n).getLsbD j = decide (64 * n + j < b.bitCount) := by
  have hbound := sized_bound h
  unfold maskForWord
  dsimp only
  split
  · rename_i hfull
    rw [wordCount] at hfull
    rw [getLsbD_maskWord hj]
    exact decide_eq_decide.2 (by omega)
  · rename_i hlast
    rw [wordCount] at hlast
    rw [getLsbD_maskWord hj]
    exact decide_eq_decide.2 (by omega)

@[simp] theorem bitCount_maskLastWord (b : InlineBitmap) :
    b.maskLastWord.bitCount = b.bitCount := by
  unfold maskLastWord
  split <;> rfl

theorem sized_maskLastWord (h : b.Sized) : b.maskLastWord.Sized := by
  unfold maskLastWord
  split
  · exact h
  · rw [Sized, length_modify]
    exact h

/-- Masking the last word clears the bits beyond the size. -/
theorem bitAt_maskLastWord (h : b.Sized) (i : Nat) :
    bitAt b.maskLastWord.data i = (bitAt b.data i && decide (i < b.bitCount)) := by
  have hbound := sized_bound h
  unfold maskLastWord
  split
  · rename_i hzero
    rw [wordCount] at hzero
    rw [bitAt_of_length_le (by omega)]
    rfl
  · rename_i hpos
    rw [wordCount] at hpos
    dsimp only
    rw [wordCount, bitAt_modify _ (by omega)]
    split
    · rename_i hi
      rw [getLsbD_and, getLsbD_maskForWord h (by omega) (by omega), ← hi, bitAt, div_add_mod]
    · rename_i hi
      -- the words before the last one lie below the bit count
      by_cases hlt : i < b.bitCount
      · simp [hlt]
      · rw [bitAt_of_length_le (by omega), Bool.false_and]

/-- Masking the last word is all that a bitmap of the right shape needs. -/
theorem clean_maskLastWord (h : b.Sized) : b.maskLastWord.Clean := by
  constructor
  · exact sized_maskLastWord h
  · intro i hi
    rw [bitCount_maskLastWord] at hi
    rw [bitAt_maskLastWord h, decide_eq_false (by omega), Bool.and_false]

/-! ### Constructors -/

@[simp] theorem bitCount_new (n : Nat) (fill : Bool) : (new n fill).bitCount = n := by
  unfold new
  dsimp only
  split <;> simp

theorem sized_new (n : Nat) (fill : Bool) : (new n fill).Sized := by
  unfold new
  dsimp only
  split
  · exact sized_maskLastWord (length_replicate ..)
  · exact length_replicate ..

/-- A new bitmap has all its bits alike. -/
theorem bitAt_new (n : Nat) (fill : Bool) (i : Nat) :
    bitAt (new n fill).data i = (fill && decide (i < n)) := by
  unfold new
  dsimp only
  have hsized : Sized ⟨n, List.replicate (ceilOfRatio n 64) (if fill then ~~~0 else 0)⟩ :=
    length_replicate ..
  have hcover : n ≤ 64 * ceilOfRatio n 64 := by
    rw [ceilOfRatio]
    omega
  have hones := getLsbD_fill (i := i) fill
  generalize (if fill then ~~~0 else 0 : BitVec 64) = w at hsized hones ⊢
  split
  · rw [bitAt_maskLastWord hsized, bitAt_replicate, hones]
    by_cases hi : i < n
    · rw [decide_eq_true (show i < 64 * ceilOfRatio n 64 by omega), Bool.true_and]
    · simp [hi]
  · rename_i hfill
    rw [Bool.not_eq_true] at hfill
    rw [bitAt_replicate, hones, hfill, Bool.and_false, Bool.false_and]

theorem clean_new (n : Nat) (fill : Bool) : (new n fill).Clean := by
  constructor
  · exact sized_new n fill
  · intro i hi
    rw [bitCount_new] at hi
    rw [bitAt_new, decide_eq_false (by omega), Bool.and_false]

/-- A masked store of one word keeps the bitmap clean. -/
theorem clean_set (h : b.Clean) (hn : n < b.data.length) (w : BitVec 64) :
    Clean { b with data := b.data.set n (w &&& b.maskForWord n) } := by
  constructor
  · rw [Sized, length_set]
    exact h.sized
  · intro i hi
    dsimp only at hi
    have hmod : i % 64 < 64 := mod_lt _ (by omega)
    dsimp only
    rw [bitAt_set _ hn]
    split
    · rename_i hword
      rw [getLsbD_and, getLsbD_maskForWord h.sized hn hmod,
        decide_eq_false (by omega), Bool.and_false]
    · exact h.stray i hi

theorem clean_fromWord (word : BitVec 64) (n : Nat) (fill : Bool) :
    (fromWord word n fill).Clean := by
  unfold fromWord
  dsimp only
  split
  · rename_i hn
    have hbound := sized_bound (sized_new n fill)
    rw [bitCount_new] at hbound
    exact clean_set (clean_new n fill) (by omega) word
  · exact clean_new n fill

/-! ### Bytes and bits written one after the other -/

section Loops

variable {data : List (BitVec 64)}

@[simp] theorem length_storeByte (byteno : Nat) (value : BitVec 8) :
    (storeByte data byteno value).length = data.length := by
  rw [storeByte, length_modify]

/-- Storing a byte replaces its 8 bits. -/
theorem bitAt_storeByte {byteno : Nat} (value : BitVec 8) (h : byteno < 8 * data.length) (i : Nat) :
    bitAt (storeByte data byteno value) i =
      if i / 8 = byteno then value.getLsbD (i % 8) else bitAt data i := by
  have hmod : i % 64 < 64 := mod_lt _ (by omega)
  have hones : ∀ k, (255#64).getLsbD k = decide (k < 8) := by
    intro k
    rw [show 255#64 = BitVec.ofNat 64 (2 ^ 8 - 1) from rfl, getLsbD_ofNat, testBit_two_pow_sub_one]
    by_cases hk : k < 8
    · simp [hk, show k < 64 by omega]
    · simp [hk]
  unfold storeByte
  dsimp only
  rw [bitAt_modify _ (by omega)]
  by_cases hword : i / 64 = byteno / 8
  · rw [if_pos hword, ← hword]
    rw [getLsbD_or, getLsbD_and, getLsbD_not, getLsbD_shiftLeft,
      getLsbD_shiftLeft, getLsbD_setWidth, hones, decide_eq_true hmod]
    -- inside the word, the byte covers eight positions from its shift on
    by_cases hbyte : i / 8 = byteno
    · have hlow : ¬ i % 64 < 8 * (byteno % 8) := by omega
      have hoff : i % 64 - 8 * (byteno % 8) = i % 8 := by omega
      have hlt : i % 8 < 64 := by omega
      have hsmall : i % 8 < 8 := mod_lt _ (by omega)
      rw [if_pos hbyte, hoff]
      simp [hlow, hlt, hsmall]
    · rw [if_neg hbyte]
      by_cases hlow : i % 64 < 8 * (byteno % 8)
      · simp [hlow, bitAt]
      · have hhigh : ¬ i % 64 - 8 * (byteno % 8) < 8 := by omega
        have hnone : value.getLsbD (i % 64 - 8 * (byteno % 8)) = false :=
          getLsbD_of_ge _ _ (by omega)
        simp [hlow, hhigh, hnone, bitAt]
  · have hbyte : i / 8 ≠ byteno := by omega
    rw [if_neg hword, if_neg hbyte]

@[simp] theorem length_copyBytes (byteno : Nat) (values : List (BitVec 8)) :
    (copyBytes data byteno values).length = data.length := by
  induction values generalizing data byteno with
  | nil => rfl
  | cons value values ih => rw [copyBytes, ih, length_storeByte]

@[simp] theorem length_orBits (word bitIdx : Nat) (bits : List Bool) :
    (orBits data word bitIdx bits).length = data.length := by
  induction bits generalizing data word bitIdx with
  | nil => rfl
  | cons bit bits ih =>
    unfold orBits
    dsimp only
    split
    · rw [ih, length_modify]
    · rw [ih, length_modify]

/-- One step of the loop adds one bit. -/
theorem bitAt_orBit {word bitIdx : Nat} (bit : Bool) (hword : word < data.length)
    (hidx : bitIdx < 64) (i : Nat) :
    bitAt (data.modify word (· ||| ((ofBool bit).setWidth 64 <<< bitIdx))) i =
      (bitAt data i || (decide (i = 64 * word + bitIdx) && bit)) := by
  have hmod : i % 64 < 64 := mod_lt _ (by omega)
  rw [bitAt_modify _ hword]
  split
  · rename_i hi
    rw [getLsbD_or, getLsbD_shiftLeft, getLsbD_setWidth, getLsbD_ofBool, ← hi]
    congr 1
    by_cases hbit : i = 64 * word + bitIdx
    · have hoff : i % 64 = bitIdx := by omega
      simp [← hbit, hoff, hidx, hi]
    · have hoff : i % 64 ≠ bitIdx := by omega
      have hplace : i ≠ 64 * (i / 64) + bitIdx := by omega
      by_cases hlow : i % 64 < bitIdx
      · simp [hlow, hplace]
      · have hpos : i % 64 - bitIdx ≠ 0 := by omega
        simp [hplace, hpos]
  · rename_i hi
    have hplace : i ≠ 64 * word + bitIdx := by omega
    rw [decide_eq_false hplace, Bool.false_and, Bool.or_false]

/-- What the loop of `FromBits` leaves, from a position on. -/
theorem bitAt_orBits {word bitIdx : Nat} {bits : List Bool} (hidx : bitIdx < 64)
    (h : 64 * word + bitIdx + bits.length ≤ 64 * data.length) (i : Nat) :
    bitAt (orBits data word bitIdx bits) i = (bitAt data i ||
        (decide (64 * word + bitIdx ≤ i) && bits.getD (i - (64 * word + bitIdx)) false)) := by
  induction bits generalizing data word bitIdx with
  | nil => simp [orBits]
  | cons bit bits ih =>
    rw [length_cons] at h
    -- either way the next position is the next one of the bitmap
    have hnext : bitAt (orBits data word bitIdx (bit :: bits)) i =
        (bitAt (data.modify word (· ||| ((ofBool bit).setWidth 64 <<< bitIdx))) i ||
          (decide (64 * word + bitIdx + 1 ≤ i) &&
            bits.getD (i - (64 * word + bitIdx + 1)) false)) := by
      rw [orBits]
      split
      · have hpos : 64 * (word + 1) + 0 = 64 * word + bitIdx + 1 := by omega
        rw [ih (by omega) (by rw [length_modify]; omega), hpos]
      · rw [ih (by omega) (by rw [length_modify]; omega), Nat.add_assoc]
    rw [hnext, bitAt_orBit bit (by omega) hidx, Bool.or_assoc]
    congr 1
    rcases Nat.lt_trichotomy i (64 * word + bitIdx) with hlt | heq | hgt
    · rw [decide_eq_false (by omega), decide_eq_false (by omega), decide_eq_false (by omega)]
      simp
    · rw [decide_eq_true heq, decide_eq_false (by omega), decide_eq_true (by omega), heq,
        Nat.sub_self]
      simp
    · have hsub : i - (64 * word + bitIdx) = (i - (64 * word + bitIdx + 1)) + 1 := by omega
      rw [decide_eq_false (by omega), decide_eq_true (by omega), decide_eq_true (by omega), hsub]
      simp

end Loops

/-! ### Bitmaps from bytes and bits -/

/-- A bitmap made from bytes is clean. -/
theorem clean_fromBytes {bitCount : Nat} (h : fromBytes bitCount bytes = .ok b) : b.Clean := by
  unfold fromBytes at h
  obtain ⟨-, -, h⟩ := bind_eq_ok.1 h
  cases h
  apply clean_maskLastWord
  have hnew := sized_new bitCount false
  split
  · exact hnew
  · rw [Sized, length_copyBytes]
    exact hnew

/-- `FromBits` stores exactly the bits it is given. -/
theorem bitAt_fromBits (bits : List Bool) (i : Nat) :
    bitAt (fromBits bits).data i = bits.getD i false := by
  have hbound := sized_bound (sized_new bits.length false)
  rw [bitCount_new] at hbound
  rw [fromBits, bitAt_orBits (by omega) (by omega), bitAt_new]
  simp

theorem clean_fromBits (bits : List Bool) : (fromBits bits).Clean := by
  have hcount : (fromBits bits).bitCount = bits.length := bitCount_new bits.length false
  constructor
  · have hnew := sized_new bits.length false
    rw [Sized, fromBits, length_orBits]
    exact hnew
  · intro i hi
    rw [hcount] at hi
    rw [bitAt_fromBits, getD_eq_default _ _ hi]

/-! ### Growing and shrinking -/

theorem sized_withSize_data (h : b.Sized) (hn : b.bitCount < n) (fill : BitVec 64) :
    (if b.wordCount < ceilOfRatio n 64 then resize b.data (ceilOfRatio n 64) fill
      else b.data).length = ceilOfRatio n 64 := by
  split
  · exact length_resize _ _
  · rename_i hge
    have hlen : b.data.length = (b.bitCount + 64 - 1) / 64 := h
    rw [wordCount] at hge
    rw [ceilOfRatio] at hge ⊢
    omega

/-- A bitmap with another size is clean. -/
theorem clean_withSize (h : b.Sized) (n : Nat) (newData : Bool) : (b.withSize n newData).Clean := by
  unfold withSize
  dsimp only
  split
  · rename_i hn
    have hlen := sized_withSize_data h hn (if newData then ~~~0 else 0)
    apply clean_maskLastWord
    rw [Sized]
    split
    · rw [length_modify]
      exact hlen
    · exact hlen
  · apply clean_maskLastWord
    rw [Sized, length_resize]

/-- `WithSize` keeps the bits of the bitmap and sets those beyond to `newData`. -/
theorem bitAt_withSize (h : b.Clean) {i : Nat} (newData : Bool) (hi : i < n) :
    bitAt (b.withSize n newData).data i = if i < b.bitCount then bitAt b.data i else newData := by
  have hbound := sized_bound h.sized
  have hcover : n ≤ 64 * ceilOfRatio n 64 := by
    rw [ceilOfRatio]
    omega
  unfold withSize
  dsimp only
  split
  · rename_i hn
    have hlen := sized_withSize_data h.sized hn (if newData then ~~~0 else 0)
    have hones := getLsbD_fill (i := i) newData
    -- the words before the last old one is completed
    have hgrown : bitAt (if b.wordCount < ceilOfRatio n 64 then
          resize b.data (ceilOfRatio n 64) (if newData then ~~~0 else 0) else b.data) i =
        if i < 64 * b.data.length then bitAt b.data i else newData := by
      split
      · rw [bitAt_resize, if_pos (by omega), hones]
      · rename_i hge
        rw [wordCount] at hge
        rw [if_pos (by omega)]
    generalize (if b.wordCount < ceilOfRatio n 64 then
          resize b.data (ceilOfRatio n 64) (if newData then ~~~0 else 0) else b.data) = data
        at hlen hgrown ⊢
    by_cases hzero : b.bitCount = 0
    · have hsized : Sized ⟨n, data⟩ := hlen
      rw [if_neg (by simpa using hzero), bitAt_maskLastWord hsized, hgrown, if_neg (by omega),
        if_neg (by omega), decide_eq_true hi, Bool.and_true]
    · have hlast : ((b.wordCount : Int) - 1) = (b.data.length - 1 : Nat) := by
        rw [wordCount]
        omega
      have hmod : i % 64 < 64 := mod_lt _ (by omega)
      rw [if_pos hzero, hlast, Int.toNat_natCast]
      rw [bitAt_maskLastWord (by rw [Sized, length_modify]; exact hlen),
        decide_eq_true hi, Bool.and_true, bitAt_modify _ (by omega)]
      split
      · rename_i hword
        have hmask := getLsbD_maskForWord h.sized (show b.data.length - 1 < b.data.length by omega)
          hmod
        have hold : (data.getD (b.data.length - 1) 0).getLsbD (i % 64) = bitAt b.data i := by
          rw [← hword]
          exact hgrown.trans (if_pos (by omega))
        rw [← hword, div_add_mod] at hmask
        rw [hword] at hmask
        -- the last old word is completed with the new bits
        cases newData with
        | true =>
          rw [if_pos rfl, getLsbD_or, getLsbD_not, hmask, hold, decide_eq_true hmod, Bool.true_and]
          by_cases hib : i < b.bitCount
          · simp [hib]
          · simp [hib]
        | false =>
          rw [if_neg Bool.false_ne_true, getLsbD_and, hmask, hold]
          by_cases hib : i < b.bitCount
          · simp [hib]
          · simp [hib]
      · rename_i hword
        rw [hgrown]
        by_cases hib : i < b.bitCount
        · rw [if_pos hib, if_pos (by omega)]
        · rw [if_neg hib, if_neg (by omega)]
  · rename_i hn
    have hsized : Sized ⟨n, resize b.data (ceilOfRatio n 64) 0⟩ := length_resize _ _
    rw [bitAt_maskLastWord hsized, bitAt_resize, if_pos (by omega), if_pos (by omega),
      decide_eq_true hi, Bool.and_true, if_pos (by omega)]

theorem bitAt_withSize_three : bitAt ((new 3 false).withSize 70 true).data 65 = true :=
  (bitAt_withSize (clean_new 3 false) true (by decide)).trans rfl

/-! ### Changes in place -/

/-- A change of some bits in place: the shape stays, a bit becomes what `bits` says. -/
structure Writes (b c : InlineBitmap) (bits : Nat → Bool) : Prop where
  bitCount : c.bitCount = b.bitCount
  length : c.data.length = b.data.length
  bit : ∀ i, bitAt c.data i = bits i

theorem Writes.clean {bits : Nat → Bool} (h : Writes b c bits) (hb : b.Clean)
    (hbits : ∀ i, b.bitCount ≤ i → bits i = false) : c.Clean := by
  constructor
  · rw [Sized, h.length, h.bitCount]
    exact hb.sized
  · intro i hi
    rw [h.bitCount] at hi
    rw [h.bit, hbits i hi]

/-- `Set` writes one bit, within the size. -/
theorem writes_set {index : Nat} (hb : b.Sized) (h : b.set index value = .ok c) :
    index < b.bitCount ∧ Writes b c fun i => if i = index then value else bitAt b.data i := by
  have hbound := sized_bound hb
  unfold set at h
  obtain ⟨_, hindex, h⟩ := bind_eq_ok.1 h
  rw [checkThat_eq_ok, decide_eq_true_iff] at hindex
  cases h
  constructor
  · exact hindex
  · constructor
    · rfl
    · exact length_modify ..
    · intro i
      have hmod : i % 64 < 64 := mod_lt _ (by omega)
      have hone : (1#64 <<< (index % 64)).getLsbD (i % 64) = decide (i % 64 = index % 64) := by
        rw [← twoPow_eq, getLsbD_twoPow, decide_eq_true (by omega), Bool.true_and]
        exact decide_eq_decide.2 eq_comm
      rw [bitAt_modify _ (by omega)]
      generalize 1#64 <<< (index % 64) = single at hone ⊢
      by_cases hword : i / 64 = index / 64
      · rw [if_pos hword, ← hword]
        by_cases hbit : i = index
        · rw [decide_eq_true (by omega)] at hone
          rw [if_pos hbit]
          cases value <;> simp [hone]
        · rw [decide_eq_false (by omega)] at hone
          rw [if_neg hbit]
          cases value with
          | false =>
            rw [if_neg Bool.false_ne_true, getLsbD_and, getLsbD_not, hone,
              decide_eq_true hmod, Bool.not_false, Bool.and_true, Bool.and_true, bitAt]
          | true => rw [if_pos rfl, getLsbD_or, hone, Bool.or_false, bitAt]
      · have hbit : i ≠ index := by
          intro heq
          exact hword (by rw [heq])
        rw [if_neg hword, if_neg hbit]

/-- The loop of `SetRange` over consecutive positions. -/
theorem writes_foldlM_set (hb : b.Sized) (lower n : Nat)
    (h : (List.range' lower n).foldlM (fun b index => b.set index value) b = .ok c) :
    Writes b c fun i => if lower ≤ i ∧ i < lower + n then value else bitAt b.data i := by
  induction n generalizing b lower with
  | zero =>
    cases h
    constructor
    · rfl
    · rfl
    · intro i
      rw [if_neg (by omega)]
  | succ n ih =>
    rw [range'_succ, foldlM_cons] at h
    obtain ⟨d, hd, h⟩ := bind_eq_ok.1 h
    obtain ⟨-, hset⟩ := writes_set hb hd
    have hsized : d.Sized := by
      rw [Sized, hset.length, hset.bitCount]
      exact hb
    have hrest := ih hsized (lower + 1) h
    constructor
    · rw [hrest.bitCount, hset.bitCount]
    · rw [hrest.length, hset.length]
    · intro i
      rw [hrest.bit, hset.bit]
      by_cases hfirst : i = lower
      · rw [if_neg (by omega), if_pos hfirst, if_pos (by omega)]
      · by_cases hlater : lower + 1 ≤ i ∧ i < lower + 1 + n
        · rw [if_pos hlater, if_pos (by omega)]
        · rw [if_neg hlater, if_neg hfirst, if_neg (by omega)]

/-- `SetRange` writes the bits of the range, within the size. -/
theorem writes_setRange {lower upper : Nat} (hb : b.Sized)
    (h : b.setRange lower upper value = .ok c) :
    upper ≤ b.bitCount ∧
      Writes b c fun i => if lower ≤ i ∧ i < upper then value else bitAt b.data i := by
  unfold setRange at h
  obtain ⟨_, hupper, h⟩ := bind_eq_ok.1 h
  rw [checkThat_eq_ok, decide_eq_true_iff] at hupper
  have hloop := writes_foldlM_set hb lower (upper - lower) h
  constructor
  · exact hupper
  · constructor
    · exact hloop.bitCount
    · exact hloop.length
    · intro i
      rw [hloop.bit]
      by_cases hin : lower ≤ i ∧ i < upper
      · rw [if_pos hin, if_pos (by omega)]
      · rw [if_neg hin, if_neg (by omega)]

/-- `SetAllBitsToFalse` clears every bit. -/
theorem writes_setAllBitsToFalse (b : InlineBitmap) :
    Writes b b.setAllBitsToFalse fun _ => false := by
  constructor
  · rfl
  · exact length_map ..
  · intro i
    unfold bitAt setAllBitsToFalse
    dsimp only
    rw [getD_eq_getElem?_getD, getElem?_map]
    cases b.data[i / 64]? with
    | none => simp
    | some w => simp

theorem clean_setWord {wordno : Nat} {value : BitVec 64} (hb : b.Clean)
    (h : b.setWord wordno value = .ok c) : c.Clean := by
  unfold setWord at h
  obtain ⟨_, hword, h⟩ := bind_eq_ok.1 h
  rw [checkThat_eq_ok, decide_eq_true_iff] at hword
  cases h
  exact clean_set hb hword value

/-- `SetByte` writes a byte; what lies beyond the size stays clear. -/
theorem writes_setByte {byteno : Nat} {value : BitVec 8} (hb : b.Sized)
    (h : b.setByte byteno value = .ok c) :
    Writes b c fun i =>
      (if i / 8 = byteno then value.getLsbD (i % 8) else bitAt b.data i) &&
        decide (i < b.bitCount) := by
  have hbound := sized_bound hb
  unfold setByte at h
  obtain ⟨_, hbyte, h⟩ := bind_eq_ok.1 h
  rw [checkThat_eq_ok, decide_eq_true_iff, byteCount, ceilOfRatio] at hbyte
  cases h
  have hsized : Sized { b with data := storeByte b.data byteno value } := by
    rw [Sized, length_storeByte]
    exact hb
  have hlen := sized_maskLastWord hsized
  rw [Sized, bitCount_maskLastWord] at hlen
  constructor
  · exact bitCount_maskLastWord _
  · rw [hlen]
    exact hb.symm
  · intro i
    rw [bitAt_maskLastWord hsized, bitAt_storeByte _ (by omega)]

/-- A word-wise operation acts on each bit when zero words stay zero. -/
theorem bitAt_mapIdx {data other : List (BitVec 64)}
    (hfg : ∀ u v k, (f u v).getLsbD k = g (u.getLsbD k) (v.getLsbD k))
    (hlen : data.length = other.length) (hg : g false false = false) (i : Nat) :
    bitAt (data.mapIdx fun i word => f word (other.getD i 0)) i =
      g (bitAt data i) (bitAt other i) := by
  by_cases hi : i / 64 < data.length
  · unfold bitAt
    rw [getD_eq_getElem _ _ (by simpa using hi), getElem_mapIdx, hfg, getD_eq_getElem _ _ hi]
  · rw [bitAt_of_length_le (by rw [length_mapIdx]; omega), bitAt_of_length_le (by omega),
      bitAt_of_length_le (by omega), hg]

/-- A word-wise operation checks that the sizes agree and writes the bits of both. -/
theorem writes_wordwise (hfg : ∀ u v k, (f u v).getLsbD k = g (u.getLsbD k) (v.getLsbD k))
    (hg : g false false = false) (hb : b.Sized) (ho : other.Sized) (h : (do
      checkThat (b.bitCount == other.bitCount)
      return { b with data := b.data.mapIdx fun i word => f word (other.data.getD i 0) } :
        Result InlineBitmap) = .ok c) :
    b.bitCount = other.bitCount ∧
      Writes b c fun i => g (bitAt b.data i) (bitAt other.data i) := by
  obtain ⟨_, hcount, h⟩ := bind_eq_ok.1 h
  rw [checkThat_eq_ok, beq_iff_eq] at hcount
  cases h
  have hlen : b.data.length = other.data.length := by
    rw [hb, ho, hcount]
  exact ⟨hcount, rfl, length_mapIdx, fun i => bitAt_mapIdx hfg hlen hg i⟩

theorem writes_union (hb : b.Sized) (ho : other.Sized) (h : b.union other = .ok c) :
    b.bitCount = other.bitCount ∧ Writes b c fun i => bitAt b.data i || bitAt other.data i :=
  writes_wordwise (fun _ _ _ => getLsbD_or) rfl hb ho h

theorem writes_intersect (hb : b.Sized) (ho : other.Sized) (h : b.intersect other = .ok c) :
    b.bitCount = other.bitCount ∧ Writes b c fun i => bitAt b.data i && bitAt other.data i :=
  writes_wordwise (fun _ _ _ => getLsbD_and) rfl hb ho h

/-! ### Any sequence of operations -/

/-- The bitmaps that some sequence of constructions and operations makes. -/
inductive Built : InlineBitmap → Prop
  | new (bitCount : Nat) (fill : Bool) : Built (new bitCount fill)
  | fromWord (word : BitVec 64) (bitCount : Nat) (fill : Bool) :
      Built (fromWord word bitCount fill)
  | fromBytes {bitCount : Nat} {bytes : List (BitVec 8)} {b : InlineBitmap} :
      fromBytes bitCount bytes = .ok b → Built b
  | fromBits (bits : List Bool) : Built (fromBits bits)
  | withSize {b : InlineBitmap} (newSize : Nat) (newData : Bool) :
      Built b → Built (b.withSize newSize newData)
  | set {b c : InlineBitmap} {index : Nat} {value : Bool} :
      Built b → b.set index value = .ok c → Built c
  | setRange {b c : InlineBitmap} {lowerIndex upperIndex : Nat} {value : Bool} :
      Built b → b.setRange lowerIndex upperIndex value = .ok c → Built c
  | setAllBitsToFalse {b : InlineBitmap} : Built b → Built b.setAllBitsToFalse
  | setWord {b c : InlineBitmap} {wordno : Nat} {value : BitVec 64} :
      Built b → b.setWord wordno value = .ok c → Built c
  | setByte {b c : InlineBitmap} {byteno : Nat} {value : BitVec 8} :
      Built b → b.setByte byteno value = .ok c → Built c
  | union {b other c : InlineBitmap} :
      Built b → Built other → b.union other = .ok c → Built c
  | intersect {b other c : InlineBitmap} :
      Built b → Built other → b.intersect other = .ok c → Built c

/-- The induction over the operations that made a bitmap. -/
theorem Built.clean (h : Built b) : b.Clean := by
  induction h with
  | new bitCount fill => exact clean_new bitCount fill
  | fromWord word bitCount fill => exact clean_fromWord word bitCount fill
  | fromBytes h => exact clean_fromBytes h
  | fromBits bits => exact clean_fromBits bits
  | withSize newSize newData _ ih => exact clean_withSize ih.sized newSize newData
  | set _ h ih =>
    obtain ⟨hindex, hwrites⟩ := writes_set ih.sized h
    apply hwrites.clean ih
    intro i hi
    rw [if_neg (by omega)]
    exact ih.stray i hi
  | setRange _ h ih =>
    obtain ⟨hupper, hwrites⟩ := writes_setRange ih.sized h
    apply hwrites.clean ih
    intro i hi
    rw [if_neg (by omega)]
    exact ih.stray i hi
  | setAllBitsToFalse _ ih =>
    exact (writes_setAllBitsToFalse _).clean ih fun _ _ => rfl
  | setWord _ h ih => exact clean_setWord ih h
  | setByte _ h ih =>
    apply (writes_setByte ih.sized h).clean ih
    intro i hi
    rw [decide_eq_false (by omega), Bool.and_false]
  | union _ _ h ih iho =>
    obtain ⟨hcount, hwrites⟩ := writes_union ih.sized iho.sized h
    apply hwrites.clean ih
    intro i hi
    rw [ih.stray i hi, iho.stray i (by omega), Bool.or_self]
  | intersect _ _ h ih iho =>
    obtain ⟨-, hwrites⟩ := writes_intersect ih.sized iho.sized h
    apply hwrites.clean ih
    intro i hi
    rw [ih.stray i hi, Bool.false_and]

end Xls.InlineBitmap

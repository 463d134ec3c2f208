import Xls.BitsOps

/-!
# Xls.InlineBitmap

The bitmap that stores the bits of every constant
(`xls/data_structures/inline_bitmap.h`): a bit count and the 64-bit words that
hold the bits, least significant word first. Operations work on whole words and
bytes, and the last word can hold positions above the bit count, which each
operation masks away.
-/

namespace Xls

open BitsOps Limbs List

/-- `InlineBitmap`: `bit_count_` and `data_`. -/
@[ext] structure InlineBitmap where
  bitCount : Nat
  data : List (BitVec 64)
  deriving DecidableEq, Repr

namespace InlineBitmap

/-! ### Words and positions -/

/-- `CeilOfRatio`, for a divisor that is not zero. -/
def ceilOfRatio (x y : Nat) : Nat := (x + y - 1) / y

/-- `Mask` as a word. -/
def maskWord (n : Nat) : BitVec 64 := BitVec.ofNat 64 (mask n)

/-- The bit stored at a position of the words. -/
def bitAt (data : List (BitVec 64)) (i : Nat) : Bool := (data.getD (i / 64) 0).getLsbD (i % 64)

/-- `word_count`. -/
def wordCount (b : InlineBitmap) : Nat := b.data.length

/-- `byte_count`. -/
def byteCount (b : InlineBitmap) : Nat := ceilOfRatio b.bitCount 8

/-- `MaskForWord`: the valid bits of a word. -/
def maskForWord (b : InlineBitmap) (wordno : Int) : BitVec 64 :=
  let remainder := b.bitCount % 64
  -- only the last word can have positions above the bit count
  if wordno < (b.wordCount : Int) - 1 ∨ remainder = 0 then maskWord 64 else maskWord remainder

/-- `MaskLastWord`. -/
def maskLastWord (b : InlineBitmap) : InlineBitmap :=
  if b.wordCount = 0 then b
  else
    let lastWordno := b.wordCount - 1
    let mask := b.maskForWord lastWordno
    { b with data := b.data.modify lastWordno (· &&& mask) }

/-- `std::vector::resize`. -/
def resize (data : List (BitVec 64)) (n : Nat) (fill : BitVec 64) : List (BitVec 64) :=
  data.take n ++ replicate (n - data.length) fill

/-- A store of one byte into the words; the bytes of a word are little endian. -/
def storeByte (data : List (BitVec 64)) (byteno : Nat) (value : BitVec 8) : List (BitVec 64) :=
  let shift := 8 * (byteno % 8)
  data.modify (byteno / 8) fun word =>
    (word &&& ~~~(255#64 <<< shift)) ||| (value.setWidth 64 <<< shift)

/-- `memcpy` into the words, from a byte on. -/
def copyBytes (data : List (BitVec 64)) (byteno : Nat) : List (BitVec 8) → List (BitVec 64)
  | [] => data
  | value :: values => copyBytes (storeByte data byteno value) (byteno + 1) values

/-- The loop of `FromBits`, at a word and a bit in it. -/
def orBits (data : List (BitVec 64)) (word bitIdx : Nat) : List Bool → List (BitVec 64)
  | [] => data
  | bit :: bits =>
    let data := data.modify word (· ||| ((BitVec.ofBool bit).setWidth 64 <<< bitIdx))
    -- the next bit is the first of the next word
    if 64 ≤ bitIdx + 1 then orBits data (word + 1) 0 bits
    else orBits data word (bitIdx + 1) bits

/-! ### Construction -/

/-- The constructor from a bit count and a fill value. -/
def new (bitCount : Nat) (fill : Bool) : InlineBitmap :=
  let b : InlineBitmap :=
    { bitCount, data := replicate (ceilOfRatio bitCount 64) (if fill then ~~~0 else 0) }
  if fill then b.maskLastWord else b

/-- `FromWord`. -/
def fromWord (word : BitVec 64) (bitCount : Nat) (fill : Bool) : InlineBitmap :=
  let result := new bitCount fill
  if bitCount ≠ 0 then
    { result with data := result.data.set 0 (word &&& result.maskForWord 0) }
  else result

/-- `FromBytes`. -/
def fromBytes (bitCount : Nat) (bytes : List (BitVec 8)) : Result InlineBitmap := do
  let result := new bitCount false
  let byteCount := ceilOfRatio bitCount 8
  checkThat (bytes.length == byteCount)
  let data := if result.data.isEmpty then result.data else copyBytes result.data 0 bytes
  return maskLastWord { result with data }

/-- `FromBits`; index 0 is the least significant bit. -/
def fromBits (bits : List Bool) : InlineBitmap :=
  let result := new bits.length false
  { result with data := orBits result.data 0 0 bits }

/-- `WithSize`. -/
def withSize (b : InlineBitmap) (newSize : Nat) (newData : Bool) : InlineBitmap :=
  let newWordSize := ceilOfRatio newSize 64
  if b.bitCount < newSize then
    let oldWordcount := b.wordCount
    -- an empty bitmap has no last word, its number is -1
    let lastWordno : Int := oldWordcount - 1
    let mask := b.maskForWord lastWordno
    let data :=
      if oldWordcount < newWordSize then resize b.data newWordSize (if newData then ~~~0 else 0)
      else b.data
    let data :=
      if b.bitCount ≠ 0 then
        -- the positions above the old bit count become positions of the bitmap
        data.modify lastWordno.toNat fun word =>
          if newData then word ||| ~~~mask else word &&& mask
      else data
    maskLastWord { bitCount := newSize, data }
  else maskLastWord { bitCount := newSize, data := resize b.data newWordSize 0 }

/-! ### Access -/

/-- `Get`. -/
def get (b : InlineBitmap) (index : Nat) : Result Bool := do
  checkThat (index < b.bitCount)
  return bitAt b.data index

/-- `Set`. -/
def set (b : InlineBitmap) (index : Nat) (value : Bool) : Result InlineBitmap := do
  checkThat (index < b.bitCount)
  let bitno := index % 64
  return { b with data := b.data.modify (index / 64) fun word =>
    if value then word ||| 1#64 <<< bitno else word &&& ~~~(1#64 <<< bitno) }

/-- `SetRange`: the positions from `lowerIndex` up to `upperIndex`, which is left out. -/
def setRange (b : InlineBitmap) (lowerIndex upperIndex : Nat) (value : Bool) :
    Result InlineBitmap := do
  checkThat (upperIndex ≤ b.bitCount)
  (range' lowerIndex (upperIndex - lowerIndex)).foldlM (fun b index => b.set index value) b

/-- `SetAllBitsToFalse`. -/
def setAllBitsToFalse (b : InlineBitmap) : InlineBitmap :=
  { b with data := b.data.map fun _ => 0 }

/-- `SetWord`. -/
def setWord (b : InlineBitmap) (wordno : Nat) (value : BitVec 64) : Result InlineBitmap := do
  checkThat (wordno < b.wordCount)
  return { b with data := b.data.set wordno (value &&& b.maskForWord wordno) }

/-- `SetByte`. -/
def setByte (b : InlineBitmap) (byteno : Nat) (value : BitVec 8) : Result InlineBitmap := do
  checkThat (byteno < b.byteCount)
  return maskLastWord { b with data := storeByte b.data byteno value }

/-- `Union`. -/
def union (b other : InlineBitmap) : Result InlineBitmap := do
  checkThat (b.bitCount == other.bitCount)
  return { b with data := b.data.mapIdx fun i word => word ||| other.data.getD i 0 }

/-- `Intersect`. -/
def intersect (b other : InlineBitmap) : Result InlineBitmap := do
  checkThat (b.bitCount == other.bitCount)
  return { b with data := b.data.mapIdx fun i word => word &&& other.data.getD i 0 }

/-! ### Observers -/

/-- `operator==`. -/
def eq (b other : InlineBitmap) : Bool :=
  if b.bitCount ≠ other.bitCount then false
  else (range b.wordCount).all fun wordno =>
    b.data.getD wordno 0 == other.data.getD wordno 0

/-- `IsAllOnes`. -/
def isAllOnes (b : InlineBitmap) : Bool :=
  (range b.wordCount).all fun wordno => b.data.getD wordno 0 == b.maskForWord wordno

/-- `IsAllZeroes`. -/
def isAllZeroes (b : InlineBitmap) : Bool :=
  (range b.wordCount).all fun wordno => b.data.getD wordno 0 == 0

/-- `UCmp`: words that only the longer bitmap has, then the common words, from the most
significant on. -/
def uCmp (b other : InlineBitmap) : Int :=
  let mine := b.data.map BitVec.toNat
  let others := other.data.map BitVec.toNat
  if (mine.drop others.length).any (0 < ·) then 1
  else if (others.drop mine.length).any (0 < ·) then -1
  else compare (mine.take others.length).reverse (others.take mine.length).reverse

/-- `AbslHashValue`: what is combined into the state of the hash function. -/
def hashValue {H : Type} (combine : H → Nat × List (BitVec 64) → H) (h : H)
    (b : InlineBitmap) : H :=
  combine h (b.bitCount, b.data)

/-- The bitmap read as an unsigned integer of `bitCount` bits. -/
def toBits (b : InlineBitmap) : Bits := Bits.ofBools ((range b.bitCount).map (bitAt b.data))

/-! ### Bits of words -/

section Words

variable {data : List (BitVec 64)} {i j : Nat} {n : Nat}

theorem getLsbD_maskWord (hj : j < 64) : (maskWord n).getLsbD j = decide (j < n) := by
  have hmask : mask n = 2 ^ n - 1 := by
    unfold mask
    split
    · rename_i h
      rw [h]
    · rw [Nat.one_shiftLeft]
  rw [maskWord, BitVec.getLsbD_ofNat, hmask, Nat.testBit_two_pow_sub_one]
  simp [hj]

theorem bitAt_of_length_le (h : 64 * data.length ≤ i) : bitAt data i = false := by
  have hlen : data.length ≤ i / 64 := by omega
  rw [bitAt, getD_eq_default _ _ hlen]
  simp

/-- The word a constructor or a resize fills with. -/
theorem getLsbD_fill (fill : Bool) :
    (if fill then ~~~0 else 0 : BitVec 64).getLsbD (i % 64) = fill := by
  have hmod : i % 64 < 64 := Nat.mod_lt _ (by omega)
  cases fill with
  | false => simp
  | true =>
    rw [if_pos rfl, BitVec.getLsbD_not, decide_eq_true hmod, Bool.true_and]
    simp

/-- A step that changes one word changes the bits of that word only. -/
theorem bitAt_modify (f : BitVec 64 → BitVec 64) (hn : n < data.length) :
    bitAt (data.modify n f) i =
      if i / 64 = n then (f (data.getD n 0)).getLsbD (i % 64) else bitAt data i := by
  unfold bitAt
  rw [getD_eq_getElem?_getD, getD_eq_getElem?_getD, getD_eq_getElem?_getD, getElem?_modify]
  split
  · rename_i h
    rw [if_pos h.symm, ← h, getElem?_eq_getElem hn]
    rfl
  · rename_i h
    rw [if_neg (Ne.symm h)]
    simp

/-- A word that is replaced replaces its 64 bits. -/
theorem bitAt_set (w : BitVec 64) (hn : n < data.length) :
    bitAt (data.set n w) i = if i / 64 = n then w.getLsbD (i % 64) else bitAt data i := by
  have hset : data.set n w = data.modify n fun _ => w := by
    apply ext_getElem?
    intro k
    rw [getElem?_set, getElem?_modify]
    split
    · rename_i h
      rw [← h, getElem?_eq_getElem hn]
      simp
    · simp
  rw [hset, bitAt_modify _ hn]

theorem bitAt_replicate (n : Nat) (w : BitVec 64) :
    bitAt (replicate n w) i = (decide (i < 64 * n) && w.getLsbD (i % 64)) := by
  unfold bitAt
  by_cases h : i < 64 * n
  · have hlt : i / 64 < n := by omega
    rw [getD_eq_getElem _ _ (by simpa using hlt)]
    simp [h]
  · rw [getD_eq_default _ _ (by simp; omega)]
    simp [h]

theorem bitAt_append (ds es : List (BitVec 64)) :
    bitAt (ds ++ es) i =
      if i < 64 * ds.length then bitAt ds i else bitAt es (i - 64 * ds.length) := by
  unfold bitAt
  split
  · rename_i h
    rw [getD_append _ _ _ _ (by omega)]
  · rename_i h
    have hdiv : i / 64 - ds.length = (i - 64 * ds.length) / 64 := by omega
    have hmod : i % 64 = (i - 64 * ds.length) % 64 := by omega
    rw [getD_append_right _ _ _ _ (by omega), hdiv, hmod]

theorem bitAt_take (n : Nat) : bitAt (data.take n) i = (decide (i < 64 * n) && bitAt data i) := by
  unfold bitAt
  rw [getD_eq_getElem?_getD, getD_eq_getElem?_getD, getElem?_take]
  by_cases h : i < 64 * n
  · rw [if_pos (by omega)]
    simp [h]
  · rw [if_neg (by omega)]
    simp [h]

theorem length_resize (n : Nat) (fill : BitVec 64) : (resize data n fill).length = n := by
  rw [resize, length_append, length_take, length_replicate]
  omega

/-- Words are kept, cut off or filled. -/
theorem bitAt_resize (n : Nat) (fill : BitVec 64) :
    bitAt (resize data n fill) i = if i < 64 * n then
        if i < 64 * data.length then bitAt data i else fill.getLsbD (i % 64) else false := by
  rw [resize, bitAt_append, bitAt_take, bitAt_replicate, length_take]
  by_cases hn : i < 64 * n
  · by_cases hlen : i < 64 * data.length
    · rw [if_pos (by omega), if_pos hn, if_pos hlen]
      simp [hn]
    · have hmod : (i - 64 * min n data.length) % 64 = i % 64 := by omega
      have hlt : i - 64 * min n data.length < 64 * (n - data.length) := by omega
      rw [if_neg (by omega), if_pos hn, if_neg hlen, hmod, decide_eq_true hlt, Bool.true_and]
  · have hge : ¬ i - 64 * min n data.length < 64 * (n - data.length) := by omega
    rw [if_neg hn, decide_eq_false hn, decide_eq_false hge]
    simp

end Words

end InlineBitmap

end Xls

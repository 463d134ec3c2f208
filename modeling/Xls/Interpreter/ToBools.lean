import Xls.Interpreter
import Xls.AbstractEvaluator.Arith

/-!
# Xls.Interpreter.ToBools

The operations of the interpreter on bit vectors, bit by bit. Each lemma rewrites
the bits of a result into the form in which the operations of an abstract
evaluator are specified.
-/

namespace Xls.Bits

open BoolList Evaluator List Nat

variable {b a : Bits}

/-- A list with the width and the number of a vector holds its bits. -/
theorem eq_toBools {l : List Bool} (hlen : l.length = b.width) (hval : BoolList.toNat l = b.val) :
    l = b.toBools :=
  toNat_inj (by rw [hlen, toBools_length]) (by rw [hval, toNat_toBools])

theorem getD_toBools (b : Bits) (i : Nat) : b.toBools.getD i false = b.get i := by
  rw [get, ← testBit_toNat, toNat_toBools]

theorem eq_toBools_of_get {l : List Bool} (hlen : l.length = b.width)
    (h : ∀ i, i < b.width → l.getD i false = b.get i) : l = b.toBools := by
  refine ext_getD (by rw [hlen, toBools_length]) fun j hj => ?_
  rw [h j (hlen ▸ hj), getD_toBools]

theorem toBools_inj (h : a.toBools = b.toBools) : a = b := by
  rw [← ofBools_toBools a, ← ofBools_toBools b, h]

theorem toBools_eq_iff : a.toBools = b.toBools ↔ a = b :=
  ⟨toBools_inj, fun h => h ▸ rfl⟩

@[simp] theorem toBools_zero (w : Nat) : (zero w).toBools = replicate w false :=
  (eq_toBools (by simp) (by simp)).symm

theorem toBools_ofBool (b : Bool) : (ofBool b).toBools = [b] := by
  cases b <;> rfl

theorem toBools_one_eq (b : Bool) : (ofNat 1 b.toNat).toBools = [b] := toBools_ofBool b

theorem toBools_not (a : Bits) : a.not.toBools = a.toBools.map Bool.not := by
  refine (eq_toBools (by simp) ?_).symm
  have hlt := a.isLt
  rw [toNat_map_not, toNat_toBools, toBools_length, not, ofNat_val, mod_eq_of_lt (by omega)]

theorem toBools_and (h : a.width = b.width) :
    (a.and b).toBools = zipWith Bool.and a.toBools b.toBools := by
  refine (eq_toBools (by simp [h]) ?_).symm
  rw [toNat_zipWith_and (by simp [h]), toNat_toBools, toNat_toBools, and, ofNat_val,
    mod_eq_of_lt (lt_of_le_of_lt and_le_left a.isLt)]

theorem toBools_or (h : a.width = b.width) :
    (a.or b).toBools = zipWith Bool.or a.toBools b.toBools := by
  refine (eq_toBools (by simp [h]) ?_).symm
  rw [toNat_zipWith_or (by simp [h]), toNat_toBools, toNat_toBools, or, ofNat_val,
    mod_eq_of_lt (or_lt_two_pow a.isLt (h ▸ b.isLt))]

theorem toBools_xor (h : a.width = b.width) :
    (a.xor b).toBools = zipWith Bool.xor a.toBools b.toBools := by
  refine (eq_toBools (by simp [h]) ?_).symm
  rw [toNat_zipWith_xor (by simp [h]), toNat_toBools, toNat_toBools, xor, ofNat_val,
    mod_eq_of_lt (xor_lt_two_pow a.isLt (h ▸ b.isLt))]

theorem toBools_append (a b : Bits) : (a.append b).toBools = b.toBools ++ a.toBools := by
  refine (eq_toBools (by simp [Nat.add_comm]) ?_).symm
  rw [toNat_append, toNat_toBools, toNat_toBools, toBools_length, append_val]
  ring

theorem toBools_concat (bs : List Bits) :
    (concat bs).toBools = (bs.map toBools).reverse.flatten := by
  induction bs with
  | nil => rfl
  | cons b bs ih =>
    rw [concat, toBools_append, ih, map_cons, reverse_cons, flatten_append]
    simp

theorem toBools_slice {s w : Nat} (h : s + w ≤ a.width) :
    (a.slice s w).toBools = (a.toBools.drop s).take w := by
  refine (eq_toBools ?_ ?_).symm
  · simp
    omega
  · rw [toNat_take, toNat_drop, toNat_toBools, slice_val]

theorem toBools_zeroExtend {w : Nat} (h : a.width ≤ w) :
    (a.zeroExtend w).toBools = a.toBools ++ replicate (w - a.width) false := by
  refine (eq_toBools ?_ ?_).symm
  · simp
    omega
  · rw [toNat_append, toNat_replicate_false, toNat_toBools, zeroExtend_val h,
      Nat.mul_zero, Nat.add_zero]

theorem toBools_reverse (a : Bits) : a.reverse.toBools = a.toBools.reverse := by
  rw [reverse, toBools_ofBools]

theorem isAllOnes_eq (a : Bits) : a.isAllOnes = a.toBools.all id := by
  rw [Bool.eq_iff_iff, all_id_iff, toNat_toBools, toBools_length, isAllOnes, beq_iff_eq]

theorem not_isZero_eq (a : Bits) : (!a.isZero) = a.toBools.any id := by
  rw [Bool.eq_iff_iff, any_id_iff, toNat_toBools, isZero]
  simp

theorem toBools_allOnes (w : Nat) : (allOnes w).toBools = replicate w true :=
  (eq_toBools (by simp) (by rw [toNat_replicate_true, allOnes_val])).symm

/-! ### Shifts -/

theorem toBools_shiftLeftLogical (a : Bits) (n : Nat) :
    (a.shiftLeftLogical n).toBools = replicate (min n a.width) false ++
      a.toBools.take (a.width - min n a.width) := by
  have hk : min n a.width ≤ a.width := Nat.min_le_right _ _
  refine (eq_toBools (by simp) ?_).symm
  · rw [toNat_append, toNat_replicate_false, toNat_take, toNat_toBools,
      length_replicate, Nat.zero_add, shiftLeftLogical, ofNat_val, shiftLeft_eq,
      Nat.mul_comm a.val, ← mul_mod_mul_left, ← pow_add, Nat.add_sub_cancel' hk]

theorem toBools_shiftRightLogical (a : Bits) (n : Nat) :
    (a.shiftRightLogical n).toBools = a.toBools.drop (min n a.width) ++
      replicate (min n a.width) false := by
  refine (eq_toBools (by simp) ?_).symm
  · have hdiv : a.val / 2 ^ min n a.width < 2 ^ a.width :=
      lt_of_le_of_lt (Nat.div_le_self _ _) a.isLt
    rw [toNat_append, toNat_replicate_false, toNat_drop, toNat_toBools,
      Nat.mul_zero, Nat.add_zero, shiftRightLogical, ofNat_val, shiftRight_eq_div_pow,
      mod_eq_of_lt hdiv]

theorem getLast?_toBools (a : Bits) : a.toBools.getLast?.getD false = a.msb := by
  rw [getLast?_eq_getElem?, toBools_length, ← getD_eq_getElem?_getD, getD_toBools, msb]

theorem toBools_shiftRightArith (a : Bits) (n : Nat) :
    (a.shiftRightArith n).toBools = a.toBools.drop (min n a.width) ++
      replicate (min n a.width) (a.toBools.getLast?.getD false) := by
  have hk : min n a.width ≤ a.width := Nat.min_le_right _ _
  have hfill : ∀ k, (if a.msb then allOnes k else zero k).toBools = replicate k a.msb := by
    intro k
    cases a.msb
    · exact toBools_zero k
    · exact toBools_allOnes k
  rw [getLast?_toBools, shiftRightArith, toBools_append, hfill, toBools_slice (by omega),
    take_of_length_le (by simp)]

/-! ### Codes and updates -/

/-- The decoder sets the bit of the number. -/
theorem toBools_decode (a : Bits) (w : Nat) :
    (a.decode w).toBools = (range w).map fun i => decide (a.val = i) := by
  refine (eq_toBools_of_get (by simp) fun i hi => ?_).symm
  rw [decode_width] at hi
  rw [getD_map_range hi]
  unfold decode
  split
  · rename_i hlt
    rw [get, powerOfTwo_val hlt, testBit_two_pow]
  · rw [get, zero_val, zero_testBit]
    exact decide_eq_false (by omega)

theorem toBools_oneHotLsbToMsb (a : Bits) : a.oneHotLsbToMsb.toBools = oneHot a.toBools :=
  (eq_toBools (by simp) (oneHotLsbToMsb_val a).symm).symm

theorem toBools_oneHotMsbToLsb (a : Bits) : a.oneHotMsbToLsb.toBools = oneHotMsb a.toBools := by
  refine (eq_toBools ?_ (oneHotMsbToLsb_val a).symm).symm
  simp [oneHotMsb]

/-- The encoder as a loop over the bits with their indices. -/
theorem encode_eq (a : Bits) (w : Nat) : a.encode w = ofNat w (encodeNat a.toBools.zipIdx 0) := by
  have hfold : ∀ (l : List (Bool × Nat)) (acc : Nat),
      l.foldl (fun acc p => if p.1 then acc.or (ofNat w p.2) else acc) (ofNat w acc) =
        ofNat w (encodeNat l acc) := by
    intro l
    induction l with
    | nil => intro acc; rfl
    | cons p l ih =>
      intro acc
      rw [foldl_cons, encodeNat, foldl_cons]
      cases hp : p.1 with
      | false => exact ih acc
      | true =>
        have hor : (ofNat w acc).or (ofNat w p.2) = ofNat w (acc ||| p.2) := by
          refine ext rfl ?_
          simp only [or, ofNat_width, ofNat_val, or_mod_two_pow, mod_mod]
        simp only [if_true]
        rw [hor]
        exact ih (acc ||| p.2)
  have hzero : zero w = ofNat w 0 := ext rfl (zero_mod _).symm
  rw [encode, hzero, hfold]

theorem toBools_ofNat (w n : Nat) : (ofNat w n).toBools = BoolList.ofNat w n := by
  refine (eq_toBools (by simp) ?_).symm
  rw [toNat_ofNat, ofNat_val]

theorem get_append (a b : Bits) (i : Nat) :
    (a.append b).get i = if i < b.width then b.get i else a.get (i - b.width) := by
  rw [← getD_toBools, toBools_append]
  by_cases hi : i < b.width
  · rw [if_pos hi, getD_append _ _ _ _ (by simpa using hi), getD_toBools]
  · rw [if_neg hi, getD_append_right _ _ _ _ (by simpa using hi), toBools_length, getD_toBools]

/-- An update of a slice, bit by bit. -/
theorem toBools_bitSliceUpdate (a value : Bits) (start : Nat) :
    (a.bitSliceUpdate start value).toBools =
      (range a.width).map (updatedBit a.toBools value.toBools start) := by
  unfold bitSliceUpdate
  split
  · rename_i hout
    refine (eq_toBools_of_get (by simp) fun i hi => ?_).symm
    rw [getD_map_range hi, updatedBit, if_neg (by omega), getD_toBools]
  · rename_i hin
    refine (eq_toBools_of_get ?_ fun i hi => ?_).symm
    · simp [concat]
      omega
    · have hia : i < a.width := by
        simp [concat] at hi
        omega
      rw [getD_map_range hia, updatedBit, getD_toBools, getD_toBools, toBools_length]
      simp only [concat, get_append, append_width, slice_width, zero_width, get_slice, Nat.add_zero,
        Nat.not_lt_zero, if_false, Nat.sub_zero, Nat.zero_add]
      rcases Nat.lt_or_ge i start with hlt | hge
      · rw [if_neg (by omega), if_pos (by omega), if_pos hlt]
        simp [hlt]
      · rcases Nat.lt_or_ge (i - start) value.width with hv | hv
        · rw [if_pos ⟨hge, hv⟩, if_pos (by omega), if_neg (by omega)]
          have hmin : i - start < min value.width (a.width - start) := by omega
          simp [hmin]
        · rw [if_neg (by omega), if_neg (by omega)]
          have hidx : min a.width (start + value.width) +
              (i - (min value.width (a.width - start) + start)) = i := by omega
          have hlt : i - (min value.width (a.width - start) + start) <
              a.width - min a.width (start + value.width) := by omega
          rw [hidx]
          simp [hlt]

/-! ### Folds with a width check -/

/-- A fold of a bitwise operation that checks the widths combines the bits. -/
theorem toBools_naryFold {f : Bits → Bits → Bits} {g : Bool → Bool → Bool}
    (hw : ∀ a b, (f a b).width = a.width) (hf : ∀ a b : Bits, a.width = b.width →
      (f a b).toBools = zipWith g a.toBools b.toBools) {bs : List Bits} {acc r : Bits}
    (h : bs.foldlM (fun acc x => do
      checkThat (acc.width == x.width)
      return f acc x) acc = Except.ok r) :
    r.toBools = (bs.map toBools).foldl (zipWith g) acc.toBools ∧ r.width = acc.width ∧
      ∀ b ∈ bs, b.width = acc.width := by
  induction bs generalizing acc with
  | nil =>
    cases h
    exact ⟨rfl, rfl, by simp⟩
  | cons b bs ih =>
    rw [foldlM_cons] at h
    obtain ⟨acc', hacc, h⟩ := Result.bind_eq_ok.1 h
    obtain ⟨u, hu, hacc⟩ := Result.bind_eq_ok.1 hacc
    have hwid : acc.width = b.width := by
      by_contra hne
      rw [beq_eq_false_iff_ne.2 hne] at hu
      cases hu
    cases hacc
    obtain ⟨hr, hrw, hall⟩ := ih h
    refine ⟨?_, by rw [hrw, hw], ?_⟩
    · rw [hr, hf acc b hwid, map_cons, foldl_cons]
    · intro c hc
      rcases mem_cons.1 hc with rfl | hc
      · exact hwid.symm
      · rw [hall c hc, hw]

end Xls.Bits

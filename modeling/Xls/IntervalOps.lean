import Xls.IntervalOps.Logic

/-!
# Xls.IntervalOps

Interval arithmetic as an abstraction of bit-vector arithmetic: every operation of
`xls/ir/interval_ops.cc`, applied to sets that cover some bit vectors, returns a normalized
set that covers the result of the operation on those vectors (`interval_ops_sound`).
-/

namespace Xls

open Bits List Nat

/-- The set covers the bit vector. -/
def IntervalSet.CoversBits {w : Nat} (s : IntervalSet w) (b : Bits) : Prop :=
  b.width = w ∧ s.Covers b.val

instance {w : Nat} (s : IntervalSet w) (b : Bits) : Decidable (s.CoversBits b) :=
  inferInstanceAs (Decidable (_ ∧ _))

namespace IntervalOps

open IntervalSet

/-- The call returns a normalized set that covers the bit vector. -/
def Yields {w : Nat} (r : Result (IntervalSet w)) (b : Bits) : Prop :=
  ∃ s, r = .ok s ∧ s.intervals.Pairwise (fun i j => i.upper + 1 < j.lower) ∧ s.CoversBits b

theorem yields_of_covers {w : Nat} {r : Result (IntervalSet w)} {b : Bits} {n : Nat}
    (h : ∃ s, r = .ok s ∧ s.Covers n) (hw : b.width = w) (hn : b.val = n) : Yields r b := by
  obtain ⟨s, hr, hc⟩ := h
  exact ⟨s, hr, s.normal, hw, hn ▸ hc⟩

variable {w v : Nat} {a b : IntervalSet w} {x y : Bits}

theorem ofNat_of_coversBits (h : a.CoversBits x) : Bits.ofNat w x.val = x := by
  rw [← h.1, ofNat_self]

/-! ### Arithmetic -/

theorem add_sound (hx : a.CoversBits x) (hy : b.CoversBits y) : Yields (add a b) (x.add y) :=
  yields_of_covers (covers_add hx.2 hy.2) hx.1 (by rw [add_val, hx.1])

theorem sub_sound (hx : a.CoversBits x) (hy : b.CoversBits y) : Yields (sub a b) (x.sub y) :=
  yields_of_covers (covers_sub hx.2 hy.2) hx.1 (by rw [Bits.sub, ofNat_val, hx.1])

theorem neg_sound (hx : a.CoversBits x) : Yields (neg a) x.negate :=
  yields_of_covers (covers_neg hx.2) hx.1 (by rw [Bits.negate, ofNat_val, hx.1])

theorem umul_sound {b : IntervalSet v} (out : Nat) (hx : a.CoversBits x) (hy : b.CoversBits y) :
    Yields (umul a b out) (Bits.ofNat out (x.umul y).val) :=
  yields_of_covers (covers_umul out hx.2 hy.2) rfl (by rw [ofNat_val, umul_val])

theorem udiv_sound {b : IntervalSet v} (hv : 0 < v) (hx : a.CoversBits x) (hy : b.CoversBits y) :
    Yields (udiv a b) (x.udiv y) := by
  refine yields_of_covers (covers_udiv hv hx.2 hy.2) (by simp [hx.1]) ?_
  unfold Bits.udiv Bits.isZero
  by_cases h : y.val = 0
  · simp [h, hx.1]
  · have hlt : x.val / y.val < 2 ^ x.width := lt_of_le_of_lt (Nat.div_le_self _ _) x.isLt
    simp [h, mod_eq_of_lt hlt]

theorem shrl_sound {b : IntervalSet v} (hx : a.CoversBits x) (hy : b.CoversBits y) :
    Yields (shrl a b) (x.shiftRightLogical y.val) :=
  yields_of_covers (covers_shrl hx.2 hy.2) hx.1 (shiftRightLogical_val x y.val)

theorem decode_sound (width : Nat) (hx : a.CoversBits x) :
    Yields (.ok (decode a width)) (x.decode width) := by
  refine yields_of_covers ⟨_, rfl, covers_decode hx.2⟩ (by simp) ?_
  unfold Bits.decode
  split
  · exact powerOfTwo_val (by assumption)
  · rfl

theorem signExtend_sound {width : Nat} (hw : w ≤ width) (hx : a.CoversBits x) :
    Yields (signExtend a width) (x.signExtend width) :=
  yields_of_covers (covers_signExtend hw hx.2) rfl (by rw [ofNat_of_coversBits hx])

theorem zeroExtend_sound {width : Nat} (hw : w ≤ width) (hx : a.CoversBits x) :
    Yields (zeroExtend a width) (x.zeroExtend width) :=
  yields_of_covers (covers_zeroExtend hw hx.2) rfl (zeroExtend_val (by rw [hx.1]; exact hw))

theorem truncate_sound (width : Nat) (hx : a.CoversBits x) :
    Yields (.ok (truncate a width)) (x.truncate width) :=
  yields_of_covers ⟨_, rfl, covers_truncate hx.2⟩ rfl (truncate_val x width)

theorem bitSlice_sound {start : Nat} (width : Nat) (hs : start < 2 ^ 64) (hx : a.CoversBits x) :
    Yields (bitSlice a start width) (x.slice start width) :=
  yields_of_covers (covers_bitSlice hs hx.2) rfl (slice_val x start width)

/-- Each set covers its vector. -/
abbrev CoversAllBits (sets : List AnyIntervalSet) (xs : List Bits) : Prop :=
  Forall₂ (fun s x => s.2.CoversBits x) sets xs

variable {sets : List AnyIntervalSet} {val : IntervalSet w}

theorem concatBits_of_coversAllBits {xs : List Bits} (h : CoversAllBits sets xs) :
    concatBits (sets.map Sigma.fst) (xs.map Bits.val) = Bits.concat xs := by
  unfold concatBits
  congr 1
  induction h with
  | nil => rfl
  | cons hx _ ih =>
    rw [map_cons, map_cons, zipWith_cons_cons, ih, ofNat_of_coversBits hx]

theorem concat_sound {xs : List Bits} (hne : sets ≠ []) (h : CoversAllBits sets xs) :
    Yields (concat sets) (Bits.concat xs) := by
  have hall : CoversAll sets (xs.map Bits.val) := by
    rw [CoversAll, forall₂_map_right_iff]
    exact h.imp fun _ _ hx => hx.2
  have heq := concatBits_of_coversAllBits h
  refine yields_of_covers (covers_concat hne hall) ?_ (by rw [heq])
  rw [← heq, concatBits_width (by rw [length_map, length_map, h.length_eq])]

/-! ### Logic -/

section

variable (hx : a.CoversBits x)
include hx

theorem not_sound : Yields (not a) x.not := by
  refine yields_of_covers (covers_not hx.2) hx.1 ?_
  have := Nat.two_pow_pos x.width
  rw [Bits.not, ofNat_val, mod_eq_of_lt (by omega), hx.1]

theorem and_sound (hy : b.CoversBits y) : Yields (and a b) (x.and y) :=
  yields_of_covers (covers_and hx.2 hy.2) hx.1
    (mod_eq_of_lt (lt_of_le_of_lt and_le_left x.isLt))

theorem or_sound (hy : b.CoversBits y) : Yields (or a b) (x.or y) := by
  refine yields_of_covers (covers_or hx.2 hy.2) hx.1 (mod_eq_of_lt ?_)
  have := y.isLt
  exact or_lt_two_pow x.isLt (by rwa [hx.1, ← hy.1])

theorem xor_sound (hy : b.CoversBits y) : Yields (xor a b) (x.xor y) := by
  refine yields_of_covers (covers_xor hx.2 hy.2) hx.1 (mod_eq_of_lt ?_)
  have := y.isLt
  exact xor_lt_two_pow x.isLt (by rwa [hx.1, ← hy.1])

theorem andReduce_sound : Yields (.ok (andReduce a)) x.andReduce := by
  refine yields_of_covers ⟨_, rfl, covers_andReduce hx.2⟩ rfl ?_
  rw [Bits.andReduce, ofBool_val, Bits.isAllOnes, hx.1]

theorem orReduce_sound : Yields (.ok (orReduce a)) x.orReduce := by
  refine yields_of_covers ⟨_, rfl, covers_orReduce hx.2⟩ rfl ?_
  rw [Bits.orReduce, ofBool_val]
  rfl

theorem xorReduce_sound : Yields (.ok (xorReduce a)) x.xorReduce := by
  refine yields_of_covers ⟨_, rfl, covers_xorReduce hx.2⟩ rfl ?_
  rw [ofNat_of_coversBits hx, Bits.xorReduce, ofBool_val]

end

/-! ### Comparisons -/

section

variable (hx : a.CoversBits x) (hy : b.CoversBits y)
include hx hy

theorem eq_val_iff : (x == y) = (x.val == y.val) := by
  rw [Bool.eq_iff_iff, beq_iff_eq, beq_iff_eq]
  exact ⟨fun h => h ▸ rfl, fun h => Bits.ext (hx.1.trans hy.1.symm) h⟩

theorem eq_sound : Yields (eq a b) (Bits.ofBool (x == y)) :=
  yields_of_covers (covers_eq hx.2 hy.2) rfl (by rw [ofBool_val, eq_val_iff hx hy])

theorem ne_sound : Yields (ne a b) (Bits.ofBool (x != y)) :=
  yields_of_covers (covers_ne hx.2 hy.2) rfl (by rw [ofBool_val, bne, eq_val_iff hx hy]; rfl)

theorem ult_sound : Yields (ult a b) (Bits.ofBool (x.ult y)) :=
  yields_of_covers (covers_ult hx.2 hy.2) rfl (ofBool_val _)

theorem ugt_sound : Yields (ugt a b) (Bits.ofBool (y.ult x)) :=
  yields_of_covers (covers_ugt hx.2 hy.2) rfl (ofBool_val _)

end

theorem slt_sound (hw : 0 < w) (hx : a.CoversBits x) (hy : b.CoversBits y) :
    Yields (slt a b) (Bits.ofBool (x.slt y)) :=
  yields_of_covers (covers_slt hw hx.2 hy.2) rfl
    (by rw [ofBool_val, ofNat_of_coversBits hx, ofNat_of_coversBits hy, Bits.slt])

theorem sgt_sound (hw : 0 < w) (hx : a.CoversBits x) (hy : b.CoversBits y) :
    Yields (sgt a b) (Bits.ofBool (y.slt x)) :=
  yields_of_covers (covers_sgt hw hx.2 hy.2) rfl
    (by rw [ofBool_val, ofNat_of_coversBits hx, ofNat_of_coversBits hy, Bits.slt])

theorem gate_sound {cond : IntervalSet 1} {c : Bits} (hc : cond.CoversBits c)
    (hx : val.CoversBits x) :
    Yields (.ok (gate cond val)) (if c.isOne then x else Bits.zero w) := by
  have hlt := hc.2.lt
  have hw : (if c.isOne then x else Bits.zero w).width = w := by
    split
    · exact hx.1
    · rfl
  refine yields_of_covers ⟨_, rfl, covers_gate hc.2 hx.2⟩ hw ?_
  rcases (show c.val = 0 ∨ c.val = 1 by omega) with h | h <;> simp [Bits.isOne, h]

/-- The one-hot code of a vector. -/
def oneHotOf (lsbOrMsb : LsbOrMsb) (x : Bits) : Bits :=
  match lsbOrMsb with
  | .lsb => x.oneHotLsbToMsb
  | .msb => x.oneHotMsbToLsb

theorem oneHot_sound (lsbOrMsb : LsbOrMsb) (n : Nat) (hx : val.CoversBits x) :
    Yields (oneHot val lsbOrMsb n) (oneHotOf lsbOrMsb x) := by
  have hbits : BoolList.ofNat w x.val = x.toBools := by rw [Bits.toBools, hx.1]
  have h := covers_oneHot lsbOrMsb n hx.2
  rw [hbits] at h
  cases lsbOrMsb with
  | lsb => exact yields_of_covers h (by simp [oneHotOf, hx.1]) x.oneHotLsbToMsb_val
  | msb => exact yields_of_covers h (by simp [oneHotOf, hx.1]) x.oneHotMsbToLsb_val

/-! ### All operations -/

/-- Interval arithmetic is a sound abstraction of bit-vector arithmetic. -/
theorem interval_ops_sound {w v : Nat} (hw : 0 < w) (hv : 0 < v) (a b : IntervalSet w)
    (c : IntervalSet v) (cond : IntervalSet 1) (x y z g : Bits) (hx : a.CoversBits x)
    (hy : b.CoversBits y) (hz : c.CoversBits z) (hg : cond.CoversBits g) :
    Yields (add a b) (x.add y) ∧ Yields (sub a b) (x.sub y) ∧ Yields (neg a) x.negate ∧
    (∀ out, Yields (umul a c out) (Bits.ofNat out (x.umul z).val)) ∧ Yields (udiv a c) (x.udiv z) ∧
    Yields (shrl a c) (x.shiftRightLogical z.val) ∧
    (∀ sets xs, sets ≠ [] → CoversAllBits sets xs → Yields (concat sets) (Bits.concat xs)) ∧
    (∀ width, w ≤ width → Yields (signExtend a width) (x.signExtend width) ∧
      Yields (zeroExtend a width) (x.zeroExtend width)) ∧
    (∀ width, width ≤ w → Yields (.ok (truncate a width)) (x.truncate width)) ∧
    (∀ start width, start < 2 ^ 63 → start + width ≤ w →
      Yields (bitSlice a start width) (x.slice start width)) ∧
    (∀ width, Yields (.ok (decode a width)) (x.decode width)) ∧
    Yields (not a) x.not ∧ Yields (and a b) (x.and y) ∧ Yields (or a b) (x.or y) ∧
    Yields (xor a b) (x.xor y) ∧ Yields (.ok (andReduce a)) x.andReduce ∧
    Yields (.ok (orReduce a)) x.orReduce ∧ Yields (.ok (xorReduce a)) x.xorReduce ∧
    Yields (eq a b) (Bits.ofBool (x == y)) ∧ Yields (ne a b) (Bits.ofBool (x != y)) ∧
    Yields (ult a b) (Bits.ofBool (x.ult y)) ∧ Yields (ugt a b) (Bits.ofBool (y.ult x)) ∧
    Yields (slt a b) (Bits.ofBool (x.slt y)) ∧ Yields (sgt a b) (Bits.ofBool (y.slt x)) ∧
    Yields (.ok (gate cond a)) (if g.isOne then x else Bits.zero w) ∧
    (∀ priority bits, Yields (oneHot a priority bits) (oneHotOf priority x)) :=
  ⟨add_sound hx hy, sub_sound hx hy, neg_sound hx, fun out => umul_sound out hx hz,
    udiv_sound hv hx hz, shrl_sound hx hz, fun _ _ hne h => concat_sound hne h,
    fun _ hle => ⟨signExtend_sound hle hx, zeroExtend_sound hle hx⟩,
    fun width _ => truncate_sound width hx,
    fun _ width hs _ => bitSlice_sound width (lt_trans hs (by decide)) hx,
    fun width => decode_sound width hx, not_sound hx, and_sound hx hy, or_sound hx hy,
    xor_sound hx hy, andReduce_sound hx, orReduce_sound hx, xorReduce_sound hx, eq_sound hx hy,
    ne_sound hx hy, ult_sound hx hy, ugt_sound hx hy, slt_sound hw hx hy, sgt_sound hw hx hy,
    gate_sound hg hx, fun priority bits => oneHot_sound priority bits hx⟩

/-- The wrapping sum of `[14, 15]` and `[3, 4]` at width four, among the others. -/
theorem interval_ops_sound_wrapping :
    Yields (add (single ⟨⟨14, 15, by decide, by decide⟩, by decide⟩ : IntervalSet 4)
      (single ⟨⟨3, 4, by decide, by decide⟩, by decide⟩))
      ((Bits.ofNat 4 15).add (Bits.ofNat 4 3)) :=
  (interval_ops_sound (v := 4) (by decide) (by decide)
    (single ⟨⟨14, 15, by decide, by decide⟩, by decide⟩)
    (single ⟨⟨3, 4, by decide, by decide⟩, by decide⟩) (maximal 4) (maximal 1) (Bits.ofNat 4 15)
    (Bits.ofNat 4 3) (Bits.ofNat 4 0) (Bits.ofNat 1 1) (by decide) (by decide) (by decide)
    (by decide)).1

end IntervalOps

end Xls

import Xls.NumberParser.Literals
import Xls.Ternary

/-!
# Xls.Ternary.RealizedIterator

`RealizedTernaryIterator`, which enumerates the values a ternary vector admits
(`realizedIterator_exact`). A value is a choice for the unknown positions, so it has a
*rank*: the number whose bits are the ones chosen. The least significant unknown position
counts one, and `realize` is the value of a rank.

`Advance` adds its amount to the rank one bit at a time. Bit `i` is added by counting up
from the `i`th unknown position on, through `subspan(i)` of their list; there is no such
subspan beyond the end of the list, so an amount with a one further up than that stops the
program unless a lower bit already carried the iterator to its end.
-/

namespace Xls

open TernaryVector List BoolList Nat Or

/-- `RealizedTernaryIterator`. -/
structure RealizedTernaryIterator where
  finished : Bool
  value : List Bool
  unknownBitOffsets : List Nat

namespace RealizedTernaryIterator

/-! ### The iterator -/

/-- `FindUnknownOffsets`, from position `i` on. -/
def findUnknownOffsets : Nat → TernaryVector → List Nat
  | _, [] => []
  | i, t :: ts => if t.isKnown then findUnknownOffsets (i + 1) ts
      else i :: findUnknownOffsets (i + 1) ts

/-- `AllBitsValues(span).begin()`. -/
def start (v : TernaryVector) : RealizedTernaryIterator :=
  ⟨false, v.toKnownBitsValues, findUnknownOffsets 0 v⟩

/-- The iterator at the end: `RealizedTernaryIterator()`. -/
def atEnd : RealizedTernaryIterator := ⟨true, [], []⟩

/-- `operator==`. -/
def eq (it other : RealizedTernaryIterator) : Bool :=
  if it.finished != other.finished then false
  else if it.finished && other.finished then true
  else it.value == other.value

/-- `operator*`. -/
def deref (it : RealizedTernaryIterator) : Result (List Bool) :=
  if it.finished then .error .check else .ok it.value

/-- `IncrementOnOffsets`: whether it overflowed, and the new bitmap. -/
def incrementOnOffsets (bm : List Bool) : List Nat → Result (Bool × List Bool)
  | [] => .ok (true, bm)
  | off :: offsets =>
    match bm[off]? with
    | none => .error .check
    | some false => .ok (false, bm.set off true)
    | some true => incrementOnOffsets (bm.set off false) offsets

/-- `absl::Span::subspan`, which has to start inside the span or at its end. -/
def subspan (offsets : List Nat) (i : Nat) : Result (List Nat) :=
  if i ≤ offsets.length then .ok (offsets.drop i) else .error .check

/-- One round of the loops of `Advance`: add bit `i` of the amount if it is set. -/
def addBit (offsets : List Nat) (i : Nat) (b : Bool) (bm : List Bool) : Result (Bool × List Bool) :=
  if b then subspan offsets i >>= incrementOnOffsets bm else .ok (false, bm)

/-- The loop of `Advance(const Bits&)` over the bits of the amount from bit `i` on. -/
def addBits (offsets : List Nat) : Nat → List Bool → Bool × List Bool → Result (Bool × List Bool)
  | _, [], st => .ok st
  | i, b :: bs, st =>
    if st.1 then .ok st else addBit offsets i b st.2 >>= addBits offsets (i + 1) bs

/-- `Advance(const Bits&)`. -/
def advance (it : RealizedTernaryIterator) (amnt : Bits) : Result RealizedTernaryIterator :=
  if it.value.length == 0 && !amnt.isZero then .ok { it with finished := true }
  else do
    let st ← addBits it.unknownBitOffsets 0
      (amnt.toBools.take (amnt.width - NumberParser.countLeadingZeros amnt))
      (it.finished, it.value)
    return ⟨st.1, st.2, it.unknownBitOffsets⟩

/-- The loop of `Advance(int64_t)` with the rounds it has left. -/
def addInt (offsets : List Nat) : Nat → Nat → Nat → Bool × List Bool → Result (Bool × List Bool)
  | 0, _, _, st => .ok st
  | rounds + 1, i, amnt, st =>
    if amnt = 0 ∨ st.1 = true then .ok st
    else addBit offsets i (amnt % 2 == 1) st.2 >>= addInt offsets rounds (i + 1) (amnt / 2)

/-- `Advance(int64_t)`, for an amount that is not negative. -/
def advanceInt (it : RealizedTernaryIterator) (amnt : Nat) : Result RealizedTernaryIterator :=
  if it.value.length == 0 && amnt != 0 then .ok { it with finished := true }
  else do
    let st ← addInt it.unknownBitOffsets 64 0 amnt (it.finished, it.value)
    return ⟨st.1, st.2, it.unknownBitOffsets⟩

/-- `operator++` so many times. -/
def increments : Nat → RealizedTernaryIterator → Result RealizedTernaryIterator
  | 0, it => .ok it
  | n + 1, it => advanceInt it 1 >>= increments n

/-- A loop over `AllBitsValues` from an iterator on, with the rounds it has left: the values
it visits. -/
def visit : Nat → RealizedTernaryIterator → Result (List (List Bool))
  | rounds, it =>
    if eq it atEnd then .ok []
    else
      match rounds with
      | 0 => .error .check
      | rounds + 1 => do
        let value ← deref it
        let next ← advanceInt it 1
        let rest ← visit rounds next
        return value :: rest

/-! ### Ranks -/

/-- The number of unknown positions. -/
def unknownCount (v : TernaryVector) : Nat := v.countP fun t => !t.isKnown

/-- The value in which the unknown positions hold the bits of a number. -/
def realize : TernaryVector → Nat → List Bool
  | [], _ => []
  | t :: ts, r =>
    if t.isKnown then (t == .knownOne) :: realize ts r
    else r.testBit 0 :: realize ts (r / 2)

theorem length_findUnknownOffsets (v : TernaryVector) (i : Nat) :
    (findUnknownOffsets i v).length = unknownCount v := by
  induction v generalizing i with
  | nil => rfl
  | cons t v ih =>
    have hih := ih (i + 1)
    unfold unknownCount at hih ⊢
    rw [findUnknownOffsets, countP_cons]
    cases hk : t.isKnown <;> simp [hih]

theorem findUnknownOffsets_succ (v : TernaryVector) (i : Nat) :
    findUnknownOffsets (i + 1) v = (findUnknownOffsets i v).map (· + 1) := by
  induction v generalizing i with
  | nil => rfl
  | cons t v ih =>
    rw [findUnknownOffsets, findUnknownOffsets, ih (i + 1)]
    split
    · rfl
    · rfl

theorem length_realize (v : TernaryVector) (r : Nat) : (realize v r).length = v.length := by
  induction v generalizing r with
  | nil => rfl
  | cons t v ih =>
    rw [realize]
    split <;> simp [ih]

/-- The first realization has zeros for the unknown bits. -/
theorem realize_zero (v : TernaryVector) : realize v 0 = v.toKnownBitsValues := by
  induction v with
  | nil => rfl
  | cons t v ih =>
    unfold toKnownBitsValues at ih ⊢
    rw [realize, map_cons]
    split
    · rw [ih]
    · rename_i hk
      rw [Nat.zero_div, ih, zero_testBit]
      cases t <;> simp_all [TernaryValue.isKnown]

variable {v : TernaryVector} {r i : Nat} {it : RealizedTernaryIterator}

/-- The `j`th unknown position of a value holds bit `j` of its rank, and changing the one
changes the other. -/
theorem realize_offset {j off : Nat} (h : (findUnknownOffsets 0 v)[j]? = some off) (r : Nat) :
    (realize v r)[off]? = some (r.testBit j) ∧
      (r.testBit j = false → (realize v r).set off true = realize v (r + 2 ^ j)) ∧
      (r.testBit j = true → (realize v r).set off false = realize v (r - 2 ^ j)) := by
  induction v generalizing j off r with
  | nil => simp [findUnknownOffsets] at h
  | cons t v ih =>
    rw [findUnknownOffsets, findUnknownOffsets_succ] at h
    split at h
    · -- a known bit is the same in every value
      rename_i hk
      rw [getElem?_map, Option.map_eq_some_iff] at h
      obtain ⟨off', hoff, rfl⟩ := h
      obtain ⟨hget, hset, hclear⟩ := ih hoff r
      simp only [realize, hk, if_true]
      refine ⟨by simpa using hget, ?_, ?_⟩
      · intro hb
        rw [set_cons_succ, hset hb]
      · intro hb
        rw [set_cons_succ, hclear hb]
    · rename_i hk
      rw [Bool.not_eq_true] at hk
      -- the lowest unknown bit carries the lowest bit of the rank
      cases j with
      | zero =>
        obtain rfl : 0 = off := by simpa using h
        have hbit := testBit_zero r
        simp only [realize, hk, Bool.false_eq_true, if_false]
        refine ⟨rfl, ?_, ?_⟩
        · intro hb
          rw [hb] at hbit
          have hmod : r % 2 = 0 := by
            have hne := of_decide_eq_false hbit.symm
            omega
          have hone : (r + 2 ^ 0).testBit 0 = true := by
            rw [testBit_zero]
            exact decide_eq_true (by omega)
          rw [set_cons_zero, hone, show (r + 2 ^ 0) / 2 = r / 2 by omega]
        · intro hb
          rw [hb] at hbit
          have hmod := of_decide_eq_true hbit.symm
          have hzero : (r - 2 ^ 0).testBit 0 = false := by
            rw [testBit_zero]
            exact decide_eq_false (by omega)
          rw [set_cons_zero, hzero, show (r - 2 ^ 0) / 2 = r / 2 by omega]
      | succ j =>
        rw [getElem?_cons_succ, getElem?_map, Option.map_eq_some_iff] at h
        obtain ⟨off', hoff, rfl⟩ := h
        obtain ⟨hget, hset, hclear⟩ := ih hoff (r / 2)
        have hpow : 2 ^ (j + 1) = 2 * 2 ^ j := by rw [pow_succ, Nat.mul_comm]
        simp only [realize, hk, Bool.false_eq_true, if_false]
        rw [testBit_succ]
        refine ⟨by simpa using hget, ?_, ?_⟩
        · intro hb
          have hlow : (r + 2 ^ (j + 1)).testBit 0 = r.testBit 0 := by
            rw [testBit_zero, testBit_zero, hpow, add_mul_mod_self_left]
          rw [set_cons_succ, hset hb, hlow, show (r + 2 ^ (j + 1)) / 2 = r / 2 + 2 ^ j by omega]
        · intro hb
          have hle : 2 ^ j ≤ r / 2 := ge_two_pow_of_testBit hb
          have hlow : (r - 2 ^ (j + 1)).testBit 0 = r.testBit 0 := by
            rw [testBit_zero, testBit_zero]
            congr 1
            rw [eq_iff_iff]
            omega
          rw [set_cons_succ, hclear hb, hlow, show (r - 2 ^ (j + 1)) / 2 = r / 2 - 2 ^ j by omega]

/-! ### One bit of the amount -/

/-- A number of `k` bits with a zero in one of them stays below `2 ^ k` when it is set. -/
theorem add_two_pow_lt {k : Nat} (hr : r < 2 ^ k) (hi : i < k) (hb : r.testBit i = false) :
    r + 2 ^ i < 2 ^ k := by
  have hsplit := mod_add_div r (2 ^ i)
  have hmod : r % 2 ^ i < 2 ^ i := mod_lt _ (Nat.two_pow_pos i)
  have hk : 2 ^ k = 2 ^ i * (2 * 2 ^ (k - i - 1)) := by
    rw [← pow_succ', ← pow_add]
    congr 1
    omega
  have heven : r / 2 ^ i % 2 = 0 := by
    rw [testBit_eq_decide_div_mod_eq] at hb
    have hne := of_decide_eq_false hb
    omega
  have hq : r / 2 ^ i < 2 * 2 ^ (k - i - 1) := by
    rw [hk, Nat.mul_comm] at hr
    exact (Nat.div_lt_iff_lt_mul (Nat.two_pow_pos i)).2 hr
  have hmul : 2 ^ i * (r / 2 ^ i + 2) ≤ 2 ^ i * (2 * 2 ^ (k - i - 1)) :=
    Nat.mul_le_mul_left _ (by omega)
  rw [Nat.mul_add] at hmul
  omega

/-- Counting up from the `i`th unknown position on adds `2 ^ i` to the rank. -/
theorem incrementOnOffsets_realize (hi : i ≤ unknownCount v) (hr : r < 2 ^ unknownCount v) :
    ∃ bm, incrementOnOffsets (realize v r) ((findUnknownOffsets 0 v).drop i) =
        .ok (decide (2 ^ unknownCount v ≤ r + 2 ^ i), bm) ∧
      (r + 2 ^ i < 2 ^ unknownCount v → bm = realize v (r + 2 ^ i)) := by
  -- induction on the number of unknown positions from `i` on
  obtain ⟨d, hd⟩ : ∃ d, unknownCount v = i + d := ⟨_, (Nat.add_sub_cancel' hi).symm⟩
  induction d generalizing i r with
  | zero =>
    have hnil : (findUnknownOffsets 0 v).drop i = [] := by
      rw [drop_eq_nil_iff, length_findUnknownOffsets]
      omega
    have hle : 2 ^ unknownCount v ≤ r + 2 ^ i := by
      rw [hd]
      simp
    rw [hnil, decide_eq_true hle]
    exact ⟨_, rfl, fun hlt => absurd hlt (Nat.not_lt.2 hle)⟩
  | succ d ih =>
    have hlt : i < (findUnknownOffsets 0 v).length := by
      rw [length_findUnknownOffsets]
      omega
    obtain ⟨hget, hset, hclear⟩ := realize_offset (getElem?_eq_getElem hlt) r
    rw [← getElem_cons_drop hlt, incrementOnOffsets, hget]
    cases hb : r.testBit i with
    | false =>
      have hbound := add_two_pow_lt hr (show i < unknownCount v by omega) hb
      rw [decide_eq_false (Nat.not_le.2 hbound)]
      exact ⟨_, rfl, fun _ => hset hb⟩
    | true =>
      -- the bit is cleared and the next position is counted up
      have hle : 2 ^ i ≤ r := ge_two_pow_of_testBit hb
      have hpow : 2 ^ (i + 1) = 2 * 2 ^ i := by rw [pow_succ, Nat.mul_comm]
      have hsum : r - 2 ^ i + 2 ^ (i + 1) = r + 2 ^ i := by omega
      have hnext := ih (i := i + 1) (r := r - 2 ^ i) (by omega) (by omega) (by omega)
      rw [hsum] at hnext
      dsimp only
      rw [hclear hb]
      exact hnext

/-- Adding a bit of the amount succeeds where there is a subspan for it. -/
theorem addBit_realize (hi : i ≤ unknownCount v) (hr : r < 2 ^ unknownCount v) :
    ∃ bm, addBit (findUnknownOffsets 0 v) i true (realize v r) =
        .ok (decide (2 ^ unknownCount v ≤ r + 2 ^ i), bm) ∧
      (r + 2 ^ i < 2 ^ unknownCount v → bm = realize v (r + 2 ^ i)) := by
  obtain ⟨bm, hrun, hbm⟩ := incrementOnOffsets_realize hi hr
  refine ⟨bm, ?_, hbm⟩
  rw [addBit, if_pos rfl, subspan, length_findUnknownOffsets, if_pos hi]
  exact hrun

theorem addBit_beyond (hi : unknownCount v < i) (bm : List Bool) :
    addBit (findUnknownOffsets 0 v) i true bm = .error .check := by
  rw [addBit, if_pos rfl, subspan, length_findUnknownOffsets, if_neg (Nat.not_le.2 hi)]
  rfl

/-! ### The loops of `Advance` -/

theorem addBits_finished (offsets : List Nat) (i : Nat) (bs : List Bool) (bm : List Bool) :
    addBits offsets i bs (true, bm) = .ok (true, bm) := by
  cases bs <;> rfl

/-- The remainder of an amount whose lowest bit is bit `i`. -/
theorem amount_mod {k : Nat} (hi : i ≤ k) (m : Nat) :
    (2 ^ i + 2 ^ (i + 1) * m) % 2 ^ (k + 1) = 2 ^ i + 2 ^ (i + 1) * m % 2 ^ (k + 1) := by
  have hpow : 2 ^ (k + 1) = 2 ^ (i + 1) * 2 ^ (k - i) := by
    rw [← pow_add]
    congr 1
    omega
  have hdouble : 2 ^ (i + 1) = 2 * 2 ^ i := by rw [pow_succ, Nat.mul_comm]
  have hlt : m % 2 ^ (k - i) < 2 ^ (k - i) := mod_lt _ (Nat.two_pow_pos _)
  have hmul : 2 ^ (i + 1) * (m % 2 ^ (k - i) + 1) ≤ 2 ^ (i + 1) * 2 ^ (k - i) :=
    Nat.mul_le_mul_left _ hlt
  have hpos := Nat.two_pow_pos i
  have hrem : 2 ^ (i + 1) * m % 2 ^ (k + 1) = 2 ^ (i + 1) * (m % 2 ^ (k - i)) := by
    rw [hpow, mul_mod_mul_left]
  rw [← add_mod_mod, hrem, mod_eq_of_lt]
  rw [hpow]
  rw [Nat.mul_add] at hmul
  omega

/-- What the loop over the bits from bit `i` on does to a rank. It reaches the new rank if
that is below the end; otherwise it comes to the end if the bits up to the number of unknown
positions suffice for it, and fails if they do not. -/
theorem addBits_realize (bs : List Bool) : ∀ {i r : Nat}, r < 2 ^ unknownCount v →
    (r + 2 ^ i * toNat bs < 2 ^ unknownCount v →
      addBits (findUnknownOffsets 0 v) i bs (false, realize v r) =
        .ok (false, realize v (r + 2 ^ i * toNat bs))) ∧
    (2 ^ unknownCount v ≤ r + 2 ^ i * toNat bs →
      if 2 ^ unknownCount v ≤ r + 2 ^ i * toNat bs % 2 ^ (unknownCount v + 1) then
        ∃ bm, addBits (findUnknownOffsets 0 v) i bs (false, realize v r) = .ok (true, bm)
      else addBits (findUnknownOffsets 0 v) i bs (false, realize v r) = .error .check) := by
  -- induction on the amount from its lowest bit on; the rank grows by each bit that is set
  induction bs with
  | nil =>
    intro i r hr
    refine ⟨fun _ => by simp [addBits], ?_⟩
    intro hle
    simp at hle
    omega
  | cons b bs ih =>
    intro i r hr
    have hamount : 2 ^ i * toNat (b :: bs) =
        2 ^ i * b.toNat + 2 ^ (i + 1) * toNat bs := by
      rw [toNat_cons, pow_succ]
      ring
    rw [hamount]
    have hstep : addBits (findUnknownOffsets 0 v) i (b :: bs) (false, realize v r) =
        addBit (findUnknownOffsets 0 v) i b (realize v r) >>=
          addBits (findUnknownOffsets 0 v) (i + 1) bs := rfl
    rw [hstep]
    cases b with
    | false =>
      have hrun := ih (i := i + 1) hr
      simpa [addBit] using hrun
    | true =>
      rw [Bool.toNat_true, Nat.mul_one]
      by_cases hi : i ≤ unknownCount v
      · obtain ⟨bm, hrun, hbm⟩ := addBit_realize hi hr
        rw [hrun, amount_mod hi]
        by_cases hover : 2 ^ unknownCount v ≤ r + 2 ^ i
        · -- this bit already carries the iterator to its end
          rw [decide_eq_true hover]
          refine ⟨fun hlt => by omega, fun _ => ?_⟩
          rw [if_pos (by omega)]
          exact ⟨bm, addBits_finished _ _ _ _⟩
        · rw [decide_eq_false hover, hbm (Nat.not_le.1 hover)]
          have hrest := ih (i := i + 1) (Nat.not_le.1 hover)
          rw [Nat.add_assoc, Nat.add_assoc] at hrest
          exact hrest
      · -- there is no subspan for this bit
        have hi := Nat.not_le.1 hi
        have hfail : addBit (findUnknownOffsets 0 v) i true (realize v r) >>=
            addBits (findUnknownOffsets 0 v) (i + 1) bs = .error .check := by
          rw [addBit_beyond hi]
          rfl
        have hbig : 2 ^ unknownCount v ≤ 2 ^ i := Nat.pow_le_pow_right (by omega) hi.le
        have hdvd : 2 ^ (unknownCount v + 1) ∣ 2 ^ i + 2 ^ (i + 1) * toNat bs :=
          dvd_add (pow_dvd_pow _ hi) ((pow_dvd_pow _ (by omega)).mul_right _)
        rw [hfail, mod_eq_zero_of_dvd hdvd, if_neg (by omega)]
        exact ⟨fun hlt => by omega, fun _ => rfl⟩

theorem addBits_zero (offsets : List Nat) (rounds i : Nat) (st : Bool × List Bool) :
    addBits offsets i (BoolList.ofNat rounds 0) st = .ok st := by
  induction rounds generalizing i with
  | zero => rfl
  | succ rounds ih =>
    obtain ⟨finished, bm⟩ := st
    cases finished with
    | true => rfl
    | false => exact ih (i + 1)

/-- The two loops of `Advance` do the same. -/
theorem addInt_eq (offsets : List Nat) (rounds i amnt : Nat) (st : Bool × List Bool) :
    addInt offsets rounds i amnt st = addBits offsets i (BoolList.ofNat rounds amnt) st := by
  induction rounds generalizing i amnt st with
  | zero => rfl
  | succ rounds ih =>
    obtain ⟨finished, bm⟩ := st
    rw [addInt]
    split
    · rename_i hstop
      rcases hstop with rfl | hfin
      · exact (addBits_zero offsets (rounds + 1) i _).symm
      · obtain rfl : finished = true := hfin
        exact (addBits_finished _ _ _ _).symm
    · rename_i hgo
      rw [not_or, Bool.not_eq_true] at hgo
      obtain rfl : finished = false := hgo.2
      have hbit : (amnt % 2 == 1) = amnt.testBit 0 := by
        rw [testBit_zero]
        rfl
      rw [ofNat_succ, addBits, if_neg Bool.false_ne_true, hbit]
      congr 1
      funext st
      exact ih _ _ _

/-! ### Advancing -/

/-- The iterator at a rank. -/
def atRank (v : TernaryVector) (r : Nat) : RealizedTernaryIterator :=
  ⟨false, realize v r, findUnknownOffsets 0 v⟩

theorem start_eq (v : TernaryVector) : start v = atRank v 0 := by
  rw [start, atRank, realize_zero]

/-- The bits of an amount up to its leading zeros have its value. -/
theorem toNat_significant (amnt : Bits) : toNat
    (amnt.toBools.take (amnt.width - NumberParser.countLeadingZeros amnt)) = amnt.val := by
  rw [toNat_take, Bits.toNat_toBools, NumberParser.countLeadingZeros_eq]
  exact mod_eq_of_lt (Bits.lt_two_pow_iff_minBitCountUnsigned.mpr (le_refl _))

/-- Both overloads of `Advance` first look for a value of no bits and then run the loop on
the bits of the amount. -/
def advanceBy (it : RealizedTernaryIterator) (bs : List Bool) : Result RealizedTernaryIterator :=
  if it.value.length == 0 && toNat bs != 0 then .ok { it with finished := true }
  else do
    let st ← addBits it.unknownBitOffsets 0 bs (it.finished, it.value)
    return ⟨st.1, st.2, it.unknownBitOffsets⟩

theorem advance_eq (it : RealizedTernaryIterator) (amnt : Bits) : advance it amnt =
    advanceBy it (amnt.toBools.take (amnt.width - NumberParser.countLeadingZeros amnt)) := by
  rw [advance, advanceBy, toNat_significant]
  rfl

theorem advanceInt_eq (it : RealizedTernaryIterator) {amnt : Nat} (h : amnt < 2 ^ 64) :
    advanceInt it amnt = advanceBy it (BoolList.ofNat 64 amnt) := by
  rw [advanceInt, advanceBy, toNat_ofNat, mod_eq_of_lt h, addInt_eq]

theorem advanceBy_finished (h : it.finished = true) (bs : List Bool) :
    ∃ it', advanceBy it bs = .ok it' ∧ it'.finished = true := by
  unfold advanceBy
  split
  · exact ⟨_, rfl, rfl⟩
  · rw [h, addBits_finished]
    exact ⟨_, rfl, rfl⟩

/-- The amounts that `Advance` takes at a rank without leaving the list of unknown
positions. -/
def FitsAt (v : TernaryVector) (r n : Nat) : Prop :=
  v = [] ∨ n < 2 ^ (unknownCount v + 1) ∨
    2 ^ unknownCount v ≤ r + n % 2 ^ (unknownCount v + 1)

/-- What `Advance` does at a rank. -/
theorem advanceBy_atRank (hr : r < 2 ^ unknownCount v) (bs : List Bool) :
    (r + toNat bs < 2 ^ unknownCount v →
      advanceBy (atRank v r) bs = .ok (atRank v (r + toNat bs))) ∧
    (2 ^ unknownCount v ≤ r + toNat bs → FitsAt v r (toNat bs) →
      ∃ it', advanceBy (atRank v r) bs = .ok it' ∧ it'.finished = true) ∧
    (¬FitsAt v r (toNat bs) → advanceBy (atRank v r) bs = .error .check) := by
  obtain ⟨hbelow, hend⟩ := addBits_realize (v := v) bs (i := 0) hr
  rw [pow_zero, Nat.one_mul] at hbelow hend
  by_cases hv : v = []
  · -- a vector of no bits has one value, at rank zero
    subst hv
    have hzero : r = 0 := by
      simp [unknownCount] at hr
      exact hr
    subst hzero
    refine ⟨?_, ?_, fun hfits => absurd (inl rfl) hfits⟩
    · intro hlt
      have hbs : toNat bs = 0 := by
        simp [unknownCount] at hlt
        exact hlt
      unfold advanceBy
      rw [if_neg (by simp [hbs])]
      change (addBits _ 0 bs (false, realize [] 0) >>= _) = _
      rw [show addBits (atRank [] 0).unknownBitOffsets 0 bs (false, realize [] 0) = _ from
        hbelow hlt]
      rfl
    · intro hle _
      have hbs : toNat bs ≠ 0 := by
        intro hzero
        simp [unknownCount, hzero] at hle
      unfold advanceBy
      rw [if_pos (by simp [atRank, realize, hbs])]
      exact ⟨_, rfl, rfl⟩
  · have hrun : advanceBy (atRank v r) bs =
        (addBits (findUnknownOffsets 0 v) 0 bs (false, realize v r) >>= fun st =>
          .ok ⟨st.1, st.2, findUnknownOffsets 0 v⟩) := by
      unfold advanceBy
      rw [if_neg]
      · rfl
      · simp [atRank, length_realize, hv]
    refine ⟨?_, ?_, ?_⟩
    · intro hlt
      rw [hrun, hbelow hlt]
      rfl
    · intro hle hfits
      have hreach : 2 ^ unknownCount v ≤
          r + toNat bs % 2 ^ (unknownCount v + 1) := by
        rcases hfits with hnil | hlt | hge
        · exact absurd hnil hv
        · rwa [mod_eq_of_lt hlt]
        · exact hge
      have hfinal := hend hle
      rw [if_pos hreach] at hfinal
      obtain ⟨bm, hbm⟩ := hfinal
      rw [hrun, hbm]
      exact ⟨_, rfl, rfl⟩
    · intro hfits
      simp only [FitsAt, not_or] at hfits
      have hpow : 2 ^ (unknownCount v + 1) = 2 * 2 ^ unknownCount v := by
        rw [pow_succ, Nat.mul_comm]
      have hfinal := hend (by omega)
      rw [if_neg hfits.2.2] at hfinal
      rw [hrun, hfinal]
      rfl

theorem fitsAt_one (v : TernaryVector) (r : Nat) : FitsAt v r 1 := by
  refine inr (inl ?_)
  exact Nat.one_lt_two_pow (by omega)

/-- One increment goes to the next rank, or from the last one to the end. -/
theorem increment_atRank (hr : r < 2 ^ unknownCount v) :
    (r + 1 < 2 ^ unknownCount v → advanceInt (atRank v r) 1 = .ok (atRank v (r + 1))) ∧
    (2 ^ unknownCount v ≤ r + 1 → ∃ it', advanceInt (atRank v r) 1 = .ok it' ∧
      it'.finished = true) := by
  have hone : toNat (BoolList.ofNat 64 1) = 1 := by decide
  obtain ⟨hbelow, hend, -⟩ := advanceBy_atRank hr (BoolList.ofNat 64 1)
  rw [hone] at hbelow hend
  rw [advanceInt_eq _ (by decide)]
  exact ⟨hbelow, fun hle => hend hle (fitsAt_one v r)⟩

theorem increments_finished (n : Nat) : ∀ {it : RealizedTernaryIterator}, it.finished = true →
    ∃ it', increments n it = .ok it' ∧ it'.finished = true := by
  induction n with
  | zero => exact fun h => ⟨_, rfl, h⟩
  | succ n ih =>
    intro it h
    obtain ⟨it', hrun, hfin⟩ := advanceBy_finished h (BoolList.ofNat 64 1)
    rw [← advanceInt_eq it (by decide)] at hrun
    rw [increments, hrun]
    exact ih hfin

/-- So many increments add their number to the rank, up to the end. -/
theorem increments_atRank (n : Nat) : ∀ {r : Nat}, r < 2 ^ unknownCount v →
    (r + n < 2 ^ unknownCount v → increments n (atRank v r) = .ok (atRank v (r + n))) ∧
    (2 ^ unknownCount v ≤ r + n → ∃ it', increments n (atRank v r) = .ok it' ∧
      it'.finished = true) := by
  induction n with
  | zero =>
    intro r hr
    exact ⟨fun _ => rfl, fun hle => by omega⟩
  | succ n ih =>
    intro r hr
    obtain ⟨hbelow, hend⟩ := increment_atRank hr
    rw [increments]
    by_cases hnext : r + 1 < 2 ^ unknownCount v
    · rw [hbelow hnext, show r + (n + 1) = r + 1 + n by omega]
      exact ih hnext
    · obtain ⟨it', hrun, hfin⟩ := hend (Nat.not_lt.1 hnext)
      rw [hrun]
      exact ⟨fun hlt => by omega, fun _ => increments_finished n hfin⟩

/-! ### Enumeration -/

theorem flatMap_pairs {α : Type} (f : Nat → α) (n : Nat) :
    ((range n).flatMap fun r => [f (2 * r), f (2 * r + 1)]) = (range (2 * n)).map f := by
  induction n with
  | zero => rfl
  | succ n ih =>
    rw [range_succ, flatMap_append, ih, show 2 * (n + 1) = 2 * n + 1 + 1 by omega,
      range_succ, range_succ]
    simp

/-- `AllBitsValues` lists the values by rank. -/
theorem allBitsValues_eq (v : TernaryVector) :
    allBitsValues v = (range (2 ^ unknownCount v)).map (realize v) := by
  induction v with
  | nil => rfl
  | cons t v ih =>
    have hcount : unknownCount (t :: v) = unknownCount v + if !t.isKnown then 1 else 0 :=
      countP_cons
    rw [allBitsValues, ih, flatMap_map, hcount]
    cases t with
    | unknown =>
      have hpairs := flatMap_pairs (realize (TernaryValue.unknown :: v)) (2 ^ unknownCount v)
      rw [← pow_succ'] at hpairs
      rw [if_pos (by rfl), ← hpairs]
      refine flatMap_congr ?_
      intro r _
      have hdiv : (2 * r + 1) / 2 = r := by omega
      simp [realize, TernaryValue.isKnown, hdiv]
    | _ =>
      rw [map_eq_flatMap]
      rfl

theorem nodup_allBitsValues (v : TernaryVector) : (allBitsValues v).Nodup := by
  refine (pairwise_allBitsValues v).imp ?_
  rintro a b hlt rfl
  exact lt_irrefl _ hlt

/-- The position of a value in the enumeration is its rank. -/
theorem idxOf_realize (hr : r < 2 ^ unknownCount v) :
    (allBitsValues v).idxOf (realize v r) = r := by
  have hlt : r < (allBitsValues v).length := by
    rw [allBitsValues_eq]
    simpa using hr
  have hget : (allBitsValues v)[r] = realize v r := by simp [allBitsValues_eq]
  rw [← hget]
  exact (nodup_allBitsValues v).idxOf_getElem r hlt

theorem visit_finished (h : it.finished = true) (rounds : Nat) : visit rounds it = .ok [] := by
  unfold visit
  rw [if_pos (by simp [eq, atEnd, h])]

/-- A loop from a rank on visits the values of that rank and those above it. -/
theorem visit_atRank (d : Nat) : ∀ {r rounds : Nat},
    r + d + 1 = 2 ^ unknownCount v → d + 1 ≤ rounds →
    visit rounds (atRank v r) = .ok ((range' r (d + 1)).map (realize v)) := by
  induction d with
  | zero =>
    intro r rounds hr hrounds
    obtain ⟨rounds, rfl⟩ : ∃ n, rounds = n + 1 := ⟨rounds - 1, by omega⟩
    obtain ⟨it', hrun, hfin⟩ := (increment_atRank (v := v) (r := r) (by omega)).2 (by omega)
    unfold visit
    rw [if_neg (by simp [eq, atEnd, atRank])]
    change (Except.ok (realize v r) >>= fun value => advanceInt (atRank v r) 1 >>= fun next =>
      visit rounds next >>= fun rest => pure (value :: rest)) = _
    rw [hrun]
    change (visit rounds it' >>= fun rest => pure (realize v r :: rest)) = _
    rw [visit_finished hfin]
    rfl
  | succ d ih =>
    intro r rounds hr hrounds
    obtain ⟨rounds, rfl⟩ : ∃ n, rounds = n + 1 := ⟨rounds - 1, by omega⟩
    have hrun := (increment_atRank (v := v) (r := r) (by omega)).1 (by omega)
    unfold visit
    rw [if_neg (by simp [eq, atEnd, atRank])]
    change (Except.ok (realize v r) >>= fun value => advanceInt (atRank v r) 1 >>= fun next =>
      visit rounds next >>= fun rest => pure (value :: rest)) = _
    rw [hrun]
    change (visit rounds (atRank v (r + 1)) >>= fun rest => pure (realize v r :: rest)) = _
    rw [ih (by omega) (by omega), range'_succ]
    rfl

/-- A loop over `AllBitsValues` visits the values in the order listed. -/
theorem visit_start (v : TernaryVector) {rounds : Nat} (h : 2 ^ unknownCount v ≤ rounds) :
    visit rounds (start v) = .ok (allBitsValues v) := by
  have hpos := Nat.two_pow_pos (unknownCount v)
  rw [start_eq, visit_atRank (2 ^ unknownCount v - 1) (by omega) (by omega), allBitsValues_eq,
    Nat.sub_add_cancel hpos, range_eq_range']

/-! ### Exactness -/

/-- The iterators that a program can get: those at the start and at the end, and what they
are advanced to. -/
inductive Reachable (v : TernaryVector) : RealizedTernaryIterator → Prop
  | start : Reachable v (start v)
  | atEnd : Reachable v atEnd
  | advance {it it' : RealizedTernaryIterator} (amnt : Bits) :
      Reachable v it → advance it amnt = .ok it' → Reachable v it'
  | advanceInt {it it' : RealizedTernaryIterator} (amnt : Nat) : amnt < 2 ^ 63 →
      Reachable v it → advanceInt it amnt = .ok it' → Reachable v it'

/-- A reachable iterator is at its end or at a rank. -/
theorem Reachable.cases (h : Reachable v it) :
    it.finished = true ∨ ∃ r < 2 ^ unknownCount v, it = atRank v r := by
  have hstep : ∀ {it it' : RealizedTernaryIterator} (bs : List Bool),
      (it.finished = true ∨ ∃ r < 2 ^ unknownCount v, it = atRank v r) →
      advanceBy it bs = .ok it' →
      it'.finished = true ∨ ∃ r < 2 ^ unknownCount v, it' = atRank v r := by
    intro it it' bs hit hrun
    rcases hit with hfin | ⟨r, hr, rfl⟩
    · obtain ⟨it'', hrun', hfin'⟩ := advanceBy_finished hfin bs
      rw [hrun] at hrun'
      cases hrun'
      exact inl hfin'
    · obtain ⟨hbelow, hend, hfail⟩ := advanceBy_atRank hr bs
      -- both stop at the same rank, or both past the last value
      by_cases hlt : r + toNat bs < 2 ^ unknownCount v
      · rw [hbelow hlt] at hrun
        cases hrun
        exact inr ⟨_, hlt, rfl⟩
      · by_cases hfits : FitsAt v r (toNat bs)
        · obtain ⟨it'', hrun', hfin'⟩ := hend (Nat.not_lt.1 hlt) hfits
          rw [hrun] at hrun'
          cases hrun'
          exact inl hfin'
        · rw [hfail hfits] at hrun
          cases hrun
  induction h with
  | start => exact inr ⟨0, Nat.two_pow_pos _, start_eq v⟩
  | atEnd => exact inl rfl
  | advance amnt _ hrun ih =>
    rw [advance_eq] at hrun
    exact hstep _ ih hrun
  | advanceInt amnt hlt _ hrun ih =>
    rw [advanceInt_eq _ (by omega)] at hrun
    exact hstep _ ih hrun

/-- Advancing by `n` returns what `n` increments return, which is the end exactly if the
iterator is there or there are no more than `n` values from its own on. -/
def AdvancesExactly (v : TernaryVector) (it : RealizedTernaryIterator) (n : Nat)
    (result : Result RealizedTernaryIterator) : Prop :=
  ∃ it' it'', result = .ok it' ∧ increments n it = .ok it'' ∧ eq it' it'' = true ∧
    (eq it' atEnd = true ↔ it.finished = true ∨
      (allBitsValues v).length ≤ (allBitsValues v).idxOf it.value + n)

/-- The amounts that `Advance` takes without leaving the list of unknown positions. -/
def Fits (v : TernaryVector) (it : RealizedTernaryIterator) (n : Nat) : Prop :=
  it.finished = true ∨ FitsAt v ((allBitsValues v).idxOf it.value) n

/-- The iterator advances exactly while the amount fits the machine integers. -/
theorem advanceBy_exact_iff (h : it.finished = true ∨ ∃ r < 2 ^ unknownCount v, it = atRank v r)
    (bs : List Bool) :
    AdvancesExactly v it (toNat bs) (advanceBy it bs) ↔ Fits v it (toNat bs) := by
  have hended : ∀ it' : RealizedTernaryIterator, eq it' atEnd = it'.finished := by
    intro it'
    cases hfin : it'.finished <;> simp [eq, atEnd, hfin]
  have hlength : (allBitsValues v).length = 2 ^ unknownCount v := by simp [allBitsValues_eq]
  rcases h with hfin | ⟨r, hr, rfl⟩
  · obtain ⟨it', hrun, hfin'⟩ := advanceBy_finished hfin bs
    obtain ⟨it'', hrun', hfin''⟩ := increments_finished (toNat bs) hfin
    refine iff_of_true ⟨it', it'', hrun, hrun', by simp [eq, hfin', hfin''], ?_⟩ (inl hfin)
    rw [hended, hfin', hfin]
    simp
  · obtain ⟨hbelow, hend, hfail⟩ := advanceBy_atRank hr bs
    obtain ⟨hsteps, hstepsEnd⟩ := increments_atRank (toNat bs) hr
    have hunfinished : (atRank v r).finished = false := rfl
    have hfitsAt : Fits v (atRank v r) (toNat bs) ↔ FitsAt v r (toNat bs) := by
      rw [Fits, hunfinished, show (atRank v r).value = realize v r from rfl, idxOf_realize hr]
      simp
    rw [hfitsAt]
    constructor
    · intro hexact
      obtain ⟨it', _, hrun, -⟩ := hexact
      by_contra hno
      rw [hfail hno] at hrun
      cases hrun
    · intro hfits
      by_cases hlt : r + toNat bs < 2 ^ unknownCount v
      · refine ⟨_, _, hbelow hlt, hsteps hlt, by simp [eq], ?_⟩
        rw [hended, hunfinished, show (atRank v r).value = realize v r from rfl,
          idxOf_realize hr, hlength]
        refine iff_of_false Bool.false_ne_true ?_
        rintro (hfin | hle)
        · cases hfin
        · omega
      · obtain ⟨it', hrun, hfin'⟩ := hend (Nat.not_lt.1 hlt) hfits
        obtain ⟨it'', hrun', hfin''⟩ := hstepsEnd (Nat.not_lt.1 hlt)
        refine ⟨it', it'', hrun, hrun', by simp [eq, hfin', hfin''], ?_⟩
        rw [hended, hfin', show (atRank v r).value = realize v r from rfl, idxOf_realize hr,
          hlength]
        exact iff_of_true rfl (inr (Nat.not_lt.1 hlt))

/-- Enumeration of ternary values is complete: a loop over `AllBitsValues` visits every
value that the vector admits once, in increasing order. Advancing an iterator by an amount
is the same as so many increments exactly if the amount fits the list of unknown
positions. -/
theorem realizedIterator_exact (v : TernaryVector) :
    (∀ rounds, 2 ^ unknownCount v ≤ rounds → visit rounds (start v) = .ok (allBitsValues v)) ∧
    (∀ bs, bs ∈ allBitsValues v ↔ TernaryVector.Admits v bs) ∧
    ((allBitsValues v).Pairwise fun a b => toNat a < toNat b) ∧ ∀ it : { it // Reachable v it },
      (∀ amnt : Bits, AdvancesExactly v it amnt.val (advance it amnt) ↔ Fits v it amnt.val) ∧
      ∀ amnt < 2 ^ 63, (AdvancesExactly v it amnt (advanceInt it amnt) ↔ Fits v it amnt) := by
  refine ⟨fun _ h => visit_start v h, fun _ => mem_allBitsValues, pairwise_allBitsValues v, ?_⟩
  intro it
  constructor
  · intro amnt
    have hexact := advanceBy_exact_iff it.2.cases
      (amnt.toBools.take (amnt.width - NumberParser.countLeadingZeros amnt))
    rwa [toNat_significant, ← advance_eq] at hexact
  · intro amnt hlt
    have hexact := advanceBy_exact_iff it.2.cases (BoolList.ofNat 64 amnt)
    rwa [toNat_ofNat, mod_eq_of_lt (by omega), ← advanceInt_eq _ (by omega)] at hexact

/-- Of a vector with one unknown position, the third bit of the amount four has no subspan:
the iterator does not come to its end. -/
theorem advance_four_fails :
    advance (start [.unknown]) ⟨3, 4, by decide⟩ = .error .check ∧
      ¬AdvancesExactly [.unknown] (start [.unknown]) 4
        (advance (start [.unknown]) ⟨3, 4, by decide⟩) := by
  have hfail : advance (start [.unknown]) ⟨3, 4, by decide⟩ = .error .check := rfl
  refine ⟨hfail, ?_⟩
  intro h
  obtain ⟨it', _, hrun, -⟩ := h
  rw [hfail] at hrun
  cases hrun

end RealizedTernaryIterator

end Xls

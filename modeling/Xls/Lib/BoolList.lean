import Mathlib.Tactic
import Mathlib.Data.List.Forall2
import Mathlib.Data.List.Sort
import Mathlib.Data.Nat.Bitwise
import Mathlib.Data.Nat.Size

/-!
# Xls.Lib.BoolList

Little-endian lists of booleans as unsigned numbers. Element `i` of a list is
the bit of weight `2 ^ i`, so a list of length `n` denotes a number below
`2 ^ n`, and `ofNat`/`toNat` are inverse to each other at a fixed length.

Nothing here knows about a particular program: circuits built gate by gate are
specified through these two conversions.
-/

namespace Xls.BoolList

open List Bool

/-- The number a little-endian bit list denotes. -/
def toNat : List Bool → Nat
  | [] => 0
  | b :: bs => b.toNat + 2 * toNat bs

/-- The `n` low bits of a number, least significant first. -/
def ofNat : Nat → Nat → List Bool
  | 0, _ => []
  | n + 1, x => x.testBit 0 :: ofNat n (x / 2)

@[simp] theorem toNat_nil : toNat [] = 0 := rfl

@[simp] theorem toNat_cons (b : Bool) (bs : List Bool) :
    toNat (b :: bs) = b.toNat + 2 * toNat bs := rfl

@[simp] theorem ofNat_zero (x : Nat) : ofNat 0 x = [] := rfl

@[simp] theorem ofNat_succ (n x : Nat) :
    ofNat (n + 1) x = x.testBit 0 :: ofNat n (x / 2) := rfl

@[simp] theorem length_ofNat (n x : Nat) : (ofNat n x).length = n := by
  induction n generalizing x with
  | zero => rfl
  | succ n ih => simp [ih]

theorem toNat_lt (bs : List Bool) : toNat bs < 2 ^ bs.length := by
  induction bs with
  | nil => simp
  | cons b bs ih =>
    have hb : b.toNat ≤ 1 := toNat_le b
    simp only [toNat_cons, length_cons, pow_succ]
    omega

theorem toNat_ofNat (n x : Nat) : toNat (ofNat n x) = x % 2 ^ n := by
  induction n generalizing x with
  | zero => simp [Nat.mod_one]
  | succ n ih =>
    have hx : (x.testBit 0).toNat = x % 2 := by
      rw [Nat.testBit_zero]
      rcases Nat.mod_two_eq_zero_or_one x with h | h <;> simp [h]
    rw [ofNat_succ, toNat_cons, ih, hx, pow_succ, Nat.mul_comm (2 ^ n) 2, Nat.mod_mul]

/-- The bits of the number are the elements of the list. -/
theorem testBit_toNat (bs : List Bool) (i : Nat) : (toNat bs).testBit i = bs.getD i false := by
  induction bs generalizing i with
  | nil => simp
  | cons b bs ih =>
    cases i with
    | zero =>
      rw [toNat_cons, Nat.testBit_zero, Nat.add_mul_mod_self_left]
      cases b <;> rfl
    | succ i =>
      have hdiv : (b.toNat + 2 * toNat bs) / 2 = toNat bs := by
        have hb : b.toNat ≤ 1 := toNat_le b
        omega
      rw [toNat_cons, Nat.testBit_succ, hdiv, ih]
      rfl

theorem getElem?_ofNat {n x i : Nat} (h : i < n) : (ofNat n x)[i]? = some (x.testBit i) := by
  induction n generalizing x i with
  | zero => omega
  | succ n ih =>
    cases i with
    | zero => rfl
    | succ i =>
      rw [ofNat_succ, getElem?_cons_succ, ih (by omega), Nat.testBit_succ]

theorem getElem_ofNat {n x i : Nat} (h : i < (ofNat n x).length) :
    (ofNat n x)[i] = x.testBit i := by
  have hi : i < n := by simpa using h
  have := getElem?_ofNat (x := x) hi
  rw [getElem?_eq_getElem h] at this
  exact Option.some.inj this

theorem ofNat_toNat (bs : List Bool) : ofNat bs.length (toNat bs) = bs := by
  induction bs with
  | nil => rfl
  | cons b bs ih =>
    have hdiv : (b.toNat + 2 * toNat bs) / 2 = toNat bs := by
      have hb : b.toNat ≤ 1 := toNat_le b
      omega
    have hbit : (b.toNat + 2 * toNat bs).testBit 0 = b := by simpa using testBit_toNat (b :: bs) 0
    rw [length_cons, toNat_cons, ofNat_succ, hdiv, ih, hbit]

variable {as bs : List Bool}

/-- Two lists of one length that denote one number are equal. -/
theorem toNat_inj (hlen : as.length = bs.length) (h : toNat as = toNat bs) : as = bs := by
  rw [← ofNat_toNat as, ← ofNat_toNat bs, hlen, h]

theorem toNat_append (as bs : List Bool) :
    toNat (as ++ bs) = toNat as + 2 ^ as.length * toNat bs := by
  induction as with
  | nil => simp
  | cons a as ih =>
    rw [cons_append, toNat_cons, ih, toNat_cons, length_cons, pow_succ]
    ring

@[simp] theorem toNat_replicate_false (n : Nat) : toNat (replicate n false) = 0 := by
  induction n with
  | zero => rfl
  | succ n ih => simp [replicate_succ, ih]

theorem toNat_replicate_true (n : Nat) : toNat (replicate n true) = 2 ^ n - 1 := by
  induction n with
  | zero => rfl
  | succ n ih =>
    have hpos : 0 < 2 ^ n := Nat.two_pow_pos n
    rw [replicate_succ, toNat_cons, ih, pow_succ]
    simp only [toNat_true]
    omega

/-- Complementing every bit complements the number to `2 ^ n - 1`. -/
theorem toNat_map_not (bs : List Bool) : toNat (bs.map not) = 2 ^ bs.length - 1 - toNat bs := by
  induction bs with
  | nil => rfl
  | cons b bs ih =>
    have hlt := toNat_lt bs
    rw [map_cons, toNat_cons, ih, toNat_cons, length_cons, pow_succ]
    cases b <;> simp <;> omega

theorem toNat_drop (bs : List Bool) (k : Nat) : toNat (bs.drop k) = toNat bs / 2 ^ k := by
  apply Nat.eq_of_testBit_eq
  intro i
  rw [Nat.testBit_div_two_pow, testBit_toNat, testBit_toNat]
  simp [getD_eq_getElem?_getD, Nat.add_comm]

theorem toNat_take (bs : List Bool) (k : Nat) : toNat (bs.take k) = toNat bs % 2 ^ k := by
  apply Nat.eq_of_testBit_eq
  intro i
  rw [Nat.testBit_mod_two_pow, testBit_toNat, testBit_toNat]
  by_cases h : i < k
  · simp [getD_eq_getElem?_getD, h]
  · simp [getD_eq_getElem?_getD, h]

/-- Combining lists bit by bit combines the bits of the numbers. -/
theorem testBit_toNat_zipWith {f : Bool → Bool → Bool} (hf : f false false = false)
    (hlen : as.length = bs.length) (i : Nat) :
    (toNat (zipWith f as bs)).testBit i = f ((toNat as).testBit i) ((toNat bs).testBit i) := by
  rw [testBit_toNat, testBit_toNat, testBit_toNat]
  simp only [getD_eq_getElem?_getD, getElem?_zipWith]
  by_cases hi : i < as.length
  · have hi' : i < bs.length := hlen ▸ hi
    simp [hi, hi']
  · have hi' : ¬i < bs.length := hlen ▸ hi
    simp [getElem?_eq_none (not_lt.1 hi), getElem?_eq_none (not_lt.1 hi'), hf]

theorem toNat_zipWith_and (hlen : as.length = bs.length) :
    toNat (zipWith and as bs) = toNat as &&& toNat bs :=
  Nat.eq_of_testBit_eq fun i => by rw [testBit_toNat_zipWith rfl hlen, Nat.testBit_and]

theorem toNat_zipWith_or (hlen : as.length = bs.length) :
    toNat (zipWith or as bs) = toNat as ||| toNat bs :=
  Nat.eq_of_testBit_eq fun i => by rw [testBit_toNat_zipWith rfl hlen, Nat.testBit_or]

theorem toNat_zipWith_xor (hlen : as.length = bs.length) :
    toNat (zipWith xor as bs) = toNat as ^^^ toNat bs :=
  Nat.eq_of_testBit_eq fun i => by rw [testBit_toNat_zipWith rfl hlen, Nat.testBit_xor]

/-! ### Bit-serial comparison -/

/-- One round of a comparison from the most significant end, on
`(less, upper bits at most)`. -/
def lessStep (acc : Bool × Bool) (p : Bool × Bool) : Bool × Bool :=
  (acc.1 || (acc.2 && (!p.1 && p.2)), acc.2 && (!p.1 || p.2))

/-- After a round the first flag is exact, and the second one is exact unless
the first one is already set. -/
theorem foldl_lessStep_reverse_zip (hlen : as.length = bs.length) :
    ((as.zip bs).reverse.foldl lessStep (false, true)).1 = decide (toNat as < toNat bs) ∧
      (¬toNat as < toNat bs →
        ((as.zip bs).reverse.foldl lessStep (false, true)).2 = decide (toNat as ≤ toNat bs)) := by
  rw [foldl_reverse]
  induction as generalizing bs with
  | nil =>
    obtain rfl : bs = [] := eq_nil_of_length_eq_zero hlen.symm
    simp
  | cons a as ih =>
    cases bs with
    | nil => simp at hlen
    | cons b bs =>
      obtain ⟨h1, h2⟩ := ih (Nat.succ.inj hlen)
      rw [zip_cons_cons, foldr_cons]
      generalize (as.zip bs).foldr (fun x y => lessStep y x) (false, true) = acc at h1 h2
      have ha := toNat_le a
      have hb := toNat_le b
      by_cases hlt : toNat as < toNat bs
      · have hlt' : toNat (a :: as) < toNat (b :: bs) := by
          rw [toNat_cons, toNat_cons]
          omega
        refine ⟨?_, fun hcon => absurd hlt' hcon⟩
        rw [lessStep, h1, decide_eq_true hlt, decide_eq_true hlt', Bool.true_or]
      · rw [decide_eq_false hlt] at h1
        have h2' := h2 hlt
        simp only [lessStep, h1, h2']
        by_cases hle : toNat as ≤ toNat bs
        · have heq : toNat as = toNat bs := by omega
          cases a <;> cases b <;> simp [heq]
        · cases a <;> cases b <;> simp [hle] <;> omega

/-! ### One-hot encoding -/

/-- The index of the first set bit, or the length. -/
def firstSet : List Bool → Nat
  | [] => 0
  | true :: _ => 0
  | false :: bs => firstSet bs + 1

/-- The one-hot vector of the first set bit, with one more position for "none". -/
def oneHot (bs : List Bool) : List Bool :=
  (range (bs.length + 1)).map (fun i => i == firstSet bs)

theorem firstSet_le_length (bs : List Bool) : firstSet bs ≤ bs.length := by
  induction bs with
  | nil => simp [firstSet]
  | cons b bs ih => cases b <;> simp [firstSet, ih]

theorem oneHot_cons_true (bs : List Bool) :
    oneHot (true :: bs) = true :: replicate (bs.length + 1) false := by
  unfold oneHot
  rw [length_cons, range_succ_eq_map, map_cons, map_map]
  simp only [firstSet, BEq.rfl]
  congr 1
  rw [eq_replicate_iff]
  simp

theorem oneHot_cons_false (bs : List Bool) : oneHot (false :: bs) = false :: oneHot bs := by
  unfold oneHot
  rw [length_cons, range_succ_eq_map, map_cons, map_map]
  simp only [firstSet]
  congr 1
  refine map_congr_left fun i _ => ?_
  simp

theorem toNat_oneHot (bs : List Bool) : toNat (oneHot bs) = 2 ^ firstSet bs := by
  induction bs with
  | nil => rfl
  | cons b bs ih =>
    cases b
    · rw [oneHot_cons_false, toNat_cons, ih, firstSet, pow_succ]
      simp [Nat.mul_comm]
    · rw [oneHot_cons_true, toNat_cons, toNat_replicate_false]
      simp [firstSet]

/-- The one-hot vector of the last set bit, with one more position for "none": a
scan from the other end whose outputs are put back in order. -/
def oneHotMsb (bs : List Bool) : List Bool :=
  ((oneHot bs.reverse).take bs.length).reverse ++ (oneHot bs.reverse).drop bs.length

theorem toNat_map_beq_range {n t : Nat} (ht : t < n) : toNat ((range n).map (· == t)) = 2 ^ t := by
  refine Nat.eq_of_testBit_eq fun i => ?_
  rw [testBit_toNat, Nat.testBit_two_pow, getD_eq_getElem?_getD]
  by_cases hi : i < n
  · simp only [getElem?_map, getElem?_range hi, Option.map_some, Option.getD_some]
    rw [Bool.eq_iff_iff, beq_iff_eq, decide_eq_true_eq, eq_comm]
  · have hne : t ≠ i := by omega
    simp [hi, hne]

/-- One-hot from the most significant bit, as a power of two. -/
theorem toNat_oneHotMsb (bs : List Bool) :
    toNat (oneHotMsb bs) = 2 ^ (if firstSet bs.reverse < bs.length
      then bs.length - 1 - firstSet bs.reverse else bs.length) := by
  have hle := firstSet_le_length bs.reverse
  rw [length_reverse] at hle
  have heq : oneHotMsb bs = (range (bs.length + 1)).map
      (· == if firstSet bs.reverse < bs.length
        then bs.length - 1 - firstSet bs.reverse else bs.length) := by
    unfold oneHotMsb oneHot
    refine ext_getElem (by simp) fun i h1 h2 => ?_
    have hi : i < bs.length + 1 := by simpa using h2
    by_cases hlt : i < bs.length
    · rw [getElem_append_left (by simpa using hlt)]
      simp only [getElem_reverse, getElem_take, getElem_map, getElem_range,
        length_reverse, length_take, length_map, length_range]
      rw [Bool.eq_iff_iff, beq_iff_eq, beq_iff_eq, Nat.min_eq_left (by omega)]
      split <;> omega
    · rw [getElem_append_right (by simpa using hlt)]
      simp only [getElem_drop, getElem_map, getElem_range, length_reverse,
        length_take, length_map, length_range]
      rw [Bool.eq_iff_iff, beq_iff_eq, beq_iff_eq, Nat.min_eq_left (by omega)]
      split <;> omega
  rw [heq, toNat_map_beq_range]
  split <;> omega

@[simp] theorem length_oneHot (bs : List Bool) : (oneHot bs).length = bs.length + 1 := by
  simp [oneHot]

/-- One round of the one-hot scan, on `(no bit set so far, output)`. -/
def oneHotStep (acc : Bool × List Bool) (b : Bool) : Bool × List Bool :=
  (acc.1 && !b, acc.2 ++ [acc.1 && b])

theorem foldl_oneHotStep_false (bs out : List Bool) :
    bs.foldl oneHotStep (false, out) = (false, out ++ replicate bs.length false) := by
  induction bs generalizing out with
  | nil => simp
  | cons b bs ih =>
    rw [foldl_cons]
    show bs.foldl oneHotStep (false, out ++ [false]) = _
    rw [ih, append_assoc, length_cons, replicate_succ]
    rfl

/-- The loop adds the output bits to what it has, and the flag that no bit was set comes last. -/
theorem foldl_oneHotStep (bs out : List Bool) :
    (bs.foldl oneHotStep (true, out)).2 ++ [(bs.foldl oneHotStep (true, out)).1] =
      out ++ oneHot bs := by
  induction bs generalizing out with
  | nil => rfl
  | cons b bs ih =>
    cases b
    · rw [oneHot_cons_false, foldl_cons]
      show (bs.foldl oneHotStep (true, out ++ [false])).2 ++
        [(bs.foldl oneHotStep (true, out ++ [false])).1] = _
      rw [ih]
      simp
    · rw [oneHot_cons_true, foldl_cons]
      show (bs.foldl oneHotStep (false, out ++ [true])).2 ++
        [(bs.foldl oneHotStep (false, out ++ [true])).1] = _
      rw [foldl_oneHotStep_false]
      simp [replicate_succ', append_assoc]

/-! ### Folding over all bits -/

theorem foldl_and (bs : List Bool) (b : Bool) : bs.foldl and b = (b && bs.all id) := by
  induction bs generalizing b with
  | nil => simp
  | cons a bs ih => rw [foldl_cons, ih]; simp [Bool.and_assoc]

theorem foldl_or (bs : List Bool) (b : Bool) : bs.foldl or b = (b || bs.any id) := by
  induction bs generalizing b with
  | nil => simp
  | cons a bs ih => rw [foldl_cons, ih]; simp [Bool.or_assoc]

/-- All bits are set exactly in the greatest number of the width. -/
theorem all_id_iff (bs : List Bool) : bs.all id = true ↔ toNat bs = 2 ^ bs.length - 1 := by
  induction bs with
  | nil => simp
  | cons b bs ih =>
    have hlt := toNat_lt bs
    have hpos : 0 < 2 ^ bs.length := Nat.two_pow_pos _
    cases b
    · simp only [all_cons, id_eq, Bool.false_and, false_eq_true, toNat_cons,
        toNat_false, length_cons, pow_succ, false_iff]
      omega
    · simp only [all_cons, id_eq, Bool.true_and, ih, toNat_cons, toNat_true, length_cons, pow_succ]
      omega

theorem any_id_iff (bs : List Bool) : bs.any id = true ↔ toNat bs ≠ 0 := by
  induction bs with
  | nil => simp
  | cons b bs ih =>
    cases b
    · simp only [any_cons, id_eq, Bool.false_or, ih, toNat_cons, toNat_false]
      omega
    · simp

/-- Parity of the number of set bits. -/
theorem foldl_xor (bs : List Bool) (b : Bool) :
    bs.foldl xor b = (b ^^ ((bs.filter id).length % 2 == 1)) := by
  induction bs generalizing b with
  | nil => simp
  | cons a bs ih =>
    rw [foldl_cons, ih]
    cases a
    · simp
    · have hpar : ((bs.filter id).length + 1) % 2 = 1 ↔ ¬(bs.filter id).length % 2 = 1 := by omega
      simp only [Bool.xor_true, filter_cons_of_pos, id_eq, length_cons]
      by_cases hp : (bs.filter id).length % 2 = 1
      · have h0 : ((bs.filter id).length + 1) % 2 = 0 := by omega
        cases b <;> simp [hp, h0]
      · have h1 : (bs.filter id).length % 2 = 0 := by omega
        have h0 : ((bs.filter id).length + 1) % 2 = 1 := by omega
        cases b <;> simp [h1, h0]

end Xls.BoolList

import Mathlib.Data.Nat.Digits.Lemmas
import Mathlib.Tactic.Ring

/-!
# Xls.Lib.Limbs

Numbers as a fixed count of limbs of `k` bits, least significant first. The value of
a list of limbs is `Nat.ofDigits (2 ^ k)`; the lemmas say what complementing,
masking, comparing and stepping the limbs does to the value.
-/

namespace Xls.Limbs

open List Nat

variable {k : Nat}

/-- The lowest `n` limbs of a number. -/
def limbs (k : Nat) : Nat → Nat → List Nat
  | 0, _ => []
  | n + 1, x => x % 2 ^ k :: limbs k n (x / 2 ^ k)

@[simp] theorem length_limbs (n x : Nat) : (limbs k n x).length = n := by
  induction n generalizing x with
  | zero => rfl
  | succ n ih => rw [limbs, length_cons, ih]

variable {n : Nat}

theorem lt_of_mem_limbs {x d : Nat} (h : d ∈ limbs k n x) : d < 2 ^ k := by
  induction n generalizing x with
  | zero => cases h
  | succ n ih =>
    rcases mem_cons.1 h with rfl | h
    · exact mod_lt _ (Nat.two_pow_pos k)
    · exact ih h

theorem two_pow_mul_succ (k n : Nat) : 2 ^ (k * (n + 1)) = 2 ^ k * 2 ^ (k * n) := by
  rw [mul_succ, pow_add, Nat.mul_comm]

theorem value_limbs (n x : Nat) : ofDigits (2 ^ k) (limbs k n x) = x % 2 ^ (k * n) := by
  induction n generalizing x with
  | zero => simp [limbs, mod_one]
  | succ n ih =>
    rw [limbs, ofDigits_cons, ih, two_pow_mul_succ, mod_mul]

variable {ds : List Nat}

/-- A list of digits is less than the power of its length. -/
theorem value_lt (h : ∀ d ∈ ds, d < 2 ^ k) : ofDigits (2 ^ k) ds < 2 ^ (k * ds.length) := by
  induction ds with
  | nil => simp
  | cons d ds ih =>
    have hd := h d mem_cons_self
    have hds := ih fun e he => h e (mem_cons_of_mem _ he)
    rw [ofDigits_cons, length_cons, two_pow_mul_succ]
    calc d + 2 ^ k * ofDigits (2 ^ k) ds
        < 2 ^ k + 2 ^ k * ofDigits (2 ^ k) ds := by omega
      _ = 2 ^ k * (ofDigits (2 ^ k) ds + 1) := by ring
      _ ≤ 2 ^ k * 2 ^ (k * ds.length) := Nat.mul_le_mul_left _ hds

/-- Complementing every limb complements the number. -/
theorem value_complement (h : ∀ d ∈ ds, d < 2 ^ k) :
    ofDigits (2 ^ k) (ds.map fun d => 2 ^ k - 1 - d) + ofDigits (2 ^ k) ds + 1 =
      2 ^ (k * ds.length) := by
  induction ds with
  | nil => simp
  | cons d ds ih =>
    have hd := h d mem_cons_self
    have hds := ih fun e he => h e (mem_cons_of_mem _ he)
    rw [map_cons, ofDigits_cons, ofDigits_cons, length_cons, two_pow_mul_succ, ← hds]
    have hsum : 2 ^ k - 1 - d + d = 2 ^ k - 1 := by omega
    have hpos := Nat.two_pow_pos k
    calc 2 ^ k - 1 - d + 2 ^ k * ofDigits (2 ^ k) (ds.map fun d => 2 ^ k - 1 - d) +
          (d + 2 ^ k * ofDigits (2 ^ k) ds) + 1
        = (2 ^ k - 1 - d + d + 1) + 2 ^ k * (ofDigits (2 ^ k)
            (ds.map fun d => 2 ^ k - 1 - d) + ofDigits (2 ^ k) ds) := by ring
      _ = 2 ^ k + 2 ^ k * (ofDigits (2 ^ k) (ds.map fun d => 2 ^ k - 1 - d) +
            ofDigits (2 ^ k) ds) := by
          rw [hsum]
          omega
      _ = _ := by ring

/-- Masking the top limb keeps the low bits of the number. -/
theorem value_mask_top {d m : Nat} (h : ∀ e ∈ ds, e < 2 ^ k) :
    ofDigits (2 ^ k) (ds ++ [d % 2 ^ m]) =
      ofDigits (2 ^ k) (ds ++ [d]) % 2 ^ (k * ds.length + m) := by
  have hlt := value_lt h
  rw [ofDigits_append, ofDigits_append, ofDigits_singleton, ofDigits_singleton,
    ← pow_mul, pow_add, mod_mul, add_mul_mod_self_left, mod_eq_of_lt hlt,
    add_mul_div_left _ _ (Nat.two_pow_pos _), div_eq_of_lt hlt, Nat.zero_add]

/-! ### Comparison -/

/-- Compare limbs from the most significant on. -/
def compare : List Nat → List Nat → Int
  | d :: ds, e :: es => if e < d then 1 else if d < e then -1 else compare ds es
  | _, _ => 0

/-- The sign of a comparison. -/
def sign (x y : Nat) : Int := if y < x then 1 else if x < y then -1 else 0

/-- Comparing digit by digit from the top compares the numbers. -/
theorem compare_eq_sign {es : List Nat} (hlen : ds.length = es.length) (hd : ∀ d ∈ ds, d < 2 ^ k)
    (he : ∀ e ∈ es, e < 2 ^ k) :
    compare ds es = sign (ofDigits (2 ^ k) ds.reverse) (ofDigits (2 ^ k) es.reverse) := by
  induction ds generalizing es with
  | nil =>
    obtain rfl := eq_nil_of_length_eq_zero hlen.symm
    rfl
  | cons d ds ih =>
    cases es with
    | nil => simp at hlen
    | cons e es =>
      have hds : ∀ x ∈ ds.reverse, x < 2 ^ k := fun x hx =>
        hd x (mem_cons_of_mem _ (mem_reverse.1 hx))
      have hes : ∀ x ∈ es.reverse, x < 2 ^ k := fun x hx =>
        he x (mem_cons_of_mem _ (mem_reverse.1 hx))
      have hl : ds.length = es.length := by simpa using hlen
      have hdlt := value_lt hds
      have helt := value_lt hes
      have hstep := ih hl (fun x hx => hd x (mem_cons_of_mem _ hx))
        (fun x hx => he x (mem_cons_of_mem _ hx))
      rw [length_reverse] at hdlt helt
      rw [compare, reverse_cons, reverse_cons, ofDigits_append,
        ofDigits_append, ofDigits_singleton, ofDigits_singleton, ← pow_mul,
        ← pow_mul, length_reverse, length_reverse, hstep, ← hl]
      rw [← hl] at helt
      unfold sign
      generalize ofDigits (2 ^ k) ds.reverse = x at *
      generalize ofDigits (2 ^ k) es.reverse = y at *
      generalize 2 ^ (k * ds.length) = B at *
      -- a larger top limb outweighs all the limbs below it
      have hgap : ∀ a b u : Nat, a < b → u < B → u + B * a < B * b := by
        intro a b u hab hu
        calc u + B * a < B + B * a := by omega
          _ = B * (a + 1) := by ring
          _ ≤ B * b := Nat.mul_le_mul_left _ hab
      split
      · rename_i hlt
        have := hgap e d y hlt helt
        rw [if_pos (by omega)]
      · split
        · rename_i hlt
          have := hgap d e x hlt hdlt
          rw [if_neg (by omega), if_pos (by omega)]
        · have hde : d = e := by omega
          subst hde
          simp only [Nat.add_lt_add_iff_right]

/-! ### Excess limbs -/

theorem value_split (ds : List Nat) (n : Nat) :
    ofDigits (2 ^ k) ds = ofDigits (2 ^ k) (ds.take n) +
      2 ^ (k * (ds.take n).length) * ofDigits (2 ^ k) (ds.drop n) := by
  rw [pow_mul, ← ofDigits_append, take_append_drop]

/-- Zero limbs above a position do not count. -/
theorem value_take (h : (ds.drop n).any (0 < ·) = false) :
    ofDigits (2 ^ k) (ds.take n) = ofDigits (2 ^ k) ds := by
  have hzero : ofDigits (2 ^ k) (ds.drop n) = 0 := by
    generalize ds.drop n = es at h
    induction es with
    | nil => rfl
    | cons e es ih =>
      rw [any_cons, Bool.or_eq_false_iff, decide_eq_false_iff_not] at h
      rw [ofDigits_cons, ih h.2]
      omega
  rw [value_split ds n, hzero, Nat.mul_zero, Nat.add_zero]

/-- A limb that is not zero outweighs the positions below. -/
theorem le_value_of_excess (h : (ds.drop n).any (0 < ·) = true) :
    2 ^ (k * n) ≤ ofDigits (2 ^ k) ds := by
  have hpos : 0 < ofDigits (2 ^ k) (ds.drop n) := by
    generalize ds.drop n = es at h
    induction es with
    | nil => cases h
    | cons e es ih =>
      rw [any_cons, Bool.or_eq_true, decide_eq_true_iff] at h
      rw [ofDigits_cons]
      rcases h with h | h
      · exact Nat.add_pos_left h _
      · exact Nat.add_pos_right _ (Nat.mul_pos (Nat.two_pow_pos k) (ih h))
  have hlen : (ds.take n).length = n := by
    rw [length_take, Nat.min_eq_left]
    by_contra hlt
    rw [drop_eq_nil_of_le (by omega)] at h
    cases h
  rw [value_split ds n, hlen]
  exact le_trans (Nat.le_mul_of_pos_right _ hpos) (Nat.le_add_left _ _)

/-! ### Steps with a carry -/

/-- Add one to a number of `v` bits, limb by limb. -/
def increment (k : Nat) : Nat → List Nat → List Nat
  | _, [] => []
  | v, d :: ds =>
    if d < 2 ^ k - 1 then (d + 1) % 2 ^ min v k :: ds
    else 0 % 2 ^ min v k :: increment k (v - k) ds

/-- Subtract one from a number of `v` bits, limb by limb. -/
def decrement (k : Nat) : Nat → List Nat → List Nat
  | _, [] => []
  | v, d :: ds =>
    if 0 < d then (d - 1) % 2 ^ min v k :: ds
    else (2 ^ k - 1) % 2 ^ min v k :: decrement k (v - k) ds

section Steps

variable {v : Nat} {d : Nat} {ds : List Nat}

/-- The limbs of `v` bits are a last one of at most `k` bits, or a full one and the
limbs of `v - k` bits. -/
theorem limb_cases (hk : 0 < k) (hlen : (d :: ds).length = (v + k - 1) / k) :
    (0 < v ∧ v ≤ k ∧ ds = []) ∨ (k < v ∧ ds.length = (v - k + k - 1) / k) := by
  rw [length_cons] at hlen
  by_cases hv : v ≤ k
  · have hpos : 0 < v := by
      by_contra hzero
      have h0 : (v + k - 1) / k = 0 := div_eq_of_lt (by omega)
      omega
    have hone : (v + k - 1) / k = 1 := by
      rw [show v + k - 1 = v - 1 + k by omega, add_div_right _ hk, div_eq_of_lt (by omega)]
    exact .inl ⟨hpos, hv, eq_nil_of_length_eq_zero (by omega)⟩
  · refine .inr ⟨by omega, ?_⟩
    rw [show v + k - 1 = v - k + k - 1 + k by omega, add_div_right _ hk] at hlen
    omega

theorem rest_lt (hv : k < v) (h : d + 2 ^ k * ofDigits (2 ^ k) ds < 2 ^ v) :
    ofDigits (2 ^ k) ds < 2 ^ (v - k) := by
  by_contra hge
  have hpow : 2 ^ v = 2 ^ k * 2 ^ (v - k) := by rw [← pow_add, Nat.add_sub_cancel' hv.le]
  have hle := Nat.mul_le_mul_left (2 ^ k) (Nat.le_of_not_lt hge)
  omega

/-- Increment carries through the digits and wraps at the width. -/
theorem value_increment (hk : 0 < k) (hlen : ds.length = (v + k - 1) / k)
    (hds : ∀ d ∈ ds, d < 2 ^ k) (hlt : ofDigits (2 ^ k) ds < 2 ^ v) :
    ofDigits (2 ^ k) (increment k v ds) = (ofDigits (2 ^ k) ds + 1) % 2 ^ v := by
  induction ds generalizing v with
  | nil =>
    have hv : v = 0 := by
      by_contra hne
      have := Nat.div_pos (show k ≤ v + k - 1 by omega) hk
      rw [length_nil] at hlen
      omega
    simp [hv, increment]
  | cons d ds ih =>
    have hd := hds d mem_cons_self
    rw [ofDigits_cons] at hlt ⊢
    rw [increment]
    rcases limb_cases hk hlen with ⟨hpos, hv, rfl⟩ | ⟨hv, hlen'⟩
    · rw [Nat.min_eq_left hv]
      have hpow : 2 ^ v ≤ 2 ^ k := Nat.pow_le_pow_right (by omega) hv
      simp only [ofDigits_nil, Nat.mul_zero, Nat.add_zero] at hlt ⊢
      split
      · rw [ofDigits_singleton]
      · have hfull : d + 1 = 2 ^ v := by omega
        simp [increment, hfull]
    · rw [Nat.min_eq_right hv.le]
      have hrest := rest_lt hv hlt
      have hpow : 2 ^ v = 2 ^ k * 2 ^ (v - k) := by rw [← pow_add, Nat.add_sub_cancel' hv.le]
      have hle := Nat.mul_le_mul_left (2 ^ k) (succ_le_of_lt hrest)
      rw [succ_eq_add_one, Nat.mul_add, Nat.mul_one] at hle
      split
      · rw [ofDigits_cons, mod_eq_of_lt (by omega), mod_eq_of_lt (by omega)]
        omega
      · have hfull : d = 2 ^ k - 1 := by omega
        have hsum : d + 2 ^ k * ofDigits (2 ^ k) ds + 1 =
            2 ^ k * (ofDigits (2 ^ k) ds + 1) := by
          rw [Nat.mul_add]
          omega
        rw [ofDigits_cons, ih hlen' (fun e he => hds e (mem_cons_of_mem _ he)) hrest,
          hsum, hpow, mul_mod_mul_left, zero_mod, Nat.zero_add]

theorem allOnes_mod {m n : Nat} (h : m ≤ n) : (2 ^ n - 1) % 2 ^ m = 2 ^ m - 1 := by
  have hpow : 2 ^ n = 2 ^ m * 2 ^ (n - m) := by rw [← pow_add, Nat.add_sub_cancel' h]
  have hpos := Nat.two_pow_pos m
  have hpos' := Nat.two_pow_pos (n - m)
  have hsplit : 2 ^ n - 1 = 2 ^ m - 1 + 2 ^ m * (2 ^ (n - m) - 1) := by
    rw [hpow, Nat.mul_sub, Nat.mul_one]
    have := Nat.le_mul_of_pos_right (2 ^ m) hpos'
    omega
  rw [hsplit, add_mul_mod_self_left, mod_eq_of_lt (by omega)]

/-- Decrement borrows through the digits and wraps at the width. -/
theorem value_decrement (hk : 0 < k) (hlen : ds.length = (v + k - 1) / k)
    (hds : ∀ d ∈ ds, d < 2 ^ k) (hlt : ofDigits (2 ^ k) ds < 2 ^ v) :
    ofDigits (2 ^ k) (decrement k v ds) = (ofDigits (2 ^ k) ds + 2 ^ v - 1) % 2 ^ v := by
  induction ds generalizing v with
  | nil =>
    have hv : v = 0 := by
      by_contra hne
      have := Nat.div_pos (show k ≤ v + k - 1 by omega) hk
      rw [length_nil] at hlen
      omega
    simp [hv, decrement]
  | cons d ds ih =>
    have hd := hds d mem_cons_self
    rw [ofDigits_cons] at hlt ⊢
    rw [decrement]
    rcases limb_cases hk hlen with ⟨hpos, hv, rfl⟩ | ⟨hv, hlen'⟩
    · rw [Nat.min_eq_left hv]
      simp only [ofDigits_nil, Nat.mul_zero, Nat.add_zero] at hlt ⊢
      split
      · rw [ofDigits_singleton, show d + 2 ^ v - 1 = d - 1 + 2 ^ v by omega, add_mod_right]
      · have hzero : d = 0 := by omega
        rw [decrement, ofDigits_singleton, allOnes_mod hv, hzero, Nat.zero_add,
          mod_eq_of_lt (by have := Nat.two_pow_pos v; omega)]
    · rw [Nat.min_eq_right hv.le]
      have hrest := rest_lt hv hlt
      have hpow : 2 ^ v = 2 ^ k * 2 ^ (v - k) := by rw [← pow_add, Nat.add_sub_cancel' hv.le]
      split
      · rw [ofDigits_cons, mod_eq_of_lt (by omega),
          show d + 2 ^ k * ofDigits (2 ^ k) ds + 2 ^ v - 1 =
            d - 1 + 2 ^ k * ofDigits (2 ^ k) ds + 2 ^ v by omega,
          add_mod_right, mod_eq_of_lt (by omega)]
      · have hzero : d = 0 := by omega
        have hposk := Nat.two_pow_pos k
        have hposr := Nat.two_pow_pos (v - k)
        rw [ofDigits_cons, ih hlen' (fun e he => hds e (mem_cons_of_mem _ he)) hrest,
          allOnes_mod (le_refl k), hzero, Nat.zero_add]
        generalize ofDigits (2 ^ k) ds = r at hrest
        by_cases hr : r = 0
        · rw [hr, Nat.zero_add, Nat.mul_zero, Nat.zero_add, mod_eq_of_lt (by omega),
            mod_eq_of_lt (by omega), hpow, Nat.mul_sub, Nat.mul_one]
          have := Nat.le_mul_of_pos_right (2 ^ k) hposr
          show 2 ^ k - 1 + (2 ^ k * 2 ^ (v - k) - 2 ^ k) = _
          omega
        · rw [show r + 2 ^ (v - k) - 1 = r - 1 + 2 ^ (v - k) by omega, add_mod_right,
            mod_eq_of_lt (by omega)]
          have hmul : 2 ^ k * (r - 1) + 2 ^ k = 2 ^ k * r := by
            rw [← mul_succ, succ_eq_add_one, Nat.sub_add_cancel (by omega)]
          have hle := Nat.mul_le_mul_left (2 ^ k) (Nat.le_of_lt hrest)
          rw [show 2 ^ k * r + 2 ^ v - 1 = 2 ^ k * r - 1 + 2 ^ v by omega, add_mod_right,
            mod_eq_of_lt (by omega)]
          show 2 ^ k - 1 + 2 ^ k * (r - 1) = _
          omega

end Steps

end Xls.Limbs

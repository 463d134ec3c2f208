import Xls.Narrowing.ArrayIndex

/-!
# Xls.MixedRadix

The iteration over the numbers of a mixed radix system (`common/math_util.cc`). The function
is called with each of them once, in counting order, until it returns `true`
(`mixedRadixIterate_eq_callUntil`).
-/

namespace Xls.MixedRadix

open List

/-- `increment_number`, from a digit on; `none` is an overflow. The digits below are zero. -/
def incrementNumber : List Nat → List Nat → Option (List Nat)
  | r :: rs, d :: ds =>
    -- the carry goes on to the next digit
    if d + 1 ≥ r then (incrementNumber rs ds).map (0 :: ·) else some ((d + 1) :: ds)
  | _, _ => none

/-- How often a number can be incremented. -/
def remaining : List Nat → List Nat → Nat
  | r :: rs, d :: ds => r - 1 - d + max r 1 * remaining rs ds
  | _, _ => 0

theorem remaining_lt : ∀ {rs ds ds' : List Nat}, incrementNumber rs ds = some ds' →
    remaining rs ds' < remaining rs ds
  | [], _, _, h => by simp [incrementNumber] at h
  | _ :: _, [], _, h => by simp [incrementNumber] at h
  | r :: rs, d :: ds, ds', h => by
    rw [incrementNumber] at h
    split at h
    · obtain ⟨es, hes, rfl⟩ := Option.map_eq_some_iff.mp h
      have hlt := remaining_lt hes
      have hmul := Nat.mul_le_mul_left (max r 1) (Nat.succ_le_of_lt hlt)
      rw [Nat.mul_succ] at hmul
      simp only [remaining]
      omega
    · cases h
      simp only [remaining]
      omega

variable {σ : Type}

/-- The loop of `MixedRadixIterate`, from a number on. The function that is called has a state. -/
def iterateFrom (radix : List Nat) (f : σ → List Nat → Bool × σ) (number : List Nat) (s : σ) :
    Bool × σ :=
  match f s number with
  | (true, s) => (true, s)
  | (false, s) =>
    match _hnext : incrementNumber radix number with
    | some next => iterateFrom radix f next s
    | none => (false, s)
termination_by remaining radix number
decreasing_by exact remaining_lt _hnext

/-- `MixedRadixIterate`. -/
def mixedRadixIterate (radix : List Nat) (f : σ → List Nat → Bool × σ) (s : σ) : Bool × σ :=
  iterateFrom radix f (replicate radix.length 0) s

/-! ### The numbers in their order -/

/-- The function is called with the numbers in turn until it returns `true`; the result says
whether it did. -/
def callUntil (f : σ → List Nat → Bool × σ) : List (List Nat) → σ → Bool × σ
  | [], s => (false, s)
  | number :: rest, s =>
    match f s number with
    | (true, s) => (true, s)
    | (false, s) => callUntil f rest s

/-- The value of a number, the least significant digit first. -/
def value : List Nat → List Nat → Nat
  | r :: rs, d :: ds => d + r * value rs ds
  | _, _ => 0

/-- The numbers that follow a number when it is incremented until it overflows, with it. -/
inductive Counts (radix : List Nat) : List Nat → List (List Nat) → Prop
  | last {number : List Nat} : incrementNumber radix number = none → Counts radix number [number]
  | next {number next : List Nat} {numbers : List (List Nat)} :
    incrementNumber radix number = some next → Counts radix next numbers →
      Counts radix number (number :: numbers)

/-- From a number on, the function is called with the numbers that follow in counting order. -/
theorem iterateFrom_eq {radix number : List Nat} {numbers : List (List Nat)}
    (h : Counts radix number numbers) (f : σ → List Nat → Bool × σ) (s : σ) :
    iterateFrom radix f number s = callUntil f numbers s := by
  induction h generalizing s with
  | last hnone =>
    rw [iterateFrom, callUntil]
    split
    · rfl
    · split <;> simp_all [callUntil]
  | next hsome _ ih =>
    rw [iterateFrom, callUntil]
    split
    · rfl
    · split <;> simp_all

/-- The numbers with the digits from `d` on, and the numbers after the carry. -/
theorem Counts.digits {r d : Nat} {rs ds : List Nat} {numbers : List (List Nat)} (k : Nat)
    (hr : d + k + 1 = r) (hcarry : match incrementNumber rs ds with
      | none => numbers = []
      | some ds => Counts (r :: rs) (0 :: ds) numbers) :
    Counts (r :: rs) (d :: ds) ((range' d (k + 1)).map (· :: ds) ++ numbers) := by
  induction k generalizing d with
  | zero =>
    have hinc : incrementNumber (r :: rs) (d :: ds) = (incrementNumber rs ds).map (0 :: ·) := by
      rw [incrementNumber, if_pos (by omega)]
    split at hcarry
    · rename_i hnone
      rw [hcarry]
      exact .last (by rw [hinc, hnone]; rfl)
    · rename_i hnext
      exact .next (by rw [hinc, hnext]; rfl) hcarry
  | succ k ih =>
    rw [range'_succ]
    exact .next (by rw [incrementNumber, if_neg (by omega)]) (ih (by omega))

theorem Counts.cons {r : Nat} {rs ds : List Nat} {numbers : List (List Nat)} (hr : 0 < r)
    (h : Counts rs ds numbers) :
    Counts (r :: rs) (0 :: ds) (numbers.flatMap fun digits => (range r).map (· :: digits)) := by
  obtain ⟨k, rfl⟩ := Nat.exists_eq_succ_of_ne_zero hr.ne'
  induction h with
  | last hnone =>
    simp only [flatMap_cons, flatMap_nil, range_eq_range']
    exact .digits k (by omega) (by rw [hnone])
  | next hsome _ ih =>
    simp only [flatMap_cons, range_eq_range']
    exact .digits k (by omega) (by rw [hsome]; simpa only [range_eq_range'] using ih)

theorem counts_mixedRadix {radix : List Nat} (hpos : ∀ r ∈ radix, 0 < r) :
    Counts radix (replicate radix.length 0) (Narrowing.mixedRadix radix) := by
  induction radix with
  | nil => exact .last rfl
  | cons r rs ih =>
    obtain ⟨hr, hrs⟩ := forall_mem_cons.mp hpos
    rw [Narrowing.mixedRadix, Nat.max_eq_left hr]
    exact (ih hrs).cons hr

/-- The numbers are in counting order. -/
theorem value_mixedRadix {radix : List Nat} (hpos : ∀ r ∈ radix, 0 < r) :
    (Narrowing.mixedRadix radix).map (value radix) = range radix.prod := by
  induction radix with
  | nil => rfl
  | cons r rs ih =>
    obtain ⟨hr, hrs⟩ := forall_mem_cons.mp hpos
    have hrow : ∀ digits, ((range r).map (· :: digits)).map (value (r :: rs)) =
        (range r).map (· + r * value rs digits) := fun digits => by
      simp [value, Function.comp_def]
    rw [Narrowing.mixedRadix, Nat.max_eq_left hr, map_flatMap]
    simp only [hrow]
    rw [prod_cons, ← flatMap_map (value rs) fun n => (range r).map (· + r * n), ih hrs]
    clear ih hrow hrs hpos
    induction rs.prod with
    | zero => simp
    | succ n ih =>
      rw [range_succ, flatMap_append, ih, Nat.mul_succ, range_add]
      simp [Nat.add_comm]

/-- The function is called with every number once, in counting order, until it returns `true`,
and the result says whether it did. -/
theorem mixedRadixIterate_eq_callUntil (radix : List Nat) (hpos : ∀ r ∈ radix, 0 < r) :
    ∃ numbers : List (List Nat), numbers.Nodup ∧
      (∀ digits, digits ∈ numbers ↔ Forall₂ (· < ·) digits radix) ∧
      numbers.map (value radix) = range radix.prod ∧
      ∀ (σ : Type) (f : σ → List Nat → Bool × σ) (s : σ),
        mixedRadixIterate radix f s = callUntil f numbers s := by
  have hvalue := value_mixedRadix hpos
  refine ⟨_, ?_, fun digits => Narrowing.mem_mixedRadix hpos, hvalue, fun σ f s =>
    iterateFrom_eq (counts_mixedRadix hpos) f s⟩
  exact .of_map _ (hvalue ▸ nodup_range)

theorem mixedRadixIterate_eq_callUntil_twoThree :
    ∃ numbers : List (List Nat), numbers.Nodup ∧
      (∀ digits, digits ∈ numbers ↔ Forall₂ (· < ·) digits [2, 3]) ∧
      numbers.map (value [2, 3]) = range 6 ∧ ∀ (σ : Type) (f : σ → List Nat → Bool × σ) (s : σ),
        mixedRadixIterate [2, 3] f s = callUntil f numbers s :=
  mixedRadixIterate_eq_callUntil [2, 3] (by decide)

end Xls.MixedRadix

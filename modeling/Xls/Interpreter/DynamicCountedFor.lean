import Xls.BitsOps.Exact
import Xls.Interpreter

/-!
# Xls.Interpreter.DynamicCountedFor

How often the loop of `dynamic_counted_for` runs. It ends when an index that wraps around
equals the product of the trip count and the stride, which is computed without wrapping. The
two meet after the right number of iterations exactly if the product fits the index and,
unless there is nothing to do, the stride is not zero (`runs_tripCount_times_iff`).
-/

namespace Xls.Interpreter

open Bits

/-- What the verifier asks of the widths of the index, the trip count and the stride. -/
def verifyLoopWidths (indexWidth : Nat) (tripCount stride : Bits) : Bool :=
  decide (tripCount.width < indexWidth) && decide (stride.width ≤ indexWidth)

/-- The product at which the loop ends. -/
def indexLimit (tripCount stride : Bits) : Bits :=
  (tripCount.zeroExtend (tripCount.width + 1)).smul stride

/-- The arguments of the body in the `i`-th iteration: the index `i * stride` modulo its width,
the state and the invariants. -/
def bodyArgs (indexWidth : Nat) (stride : Bits) (invariants : List Value) (i : Nat)
    (state : Value) : List Value :=
  .leaf (ofInt indexWidth (i * stride.toInt)) :: state :: invariants

/-- The state after the given number of iterations. -/
def iterations (body : List Value → Value) (indexWidth : Nat) (stride : Bits)
    (invariants : List Value) (initial : Value) : Nat → Value
  | 0 => initial
  | i + 1 => body (bodyArgs indexWidth stride invariants i
      (iterations body indexWidth stride invariants initial i))

/-- A `dynamic_counted_for` ends after as many iterations as the trip count says, for every
body that returns for the arguments of these iterations. -/
def RunsTripCountTimes (indexWidth : Nat) (tripCount stride : Bits) : Prop :=
  ∀ (env : Env) (args : List Value) (type : IrType) (id : Nat) (params : List IrType)
    (body : List Value → Value) (invariants : List Value) (initial : Value),
    env.params id = .bits indexWidth :: params →
    (∀ i < tripCount.val,
      let as := bodyArgs indexWidth stride invariants i
        (iterations body indexWidth stride invariants initial i)
      env.call id as = .ok (body as)) →
    evalNode env args (.dynamicCountedFor id) type
        (initial :: .leaf tripCount :: .leaf stride :: invariants) =
      .ok (iterations body indexWidth stride invariants initial tripCount.val)

section

variable {width : Nat} {tripCount stride : Bits}

/-- The limit of the loop is computed without loss. -/
theorem toInt_indexLimit (tripCount stride : Bits) :
    (indexLimit tripCount stride).toInt = tripCount.val * stride.toInt := by
  have htrip : (tripCount.zeroExtend (tripCount.width + 1)).toInt = tripCount.val := by
    have hlt := tripCount.isLt
    unfold toInt
    rw [zeroExtend_val (Nat.le_succ _), zeroExtend_width, if_pos]
    rw [pow_succ]
    omega
  unfold indexLimit smul
  rw [htrip, ← htrip]
  exact toInt_ofInt (BitsOps.fitsSigned_mul (fitsSigned_toInt _)
    (fitsSigned_toInt _))

theorem add_ofInt (w : Nat) (i j : Int) : (ofInt w i).add (ofInt w j) = ofInt w (i + j) := by
  unfold Bits.add
  rw [← ofInt_natCast, Int.natCast_add, ofInt_val_cast, ofInt_val_cast]
  refine ofInt_congr ?_
  exact (Int.add_emod _ _ _).symm

/-- The numbers between zero and one that fits also fit. -/
theorem fitsSigned_mul_le {n : Nat} {i : Int} {j k : Nat} (h : FitsSigned n (k * i))
    (hjk : j ≤ k) : FitsSigned n (j * i) := by
  obtain ⟨hlo, hhi⟩ := h
  have hcast : (j : Int) ≤ k := by exact_mod_cast hjk
  have hzero : (0 : Int) ≤ j := Int.natCast_nonneg j
  have hpow : (0 : Int) ≤ (2 ^ n : Nat) := Int.natCast_nonneg _
  have hpos : (0 : Int) < (2 ^ n : Nat) := by exact_mod_cast Nat.two_pow_pos n
  rcases le_total 0 i with hi | hi
  · have hle : (j : Int) * i ≤ k * i := Int.mul_le_mul_of_nonneg_right hcast hi
    have hnn : 0 ≤ (j : Int) * i := Int.mul_nonneg hzero hi
    exact ⟨by omega, by omega⟩
  · have hle : (k : Int) * i ≤ j * i := Int.mul_le_mul_of_nonpos_right hcast hi
    have hnp : (j : Int) * i ≤ 0 := Int.mul_nonpos_of_nonneg_of_nonpos hzero hi
    exact ⟨by omega, by omega⟩

variable {invariants : List Value} {env : Env} {id : Nat} {initial : Value}

/-- From the `i`-th index on, the loop runs the remaining iterations. -/
theorem loop_eq {body : List Value → Value}
    (hbody : ∀ i < tripCount.val,
      let args := bodyArgs width stride invariants i
        (iterations body width stride invariants initial i)
      env.call id args = .ok (body args))
    (hfits : FitsSigned width (tripCount.val * stride.toInt))
    (hstride : tripCount.val = 0 ∨ stride.toInt ≠ 0) {left fuel i : Nat}
    (hi : i + left = tripCount.val) (hfuel : left < fuel) :
    dynamicCountedForLoop env id (indexLimit tripCount stride) (stride.signExtend width) invariants
      fuel (ofInt width (i * stride.toInt)) (iterations body width stride invariants initial i) =
        .ok (iterations body width stride invariants initial tripCount.val) := by
  have hindex := toInt_ofInt (fitsSigned_mul_le hfits (Nat.le.intro hi))
  obtain ⟨fuel, rfl⟩ := Nat.exists_eq_add_of_le' (Nat.one_le_of_lt hfuel)
  induction left generalizing fuel i with
  | zero =>
    rw [dynamicCountedForLoop, toInt_indexLimit, hindex, if_pos (by rw [← hi, Nat.add_zero]),
      ← hi, Nat.add_zero]
  | succ left ih =>
    have hne : (i : Int) * stride.toInt ≠ tripCount.val * stride.toInt := by
      intro heq
      rcases hstride with hzero | hnz
      · omega
      · have := Int.eq_of_mul_eq_mul_right hnz heq
        omega
    have hnext : (ofInt width (i * stride.toInt)).add (stride.signExtend width) =
        ofInt width ((i + 1 : Nat) * stride.toInt) := by
      unfold signExtend
      rw [add_ofInt]
      congr 1
      push_cast
      ring
    have hlt : i + 1 + left = tripCount.val := by omega
    have hcall := hbody i (by omega)
    dsimp only [bodyArgs] at hcall
    rw [dynamicCountedForLoop, toInt_indexLimit, hindex, if_neg hne, hcall, Result.ok_bind, hnext]
    obtain ⟨fuel, rfl⟩ : ∃ m, fuel = m + 1 := Nat.exists_eq_succ_of_ne_zero (by omega)
    exact ih hlt (toInt_ofInt (fitsSigned_mul_le hfits (Nat.le.intro hlt))) fuel (by omega)

/-- An index never equals a product that does not fit it. -/
theorem loop_never_ends (hfits : ¬ FitsSigned width (tripCount.val * stride.toInt))
    (fuel : Nat) {index : Bits} (hindex : index.width = width) (state v : Value) :
    dynamicCountedForLoop env id (indexLimit tripCount stride) (stride.signExtend width) invariants
      fuel index state ≠ .ok v := by
  induction fuel generalizing index state with
  | zero =>
    intro h
    cases h
  | succ fuel ih =>
    intro h
    rw [dynamicCountedForLoop, toInt_indexLimit, if_neg] at h
    · obtain ⟨next, -, h⟩ := Result.bind_eq_ok.1 h
      have hnext : (index.add (stride.signExtend width)).width = width := hindex
      exact ih hnext next h
    · intro heq
      rw [← heq, ← hindex] at hfits
      exact hfits (fitsSigned_toInt index)

/-- The node is its loop, with a number of rounds after which the index repeats. -/
theorem evalNode_dynamicCountedFor {args : List Value} {type : IrType} {params : List IrType}
    (hparams : env.params id = .bits width :: params) (hwidth : stride.width ≤ width) :
    evalNode env args (.dynamicCountedFor id) type
        (initial :: .leaf tripCount :: .leaf stride :: invariants) =
      dynamicCountedForLoop env id (indexLimit tripCount stride) (stride.signExtend width)
        invariants (2 ^ width + 1) (Bits.zero width) initial := by
  have hindex : indexWidth env id = .ok width := by
    unfold indexWidth
    rw [hparams]
    rfl
  change (indexWidth env id >>= fun _ => _) = _
  rw [hindex, Result.ok_bind]
  change (checkThat (decide (stride.width ≤ width)) >>= fun _ => _) = _
  rw [decide_eq_true hwidth]
  rfl

end

/-- A body that shows that it has been called. -/
def tracingEnv (width : Nat) : Env := ⟨fun _ => [.bits width], fun _ args => .ok (.node args)⟩

/-- A `dynamic_counted_for` runs as often as its trip count says exactly if the product of
the trip count and the stride fits the index as a signed number, and the stride is not zero
unless the trip count is. -/
theorem runs_tripCount_times_iff (width : Nat) (tripCount stride : Bits)
    (hwidths : verifyLoopWidths width tripCount stride = true) :
    RunsTripCountTimes width tripCount stride ↔ (FitsSigned width (tripCount.val * stride.toInt) ∧
        (tripCount.val = 0 ∨ stride.toInt ≠ 0)) := by
  rw [verifyLoopWidths, Bool.and_eq_true, decide_eq_true_eq, decide_eq_true_eq] at hwidths
  constructor
  · intro h
    have hrun := h (tracingEnv width) [] (.bits 0) 0 [] .node [] (.leaf (Bits.zero 0)) rfl
      fun _ _ => rfl
    rw [evalNode_dynamicCountedFor rfl hwidths.2] at hrun
    refine ⟨?_, ?_⟩
    · by_contra hfits
      exact loop_never_ends hfits _ rfl _ _ hrun
    · by_contra hzero
      rw [not_or, not_not] at hzero
      obtain ⟨trips, htrips⟩ := Nat.exists_eq_succ_of_ne_zero hzero.1
      -- the loop ends at once, and the body has not been called
      rw [dynamicCountedForLoop, toInt_indexLimit, hzero.2, Int.mul_zero,
        if_pos (by simp [toInt]), htrips] at hrun
      cases hrun
  · rintro ⟨hfits, hstride⟩ env args type id params body invariants initial hparams hbody
    have hzero : Bits.zero width = ofInt width ((0 : Nat) * stride.toInt) := by
      rw [Int.natCast_zero, Int.zero_mul]
      exact ext rfl (by simp [ofInt])
    have hfuel : tripCount.val < 2 ^ width + 1 := by
      have hpow : 2 ^ tripCount.width ≤ 2 ^ width := Nat.pow_le_pow_right (by omega) hwidths.1.le
      have hlt := tripCount.isLt
      omega
    rw [evalNode_dynamicCountedFor hparams hwidths.2, hzero]
    exact loop_eq hbody hfits hstride (Nat.zero_add _) hfuel

/-- Three iterations with the stride minus two. -/
theorem runs_tripCount_times_negative : RunsTripCountTimes 4 (ofNat 2 3) (ofNat 2 2) :=
  (runs_tripCount_times_iff 4 (ofNat 2 3) (ofNat 2 2) (by decide)).2
    ⟨⟨by decide, by decide⟩, by decide⟩

/-- With a stride of zero the body is not called at all. -/
theorem not_runs_tripCount_times_zero_stride :
    verifyLoopWidths 2 (ofNat 1 1) (ofNat 1 0) = true ∧
      ¬ RunsTripCountTimes 2 (ofNat 1 1) (ofNat 1 0) := by
  refine ⟨by decide, fun h => ?_⟩
  have hrun := h (tracingEnv 2) [] (.bits 0) 0 [] .node [] (.leaf (Bits.zero 0)) rfl
    fun _ _ => rfl
  cases hrun

end Xls.Interpreter

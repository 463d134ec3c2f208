import Mathlib.Algebra.BigOperators.Group.List.Basic
import Xls.Reassociation

/-!
# Xls.Reassociation.Tree

The tree that `Reassociate` builds from its leaves combines all of them, in some order and
shape (`Combines.buildTree`). What a node stands for is left open: an element of a
commutative monoid, such that a new node stands for the sum of what its operands stand for.
-/

namespace Xls.Reassociation

open List
open Xls.Graph (Build World)
open Xls.Graph.World (ensures_pure ensures_bind)

variable {env : Env} {args : List Value} {M : Type} [AddCommMonoid M]

/-- New nodes stand for the sums of what their operands stand for. -/
structure Combines (St : World env args → Nat → M → Prop) (newNode : Nat → Nat → Build Nat) :
    Prop where
  mono : ∀ {w w' i s}, w ≤ w' → St w i s → St w' i s
  combine : ∀ {w i j s t}, St w i s → St w j t →
    w.Ensures (newNode i j) fun w' k => St w' k (s + t)

section Tree

variable {St : World env args → Nat → M → Prop} {newNode : Nat → Nat → Build Nat}
  {w : World env args} {ss : List M} {inputs : List Nat}

theorem Combines.items_mono (h : Combines St newNode) {w' : World env args} (hle : w ≤ w')
    {ids : List Nat} (hitems : Forall₂ (St w) ids ss) : Forall₂ (St w') ids ss :=
  hitems.imp fun _ _ => h.mono hle

/-- Constants are folded into one node of their sum. -/
theorem Combines.foldConstants (h : Combines St newNode) {expr : Nat} {s : M} (hexpr : St w expr s)
    {cs : List Nat} (hcs : Forall₂ (St w) cs ss) :
    w.Ensures (foldConstants newNode expr cs) fun w' k => St w' k (s + ss.sum) := by
  induction cs generalizing w expr s ss with
  | nil =>
    cases hcs
    refine ensures_pure fun w' hle => ?_
    rw [sum_nil, add_zero]
    exact h.mono hle hexpr
  | cons c cs ih =>
    rcases hcs with _ | ⟨hc, hcs⟩
    refine ensures_bind (h.combine hc hexpr) fun w' k hle hk => ?_
    refine (ih hk (h.items_mono hle hcs)).imp fun w'' k' _ hk' => ?_
    rw [sum_cons, ← add_assoc, add_comm s]
    exact hk'

/-- Constants are put next to each other, with the sum kept. -/
theorem Combines.groupConstants (h : Combines St newNode) {cs : List Nat} {ts : List M}
    (hinputs : Forall₂ (St w) inputs ss) (hcs : Forall₂ (St w) cs ts) :
    w.Ensures (groupConstants newNode inputs cs) fun w' r => ∃ us,
      Forall₂ (St w') r us ∧ us.sum = ss.sum + ts.sum ∧
        (0 < inputs.length + cs.length → 0 < r.length) := by
  match cs, ts, hcs with
  | [], [], .nil =>
    refine ensures_pure fun w' hle => ⟨ss, h.items_mono hle hinputs, ?_, fun hpos => hpos⟩
    rw [sum_nil, add_zero]
  | [c], [t], .cons hc .nil =>
    refine ensures_pure fun w' hle => ⟨ss ++ [t], ?_, sum_append, fun _ => by simp⟩
    exact rel_append (h.items_mono hle hinputs)
      (Forall₂.cons (h.mono hle hc) Forall₂.nil)
  | c :: c' :: cs, t :: t' :: ts, .cons hc (.cons hc' hcs) =>
    refine ensures_bind (h.combine hc hc') fun w₁ k h₁ hk => ?_
    refine ensures_bind (h.foldConstants hk (h.items_mono h₁ hcs)) fun w₂ k' h₂ hk' => ?_
    refine ensures_pure fun w₃ h₃ => ⟨ss ++ [t + t' + ts.sum], ?_, ?_, fun _ => by simp⟩
    · exact rel_append (h.items_mono ((h₁.trans h₂).trans h₃) hinputs)
        (Forall₂.cons (h.mono h₃ hk') Forall₂.nil)
    · rw [sum_append, sum_singleton, sum_cons, sum_cons, add_assoc t]

/-- Combining pairs keeps the sum and makes as many nodes fewer. -/
theorem Combines.combinePairs (h : Combines St newNode) {count : Nat}
    (hinputs : Forall₂ (St w) inputs ss) (hcount : 2 * count ≤ inputs.length) :
    w.Ensures (combinePairs newNode count inputs) fun w' r => ∃ us,
      Forall₂ (St w') r us ∧ us.sum = ss.sum ∧ r.length = inputs.length - count := by
  induction count generalizing w inputs ss with
  | zero => exact ensures_pure fun w' hle => ⟨ss, h.items_mono hle hinputs, rfl, rfl⟩
  | succ count ih =>
    match inputs, hinputs with
    | [], _ => simp at hcount
    | [a], _ =>
      rw [length_singleton] at hcount
      omega
    | a :: b :: rest, .cons ha (.cons hb hrest) =>
      rw [length_cons, length_cons] at hcount
      refine ensures_bind (h.combine ha hb) fun w₁ k h₁ hk => ?_
      refine ensures_bind (ih (h.items_mono h₁ hrest) (by omega)) fun w₂ r h₂ hr => ?_
      obtain ⟨us, hus, hsum, hlen⟩ := hr
      refine ensures_pure fun w₃ h₃ => ⟨_ :: us, Forall₂.cons (h.mono (h₂.trans h₃) hk)
        (h.items_mono h₃ hus), ?_, ?_⟩
      · rw [sum_cons, hsum, sum_cons, sum_cons, add_assoc]
      · rw [length_cons, hlen, length_cons, length_cons]
        omega

/-- Layers of pairs end with one node of the sum. -/
theorem Combines.combineLayers (h : Combines St newNode) {k fuel : Nat} (hfuel : k ≤ fuel)
    (hlen : inputs.length = 2 ^ k) (hinputs : Forall₂ (St w) inputs ss) :
    w.Ensures (combineLayers newNode fuel inputs) fun w' id => St w' id ss.sum := by
  induction k generalizing w fuel inputs ss with
  | zero =>
    obtain ⟨id, rfl⟩ := length_eq_one_iff.1 (hlen.trans (pow_zero 2))
    rcases hinputs with _ | ⟨hid, _ | _⟩
    rw [Reassociation.combineLayers]
    refine ensures_pure fun w' hle => ?_
    rw [sum_singleton]
    exact h.mono hle hid
  | succ k ih =>
    obtain ⟨fuel, rfl⟩ := Nat.exists_eq_add_of_le' (Nat.one_le_of_lt hfuel)
    have hhalf : inputs.length / 2 = 2 ^ k := by
      rw [hlen, pow_succ, Nat.mul_div_cancel _ (by omega)]
    have htake : inputs.take (2 * (inputs.length / 2)) = inputs := by
      refine take_of_length_le ?_
      rw [hhalf, hlen, pow_succ, mul_comm]
    have htwo : 2 ≤ inputs.length := by
      rw [hlen, pow_succ]
      have := Nat.two_pow_pos k
      omega
    have heq : Reassociation.combineLayers newNode (fuel + 1) inputs = (do
        let inputs ← Reassociation.combinePairs newNode (inputs.length / 2) inputs
        Reassociation.combineLayers newNode fuel inputs) := by
      match inputs, htwo with
      | a :: b :: rest, _ =>
        rw [Reassociation.combineLayers, htake]
        intro id hid
        cases hid
    rw [heq]
    refine ensures_bind (h.combinePairs hinputs (by omega)) fun w' r hle hr => ?_
    obtain ⟨us, hus, hsum, hrlen⟩ := hr
    rw [← hsum]
    refine ih (by omega) ?_ hus
    rw [hrlen, hhalf, hlen, pow_succ]
    omega

theorem isPowerOfTwo_iff {n : Nat} : isPowerOfTwo n = true ↔ ∃ k, n = 2 ^ k := by
  unfold isPowerOfTwo
  rw [Bool.and_eq_true, bne_iff_ne, beq_iff_eq]
  exact Nat.ne_zero_and_sub_one_eq_zero_iff_isPowerOfTwo

/-- A list of any length is balanced to one node of the sum. -/
theorem Combines.balance (h : Combines St newNode) (hpos : 0 < inputs.length)
    (hinputs : Forall₂ (St w) inputs ss) :
    w.Ensures (balance newNode inputs) fun w' id => St w' id ss.sum := by
  have hlayers : ∀ {w' : World env args} {l : List Nat} {us : List M}, Forall₂ (St w') l us →
      us.sum = ss.sum → isPowerOfTwo l.length = true →
      w'.Ensures (if isPowerOfTwo l.length then Reassociation.combineLayers newNode l.length l
        else throw (.status "XLS_RET_CHECK failure: IsPowerOfTwo(inputs.size())"))
        fun w'' id => St w'' id ss.sum := by
    intro w' l us hl hsum hpow
    rw [if_pos hpow, ← hsum]
    obtain ⟨k, hk⟩ := isPowerOfTwo_iff.1 hpow
    exact h.combineLayers (by rw [hk]; exact Nat.lt_two_pow_self.le) hk hl
  have hragged : w.Ensures (combineRagged newNode inputs) fun w' l => ∃ us,
      Forall₂ (St w') l us ∧ us.sum = ss.sum ∧ isPowerOfTwo l.length = true := by
    unfold combineRagged
    split
    · rename_i hpow
      exact ensures_pure fun w' hle => ⟨ss, h.items_mono hle hinputs, rfl, hpow⟩
    · have hle := Nat.log2_self_le (Nat.pos_iff_ne_zero.1 hpos)
      have hlt : inputs.length < 2 ^ (inputs.length.log2 + 1) := Nat.lt_log2_self
      rw [pow_succ] at hlt
      refine (h.combinePairs hinputs (by omega)).imp fun w' l _ hl => ?_
      obtain ⟨us, hus, hsum, hlen⟩ := hl
      refine ⟨us, hus, hsum, isPowerOfTwo_iff.2 ⟨inputs.length.log2, ?_⟩⟩
      omega
  unfold Reassociation.balance
  refine ensures_bind hragged fun w' l _ hl => ?_
  obtain ⟨us, hus, hsum, hpow⟩ := hl
  exact hlayers hus hsum hpow

/-- Separating the leaves keeps their sum. -/
theorem items_filter {p : Nat → Bool} {ids : List Nat} (h : Forall₂ (St w) ids ss) :
    ∃ us vs, Forall₂ (St w) (ids.filter fun i => !p i) us ∧
      Forall₂ (St w) (ids.filter p) vs ∧ us.sum + vs.sum = ss.sum := by
  induction h with
  | nil => exact ⟨[], [], Forall₂.nil, Forall₂.nil, by simp⟩
  | @cons i s ids ss hi _ ih =>
    obtain ⟨us, vs, hus, hvs, hsum⟩ := ih
    cases hp : p i with
    | true =>
      refine ⟨us, s :: vs, ?_, ?_, ?_⟩
      · rw [filter_cons_of_neg (by simp [hp])]
        exact hus
      · rw [filter_cons_of_pos hp]
        exact Forall₂.cons hi hvs
      · rw [sum_cons, sum_cons, ← hsum, add_left_comm]
    | false =>
      refine ⟨s :: us, vs, ?_, ?_, ?_⟩
      · rw [filter_cons_of_pos (by simp [hp])]
        exact Forall₂.cons hi hus
      · rw [filter_cons_of_neg (by simp [hp])]
        exact hvs
      · rw [sum_cons, sum_cons, ← hsum, add_assoc]

/-- The tree of the leaves stands for the sum of what the leaves stand for. -/
theorem Combines.buildTree (h : Combines St newNode) (g : Graph) {leaves : List Nat}
    (hpos : 0 < leaves.length) (hleaves : Forall₂ (St w) leaves ss) :
    w.Ensures (buildTree newNode g leaves) fun w' id => St w' id ss.sum := by
  obtain ⟨us, vs, hus, hvs, hsum⟩ := items_filter (p := isFullyKnown g) hleaves
  have hlen : 0 < (leaves.filter fun l => !isFullyKnown g l).length +
      (leaves.filter (isFullyKnown g)).length := by
    have hcount := length_eq_length_filter_add (isFullyKnown g) (l := leaves)
    omega
  refine ensures_bind (h.groupConstants hus hvs) fun w' r _ hr => ?_
  obtain ⟨xs, hxs, hxsum, hrpos⟩ := hr
  rw [← hsum, ← hxsum]
  exact h.balance (hrpos hlen) hxs

end Tree

end Xls.Reassociation

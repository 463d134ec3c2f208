import Mathlib.Algebra.BigOperators.Group.Multiset.Basic
import Mathlib.Algebra.Order.BigOperators.Group.Multiset
import Mathlib.Data.List.MinMax

/-!
# Xls.Lib.LargestSum

Dropping the smallest element of a list again and again leaves a list of largest sum among
the sublists of its length, whatever their order (`sum_le_sum_dropMins`). This is the
exchange argument behind greedy selections.
-/

namespace Xls.LargestSum

open Multiset

variable {α : Type*} [LinearOrder α]

/-- Drop the smallest element, the first of its occurrences. -/
def dropMin (l : List α) : List α :=
  match l.min? with
  | none => l
  | some a => l.erase a

/-- Drop the smallest element the given number of times. -/
def dropMins : Nat → List α → List α
  | 0, l => l
  | n + 1, l => dropMins n (dropMin l)

theorem dropMin_of_mem {l : List α} {a : α} (ha : a ∈ l) (hle : ∀ b ∈ l, a ≤ b) :
    dropMin l = l.erase a := by
  have hmin : l.min? = some a := List.min?_eq_some_iff.2 ⟨ha, hle⟩
  rw [dropMin, hmin]

theorem length_dropMin (l : List α) : (dropMin l).length = l.length - 1 := by
  unfold dropMin
  split
  · rename_i h
    rw [List.min?_eq_none_iff.1 h]
    rfl
  · rename_i a h
    exact List.length_erase_of_mem (List.min?_mem h)

theorem length_dropMins (n : Nat) (l : List α) : (dropMins n l).length = l.length - n := by
  induction n generalizing l with
  | zero => rfl
  | succ n ih =>
    rw [dropMins, ih, length_dropMin]
    omega

variable [AddCommMonoid α] [IsOrderedAddMonoid α]

/-- A subbag that leaves something out can be exchanged for one that leaves out the
least element, without losing any of its sum. -/
theorem exists_le_erase {s t : Multiset α} {a : α} (hst : s ≤ t) (hcard : s.card < t.card)
    (hle : ∀ b ∈ t, a ≤ b) : ∃ r ≤ t.erase a, r.card = s.card ∧ s.sum ≤ r.sum := by
  by_cases has : a ∈ s
  · obtain ⟨u, rfl⟩ := Multiset.le_iff_exists_add.1 hst
    have hu : 0 < u.card := by simpa using hcard
    obtain ⟨b, hb⟩ := card_pos_iff_exists_mem.1 hu
    obtain ⟨v, rfl⟩ := exists_cons_of_mem hb
    obtain ⟨r, rfl⟩ := exists_cons_of_mem has
    -- trade `a`, which `s` keeps, for `b`, which it leaves out
    refine ⟨b ::ₘ r, ?_, by simp, ?_⟩
    · rw [erase_add_left_pos _ (mem_cons_self a r), erase_cons_head, add_cons, cons_le_cons_iff]
      exact Multiset.le_add_right r v
    · rw [sum_cons, sum_cons]
      exact add_le_add_left (hle b (by simp)) r.sum
  · refine ⟨s, ?_, rfl, le_rfl⟩
    rw [← erase_of_notMem has]
    exact erase_le_erase a hst

/-- What is left after dropping the `n` smallest elements has the largest sum among the
subbags with as many elements. -/
theorem sum_le_sum_dropMins {n : Nat} {l : List α} {s : Multiset α} (hs : s ≤ (l : Multiset α))
    (hcard : s.card + n ≤ l.length) (hnonneg : ∀ a ∈ l, 0 ≤ a) : s.sum ≤ (dropMins n l).sum := by
  induction n generalizing l s with
  | zero =>
    obtain ⟨u, hu⟩ := Multiset.le_iff_exists_add.1 hs
    have hsum : (dropMins 0 l).sum = s.sum + u.sum := by
      rw [dropMins, ← sum_coe, hu, sum_add]
    rw [hsum]
    refine le_add_of_nonneg_right (sum_nonneg ?_)
    intro a ha
    refine hnonneg a ?_
    rw [← mem_coe, hu]
    exact mem_add.2 (Or.inr ha)
  | succ n ih =>
    cases hmin : l.min? with
    | none =>
      rw [List.min?_eq_none_iff.1 hmin] at hcard
      exact absurd hcard (by simp)
    | some a =>
      obtain ⟨ha, hle⟩ := List.min?_eq_some_iff.1 hmin
      obtain ⟨r, hr, hrcard, hsum⟩ := exists_le_erase hs
        (by rw [coe_card]; omega) (fun b hb => hle b (mem_coe.1 hb))
      rw [dropMins, dropMin_of_mem ha hle]
      refine hsum.trans (ih (by simpa using hr) ?_ ?_)
      · rw [List.length_erase_of_mem ha]
        omega
      · intro b hb
        exact hnonneg b (List.mem_of_mem_erase hb)

end Xls.LargestSum

import Mathlib.Data.Finset.Card
import Mathlib.Logic.Function.Iterate

/-!
# Xls.Lib.FirstFresh

The loop that moves on from a value while it is used. When the values it tries are different,
it ends at an unused one after no more steps than there are used values (`firstFresh_spec`).
-/

namespace Xls

open Finset

variable {α : Type} [DecidableEq α]

/-- `while (used contains a) a = next(a)`, for at most `fuel` rounds. -/
def firstFresh (next : α → α) (used : List α) : Nat → α → α
  | 0, a => a
  | fuel + 1, a => if a ∈ used then firstFresh next used fuel (next a) else a

variable {next : α → α} {used : List α}

/-- The result is an iterate; every value before it is used, and it is fresh unless the rounds
were used up. -/
theorem firstFresh_iterate (fuel : Nat) (a : α) :
    ∃ k, firstFresh next used fuel a = next^[k] a ∧ (∀ j < k, next^[j] a ∈ used) ∧
      (next^[k] a ∉ used ∨ k = fuel) := by
  induction fuel generalizing a with
  | zero => exact ⟨0, rfl, fun j h => absurd h (Nat.not_lt_zero j), .inr rfl⟩
  | succ fuel ih =>
    by_cases hmem : a ∈ used
    · obtain ⟨k, heq, hused, hend⟩ := ih (next a)
      refine ⟨k + 1, by simp [firstFresh, hmem, heq], ?_, hend.imp_right (by omega)⟩
      intro j hj
      cases j with
      | zero => exact hmem
      | succ j => exact hused j (by omega)
    · exact ⟨0, by simp [firstFresh, hmem], fun j h => absurd h (Nat.not_lt_zero j), .inl hmem⟩

/-- Different values that are all used are no more than the used ones. -/
theorem iterate_count_le (used : List α) {a : α} (hinj : Function.Injective fun k => next^[k] a)
    {k : Nat}
    (hused : ∀ j < k, next^[j] a ∈ used) : k ≤ used.length := by
  have hsub : (range k).image (fun j => next^[j] a) ⊆ used.toFinset := by
    intro b hb
    obtain ⟨j, hj, rfl⟩ := mem_image.mp hb
    exact List.mem_toFinset.mpr (hused j (mem_range.mp hj))
  calc k = ((range k).image fun j => next^[j] a).card := by
        rw [card_image_of_injective _ hinj, card_range]
    _ ≤ used.toFinset.card := card_le_card hsub
    _ ≤ used.length := used.toFinset_card_le

/-- One round more than there are used values is enough. -/
theorem firstFresh_spec (used : List α) {a : α} (hinj : Function.Injective fun k => next^[k] a) :
    ∃ k, firstFresh next used (used.length + 1) a = next^[k] a ∧
      (∀ j < k, next^[j] a ∈ used) ∧ next^[k] a ∉ used := by
  obtain ⟨k, heq, hused, hend⟩ := @firstFresh_iterate _ _ next used (used.length + 1) a
  refine ⟨k, heq, hused, hend.resolve_right fun hk => ?_⟩
  have := iterate_count_le used hinj hused
  omega

end Xls

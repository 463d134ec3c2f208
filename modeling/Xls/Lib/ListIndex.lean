import Mathlib.Data.Finset.Image
import Mathlib.Data.Finset.Insert
import Mathlib.Data.List.InsertIdx
import Mathlib.Logic.Function.Basic

/-!
# Xls.Lib.ListIndex

The index of a list: for every value the positions at which the list has it. When an element
is set, inserted or erased, the index follows by relabelling positions.
-/

namespace Xls.ListIndex

open List Option

variable {α : Type}

/-- The positions of the values in a list. -/
def IsIndex (index : α → Finset Nat) (l : List α) : Prop := ∀ a i, i ∈ index a ↔ l[i]? = some a

/-- The index with other names for the positions. -/
def relabel (index : α → Finset Nat) (f : Nat → Nat) : α → Finset Nat := fun a => (index a).image f

@[simp] theorem mem_relabel {index : α → Finset Nat} {f : Nat → Nat} {a : α} {j : Nat} :
    j ∈ relabel index f a ↔ ∃ k ∈ index a, f k = j := by
  simp [relabel]

theorem isIndex_nil : IsIndex (fun _ : α => ∅) [] := by
  intro a i
  simp

variable [DecidableEq α]

/-- The index without a position of a value. -/
def erase (index : α → Finset Nat) (a : α) (i : Nat) : α → Finset Nat :=
  Function.update index a ((index a).erase i)

/-- The index with a position of a value. -/
def insert (index : α → Finset Nat) (a : α) (i : Nat) : α → Finset Nat :=
  Function.update index a (Insert.insert i (index a))

variable {index : α → Finset Nat} {l : List α} {a b : α} {i j : Nat}

@[simp] theorem mem_erase : j ∈ erase index a i b ↔ j ∈ index b ∧ ¬(b = a ∧ j = i) := by
  by_cases h : b = a
  · subst h
    simp [erase, and_comm]
  · simp [erase, h]

@[simp] theorem mem_insert : j ∈ insert index a i b ↔ j ∈ index b ∨ (b = a ∧ j = i) := by
  by_cases h : b = a
  · subst h
    simp [insert, or_comm]
  · simp [insert, h]

section

variable (h : IsIndex index l)
include h

/-- An element is set. -/
theorem IsIndex.set (ha : l[i]? = some a) (b : α) :
    IsIndex (insert (erase index a i) b i) (l.set i b) := by
  intro c j
  have hlt : i < l.length := (List.getElem?_eq_some_iff.mp ha).1
  rw [mem_insert, mem_erase, h c j, getElem?_set]
  by_cases hij : i = j
  · subst hij
    rw [if_pos rfl, if_pos hlt, ha, some.injEq, some.injEq]
    constructor
    · rintro (⟨rfl, hne⟩ | ⟨rfl, -⟩)
      · exact absurd ⟨rfl, rfl⟩ hne
      · rfl
    · rintro rfl
      exact .inr ⟨rfl, rfl⟩
  · rw [if_neg hij]
    constructor
    · rintro (⟨hc, -⟩ | ⟨-, rfl⟩)
      · exact hc
      · exact absurd rfl hij
    · exact fun hc => .inl ⟨hc, fun heq => hij heq.2.symm⟩

/-- The last element is erased. -/
theorem IsIndex.eraseIdx_last (ha : l[i]? = some a) (hlast : l.length ≤ i + 1) :
    IsIndex (erase index a i) (l.eraseIdx i) := by
  intro c j
  rw [mem_erase, h c j, getElem?_eraseIdx]
  by_cases hji : j < i
  · rw [if_pos hji]
    exact and_iff_left fun heq => absurd heq.2 (by omega)
  · rw [if_neg hji, getElem?_eq_none (i := j + 1) (by omega)]
    constructor
    · rintro ⟨hc, hne⟩
      have hlt : j < l.length := (List.getElem?_eq_some_iff.mp hc).1
      have hj : j = i := by omega
      subst hj
      rw [ha, some.injEq] at hc
      exact absurd ⟨hc.symm, rfl⟩ hne
    · intro hc
      cases hc

/-- An element is erased, after the positions behind it were relabelled: the index follows if
and only if the next element is another one. -/
theorem IsIndex.eraseIdx_iff (ha : l[i]? = some a) :
    IsIndex (erase (relabel index fun k => if k ≤ i then k else k - 1) a i) (l.eraseIdx i) ↔
      l[i + 1]? ≠ some a := by
  constructor
  · intro h' hnext
    have hmem := h' a i
    rw [mem_erase, getElem?_eraseIdx, if_neg (lt_irrefl i)] at hmem
    exact (hmem.mpr hnext).2 ⟨rfl, rfl⟩
  · intro hnext c j
    rw [mem_erase, mem_relabel, getElem?_eraseIdx]
    constructor
    · rintro ⟨⟨k, hk, rfl⟩, hne⟩
      rw [h c k] at hk
      by_cases hki : k ≤ i
      · rw [if_pos hki] at hne ⊢
        have hlt : k < i := by
          refine lt_of_le_of_ne hki fun heq => hne ⟨?_, heq⟩
          rw [heq, ha, some.injEq] at hk
          exact hk.symm
        rwa [if_pos hlt]
      · rw [if_neg hki, if_neg (by omega)]
        have heq : k - 1 + 1 = k := by omega
        rwa [heq]
    · intro hc
      by_cases hji : j < i
      · rw [if_pos hji] at hc
        refine ⟨⟨j, (h c j).mpr hc, if_pos hji.le⟩, fun heq => ?_⟩
        omega
      · rw [if_neg hji] at hc
        refine ⟨⟨j + 1, (h c (j + 1)).mpr hc, by rw [if_neg (by omega), Nat.add_sub_cancel]⟩, ?_⟩
        rintro ⟨rfl, rfl⟩
        exact hnext hc

/-- An element is inserted, after the positions from there on were relabelled. -/
theorem IsIndex.insertIdx (hi : i ≤ l.length) (a : α) :
    IsIndex (insert (relabel index fun k => if k < i then k else k + 1) a i) (l.insertIdx i a) := by
  intro c j
  rw [mem_insert, mem_relabel, getElem?_insertIdx]
  constructor
  · rintro (⟨k, hk, rfl⟩ | ⟨rfl, rfl⟩)
    · rw [h c k] at hk
      by_cases hki : k < i
      · rw [if_pos hki, if_pos hki]
        exact hk
      · rw [if_neg hki, if_neg (by omega), if_neg (by omega), Nat.add_sub_cancel]
        exact hk
    · rw [if_neg (lt_irrefl _), if_pos rfl, if_pos hi]
  · intro hc
    by_cases hji : j < i
    · rw [if_pos hji] at hc
      exact .inl ⟨j, (h c j).mpr hc, if_pos hji⟩
    · rw [if_neg hji] at hc
      by_cases heq : j = i
      · rw [if_pos heq, if_pos (heq ▸ hi)] at hc
        exact .inr ⟨(some.inj hc).symm, heq⟩
      · rw [if_neg heq] at hc
        refine .inl ⟨j - 1, (h c (j - 1)).mpr hc, ?_⟩
        rw [if_neg (by omega)]
        omega

/-- An element is appended. -/
theorem IsIndex.append (a : α) : IsIndex (insert index a l.length) (l ++ [a]) := by
  intro c j
  rw [mem_insert, h c j]
  rcases lt_trichotomy j l.length with hlt | rfl | hgt
  · rw [getElem?_append_left hlt]
    exact or_iff_left fun heq => absurd heq.2 (by omega)
  · rw [getElem?_concat_length, getElem?_eq_none (le_refl _)]
    constructor
    · rintro (hc | ⟨rfl, -⟩)
      · cases hc
      · rfl
    · intro hc
      exact .inr ⟨(some.inj hc).symm, rfl⟩
  · rw [getElem?_eq_none (by omega), getElem?_eq_none (by simp; omega)]
    constructor
    · rintro (hc | ⟨-, rfl⟩)
      · cases hc
      · exact absurd hgt (lt_irrefl _)
    · intro hc
      cases hc

end

end Xls.ListIndex

import Mathlib.Data.List.Range
import Mathlib.Data.List.Perm.Subperm
import Mathlib.Logic.Function.Iterate

/-!
# Xls.Lib.ParentForest

Forests given by a parent function in which a root is its own parent. `RootIn p k i r` says
that `r` is the root above `i`, reached after exactly `k` parents. Halving a path and linking
one root below another are the two changes that disjoint-set structures make (`RootOf.halve`
and `RootOf.link`); each has a lemma that says which roots the elements have afterwards.
-/

namespace Xls.ParentForest

open List

/-- The root `r` is `k` parents above `i`. -/
def RootIn (p : Nat → Nat) : Nat → Nat → Nat → Prop
  | 0, i, r => i = r ∧ p r = r
  | k + 1, i, r => p i ≠ i ∧ RootIn p k (p i) r

/-- The root above `i` is `r`. -/
def RootOf (p : Nat → Nat) (i r : Nat) : Prop := ∃ k, RootIn p k i r

/-- The parent function after `i` was given a new parent. -/
def reparent (p : Nat → Nat) (i parent : Nat) : Nat → Nat :=
  fun j => if j = i then parent else p j

variable {p : Nat → Nat} {i r : Nat}

@[simp] theorem reparent_self (p : Nat → Nat) (i parent : Nat) :
    reparent p i parent i = parent := by
  simp [reparent]

theorem reparent_of_ne {j parent : Nat} (h : j ≠ i) : reparent p i parent j = p j := by
  simp [reparent, h]

/-! ### Roots -/

variable {k n x : Nat}

theorem RootIn.isRoot (h : RootIn p k i r) : p r = r := by
  induction k generalizing i with
  | zero => exact h.2
  | succ k ih => exact ih h.2

/-- An element has one root and one distance to it. -/
theorem RootIn.unique {k' r' : Nat} (h : RootIn p k i r) (h' : RootIn p k' i r') :
    k = k' ∧ r = r' := by
  induction k generalizing i k' with
  | zero =>
    obtain ⟨rfl, hroot⟩ := h
    cases k' with
    | zero => exact ⟨rfl, h'.1⟩
    | succ k' => exact absurd hroot h'.1
  | succ k ih =>
    cases k' with
    | zero =>
      obtain ⟨rfl, hroot⟩ := h'
      exact absurd hroot h.1
    | succ k' =>
      obtain ⟨hk, hr⟩ := ih h.2 h'.2
      exact ⟨congrArg Nat.succ hk, hr⟩

theorem RootOf.isRoot (h : RootOf p i r) : p r = r := by
  obtain ⟨k, hk⟩ := h
  exact hk.isRoot

theorem RootOf.of_isRoot (h : p r = r) : RootOf p r r := ⟨0, rfl, h⟩

/-- The root of an element lies in every set of elements that is closed under parents. -/
theorem RootOf.lt (h : RootOf p i r) (hclosed : ∀ j < n, p j < n) (hi : i < n) : r < n := by
  obtain ⟨k, hk⟩ := h
  induction k generalizing i with
  | zero =>
    rw [← hk.1]
    exact hi
  | succ k ih => exact ih (hclosed i hi) hk.2

/-- Following the parents for long enough ends at the root. -/
theorem RootIn.iterate_eq (h : RootIn p k i r) (hn : k ≤ n) : p^[n] i = r := by
  induction k generalizing i n with
  | zero =>
    obtain ⟨rfl, hroot⟩ := h
    exact Function.iterate_fixed hroot n
  | succ k ih =>
    obtain ⟨n, rfl⟩ : ∃ m, n = m + 1 := ⟨n - 1, by omega⟩
    rw [Function.iterate_succ_apply]
    exact ih h.2 (by omega)

/-- The elements on the way to the root are distinct, so the way is shorter than the number
of elements. -/
theorem RootIn.lt (h : RootIn p k i r) (hclosed : ∀ j < n, p j < n) (hi : i < n) : k < n := by
  have hpath : ∃ l : List Nat, l.length = k + 1 ∧ l.Nodup ∧
      ∀ j ∈ l, j < n ∧ ∃ k' ≤ k, RootIn p k' j r := by
    induction k generalizing i with
    | zero =>
      refine ⟨[i], rfl, by simp, ?_⟩
      intro j hj
      rw [mem_singleton] at hj
      subst hj
      exact ⟨hi, 0, le_rfl, h⟩
    | succ k ih =>
      obtain ⟨l, hlength, hnodup, hl⟩ := ih h.2 (hclosed i hi)
      refine ⟨i :: l, by simp [hlength], nodup_cons.mpr ⟨?_, hnodup⟩, ?_⟩
      · intro hmem
        obtain ⟨-, k', hk', hroot⟩ := hl i hmem
        have := (h.unique hroot).1
        omega
      · intro j hj
        rcases mem_cons.mp hj with rfl | hj
        · exact ⟨hi, k + 1, le_rfl, h⟩
        · obtain ⟨hjn, k', hk', hroot⟩ := hl j hj
          exact ⟨hjn, k', by omega, hroot⟩
  obtain ⟨l, hlength, hnodup, hl⟩ := hpath
  have hsub : l ⊆ range n := by
    intro j hj
    exact mem_range.mpr (hl j hj).1
  have hle := (subperm_of_subset hnodup hsub).length_le
  rw [hlength, length_range] at hle
  omega

/-! ### Halving a path -/

/-- A path that does not meet `x` is not changed by a new parent of `x`. -/
theorem RootIn.reparent_of_lt {d parent s : Nat} (h : RootIn p k i r) (hx : RootIn p d x s)
    (hlt : k < d) : RootIn (reparent p x parent) k i r := by
  induction k generalizing i with
  | zero =>
    obtain ⟨rfl, hroot⟩ := h
    refine ⟨rfl, ?_⟩
    rw [reparent_of_ne]
    · exact hroot
    · rintro rfl
      have hzero : RootIn p 0 i i := ⟨rfl, hroot⟩
      have := (hx.unique hzero).1
      omega
  | succ k ih =>
    have hne : i ≠ x := by
      rintro rfl
      have := (hx.unique h).1
      omega
    refine ⟨?_, ?_⟩
    · rw [reparent_of_ne hne]
      exact h.1
    · rw [reparent_of_ne hne]
      exact ih h.2 (by omega)

/-- The grandparent of an element that is not a root is nearer to the root, also after the
path was halved there. -/
theorem RootIn.halve (h : RootIn p k x r) (hx : p x ≠ x) :
    ∃ k' < k, RootIn (reparent p x (p (p x))) k' (p (p x)) r := by
  cases k with
  | zero =>
    obtain ⟨rfl, hroot⟩ := h
    exact absurd hroot hx
  | succ k =>
    cases k with
    | zero =>
      have h1 : RootIn p 0 (p x) r := h.2
      have h2 : RootIn p 0 (p (p x)) r := by
        obtain ⟨hr, hroot⟩ := h1
        exact ⟨by rw [hr, hroot], hroot⟩
      exact ⟨0, by omega, h2.reparent_of_lt h (by omega)⟩
    | succ k => exact ⟨k, by omega, h.2.2.reparent_of_lt h (by omega)⟩

/-- Halving a path keeps every root. -/
theorem RootOf.halve {s : Nat} (h : RootOf p i r) (hx : RootOf p x s) (hne : p x ≠ x) :
    RootOf (reparent p x (p (p x))) i r := by
  obtain ⟨k, hk⟩ := h
  obtain ⟨d, hd⟩ := hx
  obtain ⟨d', -, hd'⟩ := hd.halve hne
  have hgrand : p (p x) ≠ x := by
    intro heq
    rw [heq] at hd'
    cases d' with
    | zero =>
      have := hd.isRoot
      rw [← hd'.1] at this
      exact hne this
    | succ d' => exact hd'.1 (reparent_self p x x)
  induction k generalizing i with
  | zero =>
    obtain ⟨rfl, hroot⟩ := hk
    refine RootOf.of_isRoot ?_
    rw [reparent_of_ne]
    · exact hroot
    · rintro rfl
      exact hne hroot
  | succ k ih =>
    by_cases hi : i = x
    · subst hi
      obtain ⟨-, hr⟩ := hk.unique hd
      subst hr
      refine ⟨d' + 1, ?_, ?_⟩
      · rw [reparent_self]
        exact hgrand
      · rw [reparent_self]
        exact hd'
    · obtain ⟨k', hk'⟩ := ih hk.2
      refine ⟨k' + 1, ?_, ?_⟩
      · rw [reparent_of_ne hi]
        exact hk.1
      · rw [reparent_of_ne hi]
        exact hk'

/-! ### Linking roots -/

/-- Linking the root `y` below the root `x` moves the elements below `y` to `x`. -/
theorem RootOf.link {y : Nat} (h : RootOf p i r) (hx : p x = x) (hy : p y = y) (hne : x ≠ y) :
    RootOf (reparent p y x) i (if r = y then x else r) := by
  have hxroot : RootOf (reparent p y x) x x := by
    refine RootOf.of_isRoot ?_
    rw [reparent_of_ne hne]
    exact hx
  obtain ⟨k, hk⟩ := h
  induction k generalizing i with
  | zero =>
    obtain ⟨rfl, hroot⟩ := hk
    by_cases hi : i = y
    · subst hi
      rw [if_pos rfl]
      obtain ⟨k', hk'⟩ := hxroot
      refine ⟨k' + 1, ?_, ?_⟩
      · rw [reparent_self]
        exact hne
      · rw [reparent_self]
        exact hk'
    · rw [if_neg hi]
      refine RootOf.of_isRoot ?_
      rw [reparent_of_ne hi]
      exact hroot
  | succ k ih =>
    obtain ⟨k', hk'⟩ := ih hk.2
    by_cases hi : i = y
    · subst hi
      exact absurd hy hk.1
    · refine ⟨k' + 1, ?_, ?_⟩
      · rw [reparent_of_ne hi]
        exact hk.1
      · rw [reparent_of_ne hi]
        exact hk'

end Xls.ParentForest

import Mathlib.Algebra.BigOperators.Ring.Finset
import Mathlib.Data.Fintype.Prod
import Xls.MinCut

/-!
# Xls.MinCut.Flow

What an augmentation of the flow does to the capacity across a set of nodes: pushing along a
path from the source to the sink takes the pushed amount from the residual capacity across
every set that contains the source and not the sink (`augmentPath_spec`). The paths that the
search finds can take their capacity.
-/

namespace Xls.MinCut

open Finset

variable {N : Type} {g : Graph N}

/-! ### The capacity across a set of nodes -/

/-- One for the residual edges that leave a set. -/
def leaves (A : N → Bool) (e : ResidualEdge g) : Int :=
  if A e.fromNode = true ∧ A e.toNode = false then 1 else 0

/-- The residual capacity of the edges that leave a set. -/
def across (A : N → Bool) (residual : ResidualGraph g) : Int :=
  ∑ e : ResidualEdge g, leaves A e * residual e

/-- One for the nodes of a set. -/
def inside (A : N → Bool) (n : N) : Int := if A n = true then 1 else 0

/-- Changing one residual edge changes what crosses a set only if the edge leaves it. -/
theorem across_update (A : N → Bool) (residual : ResidualGraph g) (e : ResidualEdge g)
    (c : Int) : across A (Function.update residual e c) =
      across A residual + leaves A e * (c - residual e) := by
  have hterm : ∀ d : ResidualEdge g, leaves A d * Function.update residual e c d =
      leaves A d * residual d + if d = e then leaves A e * (c - residual e) else 0 := by
    intro d
    by_cases hd : d = e
    · subst hd
      rw [Function.update_self, if_pos rfl]
      ring
    · rw [Function.update_of_ne hd, if_neg hd, add_zero]
  rw [across, across, sum_congr rfl fun d _ => hterm d, sum_add_distrib,
    sum_ite_eq' univ e, if_pos (mem_univ e)]

theorem fromNode_dualEdge (e : ResidualEdge g) : e.dualEdge.fromNode = e.toNode := by
  obtain ⟨i, b⟩ := e
  cases b <;> rfl

theorem toNode_dualEdge (e : ResidualEdge g) : e.dualEdge.toNode = e.fromNode := by
  obtain ⟨i, b⟩ := e
  cases b <;> rfl

theorem dualEdge_ne (e : ResidualEdge g) : e.dualEdge ≠ e := by
  obtain ⟨i, b⟩ := e
  cases b <;> simp [ResidualEdge.dualEdge]

theorem leaves_dualEdge (A : N → Bool) (e : ResidualEdge g) :
    leaves A e - leaves A e.dualEdge = inside A e.fromNode - inside A e.toNode := by
  rw [leaves, leaves, fromNode_dualEdge, toNode_dualEdge, inside, inside]
  cases A e.fromNode <;> cases A e.toNode <;> simp

/-- What pushing flow along edges changes: the capacities stay nonnegative, and the capacity
across a set falls by the amount for each time the path leaves the set on balance. -/
structure Pushed (amount : Int) (start : N) (stop : N) (residual residual' : ResidualGraph g) :
    Prop where
  nonneg : (∀ e, 0 ≤ residual e) → ∀ e, 0 ≤ residual' e
  across_eq : ∀ A : N → Bool, across A residual' =
    across A residual - amount * (inside A start - inside A stop)

theorem Pushed.refl (amount : Int) (n : N) (residual : ResidualGraph g) :
    Pushed amount n n residual residual where
  nonneg h := h
  across_eq A := by ring

variable {residual : ResidualGraph g} {e : ResidualEdge g}
  {amount : Int} {residual' : ResidualGraph g} {source : N} {pathBack : PathBack g}

theorem Pushed.trans {a b c : N} {residual'' : ResidualGraph g}
    (h : Pushed amount b c residual residual') (h' : Pushed amount a b residual' residual'') :
    Pushed amount a c residual residual'' where
  nonneg hn := h'.nonneg (h.nonneg hn)
  across_eq A := by
    rw [h'.across_eq, h.across_eq]
    ring

/-- Pushing flow along an edge that can take it. -/
theorem pushFlow_spec (hamount : 0 ≤ amount) (hle : amount ≤ residual e) :
    ∃ residual', pushFlow residual amount e = .ok residual' ∧
      Pushed amount e.fromNode e.toNode residual residual' ∧ 0 ≤ residual' e ∧
      ∀ d, d ≠ e → residual d ≤ residual' d := by
  have hcheck : checkThat (decide (amount ≤ residual e)) = .ok () := by
    rw [decide_eq_true hle, checkThat_true]
  refine ⟨_, by rw [pushFlow, hcheck]; rfl, ⟨?_, ?_⟩, ?_, ?_⟩
  · intro hn d
    by_cases hd : d = e.dualEdge
    · subst hd
      rw [Function.update_self, Function.update_of_ne (dualEdge_ne e)]
      exact add_nonneg (hn _) hamount
    · rw [Function.update_of_ne hd]
      by_cases hde : d = e
      · subst hde
        rw [Function.update_self]
        omega
      · rw [Function.update_of_ne hde]
        exact hn d
  · intro A
    rw [across_update, across_update, Function.update_of_ne (dualEdge_ne e), ← leaves_dualEdge A e]
    ring
  · rw [Function.update_of_ne (Ne.symm (dualEdge_ne e)), Function.update_self]
    omega
  · intro d hde
    by_cases hd : d = e.dualEdge
    · subst hd
      rw [Function.update_self, Function.update_of_ne (dualEdge_ne e)]
      omega
    · rw [Function.update_of_ne hd, Function.update_of_ne hde]

/-! ### Paths that the search finds -/

variable [DecidableEq N]

/-- The entries of `path_back`: each has an edge to its node that can take the capacity of the
path, and the edge leaves the source or a node that was found before with that capacity. -/
def PathsOk (source : N) (residual : ResidualGraph g) : PathBack g → Prop
  | [] => True
  | (n, e, c) :: rest => pathBackAt n rest = none ∧ e.toNode = n ∧ 0 < c ∧ c ≤ residual e ∧
      (e.fromNode = source ∨ ∃ e' c', pathBackAt e.fromNode rest = some (e', c') ∧ c ≤ c') ∧
      PathsOk source residual rest

/-- The edge on the path back leads to the node and has capacity left. -/
theorem toNode_of_pathBackAt (h : PathsOk source residual pathBack) {n : N} {c : Int}
    (he : pathBackAt n pathBack = some (e, c)) : e.toNode = n ∧ 0 < c := by
  induction pathBack with
  | nil => cases he
  | cons entry rest ih =>
    obtain ⟨m, d, c'⟩ := entry
    rw [pathBackAt] at he
    by_cases hm : m = n
    · rw [if_pos hm] at he
      cases he
      exact ⟨h.2.1.trans hm, h.2.2.1⟩
    · rw [if_neg hm] at he
      exact ih h.2.2.2.2.2 he

/-- Capacities that grow, except on an edge to a node that is not in the list, keep the
paths. -/
theorem PathsOk.mono (h : PathsOk source residual pathBack)
    (he : pathBackAt e.toNode pathBack = none) (hgrow : ∀ d, d ≠ e → residual d ≤ residual' d) :
    PathsOk source residual' pathBack := by
  induction pathBack with
  | nil => trivial
  | cons entry rest ih =>
    obtain ⟨m, d, c⟩ := entry
    rw [pathBackAt] at he
    have hm : m ≠ e.toNode := by
      intro hm
      rw [if_pos hm] at he
      cases he
    rw [if_neg hm] at he
    obtain ⟨hnew, hto, hpos, hle, hprev, hrest⟩ := h
    refine ⟨hnew, hto, hpos, hle.trans (hgrow d ?_), hprev, ih hrest he⟩
    rintro rfl
    exact hm hto.symm

/-- The walk along a path pushes the amount from the source to its last node. The induction is
on the entries that are left: each edge leads to an entry that is further back. -/
theorem augmentPath_spec (hamount : 0 < amount) (all : PathBack g) (pathBack : PathBack g)
    {fuel : Nat} {n : N} (hok : PathsOk source residual pathBack)
    (hall : ∀ m entry, pathBackAt m pathBack = some entry → pathBackAt m all = some entry)
    (hn : n = source ∨ ∃ e c, pathBackAt n pathBack = some (e, c) ∧ amount ≤ c)
    (hfuel : pathBack.length < fuel) :
    ∃ residual', augmentPath source amount all fuel n residual = .ok residual' ∧
      Pushed amount source n residual residual' := by
  induction pathBack generalizing residual fuel n with
  | nil =>
    obtain ⟨fuel, rfl⟩ : ∃ k, fuel = k + 1 := ⟨fuel - 1, by simp at hfuel; omega⟩
    have hsource : n = source := by
      rcases hn with h | ⟨e, c, h, -⟩
      · exact h
      · cases h
    subst hsource
    exact ⟨residual, by rw [augmentPath, if_pos rfl]; rfl, Pushed.refl _ _ _⟩
  | cons entry rest ih =>
    obtain ⟨m, e, c⟩ := entry
    obtain ⟨hnew, hto, hpos, hle, hprev, hrest⟩ := hok
    have hallRest : ∀ k entry, pathBackAt k rest = some entry → pathBackAt k all = some entry := by
      intro k entry hk
      refine hall k entry ?_
      rw [pathBackAt, if_neg, hk]
      rintro rfl
      rw [hnew] at hk
      cases hk
    rw [List.length_cons] at hfuel
    by_cases hns : n = source
    · obtain ⟨fuel, rfl⟩ : ∃ k, fuel = k + 1 := ⟨fuel - 1, by omega⟩
      subst hns
      exact ⟨residual, by rw [augmentPath, if_pos rfl]; rfl, Pushed.refl _ _ _⟩
    · obtain ⟨e', c', hentry, hamountle⟩ := hn.resolve_left hns
      by_cases hmn : m = n
      · subst hmn
        have hentry' := hentry
        rw [pathBackAt, if_pos rfl] at hentry'
        cases hentry'
        obtain ⟨fuel, rfl⟩ : ∃ k, fuel = k + 1 := ⟨fuel - 1, by omega⟩
        obtain ⟨residual₁, hpush, hpushed, hnonneg, hgrow⟩ :=
          pushFlow_spec hamount.le (hamountle.trans hle)
        rw [hto] at hpushed
        have hok₁ : PathsOk source residual₁ rest := hrest.mono (by rw [hto]; exact hnew) hgrow
        have hn₁ : e.fromNode = source ∨
            ∃ e' c', pathBackAt e.fromNode rest = some (e', c') ∧ amount ≤ c' := by
          rcases hprev with h | ⟨e', c', h, hc⟩
          · exact .inl h
          · exact .inr ⟨e', c', h, hamountle.trans hc⟩
        obtain ⟨residual₂, hwalk, hpushed₂⟩ := ih hok₁ hallRest hn₁
          (show rest.length < fuel by omega)
        refine ⟨residual₂, ?_, hpushed.trans hpushed₂⟩
        rw [augmentPath, if_neg hns, hall m _ hentry]
        simp only [derefOption, bind, Except.bind, hpush, decide_eq_true hnonneg, checkThat_true]
        exact hwalk
      · rw [pathBackAt, if_neg hmn] at hentry
        exact ih hrest hallRest (.inr ⟨e', c', hentry, hamountle⟩) (by omega)

end Xls.MinCut

import Mathlib.Data.List.Dedup
import Mathlib.Data.List.Perm.Subperm
import Mathlib.Logic.Relation
import Mathlib.Order.WellFoundedSet

/-!
# Xls.Lib.Kahn

Kahn's algorithm: points are placed one after the other, each when all points before it are
placed. The points that wait to be placed are those whose counter of missing predecessors has
become zero. In the end all points are placed exactly if there are no cycles
(`Queued.acyclic`).
-/

namespace Xls.Kahn

open List

variable {V : Type}

/-- The predecessors of a point that are not placed. -/
def missing [DecidableEq V] (nodes : List V) (before : V → V → Prop) [DecidableRel before]
    (placed : List V) (v : V) : Nat :=
  (nodes.filter fun u => before u v ∧ u ∉ placed).length

/-- Where the algorithm stands: the points that are placed, and those that wait for it. -/
structure Queued (nodes : List V) (before : V → V → Prop) (ready placed : List V) : Prop where
  nodup : (placed ++ ready).Nodup
  mem : ∀ v ∈ placed ++ ready, v ∈ nodes ∧ ∀ u ∈ nodes, before u v → u ∈ placed
  complete : ∀ v ∈ nodes, (∀ u ∈ nodes, before u v → u ∈ placed) → v ∈ placed ++ ready
  sorted : placed.Pairwise fun u v => ¬before v u
  irrefl : ∀ v ∈ placed, ¬before v v

variable {nodes : List V} {before : V → V → Prop}

section Missing

variable [DecidableEq V] [DecidableRel before] {placed : List V}

theorem missing_eq_zero {v : V} :
    missing nodes before placed v = 0 ↔ ∀ u ∈ nodes, before u v → u ∈ placed := by
  rw [missing, length_eq_zero_iff, filter_eq_nil_iff]
  refine forall₂_congr fun u _ => ?_
  simp

/-- Placing a point counts down the points that it is before. -/
theorem missing_place (hnodes : nodes.Nodup) {r : V} (hr : r ∈ nodes) (hplaced : r ∉ placed)
    (v : V) : missing nodes before placed v =
      missing nodes before (placed ++ [r]) v + if before r v then 1 else 0 := by
  unfold missing
  have hcount : ∀ (p : V → Prop) [DecidablePred p], (nodes.filter fun u => p u).length =
      nodes.countP fun u => p u := fun p _ => (countP_eq_length_filter ..).symm
  rw [hcount, hcount]
  clear hcount
  induction nodes with
  | nil => cases hr
  | cons u nodes ih =>
    obtain ⟨hu, hnodes⟩ := nodup_cons.mp hnodes
    rw [countP_cons, countP_cons]
    by_cases hur : u = r
    · subst hur
      have hrest : nodes.countP (fun w => before w v ∧ w ∉ placed) =
          nodes.countP fun w => before w v ∧ w ∉ placed ++ [u] := by
        refine countP_congr fun w hw => ?_
        have hne : w ≠ u := fun h => hu (h ▸ hw)
        simp [hne]
      rw [hrest]
      simp [hplaced]
    · have hmem : r ∈ nodes := (mem_cons.mp hr).resolve_left fun h => hur h.symm
      rw [ih hnodes hmem]
      simp [hur]
      omega

end Missing

/-! ### Placing a point -/

variable {ready placed : List V}

theorem Queued.start (hready : ready.Nodup)
    (hmem : ∀ v, v ∈ ready ↔ v ∈ nodes ∧ ∀ u ∈ nodes, ¬before u v) :
    Queued nodes before ready [] where
  nodup := by simpa using hready
  mem v hv := by
    obtain ⟨hv, hfree⟩ := (hmem v).mp (by simpa using hv)
    exact ⟨hv, fun u hu h => absurd h (hfree u hu)⟩
  complete v hv hall := by simpa using (hmem v).mpr ⟨hv, fun u hu h => not_mem_nil (hall u hu h)⟩
  sorted := .nil
  irrefl _ hv := nomatch hv

/-- What is ready may be kept in any order. -/
theorem Queued.perm {ready' : List V} (h : Queued nodes before ready placed)
    (hperm : ready.Perm ready') : Queued nodes before ready' placed where
  nodup := (hperm.append_left placed).nodup_iff.mp h.nodup
  mem v hv := h.mem v ((hperm.append_left placed).mem_iff.mpr hv)
  complete v hv hall := (hperm.append_left placed).mem_iff.mp (h.complete v hv hall)
  sorted := h.sorted
  irrefl := h.irrefl

/-- One step: a ready point is placed, and the points that it was the last before become
ready. -/
theorem Queued.place {freed : List V} {r : V} (h : Queued nodes before (r :: ready) placed)
    (hfreed : freed.Nodup)
    (hmem : ∀ v, v ∈ freed ↔ v ∈ nodes ∧ before r v ∧ ∀ u ∈ nodes, before u v → u ∈ placed ++ [r]) :
    Queued nodes before (ready ++ freed) (placed ++ [r]) := by
  have hassoc : (placed ++ [r]) ++ (ready ++ freed) = (placed ++ r :: ready) ++ freed := by simp
  obtain ⟨hrnodes, hrbefore⟩ := h.mem r (by simp)
  have hr : r ∉ placed := fun hmem =>
    (nodup_append.mp h.nodup).2.2 r hmem r mem_cons_self rfl
  -- What was placed or ready before cannot have waited for the point.
  have hfresh : ∀ v, before r v → v ∉ placed ++ r :: ready := fun v hv hin =>
    hr ((h.mem v hin).2 r hrnodes hv)
  refine ⟨?_, ?_, ?_, ?_, ?_⟩
  · rw [hassoc, nodup_append]
    refine ⟨h.nodup, hfreed, ?_⟩
    intro v hv w hw heq
    subst heq
    exact hfresh v ((hmem v).mp hw).2.1 hv
  · intro v hv
    rw [hassoc, mem_append] at hv
    rcases hv with hv | hv
    · obtain ⟨hvnodes, hall⟩ := h.mem v hv
      exact ⟨hvnodes, fun u hu huv => mem_append_left _ (hall u hu huv)⟩
    · obtain ⟨hvnodes, -, hall⟩ := (hmem v).mp hv
      exact ⟨hvnodes, hall⟩
  · intro v hv hall
    rw [hassoc, mem_append]
    by_cases hrv : before r v
    · exact .inr ((hmem v).mpr ⟨hv, hrv, hall⟩)
    · refine .inl (h.complete v hv fun u hu huv => ?_)
      rcases mem_append.mp (hall u hu huv) with hu | hu
      · exact hu
      · rw [mem_singleton.mp hu] at huv
        exact absurd huv hrv
  · rw [pairwise_append]
    refine ⟨h.sorted, pairwise_singleton _ _, ?_⟩
    intro u hu v hv hvu
    rw [mem_singleton.mp hv] at hvu
    exact hfresh u hvu (mem_append_left _ hu)
  · intro v hv
    rcases mem_append.mp hv with hv | hv
    · exact h.irrefl v hv
    · rw [mem_singleton.mp hv]
      exact fun hrr => hr (hrbefore r hrnodes hrr)

theorem Queued.length_le (h : Queued nodes before ready placed) : placed.length ≤ nodes.length :=
  (subperm_of_subset (nodup_append.mp h.nodup).1 fun v hv =>
    (h.mem v (mem_append_left _ hv)).1).length_le

/-! ### The end -/

/-- Without cycles, all points are placed in the end. -/
theorem Queued.placed_of_acyclic (h : Queued nodes before [] placed)
    (hacyclic : ∀ v, ¬Relation.TransGen before v v) {v : V} (hv : v ∈ nodes) : v ∈ placed := by
  have : IsStrictOrder V (Relation.TransGen before) :=
    { irrefl := hacyclic, trans := fun _ _ _ => Relation.TransGen.trans }
  have hwf : {v | v ∈ nodes}.WellFoundedOn (Relation.TransGen before) :=
    (finite_toSet nodes).wellFoundedOn
  refine hwf.induction hv fun v hv ih => ?_
  simpa using h.complete v hv fun u hu huv => ih u hu (.single huv)

variable [DecidableEq V]

/-- Points are placed after the points before them. -/
theorem Queued.idxOf_lt (h : Queued nodes before ready placed) {u v : V} (hv : v ∈ placed)
    (hu : u ∈ nodes) (huv : before u v) : placed.idxOf u < placed.idxOf v := by
  have hmem : u ∈ placed := (h.mem v (mem_append_left _ hv)).2 u hu huv
  have hlu : placed.idxOf u < placed.length := idxOf_lt_length_iff.mpr hmem
  have hlv : placed.idxOf v < placed.length := idxOf_lt_length_iff.mpr hv
  rcases Nat.lt_trichotomy (placed.idxOf u) (placed.idxOf v) with hlt | heq | hlt
  · exact hlt
  · have : u = v := by rw [← getElem_idxOf hlu, ← getElem_idxOf hlv]; simp only [heq]
    exact absurd huv (this ▸ h.irrefl v hv)
  · have := pairwise_iff_getElem.mp h.sorted _ _ hlv hlu hlt
    rw [getElem_idxOf hlu, getElem_idxOf hlv] at this
    exact absurd huv this

/-- If all points are placed, there are no cycles. -/
theorem Queued.acyclic (h : Queued nodes before ready placed) (hall : ∀ v ∈ nodes, v ∈ placed)
    (hclosed : ∀ u v, before u v → u ∈ nodes ∧ v ∈ nodes) (v : V) :
    ¬Relation.TransGen before v v := by
  intro hcycle
  have hstep : ∀ u w, before u w → placed.idxOf u < placed.idxOf w :=
    fun u w huw => h.idxOf_lt (hall w (hclosed u w huw).2) (hclosed u w huw).1 huw
  have hlt : ∀ w, Relation.TransGen before v w → placed.idxOf v < placed.idxOf w := by
    intro w hw
    induction hw with
    | single huv => exact hstep _ _ huv
    | tail _ huv ih => exact ih.trans (hstep _ _ huv)
  exact absurd (hlt v hcycle) (lt_irrefl _)

end Xls.Kahn

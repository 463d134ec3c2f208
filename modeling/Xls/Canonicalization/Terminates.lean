import Mathlib.Data.Prod.Lex
import Xls.Canonicalization.Falls

/-!
# Xls.Canonicalization.Terminates

The fixed point iteration ends, and keeps all values (`run_spec`), if the constant of every
clamp that it finds is a literal and is not what the clamp compares with it.
-/

namespace Xls

open List
open Xls.Graph (World redirect)

namespace Canonicalization

variable {env : Env} {args : List Value} {w : World env args} {id : Nat} {n : Node}
  {r : Replacement} {depth : Nat → Nat} {s : Progress}

/-! ### What becomes less -/

/-- The nodes that come before the end of the list. -/
def remaining (s : Progress) : Nat :=
  match s.nodeIt with
  | none => 0
  | some id => s.graph.nodes.length - id

/-- Extensions are replaced first of all, then weight is lost, then a traversal without a change
begins, then the traversal comes to its end. -/
noncomputable def measure (s : Progress) (depth : Nat → Nat) : ℕ ×ₗ ℕ ×ₗ ℕ ×ₗ ℕ :=
  toLex (pending (extendAt s.graph) s.simplifiedNodeIds s.graph.nodes.length,
    toLex (pending (weightAt s.graph depth) s.simplifiedNodeIds s.graph.nodes.length,
      toLex (s.changedThisTime.toNat, remaining s)))

/-- What holds between the steps. -/
structure Invariant (w : World env args) (s : Progress) (depth : Nat → Nat) : Prop where
  graph : w.graph = s.graph
  retired : Retired s.graph s.simplifiedNodeIds
  nodeIt : ∀ id, s.nodeIt = some id → id < s.graph.nodes.length
  depth : DeepensNot s.graph depth

/-- The node that is simplified in a state is not a clamp, or it is one with a literal that is
not compared with itself. -/
def MeetsClamps (s : Progress) : Prop :=
  ∀ id, s.nodeIt = some id → s.simplifies id = true → ClampsDistinct s.graph id

variable {g : Graph} {ids : List Nat}

theorem extendAt_old {j : Nat} (hj : j < g.nodes.length) :
    extendAt (replaced g id r) j = extendAt g j := by
  rw [extendAt, extendAt, replaced_old (getElem?_eq_getElem hj), getElem?_eq_getElem hj]
  rfl

variable {i : Nat}

theorem extendAt_made (h : Rewrites w.graph n r) (hi : i < r.made.length) :
    extendAt (replaced w.graph id r) (w.graph.nodes.length + i) = 0 := by
  obtain ⟨m, hm⟩ : ∃ m, r.made[i]? = some m := ⟨_, getElem?_eq_getElem hi⟩
  have hkind := (h.made_kind m (mem_of_getElem? hm)).1
  rw [extendAt, replaced_made id hm]
  show (if isExtend m.kind = true then 1 else 0) = 0
  rw [hkind]
  rfl

/-- The number of extensions falls by the node that is replaced. -/
theorem pending_extendAt (h : Rewrites w.graph n r) (hid : id < w.graph.nodes.length)
    (hids : id ∉ ids) :
    pending (extendAt (replaced w.graph id r)) (id :: ids) (replaced w.graph id r).nodes.length +
      extendAt w.graph id ≤ pending (extendAt w.graph) ids w.graph.nodes.length := by
  have hsum : ∑ i ∈ Finset.range r.made.length,
      extendAt (replaced w.graph id r) (w.graph.nodes.length + i) = 0 :=
    Finset.sum_eq_zero fun i hi => extendAt_made h (Finset.mem_range.mp hi)
  rw [length_replaced]
  refine (pending_step hid hids fun j hj _ => (extendAt_old hj).le).trans ?_
  rw [hsum, Nat.add_zero]

/-- The weight falls, if the node is not an extension. -/
theorem pending_weightAt (h : Rewrites w.graph n r) (hn : w.graph.nodes[id]? = some n)
    (hextend : isExtend n.kind = false) (hclamps : ClampsDistinct w.graph id)
    (hdepth : DeepensNot w.graph depth) (hids : id ∉ ids) :
    pending (weightAt (replaced w.graph id r) (grown w.graph depth)) (id :: ids)
        (replaced w.graph id r).nodes.length <
      pending (weightAt w.graph depth) ids w.graph.nodes.length := by
  have hid : id < w.graph.nodes.length := (List.getElem?_eq_some_iff.1 hn).1
  have hold : ∀ j, j < w.graph.nodes.length → j ≠ id →
      weightAt (replaced w.graph id r) (grown w.graph depth) j ≤ weightAt w.graph depth j := by
    intro j hj _
    obtain ⟨m, hm⟩ : ∃ m, w.graph.nodes[j]? = some m := ⟨_, getElem?_eq_getElem hj⟩
    rw [weightAt, weightAt, replaced_old hm, hm]
    exact weight_redirect hn h hextend hm
  have hstep := pending_step (k := r.made.length) hid hids hold
  have hmade := h.weight_made hn hextend hclamps hdepth
  have hnode : weightAt w.graph depth id = weight w.graph depth n := by rw [weightAt, hn]
  rw [length_replaced]
  omega

theorem next_lt (h : next g id = some i) : i < g.nodes.length := by
  unfold next at h
  split at h
  · cases h
    assumption
  · cases h

theorem first_lt (h : first g = some i) : i < g.nodes.length := by
  unfold first at h
  split at h
  · cases h
    assumption
  · cases h

/-- The traversal goes on. -/
theorem remaining_next {changed : Bool} (hid : id < g.nodes.length) :
    remaining ⟨g, ids, changed, next g id⟩ < remaining ⟨g, ids, changed, some id⟩ := by
  unfold next
  show _ < g.nodes.length - id
  split
  · show g.nodes.length - (id + 1) < _
    omega
  · show 0 < _
    omega

theorem measure_next {changed : Bool} (hid : id < g.nodes.length) :
    measure ⟨g, ids, changed, next g id⟩ depth < measure ⟨g, ids, changed, some id⟩ depth := by
  refine Prod.Lex.toLex_lt_toLex.mpr (.inr ⟨rfl, ?_⟩)
  refine Prod.Lex.toLex_lt_toLex.mpr (.inr ⟨rfl, ?_⟩)
  exact Prod.Lex.toLex_lt_toLex.mpr (.inr ⟨rfl, remaining_next hid⟩)

/-- A node that is simplified was not replaced before. -/
theorem not_mem_of_simplifies (hretired : Retired s.graph s.simplifiedNodeIds)
    (h : s.simplifies id = true) : id ∉ s.simplifiedNodeIds := by
  intro hmem
  rw [Progress.simplifies, hretired.isDead hmem, contains_iff_mem.mpr hmem] at h
  cases h

/-- A replacement keeps what holds between the steps, and makes the measure less. -/
theorem invariant_replace (h : Invariant w s depth) (hit : s.nodeIt = some id)
    (hsimplifies : s.simplifies id = true) (hclamps : ClampsDistinct s.graph id)
    (hr : canonicalizeNode s.graph id = .ok (some r)) {w' : World env args}
    (hreplace : replace s.graph id r = .ok w'.graph) :
    ∃ depth', Invariant w' ⟨w'.graph, id :: s.simplifiedNodeIds, true, next s.graph id⟩ depth' ∧
      measure ⟨w'.graph, id :: s.simplifiedNodeIds, true, next s.graph id⟩ depth' <
        measure s depth := by
  obtain ⟨hgraph, hretired, hnodeIt, hdepth⟩ := h
  have hids := not_mem_of_simplifies hretired hsimplifies
  have hid := hnodeIt id hit
  rw [← hgraph] at hretired hid hdepth hclamps hr hreplace
  obtain ⟨n, hn⟩ : ∃ n, w.graph.nodes[id]? = some n := ⟨_, getElem?_eq_getElem hid⟩
  have hrewrites := rewrites_of_canonicalizeNode hn hr
  have hw' := replace_eq_ok hreplace
  have hretired' : Retired w'.graph (id :: s.simplifiedNodeIds) := by
    rw [hw']
    exact hrewrites.retired hn hretired
  have hnext : ∀ i, next s.graph id = some i → i < w'.graph.nodes.length := by
    intro i hi
    rw [← hgraph] at hi
    rw [hw', length_replaced]
    exact Nat.lt_add_right _ (next_lt hi)
  have hextends := pending_extendAt hrewrites hid hids
  by_cases hextend : isExtend n.kind = true
  · refine ⟨_, ⟨rfl, hretired', hnext, deepensNot_below w'⟩, ?_⟩
    have hone : extendAt w.graph id = 1 := by
      rw [extendAt, hn]
      exact if_pos hextend
    refine Prod.Lex.toLex_lt_toLex.mpr (.inl ?_)
    dsimp only
    rw [← hgraph, hw']
    omega
  · rw [Bool.not_eq_true] at hextend
    have hweight := pending_weightAt hrewrites hn hextend hclamps hdepth hids
    refine ⟨grown w.graph depth, ⟨rfl, hretired', hnext, ?_⟩, ?_⟩
    · dsimp only
      rw [hw']
      exact deepensNot_grown hrewrites hextend hdepth
    rcases lt_or_eq_of_le ((Nat.le_add_right _ _).trans hextends) with hlt | heq
    · refine Prod.Lex.toLex_lt_toLex.mpr (.inl ?_)
      dsimp only
      rw [← hgraph, hw']
      exact hlt
    · refine Prod.Lex.toLex_lt_toLex.mpr (.inr ⟨?_, ?_⟩)
      · dsimp only
        rw [← hgraph, hw']
        exact heq
      · refine Prod.Lex.toLex_lt_toLex.mpr (.inl ?_)
        dsimp only
        rw [← hgraph, hw']
        exact hweight

/-- A step that meets the condition returns, keeps the values and makes the measure less. -/
theorem step_spec (h : Invariant w s depth) (hmeets : MeetsClamps s) :
    step s = .ok none ∨ ∃ s' w' depth', step s = .ok (some s') ∧ w ≤ w' ∧
      Invariant w' s' depth' ∧ measure s' depth' < measure s depth := by
  obtain ⟨g, ids, changed, nodeIt⟩ := s
  cases nodeIt with
  | none =>
    cases changed with
    | false => exact .inl rfl
    | true =>
      refine .inr ⟨_, w, depth, rfl, le_refl w, ⟨h.graph, h.retired, ?_, h.depth⟩, ?_⟩
      · intro i hi
        exact first_lt hi
      · refine Prod.Lex.toLex_lt_toLex.mpr (.inr ⟨rfl, ?_⟩)
        refine Prod.Lex.toLex_lt_toLex.mpr (.inr ⟨rfl, ?_⟩)
        exact Prod.Lex.toLex_lt_toLex.mpr (.inl Nat.zero_lt_one)
  | some id =>
    have hid := h.nodeIt id rfl
    have hskip : Invariant w ⟨g, ids, changed, next g id⟩ depth :=
      ⟨h.graph, h.retired, fun i hi => next_lt hi, h.depth⟩
    by_cases hsimplifies : Progress.simplifies ⟨g, ids, changed, some id⟩ id = true
    · have hclamps := hmeets id rfl hsimplifies
      have hgraph := h.graph
      dsimp only at hgraph hclamps
      have hsound : Sound w id (canonicalizeNode w.graph id) := by
        refine sound_canonicalizeNode ?_ ?_
        · rw [hgraph]
          exact hid
        · rw [hgraph]
          exact hclamps.literal
      obtain ⟨r, hr, hkeeps⟩ := hsound
      rw [hgraph] at hr
      cases r with
      | none =>
        refine .inr ⟨_, w, depth, ?_, le_refl w, hskip, measure_next hid⟩
        rw [step]
        dsimp only
        rw [if_pos hsimplifies, hr]
        rfl
      | some r =>
        obtain ⟨w', hreplace, hle⟩ := hkeeps r rfl
        rw [hgraph] at hreplace
        obtain ⟨depth', hinvariant, hless⟩ :=
          invariant_replace h rfl hsimplifies hclamps hr hreplace
        refine .inr ⟨_, w', depth', ?_, hle, hinvariant, hless⟩
        rw [step]
        dsimp only
        rw [if_pos hsimplifies, hr, Result.ok_bind]
        dsimp only
        rw [hreplace]
        rfl
    · refine .inr ⟨_, w, depth, ?_, le_refl w, hskip, measure_next hid⟩
      rw [step]
      dsimp only
      rw [if_neg hsimplifies]

/-- The loop ends if all of its steps meet the condition. -/
theorem run_spec (h : Invariant w s depth) (hmeets : ∀ s', Reaches s s' → MeetsClamps s') :
    ∃ s' w', Reaches s s' ∧ step s' = .ok none ∧ w ≤ w' ∧ w'.graph = s'.graph := by
  obtain ⟨μ, hμ⟩ : ∃ μ, μ = measure s depth := ⟨_, rfl⟩
  induction μ using WellFoundedLT.induction generalizing w s depth with
  | ind μ ih =>
    rcases step_spec h (hmeets s (.refl s)) with hend | ⟨s', w', depth', hstep, hle, h', hless⟩
    · exact ⟨s, w, .refl s, hend, le_refl w, h.graph⟩
    · rw [← hμ] at hless
      obtain ⟨s'', w'', hreaches, hend, hle', hgraph⟩ :=
        ih _ hless h' (fun t ht => hmeets t (.step hstep ht)) rfl
      exact ⟨s'', w'', .step hstep hreaches, hend, hle.trans hle', hgraph⟩

end Canonicalization

end Xls

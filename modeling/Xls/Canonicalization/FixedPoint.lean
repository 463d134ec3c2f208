import Xls.Canonicalization.Loops

/-!
# Xls.Canonicalization.FixedPoint

The canonicalization of a function ends and keeps its values exactly if every clamp that it
comes across has a literal for its constant, and does not compare the literal with itself
(`endsPreserving_iff`). The nodes may stand in any order, as they do after other passes.
-/

namespace Xls.Canonicalization

open Interpreter Bits
open Graph (World)

variable {env : Env} {args : List Value} {P : Progress → Prop} {s : Progress}

/-- The iteration ends, at a graph that passes the verifier and has one valuation, in which
every node that was there keeps its type and its value, and the return value is the same. -/
def EndsPreserving (w : World env args) : Prop :=
  ∃ s vals', Reaches (start w.graph) s ∧ step s = .ok none ∧ s.graph.Verified w.params ∧
    s.graph.Valuation env args vals' ∧ (∀ other, s.graph.Valuation env args other → other = vals') ∧
    w.graph.nodes.map Node.type <+: s.graph.nodes.map Node.type ∧ w.vals <+: vals' ∧
    ∀ v, w.vals[w.graph.returnValue]? = some v → vals'[s.graph.returnValue]? = some v

theorem invariant_start (w : World env args) :
    Invariant w (start w.graph) (w.graph.below w.rank) := by
  refine ⟨rfl, ?_, fun id hid => first_lt hid, deepensNot_below w⟩
  intro j hj
  cases hj

/-- The fixed point iteration ends and keeps all values, if and only if all its steps find
clamps with a literal only, and not of the literal by itself. -/
theorem endsPreserving_iff (w : World env args) :
    EndsPreserving w ↔ ∀ s, Reaches (start w.graph) s → MeetsClamps s := by
  constructor
  · rintro ⟨s, vals', hreaches, hend, -⟩
    exact meets_of_ends (invariant_start w) hreaches hend
  · intro hmeets
    obtain ⟨s, w', hreaches, hend, hle, hgraph⟩ := run_spec (invariant_start w) hmeets
    have hverified := w'.verified
    have hvaluation := w'.valuation
    have hranked := w'.ranked
    have htypes := hle.types
    have hreturns := hle.returns
    rw [hle.params, hgraph] at hverified
    rw [hgraph] at hvaluation hranked htypes hreturns
    refine ⟨s, w'.vals, hreaches, hend, hverified, hvaluation, ?_, htypes, hle.vals, hreturns⟩
    intro other hother
    exact hother.unique hranked hvaluation

instance (g : Graph) (id : Nat) : Decidable (ClampsDistinct g id) :=
  decidable_of_iff (∀ n ∈ g.nodes[id]?, ∀ clamp ∈ findClamp g n,
    isLiteral g clamp.k = true ∧ clamp.x ≠ clamp.k) (by simp [ClampsDistinct])

instance (s : Progress) : Decidable (MeetsClamps s) :=
  decidable_of_iff (∀ id ∈ s.nodeIt, s.simplifies id = true → ClampsDistinct s.graph id)
    (by simp [MeetsClamps])

theorem forall_reaches_step {s' : Progress} (hstep : step s = .ok (some s')) (hs : P s)
    (h : ∀ t, Reaches s' t → P t) : ∀ t, Reaches s t → P t := by
  intro t ht
  cases ht with
  | refl => exact hs
  | step hstep' hrest =>
    rw [hstep] at hstep'
    cases hstep'
    exact h t hrest

theorem forall_reaches_end (hstep : step s = .ok none) (hs : P s) : ∀ t, Reaches s t → P t := by
  intro t ht
  cases ht with
  | refl => exact hs
  | step hstep' =>
    rw [hstep] at hstep'
    cases hstep'

/-- A number, and five in place of those that are greater. The select was made before the
comparison that selects. -/
def atMostFive : World (packageEnv []) [.leaf (ofNat 8 9)] where
  graph := ⟨[⟨.param 0, [], .bits 8⟩, ⟨.literal (.leaf (ofNat 8 5)), [], .bits 8⟩,
    ⟨.sel false, [3, 1, 0], .bits 8⟩, ⟨.compare .ult, [0, 1], .bits 1⟩], 2⟩
  params := [.bits 8]
  vals := [.leaf (ofNat 8 9), .leaf (ofNat 8 5), .leaf (ofNat 8 5), .leaf (ofNat 1 0)]
  rank i := if i = 2 then 4 else i
  verified := by
    intro i n hn
    rcases i with _ | _ | _ | _ | i <;> cases hn <;> exact ⟨_, rfl, by decide⟩
  valuation := by
    refine ⟨rfl, fun i n hn => ?_⟩
    rcases i with _ | _ | _ | _ | i <;> cases hn <;> exact ⟨_, _, rfl, rfl, rfl⟩
  ranked := by
    intro i n hn
    rcases i with _ | _ | _ | _ | i <;> cases hn <;> norm_num

/-- The clamp is replaced in the first traversal, and nothing in the second. -/
theorem endsPreserving_iff_atMostFive : EndsPreserving atMostFive := by
  refine (endsPreserving_iff atMostFive).2 ?_
  iterate 13 refine forall_reaches_step rfl (by decide) ?_
  exact forall_reaches_end rfl (by decide)

/-- A clamp of the number five by itself. -/
def fiveByItself : Function where
  params := []
  nodes := [⟨.literal (.leaf (ofNat 8 5)), [], .bits 8⟩, ⟨.compare .ugt, [0, 0], .bits 1⟩,
    ⟨.sel false, [1, 0, 0], .bits 8⟩]
  returnValue := 2
  verified := by decide
  returnValue_lt := by decide

/-- A clamp of a value without bits, the constant of which is a parameter. -/
def withoutBits : Function where
  params := [.bits 0, .bits 0]
  nodes := [⟨.param 0, [], .bits 0⟩, ⟨.param 1, [], .bits 0⟩, ⟨.compare .ult, [0, 1], .bits 1⟩,
    ⟨.sel false, [2, 1, 0], .bits 0⟩]
  returnValue := 3
  verified := by decide
  returnValue_lt := by decide

theorem not_endsPreserving {w : World env args} (hreaches : Reaches (start w.graph) s)
    (h : ¬MeetsClamps s) : ¬EndsPreserving w := by
  rintro ⟨s', vals', hreaches', hend, -⟩
  exact h (meets_of_ends (invariant_start w) hreaches' hend s hreaches)

theorem run_fiveByItself : run (packageEnv []) fiveByItself [] =
    .ok [.leaf (ofNat 8 5), .leaf (ofNat 1 0), .leaf (ofNat 8 5)] := rfl

theorem run_withoutBits : run (packageEnv []) withoutBits [.leaf (ofNat 0 0), .leaf (ofNat 0 0)] =
    .ok [.leaf (ofNat 0 0), .leaf (ofNat 0 0), .leaf (ofNat 1 0), .leaf (ofNat 0 0)] := rfl

/-- The iteration does not end for the first function, and fails for the second. -/
theorem not_endsPreserving_clamps : ¬EndsPreserving (World.ofRun run_fiveByItself) ∧
    ¬EndsPreserving (World.ofRun run_withoutBits) := by
  constructor
  · exact not_endsPreserving (s := ⟨fiveByItself.graph, [], false, some 2⟩)
      (.step rfl (.step rfl (.refl _))) (by decide)
  · exact not_endsPreserving (s := ⟨withoutBits.graph, [], false, some 3⟩)
      (.step rfl (.step rfl (.step rfl (.refl _)))) (by decide)

end Xls.Canonicalization

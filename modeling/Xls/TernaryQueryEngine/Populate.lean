import Xls.TernaryQueryEngine.Arrays

/-!
# Xls.TernaryQueryEngine.Populate

Soundness of `TernaryQueryEngine::Populate` (`populate_sound`). One node evaluated on trees
that admit its operands admits its value; the sweep follows by induction over the topological
order, and a repeated population only adds what another sound sweep found.
-/

namespace Xls

open Interpreter List LeafTree Grow
open Evaluator (Rep TreeRep OperandRep)

namespace TernaryQueryEngine

/-! ### One node -/

section Node

variable {env : Env} {args : List Value} {params : List IrType} {n : Node} {ops : List Operand}
  {vals : List Value} {t : TernaryTree} {v : Value}

/-- Array indices are sound. -/
theorem visit_arrayIndex (hk : n.kind = .arrayIndex)
    (hops : Forall₂ (OperandRep TernaryValue.Admits) ops vals)
    (hver : verifyNode params n.kind (ops.map fun o => o.node.type) n.type = true)
    (hr : visitSingleNode n ops = .ok t) (hconf : v.Conforms n.type)
    (hv : evalNode env args n.kind n.type vals = .ok v) : t.Admits v := by
  rw [hk] at hv hver
  unfold visitSingleNode at hr
  rw [hk] at hr
  rcases hops with _ | ⟨harray, hindices⟩
  · cases hv
  · obtain ⟨is, his, hv⟩ := Result.bind_eq_ok.1 hv
    obtain ⟨vecs, hvecs, hr⟩ := Result.bind_eq_ok.1 hr
    have hidx := OperandRep.bitsVector hindices (returns_of_eval hvecs) his
    obtain ⟨bs, hbs, hrep⟩ := OperandRep.getValueList hindices (returns_of_eval hvecs)
    have hlen := hindices.length_eq
    rw [hbs, length_map, ← hrep.length_eq] at hlen
    rw [map_cons, verifyNode, Bool.and_eq_true, beq_iff_eq, length_map, hlen] at hver
    exact handleArrayIndex_sound hidx harray.rep harray.conforms hver.2 hconf hv hr

theorem verify_arraySlice {w : Nat} {a b type : IrType}
    (h : verifyNode params (.arraySlice w) [a, b] type = true) :
    ∃ size element, a = .array size element ∧ type = .array w element := by
  cases a with
  | array size element =>
    simp only [verifyNode, Bool.and_eq_true, beq_iff_eq] at h
    exact ⟨size, element, rfl, h.1.1.2⟩
  | _ => simp [verifyNode] at h

/-- Array slices are sound. -/
theorem visit_arraySlice {w : Nat} (hk : n.kind = .arraySlice w)
    (hops : Forall₂ (OperandRep TernaryValue.Admits) ops vals)
    (hver : verifyNode params n.kind (ops.map fun o => o.node.type) n.type = true)
    (hr : visitSingleNode n ops = .ok t) (hconf : v.Conforms n.type)
    (hv : evalNode env args n.kind n.type vals = .ok v) : t.Admits v := by
  rw [hk] at hv hver
  unfold visitSingleNode at hr
  rw [hk] at hr
  rcases hops with _ | ⟨harray, _ | ⟨hstart, _ | _⟩⟩
  · cases hv
  · cases hv
  · obtain ⟨s, hs, hv⟩ := Result.bind_eq_ok.1 hv
    obtain ⟨vec, hvec, hr⟩ := Result.bind_eq_ok.1 hr
    have hconforms := harray.conforms
    obtain ⟨size, element, hatype, htype⟩ := verify_arraySlice hver
    dsimp only at hatype
    rw [hatype] at hconforms
    rw [htype] at hr hconf
    exact handleArraySlice_sound harray.rep hconforms
      (hstart.bits (returns_of_eval hvec) hs) hconf hv hr
  · cases hv

/-- Array updates are sound. -/
theorem visit_arrayUpdate (hk : n.kind = .arrayUpdate)
    (hops : Forall₂ (OperandRep TernaryValue.Admits) ops vals) (hr : visitSingleNode n ops = .ok t)
    (hv : evalNode env args n.kind n.type vals = .ok v) : t.Admits v := by
  rw [hk] at hv
  unfold visitSingleNode at hr
  rw [hk] at hr
  rcases hops with _ | ⟨harray, _ | ⟨hvalue, hindices⟩⟩
  · cases hv
  · cases hv
  · obtain ⟨is, his, hv⟩ := Result.bind_eq_ok.1 hv
    obtain ⟨vecs, hvecs, hr⟩ := Result.bind_eq_ok.1 hr
    have hidx := OperandRep.bitsVector hindices (returns_of_eval hvecs) his
    exact handleArrayUpdate_sound harray.rep hvalue.rep hidx hv hr

/-- One node of the sweep is sound. -/
theorem evaluateNode_sound (hops : Forall₂ (OperandRep TernaryValue.Admits) ops vals)
    (hver : verifyNode params n.kind (ops.map fun o => o.node.type) n.type = true)
    (hr : evaluateNode n ops = .ok t)
    (hv : Interpreter.interpretNode env args n vals = .ok v) : t.Admits v := by
  obtain ⟨v', hv', hconf⟩ := Result.bind_eq_ok.1 hv
  split at hconf
  rotate_left
  · cases hconf
  rename_i hvconf
  cases hconf
  unfold evaluateNode at hr
  split at hr
  · cases hr
    exact unconstrainedOf_admits hvconf
  · by_cases hindex : n.kind = .arrayIndex
    · exact visit_arrayIndex hindex hops hver hr hvconf hv'
    by_cases hslice : ∃ w, n.kind = .arraySlice w
    · obtain ⟨w, hslice⟩ := hslice
      exact visit_arraySlice hslice hops hver hr hvconf hv'
    by_cases hupdate : n.kind = .arrayUpdate
    · exact visit_arrayUpdate hupdate hops hr hv'
    have heq : visitSingleNode n ops =
        Grow.eval (ternaryEvaluator.abstractNode (pure (unconstrainedOf n.type)) n ops) := by
      unfold visitSingleNode
      split
      · exact absurd ‹_› hindex
      · exact absurd ⟨_, ‹_›⟩ hslice
      · exact absurd ‹_› hupdate
      · rfl
    rw [heq] at hr
    refine ternaryEvaluator_sound.abstractNode ?_ hops hver (returns_of_eval hr) hv
    intro t v ht hvc
    rw [returns_pure ht]
    exact unconstrainedOf_admits hvc

end Node

/-! ### The sweep -/

variable {ops found : List Operand} {vals args : List Value} {positions : List Nat}
  {e : TernaryQueryEngine}

/-- The operands that a node collects from the values before it. -/
theorem collect_operands {P : Operand → Value → Prop} {foundVals : List Value}
    (h : Forall₂ P ops vals) (ho : collect (fun i => ops[i]?) positions = some found)
    (hv : collect (fun i => vals[i]?) positions = some foundVals) : Forall₂ P found foundVals := by
  refine collect_rel (P := Eq) ?_ (forall₂_same.2 fun _ _ => rfl) ho hv
  rintro i j o v rfl hio hjv
  exact LeafTree.rel_getElem? h hio hjv

/-- The operands that are found have the types of the nodes. -/
theorem collect_types {types : List IrType} (ho : collect (fun i => ops[i]?) positions = some found)
    (ht : operandTypes (ops.map fun o => o.node) positions = some types) :
    found.map (fun o => o.node.type) = types := by
  unfold operandTypes at ht
  have h : Forall₂ (fun o t => o.node.type = t) found types := by
    refine collect_rel (P := Eq) ?_ (forall₂_same.2 fun _ _ => rfl) ho ht
    rintro i j o t rfl ho ht
    rw [getElem?_map, ho] at ht
    cases ht
    rfl
  rw [← forall₂_map_left_iff, forall₂_eq_eq_eq] at h
  exact h

/-- The sweep keeps pace with the interpreter: after every node the trees admit the
values computed so far. -/
theorem sweep_sound {env : Env} {params : List IrType} {ns : List Node} {ops' : List Operand}
    {vals' : List Value} (hops : Forall₂ (OperandRep TernaryValue.Admits) ops vals)
    (hver : verifyFrom params (ops.map fun o => o.node) ns = true) (hr : sweep ops ns = .ok ops')
    (hv : Interpreter.visit env args vals ns = .ok vals') :
    Forall₂ (OperandRep TernaryValue.Admits) ops' vals' := by
  induction ns generalizing ops vals with
  | nil =>
    cases hr
    cases hv
    exact hops
  | cons n ns ih =>
    rw [verifyFrom, Bool.and_eq_true] at hver
    obtain ⟨hn, hns⟩ := hver
    obtain ⟨found, hfound, hr⟩ := Result.bind_eq_ok.1 hr
    obtain ⟨t, ht, hr⟩ := Result.bind_eq_ok.1 hr
    obtain ⟨foundVals, hfoundVals, hv⟩ := Result.bind_eq_ok.1 hv
    obtain ⟨v, hnv, hv⟩ := Result.bind_eq_ok.1 hv
    rw [derefOption_eq_ok] at hfound hfoundVals
    have hrel := collect_operands hops hfound hfoundVals
    cases htypes : operandTypes (ops.map fun o => o.node) n.operands with
    | none => simp [htypes] at hn
    | some types =>
      rw [htypes] at hn
      dsimp only at hn
      rw [← collect_types hfound htypes] at hn
      have hadmits := evaluateNode_sound hrel hn ht hnv
      have hnew := OperandRep.of_interpretNode hadmits hn (Evaluator.conforms_types hrel) hnv
      refine ih (rel_append hops (Forall₂.cons hnew Forall₂.nil)) ?_ hr hv
      rwa [map_append]

/-! ### Population -/

/-- What the engine has recorded admits the values of the run. -/
def AdmitsRun (e : TernaryQueryEngine) (vals : List Value) : Prop :=
  ∀ (i : Nat) v, vals[i]? = some v → ∀ type t, e.values i = some (type, t) →
    TernaryTree.Admits t v

/-- Merging a sound value into sound knowledge meets no conflict. -/
theorem mergeValue_sound {old : Option (IrType × TernaryTree)} {new : Operand} {v : Value}
    (hold : ∀ type t, old = some (type, t) → TernaryTree.Admits t v)
    (hnew : OperandRep TernaryValue.Admits new v) :
    ∃ type t, mergeValue old new = .ok (type, t) ∧ t.Admits v := by
  unfold mergeValue
  split
  · exact ⟨_, _, rfl, hnew.rep⟩
  · rename_i type t
    split
    · have hmerge : ∃ r, LeafTree.merge TernaryVector.updateWithUnion t new.value = some r ∧
          TernaryTree.Admits r v := by
        refine Rel.merge_both ?_ (hold type t rfl) hnew.rep
        intro a b x ha hb
        exact TernaryVector.Admits.updateWithUnion ha hb
      obtain ⟨r, hr, hrv⟩ := hmerge
      refine ⟨type, r, ?_, hrv⟩
      rw [hr]
      rfl
    · exact ⟨_, _, rfl, hnew.rep⟩

/-- Merging what is given with what is known admits the values of the run. -/
theorem mergeValues_sound {all : List Value} (he : e.AdmitsRun all) {news : List Operand}
    (before : List Value) (hall : all = before ++ vals)
    (h : Forall₂ (OperandRep TernaryValue.Admits) news vals) :
    ∃ merged, e.mergeValues before.length news = .ok merged ∧
      Forall₂ (fun (m : IrType × TernaryTree) v => m.2.Admits v) merged vals := by
  induction h generalizing before with
  | nil => exact ⟨[], rfl, Forall₂.nil⟩
  | @cons new v news vals hnew _ ih =>
    have hold : ∀ type t, e.values before.length = some (type, t) → TernaryTree.Admits t v :=
      fun type t => he before.length v (by simp [hall]) type t
    obtain ⟨type, t, hm, htv⟩ := mergeValue_sound hold hnew
    obtain ⟨rest, hrest, hrel⟩ := ih (before ++ [v]) (by simp [hall])
    rw [length_append, length_singleton] at hrest
    refine ⟨(type, t) :: rest, ?_, Forall₂.cons htv hrel⟩
    rw [mergeValues, hm, Result.ok_bind, hrest]
    rfl

/-- Population of a sound engine gives every node a tree that admits its value. -/
theorem populate_step {env : Env} {f : Function} (hrun : Interpreter.run env f args = .ok vals)
    {e' : TernaryQueryEngine} {rf : ReachedFixpoint} (he : e.AdmitsRun vals)
    (hp : e.populate f = .ok (rf, e')) {i : Nat} {v : Value} (hv : vals[i]? = some v) :
    ∃ type t, e'.values i = some (type, t) ∧ t.Admits v := by
  obtain ⟨news, hnews, hp⟩ := Result.bind_eq_ok.1 hp
  obtain ⟨merged, hmerged, hp⟩ := Result.bind_eq_ok.1 hp
  cases hp
  have hsweep := sweep_sound Forall₂.nil f.verified hnews (visit_of_run hrun)
  obtain ⟨merged', hm', hrel⟩ := mergeValues_sound he [] rfl hsweep
  rw [length_nil, hmerged] at hm'
  cases hm'
  obtain ⟨m, hm, hadm⟩ := LeafTree.rel_getElem?_right hrel hv
  exact ⟨m.1, m.2, by simp [hm], hadm⟩

/-- The engines that calls of `Populate` on one function lead to. -/
inductive Populated (f : Function) : TernaryQueryEngine → Prop
  | first {rf : ReachedFixpoint} {e : TernaryQueryEngine} (h : empty.populate f = .ok (rf, e)) :
      Populated f e
  | again {rf : ReachedFixpoint} {e e' : TernaryQueryEngine} (he : Populated f e)
      (h : e.populate f = .ok (rf, e')) : Populated f e'

/-- Ternary analysis is sound: after any number of populations, in every run, every
node has a tree that admits its value, so every bit reported as known has its value
in the run. -/
theorem populate_sound {env : Env} {f : Function} {args vals : List Value}
    (hrun : Interpreter.run env f args = .ok vals) {e : TernaryQueryEngine} (he : Populated f e)
    {i : Nat} {v : Value} (hv : vals[i]? = some v) :
    ∃ type t, e.values i = some (type, t) ∧ t.Admits v := by
  induction he generalizing i v with
  | first h => exact populate_step hrun (fun _ _ _ _ _ hnone => by cases hnone) h hv
  | again _ h ih =>
    refine populate_step hrun (fun j w hw type t ht => ?_) h hv
    obtain ⟨type', t', ht', hadm⟩ := ih hw
    rw [ht] at ht'
    cases ht'
    exact hadm

/-- A table of four numbers read at an index whose upper bit is a constant one. -/
def tableLookup : Function where
  params := [.bits 1]
  nodes :=
    [⟨.param 0, [], .bits 1⟩, ⟨.literal (.leaf (Bits.ofNat 1 1)), [], .bits 1⟩,
     ⟨.concat, [1, 0], .bits 2⟩,
     ⟨.literal (.node ([0, 0, 5, 7].map fun x => .leaf (Bits.ofNat 3 x))), [], .array 4 (.bits 3)⟩,
     ⟨.arrayIndex, [3, 2], .bits 3⟩]
  returnValue := 4
  verified := by decide
  returnValue_lt := by decide

/-- The engine populated from `tableLookup`; it knows two bits of the result. -/
def tableLookupEngine : TernaryQueryEngine :=
  match empty.populate tableLookup with
  | .ok (_, e) => e
  | .error _ => empty

theorem populate_sound_tableLookup :
    tableLookupEngine.values 4 = some (.bits 3, .leaf [.knownOne, .unknown, .knownOne]) ∧
      ∃ type t, tableLookupEngine.values 4 = some (type, t) ∧
        TernaryTree.Admits t (.leaf (Bits.ofNat 3 7)) := by
  have hrun : Interpreter.run (packageEnv []) tableLookup [.leaf (Bits.ofNat 1 1)] =
      .ok [.leaf (Bits.ofNat 1 1), .leaf (Bits.ofNat 1 1), .leaf (Bits.ofNat 2 3),
        .node ([0, 0, 5, 7].map fun x => .leaf (Bits.ofNat 3 x)), .leaf (Bits.ofNat 3 7)] := rfl
  have hpop : empty.populate tableLookup = .ok (.unchanged, tableLookupEngine) := rfl
  exact ⟨rfl, populate_sound hrun (.first hpop) rfl⟩

end TernaryQueryEngine

end Xls

import Xls.BddFunction

/-!
# Xls.BddFunction.Run

What `BddFunction::Run` builds stands for the values of a run of the interpreter
(`run_stands`). A run determines a valuation of the variables: a variable has the value of
the bit it was created for. The induction over the nodes builds this valuation along with the
diagram: it never changes on the variables there are, so what was said of earlier nodes stays
true.
-/

namespace Xls

open LeafTree List
open Evaluator (Rep TreeRep OperandRep)
open SaturatingBddEvaluator (Stands evaluator evaluator_sound)

namespace BddFunction

/-- The diagram has grown, and the valuation is the same on the variables there were. -/
structure Extends (s : BddState) (σ : Nat → Bool) (s' : BddState) (σ' : Nat → Bool) : Prop where
  grows : s.bdd.Grows s'.bdd
  agree : ∀ v, v < s.bdd.nextVar → σ v = σ' v

/-- The vector stands for the bits, and holds the base node of every variable created
since `s`. -/
structure Represents (s s' : BddState) (σ : Nat → Bool) (r : List SaturatingBddNodeIndex)
    (bs : List Bool) : Prop where
  stands : Forall₂ (Stands s' σ) r bs
  indexed : ∀ e ∈ r, ∃ i, e = .index i
  based : ∀ v, s.bdd.nextVar ≤ v → v < s'.bdd.nextVar → ∃ i, .index i ∈ r ∧
    s'.bdd.cells i = some ⟨v, BinaryDecisionDiagram.one, BinaryDecisionDiagram.zero⟩

section Extends

variable {s s' s'' : BddState} {σ σ' σ'' : Nat → Bool}

theorem Extends.refl (s : BddState) (σ : Nat → Bool) : Extends s σ s σ :=
  ⟨BinaryDecisionDiagram.Grows.refl _, fun _ _ => rfl⟩

theorem Extends.trans (h : Extends s σ s' σ') (h' : Extends s' σ' s'' σ'') : Extends s σ s'' σ'' :=
  ⟨h.grows.trans h'.grows, fun v hv =>
    (h.agree v hv).trans (h'.agree v (lt_of_lt_of_le hv h.grows.nextVar))⟩

theorem Extends.of_le (h : s ≤ s') (σ : Nat → Bool) : Extends s σ s' σ := ⟨h.1, fun _ _ => rfl⟩

theorem Extends.stands (h : Extends s σ s' σ') {e : SaturatingBddNodeIndex} {b : Bool}
    (he : Stands s σ e b) : Stands s' σ' e b :=
  he.mono h.grows h.agree

variable {bs : List Bool}

theorem Extends.vec (h : Extends s σ s' σ') {r : List SaturatingBddNodeIndex}
    (hr : Forall₂ (Stands s σ) r bs) : Forall₂ (Stands s' σ') r bs :=
  hr.imp fun _ _ => h.stands

/-- Put an element in front of a vector. -/
theorem Represents.cons (hext : Extends s' σ' s'' σ'') {i : Nat} {b : Bool}
    (hi : Stands s' σ' (.index i) b) (hbased : ∀ v, s.bdd.nextVar ≤ v → v < s'.bdd.nextVar →
      s'.bdd.cells i = some ⟨v, BinaryDecisionDiagram.one, BinaryDecisionDiagram.zero⟩)
    {r : List SaturatingBddNodeIndex} {bs : List Bool} (h : Represents s' s'' σ'' r bs) :
    Represents s s'' σ'' (.index i :: r) (b :: bs) where
  stands := Forall₂.cons (hext.stands hi) h.stands
  indexed := by
    intro e he
    rcases mem_cons.1 he with rfl | he
    · exact ⟨i, rfl⟩
    · exact h.indexed e he
  based := by
    intro v hv hv'
    by_cases hlt : v < s'.bdd.nextVar
    · exact ⟨i, mem_cons_self, hext.grows.cells i _ (hbased v hv hlt)⟩
    · obtain ⟨j, hj, hcell⟩ := h.based v (Nat.le_of_not_lt hlt) hv'
      exact ⟨j, mem_cons_of_mem _ hj, hcell⟩

/-- Forgotten elements get the value of their bit. -/
theorem forget_represents {es : List SaturatingBddNodeIndex} (hes : Forall₂ (Stands s σ) es bs) :
    ∃ r s' σ', forget es s = .ok (r, s') ∧ Extends s σ s' σ' ∧ Represents s s' σ' r bs ∧
      (.tooManyPaths ∉ es → s' = s) := by
  induction es generalizing s σ bs with
  | nil =>
    cases hes
    refine ⟨[], s, σ, rfl, Extends.refl s σ, ⟨Forall₂.nil, by simp, ?_⟩, fun _ => rfl⟩
    intro v hv hv'
    exact absurd hv' (Nat.not_lt.2 hv)
  | cons e es ih =>
    rcases hes with _ | ⟨he, hes⟩
    cases e with
    | index i =>
      obtain ⟨r, s', σ', hrun, hext, hrep, hsame⟩ := ih hes
      refine ⟨.index i :: r, s', σ', ?_, hext, Represents.cons hext he ?_ hrep, ?_⟩
      · rw [forget, hrun]
        rfl
      · intro v hv hv'
        exact absurd hv' (Nat.not_lt.2 hv)
      · intro hmem
        exact hsame fun h => hmem (mem_cons_of_mem _ h)
    | tooManyPaths =>
      rename_i b bs
      obtain ⟨i, t, hnew, hgrows, hnext, hcell⟩ := s.newVariable_spec
      -- the new variable gets the value of the bit
      have hext : Extends s σ t (Function.update σ s.bdd.nextVar b) := by
        refine ⟨hgrows, fun v hv => ?_⟩
        rw [Function.update_of_ne (Nat.ne_of_lt hv)]
      have hi : Stands t (Function.update σ s.bdd.nextVar b) (.index i) b := by
        intro j hj
        cases hj
        refine ⟨CellTable.valid_cell hcell, ?_⟩
        exact (t.invariant.denote_base hcell _).trans (Function.update_self _ _ _)
      obtain ⟨r, s', σ', hrun, hext', hrep, -⟩ := ih (hext.vec hes)
      refine ⟨.index i :: r, s', σ', ?_, hext.trans hext', Represents.cons hext' hi ?_ hrep, ?_⟩
      · rw [forget, hnew, Result.ok_bind]
        dsimp only
        rw [hrun]
        rfl
      · intro v hv hv'
        obtain rfl : v = s.bdd.nextVar := by omega
        exact hcell
      · intro hmem
        exact absurd mem_cons_self hmem

/-- A vector of new variables represents any bits. -/
theorem createNewNodeVector_represents {n : Node} (hlen : bs.length = n.type.flatBitCount)
    (s : BddState) (σ : Nat → Bool) :
    ∃ r s' σ', createNewNodeVector n s = .ok (r, s') ∧ Extends s σ s' σ' ∧
      Represents s s' σ' r bs := by
  have hes : Forall₂ (Stands s σ) (replicate n.type.flatBitCount .tooManyPaths) bs := by
    rw [← hlen]
    clear hlen
    induction bs with
    | nil => exact Forall₂.nil
    | cons b bs ih =>
      exact Forall₂.cons (SaturatingBddEvaluator.stands_tooManyPaths b) ih
  obtain ⟨r, s', σ', hrun, hext, hrep, -⟩ := forget_represents hes
  exact ⟨r, s', σ', hrun, hext, hrep⟩

end Extends

/-! ### One node -/

/-- What is known of a node that has been visited, whose value in the run is `v`. -/
structure Tracks (s : BddState) (σ : Nat → Bool) (o : BddValue) (v : Value) : Prop where
  conforms : v.Conforms o.node.type
  oneHot : ∀ p, o.node.kind = .oneHot p → ∀ b, v = .leaf b → b.val ≠ 0
  vector : ∀ vec, o.vector = some vec → ∃ b, v = .leaf b ∧ Forall₂ (Stands s σ) vec b.toBools

/-- What an evaluated node contributes: its vector stands for its value, and unless it
is saturated it has created no variable. -/
structure Visited (s : BddState) (σ : Nat → Bool) (v : Value) (r : List SaturatingBddNodeIndex)
    (saturated : Bool) (s' : BddState) (σ' : Nat → Bool) : Prop where
  extends_ : Extends s σ s' σ'
  represents : ∃ b, v = .leaf b ∧ Represents s s' σ' r b.toBools
  unsaturated : saturated = false → s'.bdd.nextVar = s.bdd.nextVar

section Node

variable {env : Env} {args vals : List Value} {params : List IrType} {n : Node}
  {operands : List BddValue} {s s' : BddState} {σ : Nat → Bool} {v : Value} {pathLimit : Int}

theorem Tracks.mono {σ' : Nat → Bool} {o : BddValue} (h : Tracks s σ o v)
    (hext : Extends s σ s' σ') : Tracks s' σ' o v where
  conforms := h.conforms
  oneHot := h.oneHot
  vector vec hvec := by
    obtain ⟨b, hb, hstands⟩ := h.vector vec hvec
    exact ⟨b, hb, hext.vec hstands⟩

theorem Tracks.operand {o : BddValue} (h : Tracks s σ o v)
    {op : Evaluator.Operand SaturatingBddNodeIndex} (hop : operandOf o = some op) :
    OperandRep (Stands s σ) op v ∧ op.node = o.node := by
  unfold operandOf at hop
  rw [Option.map_eq_some_iff] at hop
  obtain ⟨vec, hvec, rfl⟩ := hop
  obtain ⟨b, rfl, hstands⟩ := h.vector vec hvec
  exact ⟨⟨hstands, h.conforms, h.oneHot⟩, rfl⟩

/-- The operands of a node stand for the values that the interpreter reads. -/
theorem tracks_operands {ops : List (Evaluator.Operand SaturatingBddNodeIndex)}
    (h : Forall₂ (Tracks s σ) operands vals) (hops : collect operandOf operands = some ops) :
    Forall₂ (OperandRep (Stands s σ)) ops vals ∧
      ops.map (fun o => o.node.type) = operands.map fun o => o.node.type := by
  rw [collect_eq_some] at hops
  induction h generalizing ops with
  | nil =>
    cases hops
    exact ⟨Forall₂.nil, rfl⟩
  | cons hov _ ih =>
    rcases hops with _ | ⟨hop, hops⟩
    obtain ⟨hrep, hnode⟩ := hov.operand hop
    obtain ⟨hreps, hnodes⟩ := ih hops
    refine ⟨Forall₂.cons hrep hreps, ?_⟩
    rw [map_cons, map_cons, hnodes, hnode]

/-- The value of a node of a bits type has the width of the type. -/
theorem bits_of_interpretNode (hbits : n.type.isBits = true)
    (hv : Interpreter.interpretNode env args n vals = .ok v) :
    ∃ b, v = .leaf b ∧ b.toBools.length = n.type.flatBitCount := by
  obtain ⟨v', -, hconf⟩ := Result.bind_eq_ok.1 hv
  split at hconf
  rotate_left
  · cases hconf
  rename_i hvconf
  cases hconf
  obtain ⟨w, hw⟩ := IrType.eq_bits_of_isBits hbits
  rw [hw] at hvconf ⊢
  obtain ⟨b, rfl, hb⟩ := Value.conforms_bits hvconf
  refine ⟨b, rfl, ?_⟩
  simp [IrType.flatBitCount, IrType.shape, LeafTree.leaves, hb]

variable {r : List SaturatingBddNodeIndex}

theorem createNewNodeVector_visited {b : Bits} (hb : v = .leaf b)
    (hlen : b.toBools.length = n.type.flatBitCount) (hr : createNewNodeVector n s = .ok (r, s')) :
    ∃ σ', Visited s σ v r true s' σ' := by
  obtain ⟨r', t, σ', hrun, hext, hrep⟩ := createNewNodeVector_represents hlen s σ
  cases hrun.symm.trans hr
  exact ⟨σ', hext, ⟨b, hb, hrep⟩, fun h => by cases h⟩

variable {saturated : Bool}

section

variable (hbits : n.type.isBits = true) (hops : Forall₂ (Tracks s σ) operands vals)
  (hver : verifyNode params n.kind (operands.map fun o => o.node.type) n.type = true)
include hbits hops hver

/-- An evaluated vector stands for the value of the node, under an extended assignment. -/
theorem evaluateVector_visited (hr : evaluateVector pathLimit n operands s = .ok (r, saturated, s'))
    (hv : Interpreter.interpretNode env args n vals = .ok v) :
    ∃ σ', Visited s σ v r saturated s' σ' := by
  obtain ⟨b, hb, hlen⟩ := bits_of_interpretNode hbits hv
  obtain ⟨ops, hcollect, hr⟩ := Result.bind_eq_ok.1 hr
  rw [derefOption_eq_ok] at hcollect
  split at hr
  · obtain ⟨p, hp, hr⟩ := Result.bind_eq_ok.1 hr
    cases hr
    exact createNewNodeVector_visited hb hlen hp
  · obtain ⟨⟨value, t⟩, hvalue, hr⟩ := Result.bind_eq_ok.1 hr
    obtain ⟨vec, hvec, hr⟩ := Result.bind_eq_ok.1 hr
    obtain ⟨⟨r', s''⟩, hforget, hr⟩ := Result.bind_eq_ok.1 hr
    cases hr
    rw [derefOption_eq_ok] at hvec
    obtain ⟨hreps, htypes⟩ := tracks_operands hops hcollect
    have hle : s ≤ t := Grow.mono _ _ _ _ hvalue
    have hext := Extends.of_le hle σ
    have hreps' : Forall₂ (OperandRep (Stands t σ)) ops vals := by
      refine hreps.imp fun o w h => ⟨?_, h.conforms, h.oneHot⟩
      refine Rel.imp ?_ h.rep
      intro vec b hvec
      exact hext.vec hvec
    have htree : TreeRep (Stands t σ) value v := by
      rw [← htypes] at hver
      exact evaluator_sound.abstractNode (fun hfail => (Grow.not_returns_fail hfail).elim) hreps'
        hver (Grow.returns_of_run hvalue (le_refl t)) hv
    obtain ⟨vec', rfl⟩ : ∃ vec', value = .leaf vec' := by
      rw [hb] at htree
      obtain ⟨vec', hvec', -⟩ := rel_leaf_right htree
      exact ⟨vec', hvec'⟩
    cases hvec
    rw [hb] at htree
    obtain ⟨r'', t', σ', hrun, hext', hrep, hsame⟩ :=
      forget_represents (show Forall₂ (Stands t σ) vec b.toBools from htree)
    cases hrun.symm.trans hforget
    refine ⟨σ', hext.trans hext', ⟨b, hb, hrep.stands, hrep.indexed, ?_⟩, ?_⟩
    · intro w hw hw'
      rw [← hle.2] at hw
      exact hrep.based w hw hw'
    · intro hsat
      rw [hsame (by simpa using hsat)]
      exact hle.2

theorem nodeVector_visited {filtered : Bool}
    (hr : nodeVector pathLimit filtered n operands s = .ok (r, saturated, s'))
    (hv : Interpreter.interpretNode env args n vals = .ok v) :
    ∃ σ', Visited s σ v r saturated s' σ' := by
  unfold nodeVector at hr
  split at hr
  · obtain ⟨b, hb, hlen⟩ := bits_of_interpretNode hbits hv
    obtain ⟨p, hp, hr⟩ := Result.bind_eq_ok.1 hr
    cases hr
    exact createNewNodeVector_visited hb hlen hp
  · exact evaluateVector_visited hbits hops hver hr hv

end

end Node

/-! ### The loop over the nodes -/

/-- The states that the loop passes through from one node to the next. An unsaturated
node creates no variable; every variable has its base node in the vector of the node it
was created for. -/
inductive Log : BddState → List BddValue → BddState → Prop
  | nil (s : BddState) : Log s [] s
  | skip {s s' : BddState} {n : Node} {rest : List BddValue} (hbits : n.type.isBits = false)
      (h : Log s rest s') : Log s (⟨n, none, false⟩ :: rest) s'
  | vector {s t s' : BddState} {n : Node} {r : List SaturatingBddNodeIndex} {saturated : Bool}
      {rest : List BddValue} (hbits : n.type.isBits = true) (grows : s.bdd.Grows t.bdd)
      (indexed : ∀ e ∈ r, ∃ i, e = .index i ∧ t.Valid i)
      (unsaturated : saturated = false → t.bdd.nextVar = s.bdd.nextVar)
      (based : ∀ v, s.bdd.nextVar ≤ v → v < t.bdd.nextVar → ∃ i, .index i ∈ r ∧
        t.bdd.cells i = some ⟨v, BinaryDecisionDiagram.one, BinaryDecisionDiagram.zero⟩)
      (h : Log t rest s') : Log s (⟨n, some r, saturated⟩ :: rest) s'

variable {s s' : BddState} {values : List BddValue} {σ : Nat → Bool} {vals args : List Value}

theorem Log.grows (h : Log s values s') : s.bdd.Grows s'.bdd := by
  induction h with
  | nil s => exact BinaryDecisionDiagram.Grows.refl _
  | skip _ _ ih => exact ih
  | vector _ grows _ _ _ _ ih => exact grows.trans ih

theorem Represents.valid {r : List SaturatingBddNodeIndex} {bs : List Bool}
    (h : Represents s s' σ r bs) : ∀ e ∈ r, ∃ i, e = .index i ∧ s'.Valid i := by
  intro e he
  obtain ⟨i, rfl⟩ := h.indexed e he
  obtain ⟨j, hj, hget⟩ := getElem_of_mem he
  have hstands := Forall₂.get h.stands hj (by rwa [← h.stands.length_eq])
  rw [get_eq_getElem, hget] at hstands
  exact ⟨i, rfl, hstands.index.1⟩

variable {found : List BddValue} {positions : List Nat} {types params : List IrType} {env : Env}
  {pathLimit : Int} {nodeFilter : Option (Nat → Bool)}

theorem collect_tracks {foundVals : List Value} (h : Forall₂ (Tracks s σ) values vals)
    (hf : collect (fun o => values[o]?) positions = some found)
    (hv : collect (fun o => vals[o]?) positions = some foundVals) :
    Forall₂ (Tracks s σ) found foundVals := by
  have hsame : Forall₂ Eq positions positions := forall₂_same.2 fun _ _ => rfl
  refine collect_rel ?_ hsame hf hv
  rintro i j o v rfl ho hv
  exact LeafTree.rel_getElem? h ho hv

/-- The nodes that are found have the types of the operands. -/
theorem collect_nodeTypes (hf : collect (fun o => values[o]?) positions = some found)
    (ht : operandTypes (values.map BddValue.node) positions = some types) :
    found.map (fun o => o.node.type) = types := by
  have hsame : Forall₂ Eq positions positions := forall₂_same.2 fun _ _ => rfl
  have h : Forall₂ (fun (o : BddValue) t => o.node.type = t) found types := by
    refine collect_rel ?_ hsame hf ht
    rintro i j o t rfl ho ht
    rw [getElem?_map, ho] at ht
    cases ht
    rfl
  rw [← forall₂_map_left_iff, forall₂_eq_eq_eq] at h
  exact h

/-- What is known of a visited node is what `Tracks` asks for. -/
theorem tracks_of_interpretNode {n : Node} {v : Value} {saturated : Bool}
    {vector : Option (List SaturatingBddNodeIndex)}
    (hver : verifyNode params n.kind types n.type = true)
    (hvals : Forall₂ Value.Conforms vals types)
    (hv : Interpreter.interpretNode env args n vals = .ok v) (hvector : ∀ vec, vector = some vec →
      ∃ b, v = .leaf b ∧ Forall₂ (Stands s σ) vec b.toBools) :
    Tracks s σ ⟨n, vector, saturated⟩ v := by
  -- any abstract value that stands for `v` gives the two facts about `v` itself
  have hop : OperandRep (Eq : Bool → Bool → Prop) ⟨n, v.map Bits.toBools⟩ v := by
    have hbits : ∀ b : Bits, Rep Eq b.toBools b := fun b => forall₂_same.2 fun _ _ => rfl
    have hself : Rel (fun (a b : Bits) => Rep Eq a.toBools b) v v :=
      Rel.refl hbits v
    exact OperandRep.of_interpretNode (rel_map_left.2 hself) hver hvals hv
  exact ⟨hop.conforms, hop.oneHot, hvector⟩

theorem tracks_conforms {operands : List BddValue} (h : Forall₂ (Tracks s σ) operands vals) :
    Forall₂ Value.Conforms vals (operands.map fun o => o.node.type) := by
  rw [forall₂_map_right_iff]
  exact (h.imp fun _ _ h => h.conforms).flip

/-- The loop keeps pace with the interpreter: after every node the vectors stand for
the values computed so far. -/
theorem visitNodes_tracks {ns : List Node} {values' : List BddValue} {vals' : List Value}
    (htracks : Forall₂ (Tracks s σ) values vals)
    (hver : verifyFrom params (values.map BddValue.node) ns = true)
    (hr : visitNodes pathLimit nodeFilter values s ns = .ok (values', s'))
    (hv : Interpreter.visit env args vals ns = .ok vals') :
    ∃ σ' news, Extends s σ s' σ' ∧ Forall₂ (Tracks s' σ') values' vals' ∧
      values' = values ++ news ∧ Log s news s' := by
  induction ns generalizing values s σ vals with
  | nil =>
    cases hr
    cases hv
    exact ⟨σ, [], Extends.refl _ σ, htracks, (append_nil _).symm, Log.nil _⟩
  | cons n ns ih =>
    rw [verifyFrom, Bool.and_eq_true] at hver
    obtain ⟨hn, hns⟩ := hver
    obtain ⟨found, hfound, hr⟩ := Result.bind_eq_ok.1 hr
    obtain ⟨foundVals, hfoundVals, hv⟩ := Result.bind_eq_ok.1 hv
    obtain ⟨v, hnv, hv⟩ := Result.bind_eq_ok.1 hv
    rw [derefOption_eq_ok] at hfound hfoundVals
    have hops := collect_tracks htracks hfound hfoundVals
    cases htypes : operandTypes (values.map BddValue.node) n.operands with
    | none => simp [htypes] at hn
    | some types =>
      rw [htypes] at hn
      dsimp only at hn
      rw [← collect_nodeTypes hfound htypes] at hn
      split at hr
      · rename_i hbits
        obtain ⟨⟨vector, saturated, t⟩, hvector, hr⟩ := Result.bind_eq_ok.1 hr
        obtain ⟨σ', hvisited⟩ := nodeVector_visited hbits hops hn hvector hnv
        obtain ⟨b, hb, hrep⟩ := hvisited.represents
        have hnew : Tracks t σ' ⟨n, some vector, saturated⟩ v := by
          refine tracks_of_interpretNode hn (tracks_conforms hops) hnv ?_
          rintro vec ⟨⟩
          exact ⟨b, hb, hrep.stands⟩
        have hold := htracks.imp fun o w h => Tracks.mono h hvisited.extends_
        obtain ⟨σ'', news, hext, hall, rfl, hlog⟩ :=
          ih (rel_append hold (Forall₂.cons hnew Forall₂.nil))
            (by rwa [map_append]) hr hv
        refine ⟨σ'', ⟨n, some vector, saturated⟩ :: news, hvisited.extends_.trans hext, hall,
          by rw [append_assoc, singleton_append], ?_⟩
        exact Log.vector hbits hvisited.extends_.grows hrep.valid hvisited.unsaturated
          hrep.based hlog
      · rename_i hbits
        have hnew : Tracks s σ ⟨n, none, false⟩ v :=
          tracks_of_interpretNode hn (tracks_conforms hops) hnv fun vec h => by cases h
        obtain ⟨σ'', news, hext, hall, rfl, hlog⟩ :=
          ih (rel_append htracks (Forall₂.cons hnew Forall₂.nil))
            (by rwa [map_append]) hr hv
        refine ⟨σ'', ⟨n, none, false⟩ :: news, hext, hall,
          by rw [append_assoc, singleton_append], ?_⟩
        exact Log.skip (by simpa using hbits) hlog

/-- A vector of indices stands for the value of a node in the run. -/
def VectorStands (s : BddState) (σ : Nat → Bool) (vector : Option (List Nat)) (v : Value) : Prop :=
  ∀ is, vector = some is → ∃ b, v = .leaf b ∧
    Forall₂ (s.Denotes σ) is b.toBools

/-- The entry of a node in the map stands for its value. -/
theorem toBddNodeVector_stands {o : BddValue} {v : Value} (h : Tracks s σ o v)
    {vector : Option (List Nat)} (hvector : toBddNodeVector o = some vector) :
    VectorStands s σ vector v := by
  rintro is rfl
  unfold toBddNodeVector at hvector
  split at hvector
  · cases hvector
  · rename_i vec hvec
    rw [Option.map_eq_some_iff] at hvector
    obtain ⟨js, hjs, hsome⟩ := hvector
    cases hsome
    obtain ⟨b, hb, hstands⟩ := h.vector vec hvec
    refine ⟨b, hb, ?_⟩
    rw [collect_eq_some] at hjs
    have hindex : Forall₂ (fun i e => e = SaturatingBddNodeIndex.index i) is vec := by
      refine (hjs.flip).imp fun i e hie => ?_
      cases e with
      | index j =>
        cases hie
        rfl
      | tooManyPaths => cases hie
    refine forall₂_comp ?_ hindex hstands
    rintro i e bit rfl hbit
    exact hbit.index

/-- The vectors of `Run` stand for the values of every run of the interpreter, under a
valuation of the variables that depends on the run. -/
theorem run_stands {f : Function} (hrun : Interpreter.run env f args = .ok vals) {bf : BddFunction}
    (hbf : run f pathLimit nodeFilter = .ok bf) :
    ∃ σ, Forall₂ (VectorStands bf.bdd σ) bf.nodeMap vals := by
  obtain ⟨⟨values, s⟩, hvalues, hbf⟩ := Result.bind_eq_ok.1 hbf
  obtain ⟨nodeMap, hmap, hbf⟩ := Result.bind_eq_ok.1 hbf
  cases hbf
  rw [derefOption_eq_ok, collect_eq_some] at hmap
  have hnil : Forall₂ (Tracks emptyState fun _ => false) [] [] := Forall₂.nil
  obtain ⟨σ, news, -, hall, -⟩ :=
    visitNodes_tracks hnil f.verified hvalues (Interpreter.visit_of_run hrun)
  refine ⟨σ, forall₂_comp ?_ hmap.flip hall⟩
  intro vector o v hvector htracks
  exact toBddNodeVector_stands htracks hvector

end BddFunction

end Xls

import Xls.ComparisonSimplification.Ranges

/-!
# Xls.ComparisonSimplification.Equivalences

The equivalences that the first loop records are exact (`computeEquivalences_exact`): at
every recorded node, the value is whether the other node holds a value in the range. Nothing
is assumed about the order in which the loop visits the nodes.
-/

namespace Xls

open Interpreter List Bool
open Graph (World)
open Graph.World

namespace ComparisonSimplification

open Canonicalization (At Operands exists_at has_bits)
open StatelessQueryEngine (isFullyKnown knownValueAsBits knownValueAsBits_sound)

variable {env : Env} {args : List Value} {w : World env args} {id : Nat}

/-! ### Exact equivalences -/

/-- A node is true exactly where another node, below it, holds a value in the range. -/
structure Exact (w : World env args) (id : Nat) (e : RangeEquivalence) (x : Bits) : Prop where
  width : x.width = e.width
  other : w.Holds (w.rank id) e.node x
  node : w.Holds (w.rank id + 1) id (Bits.ofBool (e.holds x.val))

variable {e : RangeEquivalence} {equivalences : Equivalences}

theorem Exact.mono {w' : World env args} {x : Bits} (h : Exact w id e x) (hle : w ≤ w') :
    Exact w' id e x := by
  have hrank := hle.rank id h.node.lt
  constructor
  · exact h.width
  · rw [hrank]
    exact h.other.mono hle
  · rw [hrank]
    exact h.node.mono hle

/-- Every recorded equivalence is exact. -/
def AllExact (w : World env args) (equivalences : Equivalences) : Prop :=
  ∀ id e, equivalences.lookup id = some e → ∃ x, Exact w id e x

/-- The other node determines the value that is in the range. -/
theorem Exact.value_unique {o o' : Nat} {e' : RangeEquivalence} {x x' : Bits} (h : Exact w o e x)
    (h' : Exact w o' e' x') (hnode : e.node = e'.node) : x = x' := by
  have hx := h.other.value
  rw [hnode, h'.other.value] at hx
  exact (LeafTree.leaf.inj (Option.some.inj hx)).symm

/-! ### Logical operations -/

variable {f : Bool → Bool → Bool} {types : List IrType} {ops : List Value}
  {es : List RangeEquivalence}

theorem naryFold_ofBool {F : Bits → Bits → Bits}
    (hF : ∀ p q, F (Bits.ofBool p) (Bits.ofBool q) = Bits.ofBool (f p q)) (p : Bool)
    (ps : List Bool) :
    naryFold F ((p :: ps).map Bits.ofBool) = .ok (Bits.ofBool (ps.foldl f p)) := by
  rw [map_cons, naryFold]
  induction ps generalizing p with
  | nil => rfl
  | cons q ps ih =>
    rw [map_cons, foldlM_cons]
    show (Except.ok (F (Bits.ofBool p) (Bits.ofBool q)) >>= _) = _
    rw [hF, Result.ok_bind, ih (f p q)]
    rfl

theorem and_ofBool (p q : Bool) : (Bits.ofBool p).and (Bits.ofBool q) = Bits.ofBool (p && q) := by
  cases p <;> cases q <;> rfl

theorem or_ofBool (p q : Bool) : (Bits.ofBool p).or (Bits.ofBool q) = Bits.ofBool (p || q) := by
  cases p <;> cases q <;> rfl

theorem not_ofBool (p : Bool) : (Bits.ofBool p).not = Bits.ofBool (!p) := by
  cases p <;> rfl

/-- One-bit values. -/
def conditions (ps : List Bool) : List Value := ps.map fun p => .leaf (Bits.ofBool p)

theorem bitsVector_conditions (ps : List Bool) :
    Interpreter.bitsVector (conditions ps) = .ok (ps.map Bits.ofBool) := by
  have hmap : conditions ps = (ps.map Bits.ofBool).map LeafTree.leaf := by
    rw [map_map]
    rfl
  rw [hmap, bitsVector_leaves]

/-- What the recorded equivalences say of the operands of a node. -/
theorem operands_of_equivalences (h : AllExact w equivalences) {b : ℚ} {os : List Nat}
    (hos : Forall₂ (fun o e => equivalences.lookup o = some e) os es)
    (hops : Operands w b os types ops) :
    Forall₂ (fun e op => ∃ o x, w.rank o < b ∧ Exact w o e x ∧
      op = .leaf (Bits.ofBool (e.holds x.val))) es ops := by
  induction hops generalizing es with
  | nil =>
    cases hos
    exact .nil
  | cons ho _ ih =>
    cases hos with
    | cons hlookup hrest =>
      obtain ⟨x, hexact⟩ := h _ _ hlookup
      refine .cons ⟨_, x, ho.rank, hexact, ?_⟩ (ih hrest)
      have hvalue := hexact.node.value
      rw [ho.value] at hvalue
      exact Option.some.inj hvalue

/-- Equivalences of operands reduced to one of the node. -/
theorem reduceEquivalence_exact {n : Node} {v : Value} (hat : At w id n types ops v)
    (htype : n.type = .bits 1) (h : AllExact w equivalences)
    (hos : Forall₂ (fun o e => equivalences.lookup o = some e) n.operands es)
    {reduce : (width : Nat) → IntervalSet width → IntervalSet width → IntervalSet width}
    (hf : ActsAs reduce f) {complement : Bool} (hvalue : ∀ p ps, ops = conditions (p :: ps) →
      v = .leaf (Bits.ofBool (complement ^^ ps.foldl f p))) :
    ∃ o, reduceEquivalence es reduce complement = .ok o ∧
      ∀ r, o = some r → ∃ x, Exact w id r x := by
  have hops := operands_of_equivalences h hos hat.operands
  cases hops with
  | nil => exact ⟨none, rfl, fun r hr => nomatch hr⟩
  | @cons e op es ops hfirst hrest =>
    obtain ⟨o, x, hrank, hexact, rfl⟩ := hfirst
    -- equivalences of one node have the width of its value
    have hsame : ∀ c ∈ es, ∃ o' x', Exact w o' c x' := by
      intro c hc
      obtain ⟨i, hi, rfl⟩ := getElem_of_mem hc
      obtain ⟨o', x', -, hc', -⟩ := Forall₂.get hrest hi (by rwa [← hrest.length_eq])
      exact ⟨o', x', hc'⟩
    have hwidth : ∀ c ∈ es, c.node = e.node → c.width = e.width := by
      intro c hc hnode
      obtain ⟨o', x', hc'⟩ := hsame c hc
      rw [← hc'.width, hc'.value_unique hexact hnode, hexact.width]
    obtain ⟨r, hr, hspec⟩ := @reduceEquivalence_ok _ _ hf complement _ _ hwidth
    refine ⟨r, hr, fun r' hr' => ⟨x, ?_⟩⟩
    obtain ⟨hnode, hrwidth, hnodes, hholds⟩ := hspec r' hr'
    have hrest' : ops = conditions (es.map fun c => c.holds x.val) := by
      apply ext_getElem
      · simp [conditions, hrest.length_eq]
      · intro i hi _
        have hi' : i < es.length := by rwa [hrest.length_eq]
        obtain ⟨o', x', -, hc', hop⟩ := Forall₂.get hrest hi' hi
        rw [hc'.value_unique hexact (hnodes _ (getElem_mem hi'))] at hop
        simpa [conditions] using hop
    have hv := hvalue (e.holds x.val) (es.map fun c => c.holds x.val) (by rw [hrest']; rfl)
    have hlt : x.val < 2 ^ e.width := by
      rw [← hexact.width]
      exact x.isLt
    constructor
    · rw [hrwidth, hexact.width]
    · rw [hnode]
      exact ⟨hexact.other.type, hexact.other.value, hexact.other.rank.trans hrank⟩
    · have hhas := hat.has
      rw [htype, hv, ← hholds x.val hlt] at hhas
      exact hhas.holds

/-- The value of a bitwise operation on conditions. -/
theorem naryOp_conditions {op : NaryOp} {p : Bool} {ps : List Bool} {v : Value}
    {type : IrType} (heval : evalNode env args (.nary op) type (conditions (p :: ps)) = .ok v) :
    (op = .and → v = .leaf (Bits.ofBool (ps.foldl and p))) ∧
    (op = .or → v = .leaf (Bits.ofBool (ps.foldl or p))) ∧
    (op = .nand → v = .leaf (Bits.ofBool (!ps.foldl and p))) ∧
    (op = .nor → v = .leaf (Bits.ofBool (!ps.foldl or p))) := by
  have hbits := bitsVector_conditions (p :: ps)
  have hand := naryFold_ofBool and_ofBool p ps
  have hor := naryFold_ofBool or_ofBool p ps
  change (Interpreter.bitsVector _ >>= fun xs => Interpreter.naryOp op xs >>= fun r => _) = _
    at heval
  rw [hbits, Result.ok_bind] at heval
  refine ⟨?_, ?_, ?_, ?_⟩
  · intro hop
    subst hop
    rw [Interpreter.naryOp, hand] at heval
    cases heval
    rfl
  · intro hop
    subst hop
    rw [Interpreter.naryOp, hor] at heval
    cases heval
    rfl
  · intro hop
    subst hop
    rw [Interpreter.naryOp, hand] at heval
    cases heval
    rw [← not_ofBool]
  · intro hop
    subst hop
    rw [Interpreter.naryOp, hor] at heval
    cases heval
    rw [← not_ofBool]

/-- The equivalence derived for a logic operation of equivalences is exact. -/
theorem logicalEquivalence_exact {n : Node} (hn : w.graph.nodes[id]? = some n)
    (htype : n.type = .bits 1) (h : AllExact w equivalences) :
    ∃ o, logicalEquivalence equivalences n = .ok o ∧ ∀ e, o = some e → ∃ x, Exact w id e x := by
  obtain ⟨types, ops, v, hat⟩ := exists_at hn
  have heval := hat.eval
  have hnone : ∃ o, (return none : Result (Option RangeEquivalence)) = .ok o ∧
      ∀ e, o = some e → ∃ x, Exact w id e x := ⟨none, rfl, fun e he => nomatch he⟩
  unfold logicalEquivalence
  split
  · exact hnone
  · rename_i es hes
    rw [LeafTree.collect_eq_some] at hes
    split
    · rename_i hkind
      rw [hkind] at heval
      refine reduceEquivalence_exact hat htype h hes actsAs_intersect fun p ps hops => ?_
      rw [hops] at heval
      rw [false_xor]
      exact (naryOp_conditions heval).1 rfl
    · rename_i hkind
      rw [hkind] at heval
      refine reduceEquivalence_exact hat htype h hes actsAs_combine fun p ps hops => ?_
      rw [hops] at heval
      rw [false_xor]
      exact (naryOp_conditions heval).2.1 rfl
    · rename_i hkind
      rw [hkind] at heval
      refine reduceEquivalence_exact hat htype h hes actsAs_intersect fun p ps hops => ?_
      rw [hops] at heval
      rw [true_xor]
      -- an inverter has one operand
      cases ps with
      | nil =>
        cases heval
        exact congrArg LeafTree.leaf (not_ofBool p)
      | cons q ps => cases heval
    · rename_i hkind
      rw [hkind] at heval
      refine reduceEquivalence_exact hat htype h hes actsAs_intersect fun p ps hops => ?_
      rw [hops] at heval
      rw [true_xor]
      exact (naryOp_conditions heval).2.2.1 rfl
    · rename_i hkind
      rw [hkind] at heval
      refine reduceEquivalence_exact hat htype h hes actsAs_combine fun p ps hops => ?_
      rw [hops] at heval
      rw [true_xor]
      exact (naryOp_conditions heval).2.2.2 rfl
    · exact hnone

/-! ### Comparisons -/

/-- A comparison of a node with a constant, on either side. -/
theorem constantEquivalence_exact {op : CompareOp} {other : Nat} {c z : Bits} {onRhs : Bool}
    (hz : w.Holds (w.rank id) other z) (hwidth : z.width = c.width)
    (hvalue : w.Holds (w.rank id + 1) id (Bits.ofBool (compareBits op
      (if onRhs then z else c) (if onRhs then c else z))))
    (he : constantEquivalence op other c onRhs = some e) : ∃ x, Exact w id e x := by
  obtain ⟨hnode, hewidth, hcovers⟩ := constantEquivalence_spec he
  refine ⟨z, ?_, ?_, ?_⟩
  · rw [hewidth, hwidth]
  · rw [hnode]
    exact hz
  · rw [RangeEquivalence.holds, hcovers z hwidth]
    exact hvalue

/-- The equivalence recorded for a node is exact. -/
theorem computeRangeEquivalence_exact (hid : id < w.graph.nodes.length)
    (h : AllExact w equivalences) :
    ∃ o, computeRangeEquivalence w.graph equivalences id = .ok o ∧
      ∀ e, o = some e → ∃ x, Exact w id e x := by
  obtain ⟨n, hn⟩ : ∃ n, w.graph.nodes[id]? = some n := ⟨_, getElem?_eq_getElem hid⟩
  have hnone : ∃ o, (return none : Result (Option RangeEquivalence)) = .ok o ∧
      ∀ e, o = some e → ∃ x, Exact w id e x := ⟨none, rfl, fun e he => nomatch he⟩
  unfold computeRangeEquivalence
  have hderef : derefOption w.graph.nodes[id]? = .ok n := by
    rw [hn]
    rfl
  rw [hderef, Result.ok_bind]
  split
  · exact hnone
  · rename_i htype
    have htype : n.type = .bits 1 := not_not.1 htype
    -- a comparison with a constant is tried first, then the logic operations
    split
    · rename_i op lhs rhs hkind hoperands
      obtain ⟨t, u, u', r, hat, hlhs, hrhs, -, hcompare⟩ :=
        Canonicalization.exists_compare hn hkind hoperands
      split
      · exact hnone
      · rename_i hbits
        rw [hlhs.type, Option.any_some, not_eq_true', not_eq_false] at hbits
        obtain ⟨k, rfl⟩ := IrType.eq_bits_of_isBits hbits
        obtain ⟨x, rfl, hx⟩ := has_bits hlhs
        obtain ⟨y, rfl, hy⟩ := has_bits hrhs
        have hvalue : w.Holds (w.rank id + 1) id
            (Bits.ofBool (compareBits op x y)) := by
          have hhas := hat.has
          rw [htype] at hhas
          rw [compareOp_leaf] at hcompare
          cases hcompare
          exact hhas.holds
        have hxh : w.Holds (w.rank id) lhs x := by
          rw [← hx] at hlhs
          exact hlhs.holds
        have hyh : w.Holds (w.rank id) rhs y := by
          rw [← hy] at hrhs
          exact hrhs.holds
        split
        · rename_i hknown
          rw [StatelessQueryEngine.knownValueAsBits_of_isFullyKnown hknown hxh]
          exact ⟨_, rfl, fun e he =>
            constantEquivalence_exact hyh (hy.trans hx.symm) hvalue he⟩
        · split
          · rename_i hknown
            rw [StatelessQueryEngine.knownValueAsBits_of_isFullyKnown hknown hyh]
            exact ⟨_, rfl, fun e he =>
              constantEquivalence_exact hxh (hx.trans hy.symm) hvalue he⟩
          · exact logicalEquivalence_exact hn htype h
    · exact logicalEquivalence_exact hn htype h

/-- The induction over the nodes in any order. -/
theorem computeEquivalences_exact {order : List Nat}
    (horder : ∀ id ∈ order, id < w.graph.nodes.length) (h : AllExact w equivalences) :
    ∃ out, computeEquivalences w.graph order equivalences = .ok out ∧ AllExact w out := by
  induction order generalizing equivalences with
  | nil => exact ⟨equivalences, rfl, h⟩
  | cons id order ih =>
    obtain ⟨hid, horder⟩ := forall_mem_cons.1 horder
    obtain ⟨o, ho, hexact⟩ := computeRangeEquivalence_exact hid h
    rw [computeEquivalences, ho, Result.ok_bind]
    cases o with
    | none => exact ih horder h
    | some e =>
      refine ih horder fun id' e' hlookup => ?_
      rw [lookup_cons] at hlookup
      by_cases hsame : id' = id
      · rw [beq_iff_eq.2 hsame] at hlookup
        cases hlookup
        rw [hsame]
        exact hexact e rfl
      · rw [beq_eq_false_iff_ne.2 hsame] at hlookup
        exact h id' e' hlookup

end ComparisonSimplification

end Xls

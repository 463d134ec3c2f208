import Xls.Interpreter.ToBools
import Xls.OneBitMux.Sound
import Xls.Ternary

/-!
# Xls.StatelessQueryEngine

The engine that looks at one node at a time (`xls/passes/stateless_query_engine.cc`), for
nodes of bits types: literals are known, and so are the high bits of a zero extension.
-/

namespace Xls

open TernaryVector Canonicalization Bits List
open Graph (World)
open Graph.World

namespace StatelessQueryEngine

/-! ### The engine -/

/-- `IsFullyKnown`. -/
def isFullyKnown (g : Graph) (id : Nat) : Bool := OneBitMux.isLiteral g id

/-- `GetTernary` of a node of a bits type. -/
def getTernary (g : Graph) (n : Node) (width : Nat) : TernaryVector :=
  match n.kind, n.operands with
  | .literal (.leaf b), _ => TernaryVector.ofBits b
  | .extend .zeroExt _, [arg] =>
    match g.nodes[arg]?.map Node.type with
    | some (.bits argWidth) =>
      replicate argWidth .unknown ++ replicate (width - argWidth) .knownZero
    | _ => replicate width .unknown
  | _, _ => replicate width .unknown

/-- `KnownValueAsBits`. -/
def knownValueAsBits (g : Graph) (id : Nat) : Option Bits := do
  let n ← g.nodes[id]?
  match n.type with
  | .bits width =>
    let ternary := getTernary g n width
    if ternary.isFullyKnown then some (ofBools ternary.toKnownBitsValues) else none
  | _ => none

/-! ### Soundness -/

variable {env : Env} {args : List Value} {w : World env args} {id : Nat} {n : Node}

theorem admits_unknown (bs : List Bool) :
    TernaryVector.Admits (replicate bs.length .unknown) bs := by
  induction bs with
  | nil => exact .nil
  | cons b bs ih => exact .cons trivial ih

theorem admits_zeroes (n : Nat) :
    TernaryVector.Admits (replicate n .knownZero) (replicate n false) := by
  induction n with
  | zero => exact .nil
  | succ n ih => exact .cons rfl ih

variable {x : Bits}

/-- What `GetTernary` says of a node holds of its value. -/
theorem admits_getTernary (hn : w.graph.nodes[id]? = some n) (htype : n.type = .bits x.width)
    (hx : w.vals[id]? = some (.leaf x)) :
    TernaryVector.Admits (getTernary w.graph n x.width) x.toBools := by
  have hany : TernaryVector.Admits (replicate x.width .unknown) x.toBools := by
    have hunknown := admits_unknown x.toBools
    rwa [toBools_length] at hunknown
  obtain ⟨types, ops, v, hat⟩ := exists_at hn
  have heval := hat.eval
  have hverify := hat.verified
  have hops := hat.operands
  rw [hat.value] at hx
  cases hx
  unfold getTernary
  split
  · rename_i b _ hkind
    rw [hkind] at heval
    cases heval
    exact admits_ofBits x
  · rename_i newBitCount arg hkind hoperands
    split
    · rename_i argWidth harg
      rw [hoperands] at hops
      rw [hkind, htype] at heval hverify
      cases hops with
      | cons ha hnil =>
        cases hnil
        have hargType := ha.type
        rw [harg] at hargType
        cases hargType
        obtain ⟨a, rfl, rfl⟩ := has_bits ha
        simp only [verifyNode, Bool.and_eq_true, decide_eq_true_eq, beq_iff_eq] at hverify
        obtain ⟨⟨hle, -⟩, hwidth⟩ := hverify
        cases hwidth
        -- the value is that of the argument, so its high bits are zero
        change (Interpreter.extendOp .zeroExt x.width a >>= fun r => _) = _ at heval
        unfold Interpreter.extendOp at heval
        rw [decide_eq_true hle] at heval
        have hx : a.zeroExtend x.width = x :=
          LeafTree.leaf.inj (Except.ok.inj heval)
        have hbools := toBools_zeroExtend hle
        rw [hx] at hbools
        have hlow := admits_unknown a.toBools
        rw [toBools_length] at hlow
        rw [hbools]
        exact rel_append hlow (admits_zeroes _)
    · exact hany
  · exact hany

/-- What the engine knows is the value of the node. -/
theorem knownValueAsBits_sound (h : knownValueAsBits w.graph id = some x) :
    w.vals[id]? = some (.leaf x) ∧ w.graph.nodes[id]?.map Node.type = some (.bits x.width) := by
  unfold knownValueAsBits at h
  obtain ⟨n, hn, h⟩ := Option.bind_eq_some_iff.1 h
  split at h
  · rename_i width htype
    obtain ⟨types, ops, v, hat⟩ := exists_at hn
    have hconf := hat.conforms
    rw [htype] at hconf
    obtain ⟨y, rfl, rfl⟩ := Value.conforms_bits hconf
    have hadmits := admits_getTernary hn htype hat.value
    dsimp only at h
    split at h
    · rename_i hknown
      cases h
      rw [← eq_of_isFullyKnown hknown hadmits, ofBools_toBools]
      refine ⟨hat.value, ?_⟩
      rw [hn]
      exact congrArg some htype
    · cases h
  · cases h

theorem isFullyKnown_ofBits (b : Bits) : (TernaryVector.ofBits b).isFullyKnown = true := by
  rw [TernaryVector.isFullyKnown, TernaryVector.ofBits, all_map, all_eq_true]
  intro bit _
  cases bit <;> rfl

/-- The value of a literal is known. -/
theorem knownValueAsBits_of_isFullyKnown {b : ℚ} (h : isFullyKnown w.graph id = true)
    (hx : w.Holds b id x) : knownValueAsBits w.graph id = some x := by
  obtain ⟨n, hn, htype⟩ := Option.map_eq_some_iff.1 hx.type
  obtain ⟨types, ops, v, hat⟩ := exists_at hn
  have heval := hat.eval
  have hvalue := hat.value
  rw [hx.value] at hvalue
  cases hvalue
  unfold isFullyKnown OneBitMux.isLiteral at h
  rw [hn] at h
  split at h
  · rename_i value operands type hnode
    cases hnode
    cases heval
    cases htype
    have hvalues := eq_of_isFullyKnown (isFullyKnown_ofBits x)
      (admits_ofBits x)
    have hternary : getTernary w.graph ⟨.literal (.leaf x), operands, .bits x.width⟩ x.width =
        TernaryVector.ofBits x := rfl
    rw [knownValueAsBits, hn]
    show (if (getTernary w.graph _ x.width).isFullyKnown then
      some (ofBools (toKnownBitsValues _)) else none) = _
    rw [hternary, if_pos (isFullyKnown_ofBits x), ← hvalues, ofBools_toBools]
  · cases h

end StatelessQueryEngine

end Xls

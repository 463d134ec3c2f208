import Xls.IntervalOps.Arith
import Xls.IntervalOps.TernaryConv
import Xls.Narrowing.Indices
import Xls.Narrowing.MultiplySound

/-!
# Xls.Narrowing.PartialMultiply

When the narrowing of a partial multiply keeps the meaning of the graph, and with it when
that of any multiply does (`handleMultiply_returns`). The sum of the two parts of a partial
product is the product.
-/

namespace Xls

open Interpreter Bits Canonicalization Option Except List
open Graph (Build World getNode bitCountOrDie makeNode replaceUsesWith)
open Graph.World

namespace Narrowing

open Bits (mulOp)

variable {env : Env} {args : List Value} {w : World env args} {b : ℚ}
  {e : SpecializedQueryEngines} {id width : Nat} {lhs rhs : Operand} {x y : Bits}

/-! ### The parts of a partial product -/

/-- The parts of a partial product. -/
def parts (p : Bits) : List Bits :=
  [mulpOffset p.width 2, p.sub (mulpOffset p.width 2)]

theorem add_sub_offset (p : Bits) :
    (mulpOffset p.width 2).add (p.sub (mulpOffset p.width 2)) = p := by
  have hwidth := mulpOffset_width p.width 2
  have hlt := (mulpOffset p.width 2).isLt
  rw [hwidth] at hlt
  refine Bits.ext hwidth ?_
  rw [Bits.add, Bits.sub, ofNat_val, ofNat_val, hwidth, Nat.add_mod_mod,
    Nat.add_sub_cancel' (by omega), Nat.add_mod_right, Nat.mod_eq_of_lt p.isLt]

variable {p : Bits} {i l : Nat}

/-- The two parts add up to the product, in either order. -/
theorem add_parts {u v : Bits} {j : Nat} (hi : (parts p)[i]? = some u) (hj : (parts p)[j]? = some v)
    (hne : i ≠ j) : u.add v = p := by
  have hwidth : (mulpOffset p.width 2).width = (p.sub (mulpOffset p.width 2)).width := by
    rw [mulpOffset_width, sub_width]
  match i, j with
  | 0, 0 => exact absurd rfl hne
  | 0, 1 =>
    cases hi
    cases hj
    exact add_sub_offset p
  | 1, 0 =>
    cases hi
    cases hj
    rw [add_comm_bits hwidth.symm]
    exact add_sub_offset p
  | 1, 1 => exact absurd rfl hne
  | i + 2, _ => cases hi
  | _, j + 2 => cases hj

/-- The value of a partial product. -/
def partsValue (p : Bits) : Value := .node ((parts p).map .leaf)

/-- A node that holds the parts of a product. -/
abbrev HasParts (w : World env args) (b : ℚ) (id : Nat) (p : Bits) : Prop :=
  w.Has b id (.tuple [.bits p.width, .bits p.width]) (partsValue p)

/-! ### The addition of the parts -/

/-- A user of the partial product that is summed has one of the parts. -/
theorem summand_eq {user : Nat} {n : Node} (hp : HasParts w b id p)
    (hn : w.graph.nodes[user]? = some n) (huse : id ∈ n.operands) :
    ∃ r, summand w.graph user = .ok r ∧ ∀ index add, r = some (index, add) →
      (∃ u, (parts p)[index]? = some u ∧ w.vals[user]? = some (.leaf u)) ∧
        w.rank id < w.rank user ∧ add ∈ userIds w.graph user ∧
        w.graph.nodes[add]?.map Node.kind = some (.bin .add) := by
  unfold summand
  rw [hn, map_some]
  split
  · rename_i index hkind
    obtain ⟨types, ops, v, hat⟩ := exists_at hn
    have hverified := hat.verified
    have heval := hat.eval
    have hoperands := hat.operands
    rw [some.inj hkind] at hverified heval
    -- the only operand is the partial product
    obtain ⟨o, hone, t, a, rfl, rfl, ha⟩ : ∃ o, n.operands = [o] ∧ ∃ t a, types = [t] ∧
        ops = [a] ∧ w.Has (w.rank user) o t a := by
      generalize n.operands = os at hoperands
      cases hoperands with
      | nil => simp [verifyNode] at hverified
      | @cons o t a _ _ _ ha hrest =>
        cases hrest with
        | nil => exact ⟨o, rfl, t, a, rfl, rfl, ha⟩
        | cons _ _ => simp [verifyNode] at hverified
    rw [hone, mem_singleton] at huse
    subst huse
    cases hp.type.symm.trans ha.type
    cases hp.value.symm.trans ha.value
    have hpart : ∃ u, (parts p)[index]? = some u ∧ v = .leaf u := by
      change derefOption ((parts p).map LeafTree.leaf)[index]? = .ok v at heval
      rw [derefOption_eq_ok, getElem?_map, map_eq_some_iff] at heval
      obtain ⟨u, hu, rfl⟩ := heval
      exact ⟨u, hu, rfl⟩
    obtain ⟨u, hu, rfl⟩ := hpart
    have hindex : index < 2 := (List.getElem?_eq_some_iff.1 hu).1
    rw [decide_eq_true hindex, checkThat_true, Result.ok_bind]
    split
    · rename_i add husers
      split
      · rename_i hadd
        refine ⟨_, rfl, fun index' add' heq => ?_⟩
        cases heq
        refine ⟨⟨u, hu, hat.value⟩, ha.rank, ?_, hadd⟩
        rw [husers]
        exact mem_singleton_self _
      · exact ⟨none, rfl, fun _ _ h => by cases h⟩
    · exact ⟨none, rfl, fun _ _ h => by cases h⟩
  · exact ⟨none, rfl, fun _ _ h => by cases h⟩

/-- An addition of two nodes that hold the two parts of a product. -/
theorem holds_sum {u u' : Bits} {j user user' add : Nat} (hu : (parts p)[i]? = some u)
    (hu' : (parts p)[j]? = some u') (hne : i ≠ j) (hval : w.vals[user]? = some (.leaf u))
    (hval' : w.vals[user']? = some (.leaf u')) (husers : user ≠ user')
    (hmem : add ∈ userIds w.graph user) (hmem' : add ∈ userIds w.graph user')
    (hkind : w.graph.nodes[add]?.map Node.kind = some (.bin .add))
    (hrank : w.rank id < w.rank user) :
    w.Holds (w.rank add + 1) add p ∧ w.rank id < w.rank add := by
  obtain ⟨m, hm, huse⟩ := uses_of_mem_userIds hmem
  obtain ⟨m', hm', huse'⟩ := uses_of_mem_userIds hmem'
  cases hm.symm.trans hm'
  rw [hm, map_some, some.injEq] at hkind
  obtain ⟨types, ops, v, hat⟩ := exists_at hm
  obtain ⟨l, r, hoperands, x, y, hx, hy, -, hwidth, z, -, -, hz, heval⟩ :=
    exists_two_operands hat hkind
  have hyx : y.width = x.width := hwidth.resolve_left nofun
  have hsum : z = x.add y := by
    change (checkThat (x.width == y.width) >>= fun _ => ok (x.add y)) = ok z at heval
    rw [hyx, beq_self_eq_true] at heval
    exact (ok.inj heval).symm
  refine ⟨?_, hrank.trans (w.ranked add m hm user huse)⟩
  rw [hoperands, mem_pair] at huse huse'
  have hproduct : x.add y = p := by
    rcases huse with rfl | rfl
    · obtain rfl := huse'.resolve_left husers.symm
      cases hx.value.symm.trans hval
      cases hy.value.symm.trans hval'
      exact add_parts hu hu' hne
    · obtain rfl := huse'.resolve_right husers.symm
      cases hy.value.symm.trans hval
      cases hx.value.symm.trans hval'
      exact add_parts hu' hu hne.symm
  rw [← hproduct, ← hsum]
  exact hz

/-- The immediate sum of the parts has the product as its value. -/
theorem partialMultiplyImmediateSum_eq (hp : HasParts w b id p) :
    ∃ r, partialMultiplyImmediateSum w.graph id = .ok r ∧ ∀ add, r = some add →
      w.Holds (w.rank add + 1) add p ∧ w.rank id < w.rank add := by
  unfold partialMultiplyImmediateSum
  split
  · rename_i user user' husers
    obtain ⟨n, hn, huse⟩ := uses_of_mem_userIds (show user ∈ userIds w.graph id by simp [husers])
    obtain ⟨n', hn', huse'⟩ :=
      uses_of_mem_userIds (show user' ∈ userIds w.graph id by simp [husers])
    obtain ⟨r, hr, hsummand⟩ := summand_eq hp hn huse
    obtain ⟨r', hr', hsummand'⟩ := summand_eq hp hn' huse'
    rw [hr, Result.ok_bind]
    cases r with
    | none => exact ⟨none, rfl, nofun⟩
    | some first =>
      obtain ⟨index, add⟩ := first
      dsimp only
      rw [hr', Result.ok_bind]
      cases r' with
      | none => exact ⟨none, rfl, nofun⟩
      | some second =>
        obtain ⟨index', add'⟩ := second
        dsimp only
        split
        · rename_i hsame
          obtain ⟨hne, rfl⟩ := hsame
          refine ⟨_, rfl, fun sum heq => ?_⟩
          cases heq
          obtain ⟨⟨u, hu, huval⟩, hrank, hmem, hkind⟩ := hsummand _ _ rfl
          obtain ⟨⟨u', hu', huval'⟩, -, hmem', -⟩ := hsummand' _ _ rfl
          have husers : user ≠ user' := by
            rintro rfl
            rw [hr] at hr'
            cases hr'
            exact hne rfl
          exact holds_sum hu hu' hne huval huval' husers hmem hmem' hkind hrank
        · exact ⟨none, rfl, nofun⟩
  · exact ⟨none, rfl, nofun⟩

/-! ### Partial multiplies -/

section PartialMultiply

variable {op : PartialProductOp}

theorem mulpOp_beq (op : PartialProductOp) : mulpOp (op == .smulp) = op := by
  cases op <;> rfl

/-- The product that a partial multiply stands for. -/
def product (op : PartialProductOp) (width : Nat) (x y : Bits) : Bits :=
  arithOp (mulOp (op == .smulp)) width x y

theorem product_width (op : PartialProductOp) (width : Nat) (x y : Bits) :
    (product op width x y).width = width := arithOp_width _ _ _ _

theorem partialProductOp_eq (op : PartialProductOp) (width : Nat) (x y : Bits) :
    partialProductOp op width x y = partsValue (product op width x y) := by
  rw [partsValue, parts, product_width]
  cases op <;> rfl

theorem makes_parts (w : World env args) (b : ℚ) (width : Nat) :
    Makes w b (fun signed => makePartialProductOp (mulpOp signed) width) width
      (.tuple [.bits width, .bits width]) partsValue := by
  intro w' hle signed i j x y hx hy
  refine (makes_makePartialProductOp w b width w' hle signed i j x y hx hy).imp
    fun w'' id _ hid => ?_
  rw [partsValue, parts, arithOp_width]
  exact hid

/-- A part of the partial product. -/
theorem ensures_makeTupleIndex {i index : Nat} {p u : Bits} (hp : HasParts w b i p)
    (hu : (parts p)[index]? = some u) :
    w.Ensures (makeTupleIndex i index) fun w' id => w'.Holds b id u := by
  refine ensures_bind (emits_getNode hp).ensures fun w₁ n h₁ hn => ?_
  rw [hn]
  have htype : [IrType.bits p.width, .bits p.width][index]? = some (.bits u.width) := by
    match index with
    | 0 =>
      cases hu
      rw [mulpOffset_width]
      rfl
    | 1 =>
      cases hu
      rw [sub_width]
      rfl
    | index + 2 => cases hu
  refine ensures_lift (derefOption_eq_ok.2 htype) ?_
  have hoperands : Operands w₁ b [i] [.tuple [.bits p.width, .bits p.width]]
      [partsValue p] := .cons (hp.mono h₁) .nil
  refine ensures_makeBits (n := ⟨.tupleIndex index, [i], .bits u.width⟩) hoperands.types ?_ rfl
    hoperands.values ?_ hoperands.rank
  · simp only [verifyNode, htype, beq_self_eq_true]
  · show derefOption ((parts p).map LeafTree.leaf)[index]? = _
    rw [getElem?_map, hu]
    rfl

/-- The sum of the parts is the product. -/
theorem ensures_makePartialSum {i j : Nat} (hx : w.Holds b i x) (hy : w.Holds b j y) :
    w.Ensures (makePartialSum op width i j) fun w' id =>
      w'.Holds b id (product op width x y) := by
  have hmake : w.Ensures (makePartialProductOp op width i j) fun w' id =>
      HasParts w' b id (product op width x y) := by
    have h := makes_parts w b width w (le_refl w) (op == .smulp) i j x y hx hy
    dsimp only at h
    rw [mulpOp_beq] at h
    refine h.imp fun w' id _ hid => ?_
    rw [HasParts, product_width]
    exact hid
  refine ensures_bind hmake fun w₁ narrowedMul h₁ hm => ?_
  refine ensures_bind (ensures_makeTupleIndex hm (show (parts _)[0]? = _ from rfl))
    fun w₂ product0 h₂ h0 => ?_
  refine ensures_bind (ensures_makeTupleIndex (hm.mono h₂) (show (parts _)[1]? = _ from rfl))
    fun w₃ product1 h₃ h1 => ?_
  refine (ensures_add (h0.mono h₃) h1 ?_).imp fun w₄ sum _ hsum => ?_
  · rw [mulpOffset_width, sub_width]
  · rwa [add_sub_offset] at hsum

/-- A partial multiply returns under the same condition, with or without the sum of its parts. -/
theorem narrowPartialMultiply_returns {add : Option Nat}
    (hid : HasParts w (w.rank id + 1) id (product op width x y))
    (hadd : ∀ a, add = some a → w.Holds (w.rank a + 1) a (product op width x y) ∧
      w.rank id < w.rank a)
    (hl : OperandAt w (w.rank id) lhs x) (hr : OperandAt w (w.rank id) rhs y)
    (hlzero : ZeroSound e w lhs.id (some id)) (hrzero : ZeroSound e w rhs.id (some id)) :
    w.Returns (narrowPartialMultiply e id op width lhs rhs add) ↔
      ¬ (ExtendsEmpty (op == .smulp) width lhs rhs ∧ add ≠ none) := by
  have hoperands : w.Returns (narrowOperands e
      (fun signed => makePartialProductOp (mulpOp signed) width) (op == .smulp) id width lhs rhs >>=
        replaceBy id) := by
    have h := @ensures_narrowOperands _ _ _ _ e id _ _ _ _ _ _ _ _ (op == .smulp)
      (makes_parts w (w.rank id) width) hl hr hlzero hrzero
    refine Returns.of_ensures (P := fun _ _ => True) (ensures_bind h fun w₁ r h₁ hr' => ?_)
    refine ensures_replaceBy (hid.mono h₁) fun i hi => ?_
    rw [h₁.rank id hid.lt, product_width]
    exact hr'.2 i hi
  unfold narrowPartialMultiply
  cases add with
  | none => exact iff_of_true hoperands fun h => h.2 rfl
  | some a =>
    obtain ⟨ha, hrank⟩ := hadd a rfl
    by_cases hwide : lhs.bitCount + rhs.bitCount < width
    · have hsum : w.Ensures (makePartialSum op (lhs.bitCount + rhs.bitCount) lhs.id rhs.id)
          fun w' i => w'.Holds (w.rank a) i (product op (lhs.bitCount + rhs.bitCount) x y) :=
        ensures_makePartialSum (hl.holds.weaken hrank.le) (hr.holds.weaken hrank.le)
      rw [decide_eq_true hwide]
      constructor
      · intro hreturns ⟨⟨hsigned, hempty, hpos⟩, _⟩
        obtain ⟨sum, w₁, hrun, h₁, hs⟩ := hsum w (le_refl w)
        have htype := hs.type
        rw [product_width, hempty] at htype
        have hold := (ha.mono h₁).type
        rw [product_width] at hold
        refine @not_returns_signExtend _ _ w _ _ w₁ _ _ ?_ htype hold hpos hreturns
        dsimp only
        rw [run_bind_of_ok hrun, hsigned, run_maybeExtend_empty htype hpos]
      · intro hnonempty
        refine Returns.of_ensures (P := fun _ _ => True) ?_
        refine ensures_bind hsum fun w₁ sum h₁ hs => ?_
        refine ensures_bind (ensures_maybeExtend (op == .smulp) hs (by rwa [product_width])
          fun hsigned => ?_) fun w₂ extendedSum h₂ he => ?_
        · rw [product_width]
          exact Nat.pos_of_ne_zero fun hzero =>
            hnonempty ⟨⟨hsigned, hzero, by omega⟩, nofun⟩
        · have hextend := extend_mul (w := width) (x := x) (y := y) (op == .smulp)
          rw [← hl.bitCount, ← hr.bitCount] at hextend
          unfold product at he
          rw [hextend] at he
          exact ensures_done ha (h₁.trans h₂) he
    · rw [decide_eq_false hwide]
      refine iff_of_true hoperands fun h => ?_
      obtain ⟨⟨_, hempty, hpos⟩, _⟩ := h
      omega

end PartialMultiply

/-! ### All multiplies -/

/-- An operand of a bits type. -/
def operandOf (g : Graph) (id : Nat) : Option Operand :=
  match g.nodes[id]? with
  | some n =>
    match n.type with
    | .bits bitCount => some ⟨id, n, bitCount⟩
    | _ => none
  | none => none

/-- The narrowing of a multiply goes wrong: it sign-extends a product of no bits, or it takes more
trailing zeros off the operands than the product has bits. -/
def Breaks (e : SpecializedQueryEngines) (g : Graph) (id : Nat) (n : Node) : Prop :=
  match n.kind, n.operands with
  | .arith op, [l, r] => ∃ lhs rhs width, operandOf g l = some lhs ∧ operandOf g r = some rhs ∧
      n.type = .bits width ∧ (ExtendsEmpty (op == .smul) width lhs rhs ∨
        RemovesTooMany e (op == .smul) id width lhs rhs)
  | .partialProduct op width, [l, r] => ∃ lhs rhs, operandOf g l = some lhs ∧
      operandOf g r = some rhs ∧ ExtendsEmpty (op == .smulp) width lhs rhs ∧
        partialMultiplyImmediateSum g id ≠ .ok none
  | _, _ => False

/-- Nodes that are no multiply of two operands are left alone. -/
theorem not_breaks {e : SpecializedQueryEngines} {g : Graph} {id : Nat} {n : Node}
    (harith : ∀ op l r, n.kind = .arith op → n.operands = [l, r] → False)
    (hpair : ∀ op width l r, n.kind = .partialProduct op width → n.operands = [l, r] → False) :
    ¬Breaks e g id n := by
  unfold Breaks
  split
  · rename_i hkind hoperands
    exact (harith _ _ _ hkind hoperands).elim
  · rename_i hkind hoperands
    exact (hpair _ _ _ _ hkind hoperands).elim
  · exact not_false

theorem operandOf_eq {k : Nat} {m : Node} (hm : w.graph.nodes[l]? = some m)
    (ht : m.type = .bits k) : operandOf w.graph l = some ⟨l, m, k⟩ := by
  rw [operandOf, hm]
  dsimp only
  rw [ht]

theorem run_readOperand {k : Nat} {m : Node} (hm : w.graph.nodes[l]? = some m)
    (ht : m.type = .bits k) : readOperand l w.graph = .ok (⟨l, m, k⟩, w.graph) := by
  have htype : w.graph.nodes[l]?.map Node.type = some (.bits k) := by rw [hm, map_some, ht]
  rw [readOperand, run_getNode hm, run_bind_of_ok (run_bitCountOrDie htype)]
  rfl

theorem returns_congr {α : Type} {c c' : Build α} (h : c w.graph = c' w.graph) :
    w.Returns c ↔ w.Returns c' := by
  unfold Returns
  rw [h]

/-- The operands of a multiply, as they are read from the graph. -/
theorem exists_operandAt {t : IrType} {u : Value} (h : w.Has b i t u) (ht : t.isBits = true) :
    ∃ x m, u = .leaf x ∧ w.graph.nodes[i]? = some m ∧
      m.type = .bits x.width ∧ OperandAt w b ⟨i, m, x.width⟩ x := by
  obtain ⟨k, rfl⟩ := IrType.eq_bits_of_isBits ht
  obtain ⟨x, rfl, rfl⟩ := has_bits h
  obtain ⟨m, hm, hmt⟩ := map_eq_some_iff.mp h.type
  exact ⟨x, m, rfl, hm, hmt, operandAt_of_holds h.holds hm⟩

/-- The types and values of two operands. -/
theorem operands_two {r : Nat} {types : List IrType} {ops : List Value}
    (h : Operands w b [l, r] types ops) : ∃ tl ul tr ur, types = [tl, tr] ∧
      ops = [ul, ur] ∧ w.Has b l tl ul ∧ w.Has b r tr ur := by
  cases h with
  | @cons _ tl ul _ _ _ hl hrest =>
    cases hrest with
    | @cons _ tr ur _ _ _ hr hnil =>
      cases hnil
      exact ⟨tl, ul, tr, ur, rfl, rfl, hl, hr⟩

/-- The narrowing of a multiply returns and keeps the values of all nodes, in a graph that the
verifier accepts, exactly if it does not go wrong in one of the two ways. -/
theorem handleMultiply_returns (w : World env args) {e : SpecializedQueryEngines} {id : Nat}
    {n : Node} (hn : w.graph.nodes[id]? = some n)
    (hsound : ∀ o ∈ n.operands, ZeroSound e w o (some id)) :
    w.Returns (handleMultiply e id) ↔ ¬ Breaks e w.graph id n := by
  obtain ⟨types, ops, v, hat⟩ := exists_at hn
  have hverified := hat.verified
  have heval := hat.eval
  have hoperands := hat.operands
  have hhas := hat.has
  obtain ⟨kind, operands, type⟩ := n
  dsimp only at *
  have hrun : handleMultiply e id w.graph = multiplyHandler e id ⟨kind, operands, type⟩ w.graph :=
    run_getNode hn
  rw [returns_congr hrun]
  unfold multiplyHandler
  dsimp only
  split
  · rename_i op l r
    unfold Breaks
    dsimp only
    obtain ⟨tl, ul, tr, ur, rfl, rfl, hl, hr⟩ := operands_two hoperands
    simp only [verifyNode, Bool.and_eq_true] at hverified
    obtain ⟨⟨htl, htr⟩, htype⟩ := hverified
    obtain ⟨x, m, rfl, hm, hmt, hlx⟩ := exists_operandAt hl htl
    obtain ⟨y, m', rfl, hm', hmt', hry⟩ := exists_operandAt hr htr
    obtain ⟨width, rfl⟩ := IrType.eq_bits_of_isBits htype
    obtain rfl : LeafTree.leaf (arithOp op width x y) = v := ok.inj heval
    have hrules : maybeNarrowMultiply e id op l r w.graph =
        narrowMultiply e id op width ⟨l, m, x.width⟩ ⟨r, m', y.width⟩ w.graph := by
      rw [maybeNarrowMultiply, run_bind_of_ok (run_bitCountOrDie hhas.type),
        run_bind_of_ok (run_readOperand hm hmt), run_bind_of_ok (run_readOperand hm' hmt')]
    rw [returns_congr hrules,
      narrowMultiply_returns hhas hlx hry (hsound l (by simp)) (hsound r (by simp)),
      operandOf_eq hm hmt, operandOf_eq hm' hmt', ← not_or, not_iff_not]
    constructor
    · exact fun h => ⟨_, _, _, rfl, rfl, rfl, h⟩
    · rintro ⟨_, _, _, heql, heqr, heqt, h⟩
      cases heql
      cases heqr
      cases heqt
      exact h
  · rename_i op width l r
    unfold Breaks
    dsimp only
    obtain ⟨tl, ul, tr, ur, rfl, rfl, hl, hr⟩ := operands_two hoperands
    simp only [verifyNode, Bool.and_eq_true, beq_iff_eq] at hverified
    obtain ⟨⟨htl, htr⟩, rfl⟩ := hverified
    obtain ⟨x, m, rfl, hm, hmt, hlx⟩ := exists_operandAt hl htl
    obtain ⟨y, m', rfl, hm', hmt', hry⟩ := exists_operandAt hr htr
    obtain rfl : partialProductOp op width x y = v := ok.inj heval
    have hparts : HasParts w (w.rank id + 1) id (product op width x y) := by
      rw [HasParts, product_width, ← partialProductOp_eq]
      exact hhas
    obtain ⟨add, hsum, hadd⟩ := partialMultiplyImmediateSum_eq hparts
    have hrules : maybeNarrowPartialMultiply e id op width l r w.graph =
        narrowPartialMultiply e id op width ⟨l, m, x.width⟩ ⟨r, m', y.width⟩ add w.graph := by
      rw [maybeNarrowPartialMultiply, run_bind_of_ok (run_readOperand hm hmt),
        run_bind_of_ok (run_readOperand hm' hmt'), run_get, hsum]
      rfl
    rw [returns_congr hrules,
      narrowPartialMultiply_returns hparts hadd hlx hry (hsound l (by simp)) (hsound r (by simp)),
      operandOf_eq hm hmt, operandOf_eq hm' hmt', hsum, not_iff_not]
    constructor
    · rintro ⟨hempty, hne⟩
      exact ⟨_, _, rfl, rfl, hempty, fun heq => hne (ok.inj heq)⟩
    · rintro ⟨_, _, heql, heqr, hempty, hne⟩
      cases heql
      cases heqr
      exact ⟨hempty, fun heq => hne (by rw [heq])⟩
  · rename_i harith hpair
    exact iff_of_true ⟨false, w, rfl, le_refl w⟩ (not_breaks harith hpair)

/-! ### The square of a shifted power of two -/

section ShiftedSquare

open IntervalSet

/-- The square of one of two powers of two, shifted to the right by nought, two or five. -/
def shiftedSquare (width : Nat) : Function where
  params := [.bits 1, .bits 2]
  nodes := [⟨.param 0, [], .bits 1⟩, ⟨.param 1, [], .bits 2⟩,
    ⟨.literal (.leaf (Bits.ofNat 15 8192)), [], .bits 15⟩,
    ⟨.literal (.leaf (Bits.ofNat 15 16384)), [], .bits 15⟩, ⟨.sel false, [0, 2, 3], .bits 15⟩,
    ⟨.literal (.leaf (Bits.ofNat 3 0)), [], .bits 3⟩,
    ⟨.literal (.leaf (Bits.ofNat 3 2)), [], .bits 3⟩,
    ⟨.literal (.leaf (Bits.ofNat 3 5)), [], .bits 3⟩, ⟨.sel true, [1, 5, 6, 7, 7], .bits 3⟩,
    ⟨.bin .shrl, [4, 8], .bits 15⟩, ⟨.arith .umul, [9, 9], .bits width⟩]
  returnValue := 10
  verified := by rfl
  returnValue_lt := by simp

/-- `HandleSel` of the range analysis, where the selector may pick every case. -/
def rangeOfSelect {k : Nat} (cases : List (IntervalSet k)) : IntervalSet k :=
  cases.foldl combine (empty k)

/-- What the range analysis finds for the power of two. -/
def powerRange : IntervalSet 15 :=
  rangeOfSelect [ofBits (Bits.ofNat 15 8192), ofBits (Bits.ofNat 15 16384)]

/-- What it finds for the amount. -/
def amountRange : IntervalSet 3 :=
  rangeOfSelect [ofBits (Bits.ofNat 3 0), ofBits (Bits.ofNat 3 2), ofBits (Bits.ofNat 3 5)]

/-- What it knows of the bits of the shifted power of two. -/
def shiftedBits : Result TernaryVector := do
  let range ← IntervalOps.shrl powerRange amountRange
  IntervalOps.extractTernaryVector range

/-- The engine of the pass: of the shifted number, it knows what the range analysis knows. The
ternary analysis adds nothing, since it knows six trailing zeros only. -/
def shiftEngines : SpecializedQueryEngines :=
  ⟨⟨fun node bit => node == 9 && (shiftedBits.toOption.bind fun v => v[bit]?) == some .knownZero,
    fun _ _ => false, fun _ _ => false, fun _ => none, fun _ => none⟩, none⟩

/-- The run on the greater power of two, which is not shifted. -/
abbrev RunsShiftedSquare (width : Nat) (vals : List Value) : Prop :=
  Interpreter.run (packageEnv []) (shiftedSquare width)
    [.leaf (Bits.ofNat 1 1), .leaf (Bits.ofNat 2 0)] = .ok vals

/-- A bit that the known bits of a set have as a zero is zero in every point of the set. -/
theorem testBit_of_knownZero {k x bit : Nat} {s : IntervalSet k} {v : TernaryVector}
    (hv : IntervalOps.extractTernaryVector s = .ok v) (hx : s.Covers x)
    (hzero : v[bit]? = some .knownZero) : x.testBit bit = false := by
  obtain ⟨v', hv', hlen, hadmits⟩ :=
    IntervalOps.extractTernaryVector_spec (isEmpty_eq_false_of_covers hx)
  cases hv.symm.trans hv'
  obtain ⟨hbit, hget⟩ := List.getElem?_eq_some_iff.1 hzero
  have hadmit := (hadmits x hx).get hbit (by rw [BoolList.length_ofNat]; omega)
  rw [List.get_eq_getElem, hget, List.get_eq_getElem, BoolList.getElem_ofNat] at hadmit
  exact hadmit

/-- The engine of the example counts the zeros that the interval operations know. -/
theorem zeroSound_shiftEngines {f : Function} {vals : List Value} {args : List Value}
    (hrun : Interpreter.run (packageEnv []) f args = .ok vals)
    (hval : vals[9]? = some (.leaf (Bits.ofNat 15 16384))) :
    ∀ o ∈ [9, 9], ZeroSound shiftEngines (World.ofRun hrun) o (some 10) := by
  intro o ho x hx bit hbit
  obtain rfl : o = 9 := by simpa using ho
  cases hx.symm.trans hval
  have hpower : powerRange.Covers 16384 := by decide
  have hamount : amountRange.Covers 0 := by decide
  obtain ⟨range, hrange, hcovers⟩ := IntervalOps.covers_shrl hpower hamount
  cases hv : IntervalOps.extractTernaryVector range with
  | error f => simp [shiftEngines, SpecializedQueryEngines.isZero, SpecializedQueryEngines.forNode,
      shiftedBits, hrange, hv, Except.toOption] at hbit
  | ok v =>
    refine testBit_of_knownZero hv hcovers ?_
    simpa [shiftEngines, SpecializedQueryEngines.isZero, SpecializedQueryEngines.forNode,
      shiftedBits, hrange, hv, Except.toOption] using hbit

/-- The product has fifteen bits, and sixteen trailing zeros are taken off its operands. -/
theorem handleMultiply_fails_shiftedSquare : ∃ vals, ∃ hrun : RunsShiftedSquare 15 vals,
    (∀ o ∈ [9, 9], ZeroSound shiftEngines (World.ofRun hrun) o (some 10)) ∧
      handleMultiply shiftEngines 10 (shiftedSquare 15).graph = .error .check := by
  obtain ⟨vals, hrun, hval⟩ : ∃ vals, RunsShiftedSquare 15 vals ∧
      vals[9]? = some (.leaf (Bits.ofNat 15 16384)) := ⟨_, rfl, rfl⟩
  exact ⟨vals, hrun, zeroSound_shiftEngines hrun hval, rfl⟩

/-- A product of twenty bits has room for the trailing zeros. -/
theorem handleMultiply_returns_shiftedSquare : ∃ vals, ∃ hrun : RunsShiftedSquare 20 vals,
    (World.ofRun hrun).Returns (handleMultiply shiftEngines 10) := by
  obtain ⟨vals, hrun, hval⟩ : ∃ vals, RunsShiftedSquare 20 vals ∧
      vals[9]? = some (.leaf (Bits.ofNat 15 16384)) := ⟨_, rfl, rfl⟩
  refine ⟨vals, hrun, (@handleMultiply_returns _ _ (World.ofRun hrun) _ 10
    ⟨.arith .umul, [9, 9], .bits 20⟩ rfl (zeroSound_shiftEngines hrun hval)).2 ?_⟩
  intro ⟨lhs, rhs, width, hl, hr, ht, hbreaks⟩
  cases hl
  cases hr
  cases ht
  rcases hbreaks with hempty | htoo
  · exact absurd hempty.1 (by decide)
  · exact absurd htoo.2.2 (by decide)

end ShiftedSquare

end Narrowing

end Xls

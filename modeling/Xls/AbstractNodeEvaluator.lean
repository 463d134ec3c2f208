import Xls.Interpreter.ToBools

/-!
# Xls.AbstractNodeEvaluator

`xls/ir/abstract_node_evaluator.h`: the operations of the intermediate
representation over an abstract evaluator. The value of a node is a tree of element
vectors in the shape of its type.

`Evaluator.Sound.abstractNode` says that a node evaluated on related operands is
related to what the interpreter computes, for any sound evaluator; the ternary and
the decision-diagram analysis are two instances of it.
-/

namespace Xls.Evaluator

open Result Interpreter Bits BoolList LeafTree Grow List

variable {S E : Type} [Preorder S]

/-- An abstract value: a vector of elements at every leaf. -/
abbrev CompoundValue (E : Type) := LeafTree (List E)

/-- An operand: the node and its abstract value. -/
structure Operand (E : Type) where
  node : Node
  value : CompoundValue E

/-! ### Access to operands and results -/

/-- `GetValue`. -/
def getValue (o : Operand E) : EvalM S (List E) := do
  guardThat (.status "XLS_RET_CHECK failure: n->GetType()->IsBits()") o.node.type.isBits
  match o.value.leaf? with
  | some v => return v
  | none => fail .check

/-- `GetValueList`. -/
def getValueList (os : List (Operand E)) : EvalM S (List (List E)) := Grow.mapList getValue os

/-- `SetValue` of a vector; the node must be of a bits type. -/
def setValue (n : Node) (v : List E) : EvalM S (CompoundValue E) := do
  guardThat (.status "XLS_RET_CHECK failure: n->GetType()->IsBits()") n.type.isBits
  return .leaf v

/-- `ZipPiecewise`: combine the operands leaf by leaf. -/
def zipPiecewise (type : IrType) (cases : List (Operand E))
    (f : List (List E) → EvalM S (List E)) : EvalM S (CompoundValue E) :=
  zipAll (fun _ => fail .check) (fun _ vs => f vs) type.shape
    (cases.map Operand.value)

/-- A select whose cases are combined as vectors, or leaf by leaf. -/
def selectBy (n : Node) (cases : List (Operand E)) (f : List (List E) → EvalM S (List E)) :
    EvalM S (CompoundValue E) :=
  if n.type.isBits then do
    let args ← getValueList cases
    let r ← f args
    setValue n r
  else zipPiecewise n.type cases f

/-! ### Handlers -/

/-- The handlers of the two-operand arithmetic and shift operations. -/
def handleBin (ev : Evaluator S E) (op : BinOp) (lhs rhs : List E) : EvalM S (List E) :=
  match op with
  | .add => ev.add lhs rhs
  | .sub => do
    let n ← ev.neg rhs
    ev.add lhs n
  | .udiv => ev.udiv lhs rhs
  | .sdiv => ev.sdiv lhs rhs
  | .umod => ev.umod lhs rhs
  | .smod => ev.smod lhs rhs
  | .shll => ev.shiftLeftLogical lhs rhs
  | .shrl => ev.shiftRightLogical lhs rhs
  | .shra => ev.shiftRightArith lhs rhs

/-- `HandleSMul` and `HandleUMul`, with the result cut or extended to the width of
the node. -/
def handleArith (ev : Evaluator S E) (op : ArithOp) (width : Nat) (lhs rhs : List E) :
    EvalM S (List E) :=
  match op with
  | .smul => do
    let result ← ev.smul lhs rhs
    if width < result.length then bitSlice result 0 width
    else if result.length < width then signExtend result width
    else return result
  | .umul => do
    let result ← ev.umul lhs rhs
    if width < result.length then bitSlice result 0 width
    else if result.length < width then ev.zeroExtend result width
    else return result

def handleNary (ev : Evaluator S E) (op : NaryOp) (args : List (List E)) : EvalM S (List E) :=
  match op with
  | .and => ev.bitwiseAnd args
  | .or => ev.bitwiseOr args
  | .xor => ev.bitwiseXor args
  | .nand => do
    let r ← ev.bitwiseAnd args
    ev.bitwiseNot r
  | .nor => do
    let r ← ev.bitwiseOr args
    ev.bitwiseNot r

/-- The conjunction of the equalities of corresponding leaves. -/
def leavesEqual (ev : Evaluator S E) (lhs rhs : CompoundValue E) : EvalM S E := do
  let values ← Grow.mapList (fun p => ev.equals p.1 p.2) (lhs.leaves.zip rhs.leaves)
  match values with
  | [v] => return v
  | _ => ev.andReduce values

/-- The ordered comparisons, from `SLessThan` and `ULessThan`. -/
def handleOrdered (ev : Evaluator S E) (op : CompareOp) (lhs rhs : List E) : EvalM S E :=
  match op with
  | .slt => ev.sLessThan lhs rhs
  | .sgt => ev.sLessThan rhs lhs
  | .sge => do
    let r ← ev.sLessThan lhs rhs
    ev.not r
  | .sle => do
    let r ← ev.sLessThan rhs lhs
    ev.not r
  | .ult => ev.uLessThan lhs rhs
  | .ugt => ev.uLessThan rhs lhs
  | .uge => do
    let r ← ev.uLessThan lhs rhs
    ev.not r
  | .ule => do
    let r ← ev.uLessThan rhs lhs
    ev.not r
  | .eq | .ne => fail .check

def handleCompare (ev : Evaluator S E) (op : CompareOp) (a b : Operand E) : EvalM S E :=
  match op with
  | .eq => do
    guardThat (.status "XLS_RET_CHECK failure: lhs.type()->IsEqualTo(rhs.type())")
      (decide (a.node.type = b.node.type))
    ev.leavesEqual a.value b.value
  | .ne => do
    guardThat (.status "XLS_RET_CHECK failure: lhs.type()->IsEqualTo(rhs.type())")
      (decide (a.node.type = b.node.type))
    let r ← ev.leavesEqual a.value b.value
    ev.not r
  | _ => do
    let lhs ← getValue a
    let rhs ← getValue b
    ev.handleOrdered op lhs rhs

def handleReduce (ev : Evaluator S E) (op : BitwiseReductionOp) (a : List E) : EvalM S E :=
  match op with
  | .andReduce => ev.andReduce a
  | .orReduce => ev.orReduce a
  | .xorReduce => ev.xorReduce a

/-- A selector computed by a one-hot node is never zero. -/
def selectorCanBeZero (selector : Operand E) : Bool :=
  match selector.node.kind with
  | .oneHot _ => false
  | _ => true

/-- `AbstractNodeEvaluator`, one node. `default` is the handler of the operations
that it leaves to the derived class. -/
def abstractNode (ev : Evaluator S E) (default : EvalM S (CompoundValue E)) (n : Node)
    (operands : List (Operand E)) : EvalM S (CompoundValue E) :=
  match n.kind, operands with
  | .literal value, _ => do
    guardThat (.status "XLS_RET_CHECK failure: ValueConformsToType(value, type)")
      (decide (value.Conforms n.type))
    return value.map ev.bitsToVector
  | .bin op, [a, b] => do
    let lhs ← getValue a
    let rhs ← getValue b
    let r ← ev.handleBin op lhs rhs
    setValue n r
  | .arith op, [a, b] => do
    let lhs ← getValue a
    let rhs ← getValue b
    match n.type with
    | .bits width => do
      let r ← ev.handleArith op width lhs rhs
      setValue n r
    | _ => fail .check
  | .un .identity, [a] => return a.value
  | .un .neg, [a] => do
    let v ← getValue a
    let r ← ev.neg v
    setValue n r
  | .un .not, [a] => do
    let v ← getValue a
    let r ← ev.bitwiseNot v
    setValue n r
  | .un .reverse, [a] => do
    let v ← getValue a
    setValue n v.reverse
  | .nary op, as => do
    let args ← getValueList as
    let r ← ev.handleNary op args
    setValue n r
  | .compare op, [a, b] => do
    let r ← ev.handleCompare op a b
    setValue n [r]
  | .reduce op, [a] => do
    let v ← getValue a
    let r ← ev.handleReduce op v
    setValue n [r]
  | .extend .signExt newBitCount, [a] => do
    let v ← getValue a
    let r ← signExtend v newBitCount
    setValue n r
  | .extend .zeroExt newBitCount, [a] => do
    let v ← getValue a
    let r ← ev.zeroExtend v newBitCount
    setValue n r
  | .array, as => return .node (as.map Operand.value)
  | .arrayConcat, as => return .node (as.flatMap fun a => a.value.children)
  | .bitSlice start width, [a] => do
    let v ← getValue a
    let r ← bitSlice v start width
    setValue n r
  | .bitSliceUpdate, [a, start, value] => do
    let toUpdate ← getValue a
    let updateValue ← getValue value
    let s ← getValue start
    let r ← ev.bitSliceUpdate toUpdate s updateValue
    setValue n r
  | .concat, as => do
    let args ← getValueList as
    setValue n (concat args)
  | .decode width, [a] => do
    let v ← getValue a
    let r ← ev.decode v width
    setValue n r
  | .encode, [a] => do
    let v ← getValue a
    let r ← ev.encode v
    setValue n r
  | .gate, [condition, data] => do
    let cond ← getValue condition
    match cond with
    | [c] =>
      selectBy n [data] fun vs =>
        match vs with
        | [v] => ev.gate c v
        | _ => fail .check
    | _ => fail (.status "XLS_RET_CHECK failure: cond.size() == 1")
  | .oneHot .lsb, [a] => do
    let v ← getValue a
    let r ← ev.oneHotLsbToMsb v
    setValue n r
  | .oneHot .msb, [a] => do
    let v ← getValue a
    let r ← ev.oneHotMsbToLsb v
    setValue n r
  | .oneHotSel, selector :: cases => do
    let s ← getValue selector
    selectBy n cases fun vs => ev.oneHotSelect s vs (selectorCanBeZero selector)
  | .prioritySel, selector :: cases => do
    let s ← getValue selector
    selectBy n cases fun vs => ev.prioritySelect s vs (selectorCanBeZero selector)
  | .sel hasDefault, selector :: cases => do
    let s ← getValue selector
    selectBy n cases fun vs =>
      if hasDefault then ev.select s vs.dropLast vs.getLast? else ev.select s vs none
  | .tuple, as => return .node (as.map Operand.value)
  | .tupleIndex index, [a] =>
    match a.value.children[index]? with
    | some v => return v
    | none => fail .check
  | _, _ => default

/-! ### Soundness of the handlers -/

section Sound

open Grow (Returns returns_bind returns_pure)

variable {ev : Evaluator S E} {F : S} {R : E → Bool → Prop}

/-- The abstract value stands for the concrete one. -/
abbrev TreeRep (R : E → Bool → Prop) (t : CompoundValue E) (v : Value) : Prop :=
  Rel (Rep R) t v

variable {as r : List E} {bs : List Bits} {a b c : Bits} {v : Value} {w : Nat} {vs : List (List E)}
  {t : CompoundValue E} {type : IrType} {o : Operand E} {marks : List Bool} {cs : List (List Bool)}
  {canBeZero hasDefault : Bool} {cases : List Value}

theorem Sound.add_rep (h : ev.Sound F R) {bs : List E} (ha : Rep R as a) (hb : Rep R bs b)
    (hw : a.width = b.width) (hr : Returns F (ev.add as bs) r) : Rep R r (a.add b) :=
  (h.add ha.num (hw ▸ hb.num) hr).rep rfl rfl

theorem Sound.neg_rep (h : ev.Sound F R) {v : List E} (hv : Rep R v b)
    (hr : Returns F (ev.neg v) r) : Rep R r b.negate :=
  (h.neg hv.num hr).rep rfl rfl

theorem add_negate (hw : a.width = b.width) : a.add b.negate = a.sub b := by
  refine ext rfl ?_
  have hb := b.isLt
  simp only [Bits.add, negate, Bits.sub, ofNat_val, hw, Nat.add_mod_mod]
  congr 1
  omega

/-- The quotient and the remainder together represent those of the interpreter. -/
theorem Sound.udiv_rep (h : ev.Sound F R) {n d : List E} (hn : Rep R n a) (hd : Rep R d b)
    {res : List E × List E} (hr : Returns F (ev.udivMod n d) res) :
    Rep R res.1 (a.udiv b) ∧ Rep R res.2 (a.umod b) := by
  obtain ⟨hq, hm⟩ := h.udivMod hn.num hd.num hr
  refine ⟨hq.rep (udiv_width a b) ?_, hm.rep (umod_width a b) ?_⟩
  · by_cases hb : b.val = 0
    · rw [Bits.udiv, if_pos (by simpa [isZero] using hb), if_pos hb, allOnes_val]
    · rw [Bits.udiv, if_neg (by simpa [isZero] using hb), if_neg hb, ofNat_val_of_lt]
      exact lt_of_le_of_lt (Nat.div_le_self _ _) a.isLt
  · by_cases hb : b.val = 0
    · rw [Bits.umod, if_pos (by simpa [isZero] using hb), if_pos hb, zero_val]
    · rw [Bits.umod, if_neg (by simpa [isZero] using hb), if_neg hb, ofNat_val_of_lt]
      exact lt_trans (Nat.mod_lt _ (Nat.pos_of_ne_zero hb)) b.isLt

theorem min_bounded (b : Bits) (w : Nat) : min (b.bounded w) w = min b.val w := by
  unfold bounded
  omega

/-- Where the interpreter computes the operation, the result represents its value. -/
theorem Sound.handleBin (h : ev.Sound F R) {op : BinOp} {bs : List E} (ha : Rep R as a)
    (hb : Rep R bs b) (hr : Returns F (ev.handleBin op as bs) r)
    (hc : binOp op a b = .ok c) : Rep R r c := by
  cases op with
  | add =>
    obtain ⟨u, hu, hc⟩ := bind_eq_ok.1 hc
    cases hc
    exact h.add_rep ha hb (eq_of_beq (checkThat_eq_ok.1 hu)) hr
  | sub =>
    obtain ⟨u, hu, hc⟩ := bind_eq_ok.1 hc
    cases hc
    have hw := eq_of_beq (checkThat_eq_ok.1 hu)
    obtain ⟨n, hn, hr⟩ := returns_bind hr
    rw [← add_negate hw]
    exact h.add_rep ha (h.neg_rep hb hn) hw hr
  | udiv =>
    cases hc
    obtain ⟨res, hres, hr⟩ := returns_bind hr
    rw [returns_pure hr]
    exact (h.udiv_rep ha hb hres).1
  | sdiv =>
    cases hc
    obtain ⟨res, hres, hr⟩ := returns_bind hr
    rw [returns_pure hr]
    exact (h.sdivMod ha hb hres).1
  | umod =>
    cases hc
    obtain ⟨res, hres, hr⟩ := returns_bind hr
    rw [returns_pure hr]
    exact (h.udiv_rep ha hb hres).2
  | smod =>
    cases hc
    obtain ⟨res, hres, hr⟩ := returns_bind hr
    rw [returns_pure hr]
    exact (h.sdivMod ha hb hres).2
  | shll =>
    cases hc
    have hres := h.shiftLeftLogical ha hb hr
    rwa [toNat_toBools, toBools_length, ← min_bounded, ← toBools_shiftLeftLogical] at hres
  | shrl =>
    cases hc
    have hres := h.shiftRightLogical ha hb hr
    rwa [toNat_toBools, toBools_length, ← min_bounded, ← toBools_shiftRightLogical] at hres
  | shra =>
    cases hc
    have hres := h.shiftRightArith ha hb hr
    rwa [toNat_toBools, toBools_length, ← min_bounded, ← toBools_shiftRightArith] at hres

theorem bitSlice_rep {v : List E} {start width : Nat} (hv : Rep R v b)
    (hr : Returns F (bitSlice v start width) r) : Rep R r (b.slice start width) := by
  obtain ⟨hle, hres⟩ := bitSlice_sound hv hr
  rw [toBools_length] at hle
  rwa [← toBools_slice hle] at hres

theorem Sound.zeroExtend_rep (h : ev.Sound F R) {v : List E} (hv : Rep R v b)
    (hr : Returns F (ev.zeroExtend v w) r) : Rep R r (b.zeroExtend w) := by
  obtain ⟨hle, hres⟩ := h.zeroExtend hv hr
  rw [toBools_length] at hle hres
  rwa [← toBools_zeroExtend hle] at hres

theorem Sound.umul_rep (h : ev.Sound F R) {bs : List E} (ha : Rep R as a) (hb : Rep R bs b)
    (hr : Returns F (ev.umul as bs) r) : Rep R r (a.umul b) :=
  (h.umul ha.num hb.num hr).rep rfl (umul_val a b)

/-- An arithmetic operation represents the value at the width of the node. -/
theorem Sound.handleArith (h : ev.Sound F R) {op : ArithOp} {width : Nat} {bs : List E}
    (ha : Rep R as a) (hb : Rep R bs b) (hr : Returns F (ev.handleArith op width as bs) r) :
    Rep R r (arithOp op width a b) := by
  cases op with
  | smul =>
    obtain ⟨product, hproduct, hr⟩ := returns_bind hr
    have hp := h.smul ha hb hproduct
    rw [hp.length_eq] at hr
    unfold arithOp
    dsimp only
    split at hr
    · rename_i hlt
      rw [if_pos hlt]
      exact bitSlice_rep hp hr
    · rename_i hge
      rw [if_neg hge]
      split at hr
      · rename_i hlt
        rw [if_pos hlt]
        exact (signExtend_rep hp hr).2
      · rename_i hge'
        rw [if_neg hge', returns_pure hr]
        exact hp
  | umul =>
    obtain ⟨product, hproduct, hr⟩ := returns_bind hr
    have hp := h.umul_rep ha hb hproduct
    rw [hp.length_eq] at hr
    unfold arithOp
    dsimp only
    split at hr
    · rename_i hlt
      rw [if_pos hlt]
      exact bitSlice_rep hp hr
    · rename_i hge
      rw [if_neg hge]
      split at hr
      · rename_i hlt
        rw [if_pos hlt]
        exact h.zeroExtend_rep hp hr
      · rename_i hge'
        rw [if_neg hge', returns_pure hr]
        exact hp

theorem forall₂_toBools (h : Forall₂ (Rep R) vs bs) : Forall₂ (Vec R) vs (bs.map toBools) :=
  forall₂_map_right_iff.2 h

theorem naryBits_eq {f : Bits → Bits → Bits} {g : Bool → Bool → Bool}
    (hw : ∀ a b, (f a b).width = a.width)
    (hf : ∀ a b : Bits, a.width = b.width → (f a b).toBools = zipWith g a.toBools b.toBools)
    {r : Bits} (h : naryFold f bs = .ok r) : naryBits g (bs.map toBools) = r.toBools := by
  cases bs with
  | nil => cases h
  | cons b bs => exact (toBools_naryFold hw hf h).1.symm

/-- Operations on several operands, as far as the interpreter accepts their widths. -/
theorem Sound.handleNary (h : ev.Sound F R) {op : NaryOp} (hv : Forall₂ (Rep R) vs bs)
    (hr : Returns F (ev.handleNary op vs) r) (hc : Interpreter.naryOp op bs = .ok c) :
    Rep R r c := by
  have hvec := forall₂_toBools hv
  cases op with
  | and =>
    have hres := h.bitwiseAnd hvec hr
    rwa [naryBits_eq and_width (fun _ _ => toBools_and) hc] at hres
  | or =>
    have hres := h.bitwiseOr hvec hr
    rwa [naryBits_eq or_width (fun _ _ => toBools_or) hc] at hres
  | xor =>
    have hres := h.bitwiseXor hvec hr
    rwa [naryBits_eq xor_width (fun _ _ => toBools_xor) hc] at hres
  | nand =>
    obtain ⟨v, hv, hr⟩ := returns_bind hr
    obtain ⟨d, hd, hc⟩ := bind_eq_ok.1 hc
    cases hc
    have hand := h.bitwiseAnd hvec hv
    rw [naryBits_eq and_width (fun _ _ => toBools_and) hd] at hand
    rw [Rep, toBools_not]
    exact h.bitwiseNot hand hr
  | nor =>
    obtain ⟨v, hv, hr⟩ := returns_bind hr
    obtain ⟨d, hd, hc⟩ := bind_eq_ok.1 hc
    cases hc
    have hor := h.bitwiseOr hvec hv
    rw [naryBits_eq or_width (fun _ _ => toBools_or) hd] at hor
    rw [Rep, toBools_not]
    exact h.bitwiseNot hor hr

theorem decide_toBools_eq (a b : Bits) : decide (a.toBools = b.toBools) = decide (a = b) :=
  decide_eq_decide.2 toBools_eq_iff

/-- The equalities of leaves stand for the equality of the trees. -/
theorem all_leaves_eq {s t : Value} {σ : LeafTree Nat}
    (hs : Rel (fun (b : Bits) (w : Nat) => b.width = w) s σ)
    (ht : Rel (fun (b : Bits) (w : Nat) => b.width = w) t σ) :
    ((s.leaves.zip t.leaves).map fun p => decide (p.1 = p.2)).all id = decide (s = t) := by
  induction s using ind generalizing t σ with
  | leaf a =>
    obtain ⟨w, rfl, -⟩ := rel_leaf_left hs
    obtain ⟨b, rfl, -⟩ := rel_leaf_right ht
    simp [leaves]
  | node ss ih =>
    obtain ⟨ws, rfl, hss⟩ := rel_node_left hs
    obtain ⟨ts, rfl, hts⟩ := rel_node_right ht
    simp only [leaves, leavesList_eq_flatMap, LeafTree.node.injEq]
    clear hs ht
    induction hss generalizing ts with
    | nil =>
      cases hts
      rfl
    | @cons s w ss ws hsw hss ihl =>
      cases hts with
      | @cons t _ ts _ htw hts =>
        have hlen : s.leaves.length = t.leaves.length := by
          rw [hsw.leaves.length_eq, htw.leaves.length_eq]
        rw [flatMap_cons, flatMap_cons, zip_append hlen, map_append,
          all_append, ih s mem_cons_self hsw htw,
          ihl (fun s' hs' => ih s' (mem_cons_of_mem _ hs')) _ hts, Bool.eq_iff_iff]
        simp

/-- Equality of all leaves of values of one type is equality of the values. -/
theorem Sound.leavesEqual (h : ev.Sound F R) {s : CompoundValue E} {u : Value} (hs : TreeRep R s u)
    (ht : TreeRep R t v) (hu : u.Conforms type) (hv : v.Conforms type) {r : E}
    (hr : Returns F (ev.leavesEqual s t) r) : R r (decide (u = v)) := by
  obtain ⟨values, hvalues, hr⟩ := returns_bind hr
  have hzip : Forall₂ (fun p q => Rep R p.1 q.1 ∧ Rep R p.2 q.2) (s.leaves.zip t.leaves)
      (u.leaves.zip v.leaves) := forall₂_zip hs.leaves ht.leaves
  have hmap : Vec R values ((u.leaves.zip v.leaves).map fun p => decide (p.1 = p.2)) := by
    refine returns_mapList ?_ hzip hvalues
    intro p q e hpq hret
    have heq := (h.equals hpq.1 hpq.2 hret).2
    rwa [decide_toBools_eq] at heq
  rw [← all_leaves_eq hu hv]
  generalize ((u.leaves.zip v.leaves).map fun p => decide (p.1 = p.2)) = bs at hmap
  split at hr
  · rename_i e
    rw [returns_pure hr]
    cases hmap with
    | cons hb htail =>
      cases htail
      rw [all_cons, all_nil, Bool.and_true]
      exact hb
  · exact h.andReduce hmap hr

/-- An ordered comparison represents the answer of the interpreter. -/
theorem Sound.handleOrdered (h : ev.Sound F R) {op : CompareOp} {bs : List E} (ha : Rep R as a)
    (hb : Rep R bs b) {r : E} (hr : Returns F (ev.handleOrdered op as bs) r) :
    R r (compareBits op a b) := by
  have hult : ∀ {u v : List E} {x y : Bits} {e : E}, Rep R u x → Rep R v y →
      Returns F (ev.uLessThan u v) e → R e (x.ult y) := by
    intro u v x y e hu hv hret
    have hres := (h.uLessThan hu hv hret).2
    rwa [toNat_toBools, toNat_toBools] at hres
  cases op with
  | slt => exact h.sLessThan ha hb hr
  | sgt =>
    have hres := h.sLessThan hb ha hr
    rwa [← not_sle] at hres
  | sge =>
    obtain ⟨e, he, hr⟩ := returns_bind hr
    exact h.not (h.sLessThan ha hb he) hr
  | sle =>
    obtain ⟨e, he, hr⟩ := returns_bind hr
    have hres := h.not (h.sLessThan hb ha he) hr
    rwa [not_slt] at hres
  | ult => exact hult ha hb hr
  | ugt => exact hult hb ha hr
  | uge =>
    obtain ⟨e, he, hr⟩ := returns_bind hr
    have hres := h.not (hult ha hb he) hr
    rwa [not_ult] at hres
  | ule =>
    obtain ⟨e, he, hr⟩ := returns_bind hr
    have hres := h.not (hult hb ha he) hr
    rwa [not_ult] at hres
  | _ => exact (not_returns_fail hr).elim

/-- A reduction represents the reduced bit of the interpreter. -/
theorem Sound.handleReduce (h : ev.Sound F R) {op : BitwiseReductionOp} {v : List E}
    (hv : Rep R v b) {r : E} (hr : Returns F (ev.handleReduce op v) r) :
    Rep R [r] (reduceOp op b) := by
  cases op with
  | andReduce =>
    have hres := h.andReduce hv hr
    rw [← isAllOnes_eq] at hres
    rw [Rep, reduceOp, Bits.andReduce, toBools_ofBool]
    exact vec_singleton hres
  | orReduce =>
    have hres := h.orReduce hv hr
    rw [← not_isZero_eq] at hres
    rw [Rep, reduceOp, Bits.orReduce, toBools_ofBool]
    exact vec_singleton hres
  | xorReduce =>
    have hres := h.xorReduce hv hr
    rw [Rep, reduceOp, Bits.xorReduce, toBools_ofBool]
    exact vec_singleton hres

/-! ### Soundness of operand access -/

/-- What is known of an operand: its abstract value stands for the concrete one,
which conforms to the type and is not zero if a one-hot node computed it. -/
structure OperandRep (R : E → Bool → Prop) (o : Operand E) (v : Value) : Prop where
  rep : TreeRep R o.value v
  conforms : v.Conforms o.node.type
  oneHot : ∀ p, o.node.kind = .oneHot p → ∀ b, v = .leaf b → b.val ≠ 0

/-- Only operands of a bits type have a vector. -/
theorem returns_getValue {v : List E} (hr : Returns F (getValue o) v) :
    o.node.type.isBits = true ∧ o.value = .leaf v := by
  obtain ⟨u, hu, hr⟩ := returns_bind hr
  refine ⟨returns_guardThat hu, ?_⟩
  cases hval : o.value with
  | leaf a =>
    rw [hval] at hr
    rw [returns_pure hr]
  | node ts =>
    rw [hval] at hr
    exact (not_returns_fail hr).elim

theorem OperandRep.getValue (h : OperandRep R o v) {vec : List E}
    (hr : Returns F (Evaluator.getValue o) vec) : ∃ b, v = .leaf b ∧ Rep R vec b := by
  have hrep := h.rep
  rw [(returns_getValue hr).2] at hrep
  exact rel_leaf_left hrep

theorem bits_eq_ok (h : v.bits = .ok b) : v = .leaf b := by
  cases v with
  | leaf a =>
    cases h
    rfl
  | node ts => cases h

theorem OperandRep.bits (h : OperandRep R o v) {vec : List E}
    (hr : Returns F (Evaluator.getValue o) vec) (hb : v.bits = .ok b) : Rep R vec b := by
  obtain ⟨b', rfl, hrep⟩ := h.getValue hr
  cases bits_eq_ok hb
  exact hrep

variable {os : List (Operand E)} {vecs : List (List E)} {n : Node} {d : Bits} {s : List E}

/-- The vectors of bits operands represent the bits of their values. -/
theorem OperandRep.getValueList {vs : List Value} (h : Forall₂ (OperandRep R) os vs)
    (hr : Returns F (Evaluator.getValueList os) vecs) :
    ∃ bs, vs = bs.map .leaf ∧ Forall₂ (Rep R) vecs bs := by
  unfold Evaluator.getValueList at hr
  induction h generalizing vecs with
  | nil =>
    rw [returns_pure hr]
    exact ⟨[], rfl, Forall₂.nil⟩
  | cons hov _ ih =>
    obtain ⟨vec, hvec, hr⟩ := returns_bind hr
    obtain ⟨rest, hrest, hr⟩ := returns_bind hr
    rw [returns_pure hr]
    obtain ⟨b, rfl, hb⟩ := hov.getValue hvec
    obtain ⟨bs, rfl, hbs⟩ := ih hrest
    exact ⟨b :: bs, rfl, Forall₂.cons hb hbs⟩

theorem OperandRep.bitsVector {vs : List Value} (h : Forall₂ (OperandRep R) os vs)
    (hr : Returns F (Evaluator.getValueList os) vecs) (hbs : Interpreter.bitsVector vs = .ok bs) :
    Forall₂ (Rep R) vecs bs := by
  obtain ⟨bs', rfl, hrep⟩ := OperandRep.getValueList h hr
  rw [bitsVector_leaves] at hbs
  cases hbs
  exact hrep

theorem returns_setValue {v : List E} (hr : Returns F (setValue n v) t) :
    n.type.isBits = true ∧ t = .leaf v := by
  obtain ⟨u, hu, hr⟩ := returns_bind hr
  exact ⟨returns_guardThat hu, returns_pure hr⟩

theorem setValue_rep {v : List E} (hv : Rep R v b) (hr : Returns F (setValue n v) t) :
    TreeRep R t (.leaf b) := by
  rw [(returns_setValue hr).2]
  exact rel_leaf.2 hv

/-! ### Soundness of the selects -/

/-- Runs below a state, as values a computation can return. -/
def growObserver (F : S) : Observer (EvalM S) (fun _ => fail .check) where
  ret c a := Returns F c a
  ret_pure := returns_pure
  ret_bind := returns_bind
  not_ret_stop := not_returns_fail

/-- The value of a fallible call. -/
def resultObserver : Observer Result (fun _ => .error .check) where
  ret x a := x = .ok a
  ret_pure h := (Except.ok.inj h).symm
  ret_bind h := bind_eq_ok.1 h
  not_ret_stop h := by cases h

/-- A select that treats related leaves alike gives related trees. -/
theorem selectBy_rep {cases : List (Operand E)} {vals : List Value}
    {f : List (List E) → EvalM S (List E)} {g : Nat → List Bits → Result Bits}
    (hf : ∀ w vs bs r d, Forall₂ (Rep R) vs bs → Returns F (f vs) r → g w bs = .ok d →
      Rep R r d) (hc : Forall₂ (OperandRep R) cases vals) (hr : Returns F (selectBy n cases f) t)
    (hv : zipAll (fun _ => .error .check) g n.type.shape vals = .ok v) : TreeRep R t v := by
  unfold selectBy at hr
  split at hr
  · rename_i hbits
    obtain ⟨w, hw⟩ := IrType.eq_bits_of_isBits hbits
    obtain ⟨args, hargs, hr⟩ := returns_bind hr
    obtain ⟨r, hres, hr⟩ := returns_bind hr
    obtain ⟨bs, rfl, hbs⟩ := OperandRep.getValueList hc hargs
    have hcol : collect LeafTree.leaf? (bs.map .leaf) = some bs :=
      collect_eq_some.2 (forall₂_map_left_iff.2 (forall₂_same.2 fun _ _ => rfl))
    rw [hw, IrType.shape, zipAll, hcol] at hv
    obtain ⟨d, hd, hv⟩ := bind_eq_ok.1 hv
    cases hv
    exact setValue_rep (hf w args bs r d hbs hres hd) hr
  · refine rel_zipAll (P := Rep R) (growObserver F) resultObserver ?_ ?_ hr hv
    · intro w vs bs r d hvs hret hd
      exact hf w vs bs r d hvs hret hd
    · rw [forall₂_map_left_iff]
      exact hc.imp fun _ _ h => h.rep

/-- The widths of the inputs of a leaf are those of the shape. -/
def sameWidths (w : Nat) (bs : List Bits) : Bool := bs.all (·.width == w)

theorem forall_of_sameWidths (h : sameWidths w bs = true) : ∀ c ∈ bs.map toBools, c.length = w := by
  intro c hc
  obtain ⟨b, hb, rfl⟩ := mem_map.1 hc
  rw [toBools_length]
  exact eq_of_beq (all_eq_true.1 h b hb)

theorem sameWidths_of_forall (h : ∀ b ∈ bs, b.width = w) : sameWidths w bs = true :=
  all_eq_true.2 fun b hb => beq_iff_eq.2 (h b hb)

/-- What the interpreter does to a leaf of the data of a gate. -/
def gateLeaf (condition : Bits) (w : Nat) (bs : List Bits) : Result Bits := do
  checkThat (sameWidths w bs)
  match bs with
  | [b] => return if condition.isOne then b else Bits.zero w
  | _ => .error .check

theorem isOne_of_toBools {x : Bool} (h : c.toBools = [x]) : c.isOne = x := by
  have hval : c.val = x.toNat := by
    rw [← toNat_toBools, h, toNat_cons, toNat_nil, Nat.mul_zero, Nat.add_zero]
  rw [isOne, hval]
  cases x <;> rfl

/-- A gate on one leaf, at the level of bits. -/
theorem Sound.gateLeaf (h : ev.Sound F R) {e : E} (hc : Rep R [e] c) (hvs : Forall₂ (Rep R) vs bs)
    (hr : Returns F (match vs with | [v] => ev.gate e v | _ => fail .check) r)
    (hd : Evaluator.gateLeaf c w bs = .ok d) : Rep R r d := by
  obtain ⟨u, hu, hd⟩ := bind_eq_ok.1 hd
  have hw := checkThat_eq_ok.1 hu
  split at hr
  · rename_i v
    cases hvs with
    | @cons _ b _ _ hvb htail =>
      cases htail
      cases hd
      generalize hcb : c.toBools = cbs at hc
      unfold Rep at hc
      rw [hcb] at hc
      cases hc with
      | @cons _ x _ _ hx hnil =>
        cases hnil
        have hres := h.gate hx hvb hr
        have hwb : b.width = w := by simpa [sameWidths] using hw
        rw [isOne_of_toBools hcb]
        cases x with
        | true => simpa using hres
        | false =>
          have hzero : b.toBools.map (false && ·) = (Bits.zero w).toBools := by
            rw [toBools_zero, ← hwb, ← toBools_length b]
            simp [map_const']
          rwa [hzero] at hres
  · exact (not_returns_fail hr).elim

/-- A gate applies to each leaf of the data by itself. -/
theorem zipAll_gateLeaf {data : Value} (h : data.Conforms type) :
    zipAll (fun _ => .error .check) (gateLeaf c) type.shape [data] =
      .ok (Interpreter.gate type c data) := by
  have hall : ∀ v ∈ [data], Rel (fun (b : Bits) (w : Nat) => b.width = w) v type.shape := by
    intro v hv
    rw [mem_singleton.1 hv]
    exact h
  unfold Interpreter.gate
  cases hc : c.isOne with
  | true =>
    rw [if_pos rfl]
    refine zipAll_pick (n := 1) (k := 0) ?_ hall rfl rfl
    intro w bs b hw hlen hb
    obtain ⟨b', rfl⟩ := length_eq_one_iff.1 hlen
    cases hb
    simp [gateLeaf, sameWidths_of_forall hw, hc]
  | false =>
    rw [if_neg Bool.false_ne_true]
    refine zipAll_const (n := 1) ?_ hall rfl
    intro w bs hw hlen
    obtain ⟨b, rfl⟩ := length_eq_one_iff.1 hlen
    simp [gateLeaf, sameWidths_of_forall hw, hc]

/-- The rows that are marked give the same disjunction as the guarded rows. -/
theorem foldl_marked_or {acc : List Bool} (hw : ∀ c ∈ cs, c.length = acc.length) :
    (marked marks cs).foldl (zipWith Bool.or) acc =
      (marks.zip cs).foldl (fun acc row => zipWith (fun r c => r || (c && row.1)) acc row.2)
        acc := by
  induction cs generalizing marks acc with
  | nil => simp
  | cons c cs ih =>
    rw [forall_mem_cons] at hw
    cases marks with
    | nil => rfl
    | cons b marks =>
      rw [marked_cons, zip_cons_cons, foldl_cons]
      cases b with
      | false =>
        have hstep : zipWith (fun r x => r || (x && false)) acc c = acc := by
          refine ext_getD (by simp [hw.1]) fun j hj => ?_
          have hj' : j < acc.length := by simpa [hw.1] using hj
          rw [getD_zipWith hj' (by omega)]
          simp
        rw [if_neg Bool.false_ne_true, hstep]
        exact ih hw.2
      | true =>
        have hstep : zipWith (fun r x => r || (x && true)) acc c =
            zipWith Bool.or acc c := by
          congr
          funext r x
          rw [Bool.and_true]
        have hlen : (zipWith Bool.or acc c).length = acc.length := by simp [hw.1]
        rw [if_pos rfl, hstep, foldl_cons]
        exact ih (by rw [hlen]; exact hw.2)

/-- The disjunction of the marked cases. -/
theorem orRows_eq_foldl (hw : ∀ c ∈ cs, c.length = w) :
    orRows w (marks.zip cs) = (marked marks cs).foldl (zipWith Bool.or) (replicate w false) := by
  rw [foldl_marked_or (by simpa using hw), foldl_orRows]
  · refine ext_getD (by simp) fun j hj => ?_
    have hj' : j < w := by simpa using hj
    rw [length_replicate, getD_zipWith (by simpa using hj') (by simpa using hj')]
    simp [hj']
  · intro row hrow
    rw [length_replicate]
    exact hw row.2 (of_mem_zip hrow).2

theorem map_marked {α β : Type} (f : α → β) (marks : List Bool) (l : List α) :
    (marked marks l).map f = marked marks (l.map f) := by
  induction l generalizing marks with
  | nil => simp
  | cons a l ih =>
    cases marks with
    | nil => rfl
    | cons b marks =>
      rw [map_cons, marked_cons, marked_cons, ← ih]
      cases b <;> rfl

/-- What the interpreter does to a leaf of the cases of a one-hot select. -/
def oneHotLeaf (selector : Bits) (w : Nat) (bs : List Bits) : Result Bits := do
  checkThat (sameWidths w bs)
  (marked selector.toBools bs).foldlM (fun acc x => do
    checkThat (acc.width == x.width)
    return Bits.or acc x) (Bits.zero w)

theorem any_toBools (hnz : canBeZero = false → c.val ≠ 0) (hc : canBeZero = false) :
    c.toBools.any id = true := by
  rw [any_id_iff, toNat_toBools]
  exact hnz hc

theorem Sound.oneHotLeaf (h : ev.Sound F R) (hs : Rep R s c) (hnz : canBeZero = false → c.val ≠ 0)
    (hvs : Forall₂ (Rep R) vs bs) (hr : Returns F (ev.oneHotSelect s vs canBeZero) r)
    (hd : Evaluator.oneHotLeaf c w bs = .ok d) : Rep R r d := by
  obtain ⟨u, hu, hd⟩ := bind_eq_ok.1 hd
  have hw := forall_of_sameWidths (checkThat_eq_ok.1 hu)
  have hres := h.oneHotSelect hs (forall₂_toBools hvs) hw (any_toBools hnz) hr
  obtain ⟨hbits, -, -⟩ := toBools_naryFold or_width (fun _ _ => toBools_or) hd
  rwa [orRows_eq_foldl hw, ← map_marked, ← toBools_zero, ← hbits] at hres

theorem zipAll_oneHotLeaf (h : ∀ x ∈ cases, Value.Conforms x type)
    (hv : oneHotSel type c cases = .ok v) :
    zipAll (fun _ => .error .check) (oneHotLeaf c) type.shape cases = .ok v := by
  obtain ⟨u, -, hv⟩ := bind_eq_ok.1 hv
  refine zipAll_marked (fun _ _ hc => by cases hc) ?_ h hv
  intro w bs d hw hd
  rw [oneHotLeaf, sameWidths_of_forall hw]
  exact hd

/-- What the interpreter does to a leaf of the cases of a priority select. -/
def priorityLeaf (selector : Bits) (w : Nat) (bs : List Bits) : Result Bits := do
  checkThat (sameWidths w bs)
  if firstSet selector.toBools < selector.width then
    derefOption bs[firstSet selector.toBools]?
  else return Bits.zero w

/-- The first row that is marked, or zeros if none is. -/
theorem firstRow_zip (hlen : marks.length = cs.length) :
    firstRow w (marks.zip cs) = if firstSet marks < marks.length then cs.getD (firstSet marks) []
      else replicate w false := by
  unfold firstRow
  induction marks generalizing cs with
  | nil => rfl
  | cons b marks ih =>
    cases cs with
    | nil => cases hlen
    | cons c cs =>
      cases b with
      | true => rfl
      | false =>
        have hih := ih (Nat.succ.inj hlen)
        rw [zip_cons_cons, find?_cons_of_neg Bool.false_ne_true, hih, firstSet, length_cons]
        by_cases hlt : firstSet marks < marks.length
        · rw [if_pos hlt, if_pos (by omega), getD_cons_succ]
        · rw [if_neg hlt, if_neg (by omega)]

/-- A priority selection on one leaf represents that of the interpreter. -/
theorem Sound.priorityLeaf (h : ev.Sound F R) (hs : Rep R s c) (hnz : canBeZero = false → c.val ≠ 0)
    (hvs : Forall₂ (Rep R) vs bs) (hr : Returns F (ev.prioritySelect s vs canBeZero) r)
    (hd : Evaluator.priorityLeaf c w bs = .ok d) : Rep R r d := by
  obtain ⟨u, hu, hd⟩ := bind_eq_ok.1 hd
  have hw := forall_of_sameWidths (checkThat_eq_ok.1 hu)
  have hres := h.prioritySelect hs (forall₂_toBools hvs) hw (any_toBools hnz) hr
  obtain ⟨u', hu', -⟩ := returns_bind hr
  have hlen : c.toBools.length = (bs.map toBools).length := by
    rw [toBools_length, length_map, ← hs.length_eq, ← hvs.length_eq]
    exact eq_of_beq (returns_guardThat hu')
  rw [firstRow_zip hlen, toBools_length] at hres
  split at hd
  · rename_i hlt
    rw [if_pos hlt, getD_eq_getElem?_getD, getElem?_map, derefOption_eq_ok.1 hd] at hres
    exact hres
  · rename_i hlt
    cases hd
    rw [if_neg hlt] at hres
    rwa [Rep, toBools_zero]

/-- A priority selection of compound values selects leaf by leaf. -/
theorem zipAll_priorityLeaf (h : ∀ x ∈ cases, Value.Conforms x type)
    (hv : prioritySel type c cases = .ok v) :
    zipAll (fun _ => .error .check) (priorityLeaf c) type.shape cases = .ok v := by
  unfold prioritySel at hv
  split at hv
  · rename_i hlt
    refine zipAll_pick ?_ h rfl (derefOption_eq_ok.1 hv)
    intro w bs b hw _ hb
    rw [priorityLeaf, sameWidths_of_forall hw, if_pos hlt, hb]
    rfl
  · rename_i hlt
    cases hv
    refine zipAll_const ?_ h rfl
    intro w bs hw _
    rw [priorityLeaf, sameWidths_of_forall hw, if_neg hlt]
    rfl

/-- The case that a select picks, the default being the last one. -/
def selectedCase (hasDefault : Bool) (selector : Bits) (count : Nat) : Nat :=
  if hasDefault then min selector.val (count - 1) else selector.val

def selLeaf (hasDefault : Bool) (selector : Bits) (w : Nat) (bs : List Bits) : Result Bits := do
  checkThat (sameWidths w bs)
  derefOption bs[selectedCase hasDefault selector bs.length]?

/-- A selection on one leaf represents that of the interpreter, with or without a default. -/
theorem Sound.selLeaf (h : ev.Sound F R) (hs : Rep R s c) (hvs : Forall₂ (Rep R) vs bs)
    (hr : Returns F (if hasDefault then ev.select s vs.dropLast vs.getLast?
      else ev.select s vs none) r) (hd : Evaluator.selLeaf hasDefault c w bs = .ok d) :
    Rep R r d := by
  obtain ⟨u, hu, hd⟩ := bind_eq_ok.1 hd
  have hw := forall_of_sameWidths (checkThat_eq_ok.1 hu)
  have hd' := derefOption_eq_ok.1 hd
  have hvec := forall₂_toBools hvs
  cases hasDefault with
  | false =>
    rw [if_neg Bool.false_ne_true] at hr
    have hk : toNat c.toBools < (bs.map toBools).length := by
      rw [toNat_toBools, length_map]
      exact (List.getElem?_eq_some_iff.1 hd').1
    have hres := h.select_none hs hvec hw hk hr
    have heq : (bs.map toBools)[toNat c.toBools] = d.toBools := by
      apply Option.some.inj
      rw [← getElem?_eq_getElem, getElem?_map, toNat_toBools]
      exact congrArg (Option.map toBools) hd'
    rwa [heq] at hres
  | true =>
    rw [if_pos rfl] at hr
    cases hlast : vs.getLast? with
    | none =>
      rw [getLast?_eq_none_iff] at hlast
      subst hlast
      cases hvs
      cases hd'
    | some dv =>
      rw [hlast] at hr
      obtain ⟨db, hdb, hrep⟩ := forall₂_getLast? hvec hlast
      have hdrop : Forall₂ (Vec R) vs.dropLast (bs.map toBools).dropLast := by
        rw [dropLast_eq_take, dropLast_eq_take, hvec.length_eq]
        exact forall₂_take _ hvec
      have hwdrop : ∀ x ∈ (bs.map toBools).dropLast, x.length = w := by
        intro x hx
        exact hw x (mem_of_mem_dropLast hx)
      have hres := h.select_some hs hdrop hwdrop hrep (hw db (mem_of_getLast? hdb)) hr
      obtain ⟨init, hinit⟩ := getLast?_eq_some_iff.1 hdb
      have heq : (bs.map toBools).dropLast.getD (toNat c.toBools) db =
          d.toBools := by
        have hget : (bs.map toBools)[min c.val (bs.length - 1)]? = some d.toBools := by
          rw [getElem?_map]
          exact congrArg (Option.map toBools) hd'
        have hlen : bs.length = init.length + 1 := by
          rw [← length_map (f := toBools), hinit, length_append]
          rfl
        rw [hinit, hlen, Nat.add_sub_cancel] at hget
        rw [hinit, dropLast_concat, toNat_toBools]
        rcases Nat.lt_or_ge c.val init.length with hlt | hge
        · rw [Nat.min_eq_left hlt.le, getElem?_append_left hlt, getElem?_eq_getElem hlt] at hget
          rw [getD_eq_getElem _ _ hlt]
          exact Option.some.inj hget
        · rw [Nat.min_eq_right hge, getElem?_concat_length] at hget
          rw [getD_eq_default _ _ hge]
          exact Option.some.inj hget
      rwa [heq] at hres

/-- The case that the interpreter selects, counting the default as the last case. -/
theorem interpreter_sel_eq (hv : (if hasDefault then sel c cases.dropLast cases.getLast?
      else sel c cases none) = .ok v) :
    cases[selectedCase hasDefault c cases.length]? = some v := by
  cases hasDefault with
  | false =>
    rw [if_neg Bool.false_ne_true] at hv
    obtain ⟨u, hu, hv⟩ := bind_eq_ok.1 hv
    split at hv
    · cases hv
    · exact derefOption_eq_ok.1 hv
  | true =>
    rw [if_pos rfl] at hv
    obtain ⟨u, hu, hv⟩ := bind_eq_ok.1 hv
    have hpos := of_decide_eq_true (checkThat_eq_ok.1 hu)
    have hidx : selectedCase true c cases.length = min c.val (cases.length - 1) := rfl
    rw [length_dropLast] at hpos hv
    split at hv
    · rename_i hgt
      cases hlast : cases.getLast? with
      | none =>
        rw [hlast] at hv
        cases hv
      | some d =>
        rw [hlast] at hv
        cases hv
        rw [hidx, Nat.min_eq_right (by omega), ← getLast?_eq_getElem?, hlast]
    · rename_i hle
      have hget := derefOption_eq_ok.1 hv
      rw [getElem?_dropLast, if_pos (by omega)] at hget
      rw [hidx, Nat.min_eq_left (by omega), hget]

theorem zipAll_selLeaf (h : ∀ x ∈ cases, Value.Conforms x type)
    (hv : (if hasDefault then sel c cases.dropLast cases.getLast? else sel c cases none) = .ok v) :
    zipAll (fun _ => .error .check) (selLeaf hasDefault c) type.shape cases = .ok v := by
  refine zipAll_pick ?_ h rfl (interpreter_sel_eq hv)
  intro w bs b hw hlen hb
  rw [selLeaf, sameWidths_of_forall hw, hlen, hb]
  rfl

end Sound

end Xls.Evaluator

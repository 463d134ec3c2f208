import Xls.AbstractNodeEvaluator.Node

/-!
# Xls.AbstractNodeEvaluator.Total

The abstract evaluation of a verified node on vectors returns a vector of the width of the
node (`TotalOps.abstractNode`), for the operations that need neither a division nor a shift
nor a signed comparison. These are the ones that decision diagrams are built for.
-/

namespace Xls.Evaluator

open List Bool
open Grow (Ensures ensures_bind ensures_pure)

variable {S E : Type} [Preorder S]

/-- The operations whose evaluation is total. -/
def isTotal : NodeKind → Bool
  | .literal _ | .un .not | .un .reverse | .un .identity | .nary _ | .reduce _ => true
  | .compare op =>
    match op with
    | .eq | .ne | .ult | .ule | .ugt | .uge => true
    | .slt | .sle | .sgt | .sge => false
  | .extend _ _ | .bitSlice _ _ | .concat | .decode _ | .encode => true
  | .oneHot _ | .oneHotSel | .prioritySel | .sel _ => true
  | _ => false

/-- The operations with one operand. -/
def isUnary : NodeKind → Bool
  | .un _ | .reduce _ | .extend _ _ | .bitSlice _ _ | .decode _ | .encode | .oneHot _ => true
  | _ => false

/-- An operand of a bits type with a vector of valid elements. -/
def VectorOperand (V : S → E → Prop) (s : S) (o : Operand E) : Prop :=
  ∃ w vec, o.node.type = .bits w ∧ o.value = .leaf vec ∧ ValidVec V w s vec

/-- The result is a vector of the width with valid elements. -/
def VectorResult (V : S → E → Prop) (w : Nat) (s : S) (t : CompoundValue E) : Prop :=
  ∃ vec, t = .leaf vec ∧ ValidVec V w s vec

/-! ### Access to operands -/

theorem getValue_eq {o : Operand E} {w : Nat} {vec : List E} (ht : o.node.type = .bits w)
    (hv : o.value = .leaf vec) : (getValue o : EvalM S (List E)) = pure vec := by
  unfold getValue
  rw [ht, hv]
  rfl

/-- Operands that are vectors have their lists of elements. -/
theorem getValueList_eq {V : S → E → Prop} {s : S} {os : List (Operand E)}
    (h : ∀ o ∈ os, VectorOperand V s o) :
    ∃ vecs, (getValueList os : EvalM S (List (List E))) = pure vecs ∧
      Forall₂ (fun vec (o : Operand E) => ∃ w, o.node.type = .bits w ∧ ValidVec V w s vec)
        vecs os := by
  induction os with
  | nil => exact ⟨[], rfl, Forall₂.nil⟩
  | cons o os ih =>
    rw [forall_mem_cons] at h
    obtain ⟨w, vec, ht, hv, hvalid⟩ := h.1
    obtain ⟨vecs, hvecs, hall⟩ := ih h.2
    refine ⟨vec :: vecs, ?_, Forall₂.cons ⟨w, ht, hvalid⟩ hall⟩
    unfold getValueList at hvecs ⊢
    rw [Grow.mapList, getValue_eq ht hv]
    change (Grow.mapList getValue os >>= fun ys => pure (vec :: ys)) = _
    rw [hvecs]
    rfl

theorem setValue_eq {n : Node} {w : Nat} (ht : n.type = .bits w) (v : List E) :
    (setValue n v : EvalM S (CompoundValue E)) = pure (.leaf v) := by
  unfold setValue
  rw [ht]
  rfl

section Total

variable {ev : Evaluator S E} {V : S → E → Prop} {s : S} {params : List IrType} {n : Node}
  {ops : List (Operand E)} {w : Nat} {default : EvalM S (CompoundValue E)}

/-- A vector set as the value of a node of its width. -/
theorem ensures_setValue (h : ev.TotalOps V) (ht : n.type = .bits w) {c : EvalM S (List E)}
    (hc : Ensures s c (ValidVec V w)) :
    Ensures s (do
      let r ← c
      setValue n r) (VectorResult V w) := by
  refine ensures_bind hc fun t r _ hr => ?_
  rw [setValue_eq ht]
  exact ensures_pure fun t' ht' => ⟨r, rfl, h.vecMono w _ _ _ ht' hr⟩

theorem ensures_setBit (h : ev.TotalOps V) (ht : n.type = .bits 1) {c : EvalM S E}
    (hc : Ensures s c V) :
    Ensures s (do
      let r ← c
      setValue n [r]) (VectorResult V 1) := by
  refine ensures_bind hc fun t r _ hr => ?_
  rw [setValue_eq ht]
  refine ensures_pure fun t' ht' => ⟨[r], rfl, rfl, ?_⟩
  intro a ha
  rw [mem_singleton.1 ha]
  exact h.mono ht' hr

variable {vecs : List (List E)} {hasDefault : Bool}

section

variable (h : ev.TotalOps V)
include h

/-- An operation on vectors of one width returns that width. -/
theorem TotalOps.handleNary (op : NaryOp) (hne : vecs ≠ []) (hv : ∀ v ∈ vecs, ValidVec V w s v) :
    Ensures s (ev.handleNary op vecs) (ValidVec V w) := by
  have hvalid : ∀ v ∈ vecs, AllValid V s v := fun v hmem => (hv v hmem).2
  have hlen : ∀ v ∈ vecs, v.length = w := fun v hmem => (hv v hmem).1
  have hand := ensures_naryOp h.monotonic (fun _ _ _ _ => h.and) hne hvalid hlen
  have hor := ensures_naryOp h.monotonic (fun _ _ _ _ => h.or) hne hvalid hlen
  have hxor := ensures_naryOp h.monotonic (fun _ _ _ _ => h.xor) hne hvalid hlen
  have hnot : ∀ {c : EvalM S (List E)}, Ensures s c (ValidVec V w) →
      Ensures s (c >>= fun r => ev.bitwiseNot r) (ValidVec V w) := by
    intro c hc
    refine ensures_bind hc fun t r _ hr => ?_
    exact (h.bitwiseNot hr.2).imp fun t' r' _ hr' => ⟨hr'.1.trans hr.1, hr'.2⟩
  cases op with
  | and => exact hand
  | or => exact hor
  | xor => exact hxor
  | nand => exact hnot hand
  | nor => exact hnot hor

theorem TotalOps.handleReduce (op : BitwiseReductionOp) {v : List E} (hv : AllValid V s v) :
    Ensures s (ev.handleReduce op v) V := by
  cases op with
  | andReduce => exact h.andReduce hv
  | orReduce => exact h.orReduce hv
  | xorReduce => exact h.xorReduce hv

theorem TotalOps.leavesEqual {a b : List E} (ha : AllValid V s a) (hb : AllValid V s b)
    (hlen : a.length = b.length) : Ensures s (ev.leavesEqual (.leaf a) (.leaf b)) V := by
  have hone : Ensures s (Grow.mapList (fun p : List E × List E => ev.equals p.1 p.2) [(a, b)])
      fun t r => r.length = 1 ∧ ∀ e ∈ r, V t e := by
    refine Grow.ensures_mapList h.monotonic fun t p ht hp => ?_
    rw [mem_singleton.1 hp]
    exact h.equals (h.allMono ht ha) (h.allMono ht hb) hlen
  refine ensures_bind hone fun t r _ hr => ?_
  match r, hr with
  | [e], hr => exact ensures_pure fun t' ht' => h.mono ht' (hr.2 e mem_cons_self)

/-- The comparisons of two vectors of one width. -/
theorem TotalOps.handleCompare {op : CompareOp} (hop : isTotal (.compare op) = true)
    {a b : Operand E} {x y : List E} (hat : a.node.type = .bits w) (hbt : b.node.type = .bits w)
    (hav : a.value = .leaf x) (hbv : b.value = .leaf y) (hx : ValidVec V w s x)
    (hy : ValidVec V w s y) : Ensures s (ev.handleCompare op a b) V := by
  have hlen : x.length = y.length := hx.1.trans hy.1.symm
  have hguard : decide (a.node.type = b.node.type) = true := by simp [hat, hbt]
  have hnot : ∀ {c : EvalM S E}, Ensures s c V → Ensures s (c >>= fun r => ev.not r) V :=
    fun hc => ensures_bind hc fun t r _ hr => h.not hr
  have heq : Ensures s (ev.leavesEqual a.value b.value) V := by
    rw [hav, hbv]
    exact h.leavesEqual hx.2 hy.2 hlen
  have hlt := h.uLessThan hx.2 hy.2 hlen
  have hgt := h.uLessThan hy.2 hx.2 hlen.symm
  unfold Evaluator.handleCompare
  cases op with
  | eq =>
    dsimp only
    rw [hguard]
    exact heq
  | ne =>
    dsimp only
    rw [hguard]
    exact hnot heq
  | ult =>
    dsimp only
    rw [getValue_eq hat hav, getValue_eq hbt hbv]
    exact hlt
  | ugt =>
    dsimp only
    rw [getValue_eq hat hav, getValue_eq hbt hbv]
    exact hgt
  | uge =>
    dsimp only
    rw [getValue_eq hat hav, getValue_eq hbt hbv]
    exact hnot hlt
  | ule =>
    dsimp only
    rw [getValue_eq hat hav, getValue_eq hbt hbv]
    exact hnot hgt
  | _ => cases hop

/-- A select of vectors of the width of the node. -/
theorem ensures_selectBy (ht : n.type = .bits w) {cases : List (Operand E)}
    (hcases : ∀ o ∈ cases, VectorOperand V s o) (htypes : ∀ o ∈ cases, o.node.type = n.type)
    {f : List (List E) → EvalM S (List E)}
    (hf : ∀ vecs : List (List E), vecs.length = cases.length → (∀ v ∈ vecs, ValidVec V w s v) →
      Ensures s (f vecs) (ValidVec V w)) : Ensures s (selectBy n cases f) (VectorResult V w) := by
  obtain ⟨vecs, hvecs, hall⟩ := getValueList_eq hcases
  have hvalid : ∀ v ∈ vecs, ValidVec V w s v := by
    intro v hv
    obtain ⟨i, hi, rfl⟩ := getElem_of_mem hv
    have hi' : i < cases.length := by rwa [← hall.length_eq]
    obtain ⟨w', hw', hget⟩ := Forall₂.get hall hi hi'
    have htype := (htypes _ (getElem_mem hi')).symm.trans hw'
    rw [ht] at htype
    cases htype
    exact hget
  unfold selectBy
  rw [ht, hvecs]
  exact ensures_setValue h ht (hf vecs hall.length_eq hvalid)

end

/-! ### One node -/

omit [Preorder S] in
/-- The operand of a verified node with one operand. -/
theorem single_operand {P : List IrType → Bool} (hops : ∀ o ∈ ops, VectorOperand V s o)
    (hver : P (ops.map fun o => o.node.type) = true) (hP : ∀ ts, P ts = true → ts.length = 1) :
    ∃ a w vec, ops = [a] ∧ a.node.type = .bits w ∧ a.value = .leaf vec ∧ ValidVec V w s vec := by
  have hlen := hP _ hver
  rw [length_map, length_eq_one_iff] at hlen
  obtain ⟨a, rfl⟩ := hlen
  obtain ⟨w, vec, ht, hv, hvalid⟩ := hops a mem_cons_self
  exact ⟨a, w, vec, rfl, ht, hv, hvalid⟩

theorem verify_unary {kind : NodeKind} {type : IrType} {ts : List IrType}
    (hk : isUnary kind = true) (h : verifyNode params kind ts type = true) : ts.length = 1 := by
  unfold verifyNode at h
  split at h <;> first | rfl | cases hk | cases h

omit [Preorder S] in
/-- The concatenation is as wide as the operands together. -/
theorem totalBits_eq {total : Nat}
    (hall : Forall₂ (fun vec (o : Operand E) => ∃ w, o.node.type = .bits w ∧ ValidVec V w s vec)
      vecs ops) (htotal : IrType.totalBits (ops.map fun o => o.node.type) = some total) :
    (concat vecs).length = total := by
  induction hall generalizing total with
  | nil =>
    cases htotal
    rfl
  | cons hvec _ ih =>
    obtain ⟨w, hw, hlen, -⟩ := hvec
    rw [map_cons, hw] at htotal
    simp only [IrType.totalBits] at htotal
    rw [Option.map_eq_some_iff] at htotal
    obtain ⟨rest, hrest, rfl⟩ := htotal
    have hih := ih hrest
    simp only [concat, reverse_cons, flatten_append, length_append] at hih ⊢
    rw [hih]
    simp [hlen, Nat.add_comm]

omit [Preorder S] in
/-- The selector and the cases of a verified select. -/
theorem select_operands {a : Operand E} {as : List (Operand E)}
    (hops : ∀ o ∈ a :: as, VectorOperand V s o)
    (htypes : ∀ t ∈ ((a :: as).map fun o => o.node.type).drop 1, t = n.type) :
    ∃ v vec, a.node.type = .bits v ∧ a.value = .leaf vec ∧ ValidVec V v s vec ∧
      (∀ o ∈ as, VectorOperand V s o) ∧ ∀ o ∈ as, o.node.type = n.type := by
  obtain ⟨v, vec, hat, hav, hvec⟩ := hops a mem_cons_self
  refine ⟨v, vec, hat, hav, hvec, fun o ho => hops o (mem_cons_of_mem _ ho), fun o ho => ?_⟩
  exact htypes _ (mem_map_of_mem (f := fun o => o.node.type) ho)

theorem le_two_pow_of_verifySelector {width count : Nat} (hpos : 0 < count)
    (h : verifySelector width count hasDefault = true) : count ≤ 2 ^ width := by
  unfold verifySelector at h
  simp only [and_eq_true, decide_eq_true_eq] at h
  have hlt := Bits.lt_two_pow_iff_minBitCountUnsigned.2 h.1.1
  omega

section

variable (h : ev.TotalOps V) (ht : n.type = .bits w) (hops : ∀ o ∈ ops, VectorOperand V s o)
  (hver : verifyNode params n.kind (ops.map fun o => o.node.type) n.type = true)
include h ht hops hver

/-- The operations with one operand. -/
theorem TotalOps.node_unary (hk : isTotal n.kind = true) (hunary : isUnary n.kind = true) :
    Ensures s (ev.abstractNode default n ops) (VectorResult V w) := by
  obtain ⟨a, v, vec, rfl, hat, hav, hlen, hvec⟩ :=
    single_operand hops hver fun ts hts => verify_unary hunary hts
  rw [map_cons, map_nil, hat, ht] at hver
  unfold Evaluator.abstractNode
  cases hkind : n.kind with
  | un op =>
    rw [hkind] at hver hk
    have hw : v = w := by simp_all [verifyNode]
    subst hw
    cases op with
    | identity => exact ensures_pure fun t hst => ⟨vec, hav, hlen, h.allMono hst hvec⟩
    | neg => cases hk
    | not =>
      dsimp only
      rw [getValue_eq hat hav]
      refine ensures_setValue h ht ((h.bitwiseNot hvec).imp fun t r _ hr => ?_)
      exact ⟨hr.1.trans hlen, hr.2⟩
    | reverse =>
      dsimp only
      rw [getValue_eq hat hav]
      change Ensures s (setValue n vec.reverse) _
      rw [setValue_eq ht]
      refine ensures_pure fun t hst => ⟨vec.reverse, rfl, by simp [hlen], ?_⟩
      exact fun e he => h.mono hst (hvec e (mem_reverse.1 he))
  | reduce op =>
    rw [hkind] at hver
    have hw : w = 1 := by simp_all [verifyNode]
    subst hw
    dsimp only
    rw [getValue_eq hat hav]
    exact ensures_setBit h ht (h.handleReduce op hvec)
  | extend op k =>
    rw [hkind] at hver
    simp only [verifyNode, and_eq_true, decide_eq_true_eq, beq_iff_eq, IrType.bits.injEq]
      at hver
    obtain ⟨⟨hle, hpos⟩, rfl⟩ := hver
    cases op with
    | signExt =>
      dsimp only
      rw [getValue_eq hat hav]
      refine ensures_setValue h ht (ensures_signExtend h.monotonic hvec ?_ (by omega))
      rw [hlen]
      simpa using hpos
    | zeroExt =>
      dsimp only
      rw [getValue_eq hat hav]
      exact ensures_setValue h ht (h.zeroExtend hvec (by omega))
  | bitSlice start k =>
    rw [hkind] at hver
    simp only [verifyNode, and_eq_true, decide_eq_true_eq, beq_iff_eq, IrType.bits.injEq]
      at hver
    obtain ⟨hle, rfl⟩ := hver
    dsimp only
    rw [getValue_eq hat hav]
    exact ensures_setValue h ht (ensures_bitSlice h.monotonic hvec (by omega))
  | decode k =>
    rw [hkind] at hver
    simp only [verifyNode, and_eq_true, decide_eq_true_eq, beq_iff_eq, IrType.bits.injEq]
      at hver
    obtain ⟨hle, rfl⟩ := hver
    dsimp only
    rw [getValue_eq hat hav]
    exact ensures_setValue h ht (h.decode hvec (by rwa [hlen]))
  | encode =>
    rw [hkind] at hver
    simp only [verifyNode, beq_iff_eq, IrType.bits.injEq] at hver
    subst hver
    dsimp only
    rw [getValue_eq hat hav]
    refine ensures_setValue h ht ?_
    rw [← hlen]
    exact h.encode hvec
  | oneHot p =>
    rw [hkind] at hver
    simp only [verifyNode, beq_iff_eq, IrType.bits.injEq] at hver
    subst hver
    rw [← hlen] at ht ⊢
    cases p with
    | lsb =>
      dsimp only
      rw [getValue_eq hat hav]
      exact ensures_setValue h ht (h.oneHotLsbToMsb hvec)
    | msb =>
      dsimp only
      rw [getValue_eq hat hav]
      exact ensures_setValue h ht (h.oneHotMsbToLsb hvec)
  | _ =>
    rw [hkind] at hunary
    cases hunary

/-- Operations on several operands return a vector of the width of the node. -/
theorem TotalOps.node_nary {op : NaryOp} (hkind : n.kind = .nary op) :
    Ensures s (ev.abstractNode default n ops) (VectorResult V w) := by
  have hne : ops ≠ [] := by
    rintro rfl
    rw [hkind] at hver
    cases hver
  have htypes : ∀ o ∈ ops, o.node.type = n.type := by
    intro o ho
    rw [hkind] at hver
    obtain ⟨a, as, rfl⟩ := exists_cons_of_ne_nil hne
    rw [map_cons, verifyNode, and_eq_true, all_eq_true] at hver
    exact beq_iff_eq.1 (hver.2 _ (mem_map_of_mem (f := fun o => o.node.type) ho))
  have heq : ev.abstractNode default n ops = selectBy n ops (ev.handleNary op) := by
    unfold Evaluator.abstractNode selectBy
    rw [hkind, ht]
    rfl
  rw [heq]
  refine ensures_selectBy h ht hops htypes fun vecs hlen hvecs => h.handleNary op ?_ hvecs
  rintro rfl
  exact hne (eq_nil_of_length_eq_zero hlen.symm)

/-- Concatenations return a vector of the width of the node. -/
theorem TotalOps.node_concat (hkind : n.kind = .concat) :
    Ensures s (ev.abstractNode default n ops) (VectorResult V w) := by
  obtain ⟨vecs, hvecs, hall⟩ := getValueList_eq hops
  rw [hkind, ht] at hver
  simp only [verifyNode] at hver
  split at hver
  rotate_left
  · cases hver
  rename_i total htotal
  rw [beq_iff_eq, IrType.bits.injEq] at hver
  subst hver
  unfold Evaluator.abstractNode
  rw [hkind]
  dsimp only
  rw [hvecs]
  change Ensures s (setValue n (concat vecs)) _
  rw [setValue_eq ht]
  refine ensures_pure fun t hst => ⟨_, rfl, totalBits_eq hall htotal, fun e he => ?_⟩
  rw [concat, mem_flatten] at he
  obtain ⟨vec, hvec, he⟩ := he
  obtain ⟨i, hi, rfl⟩ := getElem_of_mem (mem_reverse.1 hvec)
  obtain ⟨w', -, hvalid⟩ := Forall₂.get hall hi (by rwa [← hall.length_eq])
  exact h.mono hst (hvalid.2 e he)

omit hops in
/-- Literals return a vector of the width of the node. -/
theorem TotalOps.node_literal {value : Value} (hkind : n.kind = .literal value) :
    Ensures s (ev.abstractNode default n ops) (VectorResult V w) := by
  have hconf : value.Conforms n.type := by
    rw [hkind] at hver
    unfold verifyNode at hver
    split at hver <;> simp_all
  have hconf' := hconf
  rw [ht] at hconf'
  obtain ⟨b, rfl, hb⟩ := Value.conforms_bits hconf'
  unfold Evaluator.abstractNode
  rw [hkind]
  dsimp only
  rw [decide_eq_true hconf]
  refine ensures_pure fun t _ => ⟨ev.bitsToVector b, rfl, ?_, h.bitsToVector b⟩
  rw [length_bitsToVector, hb]

/-- Comparisons that are total return a vector of one bit. -/
theorem TotalOps.node_compare {op : CompareOp} (hkind : n.kind = .compare op)
    (hk : isTotal n.kind = true) :
    Ensures s (ev.abstractNode default n ops) (VectorResult V w) := by
  rw [hkind] at hver hk
  rcases ops with _ | ⟨a, _ | ⟨b, _ | ⟨c, ops⟩⟩⟩
  · cases hver
  · cases hver
  · obtain ⟨va, x, hat, hav, hx⟩ := hops a (by simp)
    obtain ⟨vb, y, hbt, hbv, hy⟩ := hops b (by simp)
    simp only [map_cons, map_nil, verifyNode, hat, hbt, ht, and_eq_true, beq_iff_eq,
      IrType.bits.injEq] at hver
    obtain ⟨rfl, rfl⟩ := hver
    unfold Evaluator.abstractNode
    rw [hkind]
    exact ensures_setBit h ht (h.handleCompare hk hat hbt hav hbv hx hy)
  · cases hver

/-- The selects whose selector has a bit for every case. -/
theorem TotalOps.node_oneHotSel (hkind : n.kind = .oneHotSel ∨ n.kind = .prioritySel) :
    Ensures s (ev.abstractNode default n ops) (VectorResult V w) := by
  rcases ops with _ | ⟨a, as⟩
  · rcases hkind with hkind | hkind
    all_goals
      rw [hkind] at hver
      cases hver
  have htypes := verify_select (hkind.imp_right .inl) hver
  obtain ⟨v, vec, hat, hav, hvec, hcases, hcaseTypes⟩ := select_operands hops htypes
  have hcount : as.length = v ∧ 0 < v := by
    rcases hkind with hkind | hkind
    all_goals
      rw [hkind] at hver
      simp only [map_cons, hat, verifyNode, and_eq_true, beq_iff_eq, decide_eq_true_eq,
        length_map] at hver
      exact hver.1
  have hselect : ∀ vecs : List (List E), vecs.length = as.length →
      (∀ c ∈ vecs, ValidVec V w s c) → ValidSelect V s w vec vecs := by
    intro vecs hlen hvecs
    exact ⟨by rw [hvec.1, hlen, hcount.1], by rw [hvec.1]; exact hcount.2, hvec.2, hvecs⟩
  unfold Evaluator.abstractNode
  rcases hkind with hkind | hkind
  · rw [hkind]
    dsimp only
    rw [getValue_eq hat hav]
    refine ensures_selectBy h ht hcases hcaseTypes fun vecs hlen hvecs => ?_
    exact h.oneHotSelect (hselect vecs hlen hvecs) _
  · rw [hkind]
    dsimp only
    rw [getValue_eq hat hav]
    refine ensures_selectBy h ht hcases hcaseTypes fun vecs hlen hvecs => ?_
    exact h.prioritySelect (hselect vecs hlen hvecs) _

/-- Selections return a vector of the width of the node. -/
theorem TotalOps.node_sel (hkind : n.kind = .sel hasDefault) :
    Ensures s (ev.abstractNode default n ops) (VectorResult V w) := by
  rcases ops with _ | ⟨a, as⟩
  · rw [hkind] at hver
    cases hver
  have htypes := verify_select (.inr (.inr ⟨hasDefault, hkind⟩)) hver
  obtain ⟨v, vec, hat, hav, hvec, hcases, hcaseTypes⟩ := select_operands hops htypes
  rw [hkind] at hver
  simp only [map_cons, hat, verifyNode, and_eq_true, decide_eq_true_eq, length_map] at hver
  obtain ⟨⟨⟨-, hpos⟩, hselector⟩, -⟩ := hver
  have hle := le_two_pow_of_verifySelector hpos hselector
  rw [← hvec.1] at hle
  unfold Evaluator.abstractNode
  rw [hkind]
  dsimp only
  rw [getValue_eq hat hav]
  refine ensures_selectBy h ht hcases hcaseTypes fun vecs hlen hvecs => ?_
  cases hasDefault with
  | false =>
    rw [if_neg Bool.false_ne_true] at hpos hle ⊢
    exact h.select hvec.2 (by rwa [hlen]) (by rwa [hlen]) hvecs fun d hd => by cases hd
  | true =>
    rw [if_pos rfl] at hpos hle ⊢
    refine h.select hvec.2 (by rwa [length_dropLast, hlen])
      (by rwa [length_dropLast, hlen]) (fun c hc => hvecs c (mem_of_mem_dropLast hc))
      fun d hd => hvecs d (mem_of_getLast? hd)

end

/-- The evaluation of a verified node returns a vector of the width of the node. -/
theorem TotalOps.abstractNode (h : ev.TotalOps V) (hk : isTotal n.kind = true)
    (ht : n.type = .bits w) (hops : ∀ o ∈ ops, VectorOperand V s o)
    (hver : verifyNode params n.kind (ops.map fun o => o.node.type) n.type = true) :
    Ensures s (ev.abstractNode default n ops) (VectorResult V w) := by
  by_cases hunary : isUnary n.kind = true
  · exact h.node_unary ht hops hver hk hunary
  cases hkind : n.kind with
  | literal value => exact h.node_literal ht hver hkind
  | nary op => exact h.node_nary ht hops hver hkind
  | compare op => exact h.node_compare ht hops hver hkind hk
  | concat => exact h.node_concat ht hops hver hkind
  | oneHotSel => exact h.node_oneHotSel ht hops hver (.inl hkind)
  | prioritySel => exact h.node_oneHotSel ht hops hver (.inr hkind)
  | sel d => exact h.node_sel ht hops hver hkind
  | _ =>
    rw [hkind] at hk hunary
    first | exact absurd rfl hunary | cases hk

end Total

end Xls.Evaluator

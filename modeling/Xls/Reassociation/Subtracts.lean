import Xls.Reassociation.Nodes

/-!
# Xls.Reassociation.Subtracts

`ReassociateSubtracts` keeps every value (`reassociateSubtracts_spec`). The leaves of an
expression of adds and subtracts sum up to its value modulo a power of two, each with its
sign; separating the negated ones and negating their constants keeps the difference of the
two sums.
-/

namespace Xls.Reassociation

open List Bits LeafTree
open Xls.Graph (Build World)
open Xls.Graph.World (ensures_pure ensures_bind ensures_get ensures_lift)

variable {env : Env} {args : List Value} {w : World env args} {b : ℚ} {k : Nat}

/-- The bits modulo `2 ^ k`. -/
def residue (k : Nat) (x : Bits) : ZMod (2 ^ k) := (x.val : ZMod (2 ^ k))

variable {x : Bits} {id : Nat} {s : ZMod (2 ^ k)} {n : Node} {leaves : List AddSubLeaf}
  {y : Bits} {w' : World env args} {interior : List Nat} {ss : List (ZMod (2 ^ k))}

/-- Bits of one width with the same residue are equal. -/
theorem eq_of_residue (hx : x.width = k) (hy : y.width = k) (h : residue k x = residue k y) :
    x = y := by
  unfold residue at h
  rw [ZMod.natCast_eq_natCast_iff] at h
  have hxlt := x.isLt
  have hylt := y.isLt
  rw [hx] at hxlt
  rw [hy] at hylt
  refine ext (hx.trans hy.symm) ?_
  have hmod := Nat.ModEq.eq_of_lt_of_lt h hxlt hylt
  exact hmod

theorem residue_ofNat (n : Nat) : residue k (ofNat k n) = n := by
  unfold residue
  exact ZMod.natCast_mod n (2 ^ k)

theorem residue_add (hx : x.width = k) : residue k (x.add y) = residue k x + residue k y := by
  unfold Bits.add
  rw [hx, residue_ofNat, Nat.cast_add]
  rfl

theorem natCast_two_pow : ((2 ^ k : Nat) : ZMod (2 ^ k)) = 0 := ZMod.natCast_self (2 ^ k)

theorem residue_sub (hx : x.width = k) (hy : y.width = k) :
    residue k (x.sub y) = residue k x - residue k y := by
  unfold Bits.sub
  have hylt := y.isLt
  rw [hy] at hylt
  rw [hx, residue_ofNat, Nat.cast_sub (by omega), Nat.cast_add, natCast_two_pow, add_zero]
  rfl

theorem residue_negate (hx : x.width = k) : residue k x.negate = -residue k x := by
  unfold negate
  have hlt := x.isLt
  rw [hx] at hlt
  rw [hx, residue_ofNat, Nat.cast_sub hlt.le, natCast_two_pow, zero_sub]
  rfl

/-- The node holds bits of the width `k` with the given residue. -/
def HoldsResidue (k : Nat) (b : ℚ) (w : World env args) (id : Nat) (s : ZMod (2 ^ k)) : Prop :=
  ∃ x, w.Holds b id x ∧ x.width = k ∧ residue k x = s

theorem HoldsResidue.mono (hle : w ≤ w') (h : HoldsResidue k b w id s) :
    HoldsResidue k b w' id s := by
  obtain ⟨x, hx, hwidth, hs⟩ := h
  exact ⟨x, hx.mono hle, hwidth, hs⟩

/-- Adds combine residues. -/
theorem combines_add (k : Nat) (b : ℚ) :
    Combines (HoldsResidue k b : World env args → Nat → ZMod (2 ^ k) → Prop) (makeBinOp .add) where
  mono hle h := h.mono hle
  combine := by
    rintro w i j s t ⟨x, hx, hxw, rfl⟩ ⟨y, hy, hyw, rfl⟩
    refine (Graph.World.ensures_add hx hy (hxw.trans hyw.symm)).imp fun w' id _ hz => ?_
    exact ⟨x.add y, hz, hxw, residue_add hxw⟩

/-! ### Known values -/

/-- A value that is known without analysis is the value of the node. -/
theorem knownValueAsBits_sound {v : Bits} (hx : w.Holds b id x) (hn : w.graph.nodes[id]? = some n)
    (hv : knownValueAsBits w.graph n = some v) : v = x := by
  obtain ⟨ops, hops, heval⟩ := hx.eval hn
  obtain ⟨m, hm, ht⟩ := hx.node
  cases hn.symm.trans hm
  unfold knownValueAsBits at hv
  split at hv
  · rename_i c hk
    cases hv
    rw [hk] at heval
    cases heval
    rfl
  · rename_i u o hk ho
    split at hv
    rotate_left
    · cases hv
    rename_i htype
    cases hv
    rw [beq_iff_eq] at htype
    rw [hk] at heval
    rw [ho] at hops
    obtain ⟨y, hyw, hy⟩ := Graph.World.holds_of_type htype (lt_add_one (w.rank o))
    rw [collect, hy.value] at hops
    cases hops
    change (Interpreter.extendOp .zeroExt u y >>= fun r => pure (LeafTree.leaf r)) = _ at heval
    obtain ⟨r, hr, heval⟩ := Result.bind_eq_ok.1 heval
    cases heval
    obtain ⟨-, -, hr⟩ := Result.bind_eq_ok.1 hr
    cases hr
    have hzero : y.val = 0 := by
      have hlt := y.isLt
      rw [hyw] at hlt
      omega
    refine ext rfl ?_
    simp [zeroExtend, ofNat, Bits.zero, hzero]
  · rename_i htype _ _
    cases hv
    rw [ht] at htype
    have hwidth : x.width = 0 := by simpa using htype
    refine ext hwidth.symm ?_
    have hlt := x.isLt
    rw [hwidth] at hlt
    change 0 = x.val
    omega
  · cases hv

/-! ### Gathering the leaves -/

/-- A leaf with its sign. -/
def LeafStands (k : Nat) (b : ℚ) (w : World env args) (l : AddSubLeaf) (s : ZMod (2 ^ k)) : Prop :=
  ∃ x, w.Holds b l.node x ∧ x.width = k ∧ s = if l.negated then -residue k x else residue k x

theorem LeafStands.weaken {b' : ℚ} {l : AddSubLeaf} (hb : b ≤ b') (h : LeafStands k b w l s) :
    LeafStands k b' w l s := by
  obtain ⟨x, hx, hwidth, hs⟩ := h
  exact ⟨x, hx.weaken hb, hwidth, hs⟩

/-- What gathering from a node of value `x` finds. The leaves of an interior node rank
below it. -/
structure Gathered (k : Nat) (b : ℚ) (w : World env args) (id : Nat) (negated : Bool) (x : Bits)
    (leaves : List AddSubLeaf) (interior : List Nat) : Prop where
  sum : ∃ ss, Forall₂ (LeafStands k (if interior = [] then b else w.rank id) w) leaves ss ∧
    ss.sum = if negated then -residue k x else residue k x
  sign : ∃ l ∈ leaves, l.negated = negated
  subtract : subtractCount w.graph interior ≠ 0 → ∃ l ∈ leaves, l.negated = !negated

/-- Two operands of the type of the node. -/
theorem operands_of_sameType {i j : Nat} (hn : w.graph.nodes[id]? = some n)
    (hij : n.operands = [i, j]) (ht : n.type = .bits k)
    (hsame : nodeAndOperandsSameType w.graph n = true) :
    ∃ y z, w.Holds (w.rank id) i y ∧ w.Holds (w.rank id) j z ∧ y.width = k ∧ z.width = k := by
  unfold nodeAndOperandsSameType at hsame
  rw [hij, all_eq_true] at hsame
  have htype : ∀ o ∈ [i, j], w.graph.nodes[o]?.map Node.type = some (.bits k) := by
    intro o ho
    rw [beq_iff_eq.1 (hsame o ho), ht]
  have hrank : ∀ o ∈ [i, j], w.rank o < w.rank id := by
    intro o ho
    rw [← hij] at ho
    exact w.ranked id n hn o ho
  obtain ⟨y, hyw, hy⟩ := Graph.World.holds_of_type (htype i (by simp)) (hrank i (by simp))
  obtain ⟨z, hzw, hz⟩ := Graph.World.holds_of_type (htype j (by simp)) (hrank j (by simp))
  exact ⟨y, z, hy, hz, hyw, hzw⟩

/-- The two operands of an add or a subtract of equal types. -/
theorem operands_of_add_sub (hx : w.Holds b id x) (hxw : x.width = k)
    (hn : w.graph.nodes[id]? = some n) (hop : isAdd n = true ∨ isSub n = true)
    (hsame : nodeAndOperandsSameType w.graph n = true) :
    ∃ i j y z, n.operands = [i, j] ∧ w.Holds (w.rank id) i y ∧ w.Holds (w.rank id) j z ∧
      y.width = k ∧ z.width = k ∧
      residue k x = residue k y + (if isSub n then -residue k z else residue k z) := by
  subst hxw
  obtain ⟨m, hm, ht⟩ := hx.node
  cases hn.symm.trans hm
  obtain ⟨ops, hops, heval⟩ := hx.eval hn
  have hkind : ∃ op, n.kind = .bin op := by
    rcases hop with hop | hop
    · exact ⟨_, of_decide_eq_true hop⟩
    · exact ⟨_, of_decide_eq_true hop⟩
  obtain ⟨op, hk⟩ := hkind
  have htwo : ∃ i j, n.operands = [i, j] := by
    have hlen := ((collect_eq_some).1 hops).length_eq
    rw [hk] at heval
    rcases ops with _ | ⟨u, _ | ⟨v, _ | ⟨u', ops⟩⟩⟩
    · cases heval
    · cases heval
    · exact length_eq_two.1 hlen
    · cases heval
  obtain ⟨i, j, hij⟩ := htwo
  obtain ⟨y, z, hy, hz, hyw, hzw⟩ := operands_of_sameType hn hij ht hsame
  refine ⟨i, j, y, z, hij, hy, hz, hyw, hzw, ?_⟩
  rw [hij, collect, collect, hy.value, hz.value] at hops
  cases hops
  rw [hk] at heval
  change (Interpreter.binOp op y z >>= fun r => pure (LeafTree.leaf r)) = _ at heval
  obtain ⟨r, hr, heval⟩ := Result.bind_eq_ok.1 heval
  cases heval
  rcases hop with hop | hop
  · have hadd : op = .add := by
      have hkadd := of_decide_eq_true hop
      rw [hk] at hkadd
      cases hkadd
      rfl
    subst hadd
    obtain ⟨-, -, hr⟩ := Result.bind_eq_ok.1 hr
    cases hr
    have hsub : isSub n = false := by simp [isSub, hk]
    rw [hsub, residue_add hyw]
    rfl
  · have hsub' : op = .sub := by
      have hksub := of_decide_eq_true hop
      rw [hk] at hksub
      cases hksub
      rfl
    subst hsub'
    obtain ⟨-, -, hr⟩ := Result.bind_eq_ok.1 hr
    cases hr
    rw [hop, if_pos rfl, ← sub_eq_add_neg, residue_sub hyw hzw]

theorem subtractCount_append (g : Graph) (is js : List Nat) :
    subtractCount g (is ++ js) = subtractCount g is + subtractCount g js := by
  unfold subtractCount
  rw [filter_append, length_append]

theorem subtractCount_cons {g : Graph} (hn : g.nodes[id]? = some n) (is : List Nat) :
    subtractCount g (id :: is) = (if isSub n then 1 else 0) + subtractCount g is := by
  unfold subtractCount
  rw [filter_cons, hn]
  cases hs : isSub n with
  | true => simp [hs, Nat.add_comm]
  | false => simp [hs]

/-- The leaves found from an operand also rank below the node. -/
theorem Gathered.items {negated : Bool} (h : Gathered k b w id negated x leaves interior)
    (hx : w.Holds b id x) :
    ∃ ss, Forall₂ (LeafStands k b w) leaves ss ∧
      ss.sum = if negated then -residue k x else residue k x := by
  obtain ⟨ss, hss, hsum⟩ := h.sum
  refine ⟨ss, hss.imp fun _ _ => LeafStands.weaken ?_, hsum⟩
  split
  · exact le_refl b
  · exact hx.rank.le

/-- Gathering returns, and the leaves with their signs sum up to the value of the node. -/
theorem gatherAddsAndSubtracts_spec (negated : Bool) {fuel : Nat} (hx : w.Holds b id x)
    (hxw : x.width = k) (hfuel : w.graph.below w.rank id < fuel) :
    ∃ leaves interior, gatherAddsAndSubtracts w.graph fuel id negated = .ok (leaves, interior) ∧
      Gathered k b w id negated x leaves interior := by
  induction fuel generalizing b id negated x with
  | zero => exact absurd hfuel (Nat.not_lt_zero _)
  | succ fuel ih =>
    obtain ⟨n, hn, -⟩ := hx.node
    rw [gatherAddsAndSubtracts, hn, show derefOption (some n) = .ok n from rfl, Result.ok_bind]
    split
    · refine ⟨[⟨negated, id⟩], [], rfl, ⟨⟨[_], ?_, sum_singleton⟩,
        ⟨⟨negated, id⟩, mem_singleton.2 rfl, rfl⟩, ?_⟩⟩
      · refine Forall₂.cons ⟨x, ?_, hxw, rfl⟩ Forall₂.nil
        rw [if_pos rfl]
        exact hx
      · intro hcount
        exact absurd rfl hcount
    · rename_i hcond
      simp only [Bool.or_eq_true, Bool.and_eq_true, Bool.not_eq_true', not_or, not_and,
        Bool.not_eq_false] at hcond
      have hop : isAdd n = true ∨ isSub n = true := by
        cases hadd : isAdd n with
        | true => exact .inl rfl
        | false => exact .inr (hcond.1 hadd)
      obtain ⟨i, j, y, z, hij, hy, hz, hyw, hzw, hval⟩ :=
        operands_of_add_sub hx hxw hn hop hcond.2
      have hlt : ∀ o, o ∈ [i, j] → w.graph.below w.rank o < fuel := by
        intro o ho
        rw [← hij] at ho
        have hbelow := Graph.below_lt (w.valuation.operand_lt hn ho) (w.ranked id n hn o ho)
        omega
      obtain ⟨ls, is, hrun, hgl⟩ := ih negated hy hyw (hlt i (by simp))
      obtain ⟨ls', is', hrun', hgr⟩ :=
        ih (if isSub n then !negated else negated) hz hzw (hlt j (by simp))
      refine ⟨ls ++ ls', id :: (is ++ is'), ?_, ?_⟩
      · rw [hij]
        dsimp only
        rw [hrun, Result.ok_bind]
        dsimp only
        rw [hrun']
        rfl
      · obtain ⟨ss, hss, hsum⟩ := hgl.items hy
        obtain ⟨ts, hts, hsum'⟩ := hgr.items hz
        refine ⟨⟨ss ++ ts, ?_, ?_⟩, ?_, ?_⟩
        · rw [if_neg (cons_ne_nil _ _)]
          exact rel_append hss hts
        · rw [sum_append, hsum, hsum', hval]
          cases negated <;> cases isSub n <;> simp [add_comm]
        · obtain ⟨l, hl, hsign⟩ := hgl.sign
          exact ⟨l, mem_append_left _ hl, hsign⟩
        · intro hcount
          rw [subtractCount_cons hn, subtractCount_append] at hcount
          cases hsub : isSub n with
          | true =>
            obtain ⟨l, hl, hsign⟩ := hgr.sign
            rw [hsub] at hsign
            exact ⟨l, mem_append_right _ hl, hsign⟩
          | false =>
            rw [hsub] at hcount
            by_cases hleft : subtractCount w.graph is = 0
            · have hright : subtractCount w.graph is' ≠ 0 := by
                intro hzero
                rw [hleft, hzero] at hcount
                exact hcount rfl
              obtain ⟨l, hl, hsign⟩ := hgr.subtract hright
              rw [hsub] at hsign
              exact ⟨l, mem_append_right _ hl, hsign⟩
            · obtain ⟨l, hl, hsign⟩ := hgl.subtract hleft
              exact ⟨l, mem_append_left _ hl, hsign⟩

/-! ### The new expression -/

/-- The sum of nodes holds the sum of their residues. -/
theorem createSum_spec {ids : List Nat} (hne : ids ≠ []) (h : Forall₂ (HoldsResidue k b w) ids ss) :
    w.Ensures (createSum ids) fun w' id => HoldsResidue k b w' id ss.sum := by
  induction ids generalizing w ss with
  | nil => exact absurd rfl hne
  | cons i ids ih =>
    match ids, ss, h with
    | [], [s], .cons hi .nil =>
      refine ensures_pure fun w' hle => ?_
      rw [sum_singleton]
      exact hi.mono hle
    | j :: ids, s :: ss, .cons hi hrest =>
      refine ensures_bind (ih (cons_ne_nil _ _) hrest) fun w' r hle hr => ?_
      rw [sum_cons]
      exact (combines_add k b).combine (hi.mono hle) hr

theorem LeafStands.mono (hle : w ≤ w') {l : AddSubLeaf} (h : LeafStands k b w l s) :
    LeafStands k b w' l s := by
  obtain ⟨x, hx, hwidth, hs⟩ := h
  exact ⟨x, hx.mono hle, hwidth, hs⟩

/-- What separating the leaves gives. -/
structure Separated (k : Nat) (b : ℚ) (w : World env args) (leaves : List AddSubLeaf)
    (total : ZMod (2 ^ k)) (r : List Nat × List Nat × Bool) : Prop where
  difference : ∃ ps ns, Forall₂ (HoldsResidue k b w) r.1 ps ∧
    Forall₂ (HoldsResidue k b w) r.2.1 ns ∧ ps.sum - ns.sum = total
  nonnegated : (∃ l ∈ leaves, l.negated = false) → r.1 ≠ []
  negated : (∃ l ∈ leaves, l.negated = true) → r.2.1 ≠ [] ∨ r.2.2 = true

/-- Added and subtracted leaves are separated, with the sum kept. -/
theorem separateLeaves_spec (h : Forall₂ (LeafStands k b w) leaves ss) :
    w.Ensures (separateLeaves leaves) fun w' r => Separated k b w' leaves ss.sum r := by
  induction leaves generalizing w ss with
  | nil =>
    cases h
    refine ensures_pure fun w' _ => ⟨⟨[], [], Forall₂.nil, Forall₂.nil, ?_⟩, ?_, ?_⟩
    · rw [sum_nil, sub_zero]
    · rintro ⟨l, hl, -⟩
      cases hl
    · rintro ⟨l, hl, -⟩
      cases hl
  | cons l leaves ih =>
    match ss, h with
    | s :: ss, .cons hl hrest =>
      obtain ⟨x, hx, hxw, hs⟩ := hl
      unfold separateLeaves
      cases hneg : l.negated with
      | false =>
        rw [hneg, if_neg Bool.false_ne_true] at hs
        rw [if_neg Bool.false_ne_true]
        refine ensures_bind (ih hrest) fun w₁ r h₁ hr => ?_
        obtain ⟨ps, ns, hps, hns, hdiff⟩ := hr.difference
        refine ensures_pure fun w₂ h₂ => ⟨⟨s :: ps, ns, ?_, ?_, ?_⟩, ?_, ?_⟩
        · refine Forall₂.cons ⟨x, hx.mono (h₁.trans h₂), hxw, hs.symm⟩ ?_
          exact hps.imp fun _ _ => HoldsResidue.mono h₂
        · exact hns.imp fun _ _ => HoldsResidue.mono h₂
        · rw [sum_cons, sum_cons, ← hdiff, add_sub_assoc]
        · exact fun _ => cons_ne_nil _ _
        · rintro ⟨l', hl', hneg'⟩
          rcases mem_cons.1 hl' with rfl | hl'
          · rw [hneg] at hneg'
            cases hneg'
          · exact hr.negated ⟨l', hl', hneg'⟩
      | true =>
        rw [hneg, if_pos rfl] at hs
        rw [if_pos rfl]
        refine ensures_get fun w₁ h₁ => ?_
        have hx₁ := hx.mono h₁
        obtain ⟨n, hn, -⟩ := hx₁.node
        rw [hn, Option.bind_some]
        cases hknown : knownValueAsBits w₁.graph n with
        | some value =>
          have hvalue := knownValueAsBits_sound hx₁ hn hknown
          subst hvalue
          dsimp only
          refine ensures_bind (Graph.World.ensures_literal value.negate b)
            fun w₃ literal h₃ hliteral => ?_
          have hle := h₁.trans h₃
          refine ensures_bind (ih (hrest.imp fun _ _ => LeafStands.mono hle))
            fun w₄ r h₄ hr => ?_
          obtain ⟨ps, ns, hps, hns, hdiff⟩ := hr.difference
          refine ensures_pure fun w₅ h₅ => ⟨⟨s :: ps, ns, ?_, ?_, ?_⟩, ?_, ?_⟩
          · refine Forall₂.cons ⟨_, hliteral.mono (h₄.trans h₅), hxw, ?_⟩ ?_
            · rw [residue_negate hxw, hs]
            · exact hps.imp fun _ _ => HoldsResidue.mono h₅
          · exact hns.imp fun _ _ => HoldsResidue.mono h₅
          · rw [sum_cons, sum_cons, ← hdiff, add_sub_assoc]
          · exact fun _ => cons_ne_nil _ _
          · exact fun _ => .inr rfl
        | none =>
          dsimp only
          refine ensures_bind (ih (hrest.imp fun _ _ => LeafStands.mono h₁))
            fun w₃ r h₃ hr => ?_
          obtain ⟨ps, ns, hps, hns, hdiff⟩ := hr.difference
          refine ensures_pure fun w₄ h₄ => ⟨⟨ps, residue k x :: ns, ?_, ?_, ?_⟩, ?_, ?_⟩
          · exact hps.imp fun _ _ => HoldsResidue.mono h₄
          · refine Forall₂.cons ⟨x, hx.mono ((h₁.trans h₃).trans h₄), hxw, rfl⟩ ?_
            exact hns.imp fun _ _ => HoldsResidue.mono h₄
          · rw [sum_cons, sum_cons, ← hdiff, hs]
            ring
          · rintro ⟨l', hl', hneg'⟩
            rcases mem_cons.1 hl' with rfl | hl'
            · rw [hneg] at hneg'
              cases hneg'
            · exact hr.nonnegated ⟨l', hl', hneg'⟩
          · exact fun _ => .inl (cons_ne_nil _ _)

/-- The checks of the source hold when some leaf is negated and some is not. -/
theorem createDifference_spec {total : ZMod (2 ^ k)} {r : List Nat × List Nat × Bool}
    (h : Separated k b w leaves total r) (hpos : ∃ l ∈ leaves, l.negated = false)
    (hneg : ∃ l ∈ leaves, l.negated = true) :
    w.Ensures (createDifference r.1 r.2.1 r.2.2) fun w' id => HoldsResidue k b w' id total := by
  obtain ⟨ps, ns, hps, hns, hdiff⟩ := h.difference
  have hnonempty := h.nonnegated hpos
  unfold createDifference
  by_cases hempty : r.2.1 = []
  · have hconstant : r.2.2 = true := (h.negated hneg).resolve_left fun hne => hne hempty
    rw [if_pos (List.isEmpty_iff.2 hempty), if_pos hconstant]
    rw [hempty] at hns
    cases hns
    rw [sum_nil, sub_zero] at hdiff
    rw [← hdiff]
    exact createSum_spec hnonempty hps
  · rw [if_neg (by rwa [List.isEmpty_iff]), if_neg (by rwa [List.isEmpty_iff])]
    refine ensures_bind (createSum_spec hnonempty hps) fun w₁ lhs h₁ hlhs => ?_
    refine ensures_bind (createSum_spec hempty (hns.imp fun _ _ => HoldsResidue.mono h₁))
      fun w₂ rhs h₂ hrhs => ?_
    obtain ⟨x, hx, hxw, hxs⟩ := hlhs.mono h₂
    obtain ⟨y, hy, hyw, hys⟩ := hrhs
    refine (Graph.World.ensures_sub hx hy (hxw.trans hyw.symm)).imp fun w₃ id _ hz => ?_
    exact ⟨x.sub y, hz, hxw, by rw [residue_sub hxw hyw, hxs, hys, hdiff]⟩

/-! ### The loop -/

/-- A node that an expression of its residue may replace. -/
theorem replaceUsesWith_spec {new : Nat} (hx : w.Holds b id x) (hxw : x.width = k)
    (hnew : HoldsResidue k (w.rank id) w new (residue k x)) :
    w.Ensures (Graph.replaceUsesWith id new) fun _ _ => True := by
  obtain ⟨y, hy, hyw, hres⟩ := hnew
  rw [eq_of_residue hyw hxw hres] at hy
  exact Graph.World.ensures_replaceUsesWith hx hy

/-- A tree with subtractions keeps its value. -/
theorem reassociateSubtract_spec (hx : w.Holds b id x)
    (h : Gathered x.width b w id false x leaves interior) :
    w.Ensures (reassociateSubtract id leaves (subtractCount w.graph interior)) fun _ _ => True := by
  unfold reassociateSubtract
  split
  · exact ensures_pure fun _ _ => trivial
  · rename_i hcount
    have hne : interior ≠ [] := by
      rintro rfl
      exact hcount rfl
    obtain ⟨ss, hss, hsum⟩ := h.sum
    rw [if_neg hne] at hss
    rw [if_neg Bool.false_ne_true] at hsum
    refine ensures_bind (separateLeaves_spec hss) fun w₁ r h₁ hr => ?_
    obtain ⟨nonnegated, negated, negatedConstant⟩ := r
    dsimp only
    split
    · exact ensures_pure fun _ _ => trivial
    · refine ensures_bind (createDifference_spec hr h.sign (h.subtract hcount))
        fun w₂ new h₂ hnew => ?_
      have hle := h₁.trans h₂
      rw [hsum, ← hle.rank id hx.lt] at hnew
      refine ensures_bind (replaceUsesWith_spec (hx.mono hle) rfl hnew) fun _ _ _ _ => ?_
      exact ensures_pure fun _ _ => trivial

/-- An add, a subtract or a product holds bits. -/
theorem holds_of_verified (hn : w.graph.nodes[id]? = some n) (hbits : n.type.isBits = true) :
    ∃ x, w.Holds (w.rank id + 1) id x := by
  obtain ⟨k, hk⟩ := IrType.eq_bits_of_isBits hbits
  have htype : w.graph.nodes[id]?.map Node.type = some (.bits k) := by
    rw [hn, Option.map_some, hk]
  obtain ⟨x, -, hx⟩ := Graph.World.holds_of_type htype (lt_add_one (w.rank id))
  exact ⟨x, hx⟩

theorem isBits_of_bin (hn : w.graph.nodes[id]? = some n) {op : BinOp} (hk : n.kind = .bin op) :
    n.type.isBits = true := by
  obtain ⟨types, -, hverify⟩ := w.verified id n hn
  rw [hk] at hverify
  rcases types with _ | ⟨a, _ | ⟨b, _ | ⟨c, types⟩⟩⟩
  · cases hverify
  · cases hverify
  · rw [verifyNode_bin, Bool.and_eq_true, Bool.and_eq_true] at hverify
    exact hverify.1.1
  · cases hverify

/-- Every step of the loop keeps the values. -/
theorem reassociateSubtracts_spec {order visited : List Nat} {changed : Bool}
    (horder : ∀ id ∈ order, id < w.graph.nodes.length) :
    w.Ensures (reassociateSubtracts order visited changed) fun _ _ => True := by
  induction order generalizing w visited changed with
  | nil => exact ensures_pure fun _ _ => trivial
  | cons id order ih =>
    rw [forall_mem_cons] at horder
    have hrest : ∀ {w' : World env args} {visited : List Nat} {changed : Bool}, w ≤ w' →
        w'.Ensures (reassociateSubtracts order visited changed) fun _ _ => True :=
      fun hle => ih fun i hi => lt_of_lt_of_le (horder.2 i hi) hle.length
    unfold reassociateSubtracts
    split
    · exact hrest (le_refl w)
    · refine ensures_get fun w₁ h₁ => ?_
      obtain ⟨n, hn⟩ : ∃ n, w₁.graph.nodes[id]? = some n :=
        ⟨_, getElem?_eq_getElem (lt_of_lt_of_le horder.1 h₁.length)⟩
      have hderef : derefOption w₁.graph.nodes[id]? = .ok n := by rw [hn]; rfl
      refine ensures_lift hderef ?_
      split
      · exact hrest h₁
      · rename_i hop
        have hbits : n.type.isBits = true := by
          cases hadd : isAdd n with
          | true => exact isBits_of_bin hn (of_decide_eq_true hadd)
          | false =>
            have hsub : isSub n = true := by simpa [hadd] using hop
            exact isBits_of_bin hn (of_decide_eq_true hsub)
        obtain ⟨x, hx⟩ := holds_of_verified hn hbits
        obtain ⟨leaves, interior, hgather, hgathered⟩ := gatherAddsAndSubtracts_spec false hx rfl
          (Nat.lt_succ_of_le (Graph.below_le w₁.graph w₁.rank id))
        refine ensures_lift hgather ?_
        refine ensures_bind (reassociateSubtract_spec hx hgathered) fun w₂ replaced h₂ _ => ?_
        exact hrest (h₁.trans h₂)

end Xls.Reassociation

import Xls.BooleanSimplification.Flow
import Xls.Graph.Changes

/-!
# Xls.BooleanSimplification.Pass

The frontiers that the pass notes are frontiers of logic expressions, in whatever order the
nodes are visited. The replacement by a truth table has the value of the node
(`simplifies_iff`), except that the literal of a tautology over no bits cannot be made:
`SBits` has no room for the `-1`. The pass as a whole keeps all values
(`runOnFunctionBaseInternal_keepsValues`).
-/

namespace Xls

open BitsOps List Bits Nat
open Graph (World)
open Graph.World

namespace BooleanSimplification

variable {env : Env} {args : List Value} {w : World env args} {frontier : List Nat}

/-! ### Frontiers -/

/-- A frontier below some operands, of nodes of their type. -/
structure Spans (w : World env args) (b : ℚ) (t : IrType) (os : List Nat) (frontier : List Nat) :
    Prop where
  length : frontier.length ≤ 3
  type : ∀ f ∈ frontier, w.graph.nodes[f]?.map Node.type = some t
  rank : ∀ f ∈ frontier, w.rank f < b
  dag : ∀ o ∈ os, LogicDag w.graph frontier o

/-- A frontier that was not given up. -/
def FrontierSpans (w : World env args) (b : ℚ) (t : IrType) (os : List Nat) (f : Frontier) : Prop :=
  ∀ nodes, f = .vector nodes → Spans w b t os nodes

variable {b : ℚ} {t : IrType} {os : List Nat} {f : Frontier} {n : Node} {order : List Nat}

/-- A node that is no logic operation is on the frontier itself. -/
theorem frontierSpans_addNonBool {node : Nat} (h : FrontierSpans w b t os f)
    (htype : w.graph.nodes[node]?.map Node.type = some t) (hrank : w.rank node < b) :
    FrontierSpans w b t (node :: os) (addNonBool node f) := by
  intro out hout
  cases f with
  | tooMany => cases hout
  | vector nodes =>
    have hspans := h nodes rfl
    rw [addNonBool] at hout
    split at hout
    · rename_i hin
      cases hout
      refine ⟨hspans.length, hspans.type, hspans.rank, forall_mem_cons.2 ⟨?_, hspans.dag⟩⟩
      exact .frontier (contains_iff_mem.1 hin)
    · split at hout
      · cases hout
      · rename_i hroom
        cases hout
        have hsub : ∀ f ∈ nodes, LogicDag w.graph (nodes ++ [node]) f := fun f hf =>
          .frontier (mem_append_left _ hf)
        refine ⟨?_, ?_, ?_, forall_mem_cons.2 ⟨?_, fun o ho => ?_⟩⟩
        · rw [length_append, length_singleton]
          exact Nat.lt_of_not_le hroom
        · exact forall_mem_append.2 ⟨hspans.type, forall_mem_singleton.2 htype⟩
        · exact forall_mem_append.2 ⟨hspans.rank, forall_mem_singleton.2 hrank⟩
        · exact .frontier (mem_append_right _ mem_cons_self)
        · exact (hspans.dag o ho).trans hsub

theorem frontierSpans_foldl {nodes : List Nat} (h : FrontierSpans w b t os f)
    (htype : ∀ node ∈ nodes, w.graph.nodes[node]?.map Node.type = some t)
    (hrank : ∀ node ∈ nodes, w.rank node < b) :
    FrontierSpans w b t (nodes.reverse ++ os)
      (nodes.foldl (fun out node => addNonBool node out) f) := by
  induction nodes generalizing f os with
  | nil => exact h
  | cons node nodes ih =>
    obtain ⟨hnode, htype⟩ := forall_mem_cons.1 htype
    obtain ⟨hlt, hrank⟩ := forall_mem_cons.1 hrank
    rw [foldl_cons, reverse_cons, List.append_assoc, singleton_append]
    exact ih (frontierSpans_addNonBool h hnode hlt) htype hrank

/-- Every frontier in the map is that of its node. -/
def MapSpans (w : World env args) (nodeToFrontier : List (Nat × Frontier)) : Prop :=
  ∀ id f, nodeToFrontier.lookup id = some f → ∃ n, w.graph.nodes[id]? = some n ∧
    isLogicOp n = true ∧ FrontierSpans w (w.rank id) n.type n.operands f

/-- The frontiers of two operands united. -/
theorem frontierSpans_union {out : Frontier} {o : Nat} (h : FrontierSpans w b t os out)
    (hn : w.graph.nodes[o]? = some n) (hlogic : isLogicOp n = true) (htype : n.type = t)
    (hrank : w.rank o < b) (hf : FrontierSpans w (w.rank o) n.type n.operands f) :
    FrontierSpans w b t (o :: os) (union f out) := by
  intro nodes hnodes
  cases out with
  | tooMany => cases hnodes
  | vector before =>
    cases f with
    | tooMany => cases hnodes
    | vector below =>
      have hbelow := hf below rfl
      rw [htype] at hbelow
      have hspans := frontierSpans_foldl h hbelow.type
        (fun f hf => (hbelow.rank f hf).trans hrank) nodes hnodes
      obtain ⟨hdag, hdagOs⟩ := forall_mem_append.1 hspans.dag
      refine ⟨hspans.length, hspans.type, hspans.rank, forall_mem_cons.2 ⟨?_, hdagOs⟩⟩
      -- from the node down to its own frontier, and from there on
      have hown : LogicDag w.graph below o := .logic hn hlogic hbelow.dag
      exact hown.trans fun f hf => hdag f (mem_reverse.2 hf)

variable {nodeToFrontier : List (Nat × Frontier)} {id m : Nat} {v : Bits} {ids : List Nat}
  {w' : World env args}

/-- The frontier of a logic operation unites those of its operands. -/
theorem frontierSpans_unionOperandFrontier (h : MapSpans w nodeToFrontier)
    (hn : w.graph.nodes[id]? = some n) (hlogic : isLogicOp n = true) :
    FrontierSpans w (w.rank id) n.type n.operands (unionOperandFrontier nodeToFrontier n) := by
  obtain ⟨types, htypes, hverify⟩ := w.verified id n hn
  have htype := operand_type htypes (types_of_isLogicOp hlogic hverify).2
  have hrank := w.ranked id n hn
  have hempty : FrontierSpans w (w.rank id) n.type [] (.vector []) := by
    intro nodes hnodes
    cases hnodes
    constructor <;> simp
  have hfold : ∀ os : List Nat, (∀ o ∈ os, w.graph.nodes[o]?.map Node.type = some n.type) →
      (∀ o ∈ os, w.rank o < w.rank id) → FrontierSpans w (w.rank id) n.type os.reverse
        (unionOperandFrontier nodeToFrontier { n with operands := os }) := by
    intro os
    induction os using List.reverseRecOn with
    | nil => exact fun _ _ => hempty
    | append_singleton os o ih =>
      intro htype hrank
      have hf := ih (fun u hu => htype u (mem_append_left _ hu)) fun u hu =>
        hrank u (mem_append_left _ hu)
      have ho := htype o (by simp)
      have hlt := hrank o (by simp)
      rw [reverse_append, reverse_singleton, singleton_append, unionOperandFrontier, foldl_append,
        foldl_cons, foldl_nil]
      split
      · exact frontierSpans_addNonBool hf ho hlt
      · rename_i f' hlookup
        obtain ⟨m, hm, hmlogic, hm'⟩ := h o f' hlookup
        rw [hm] at ho
        exact frontierSpans_union hf hm hmlogic (Option.some.inj ho) hlt hm'
  have hall := hfold n.operands htype hrank
  intro nodes hnodes
  have hspans := hall nodes hnodes
  refine ⟨hspans.length, hspans.type, hspans.rank, fun o ho => hspans.dag o ?_⟩
  simpa using ho

/-- Visiting one node keeps that all frontiers span. -/
theorem mapSpans_visitFrontier (h : MapSpans w nodeToFrontier) (id : Nat) :
    MapSpans w (visitFrontier w.graph nodeToFrontier id) := by
  unfold visitFrontier
  split
  · rename_i n hn
    split
    · rename_i hlogic
      intro id' f hlookup
      rw [lookup_cons] at hlookup
      by_cases hsame : id' = id
      · rw [beq_iff_eq.2 hsame] at hlookup
        cases hlookup
        subst hsame
        exact ⟨n, hn, hlogic, frontierSpans_unionOperandFrontier h hn hlogic⟩
      · rw [beq_eq_false_iff_ne.2 hsame] at hlookup
        exact h id' f hlookup
    · exact h
  · exact h

/-- The induction over the nodes that are visited, in any order. -/
theorem mapSpans_visitFrontiers (w : World env args) (ids : List Nat) :
    MapSpans w (visitFrontiers w.graph ids) := by
  have hfold : ∀ (ids : List Nat) (m : List (Nat × Frontier)), MapSpans w m →
      MapSpans w (ids.foldl (visitFrontier w.graph) m) := by
    intro ids
    induction ids with
    | nil => exact fun m hm => hm
    | cons id ids ih => exact fun m hm => ih _ (mapSpans_visitFrontier hm id)
  exact hfold ids [] fun _ _ h => nomatch h

/-! ### The truth table of a node -/

/-- Some row has any truth values at the frontier. -/
theorem exists_rowValue (hlength : frontier.length ≤ 3) (σ : Nat → Bool) :
    ∃ k < 8, ∀ f ∈ frontier, σ f = rowValue frontier k f := by
  obtain ⟨k, hk, h₀, h₁, h₂⟩ := exists_row ((frontier[0]?.map σ).getD false)
    ((frontier[1]?.map σ).getD false) ((frontier[2]?.map σ).getD false)
  refine ⟨k, hk, fun f hf => ?_⟩
  obtain ⟨v, hv⟩ := Option.isSome_iff_exists.1 (frontierVector_of_mem hlength hf)
  obtain ⟨i, hi, rfl⟩ := mem_of_frontierVector hv
  rw [rowValue, hv, Option.map_some, Option.getD_some]
  obtain rfl | rfl | rfl : i = 0 ∨ i = 1 ∨ i = 2 := by omega
  · rw [h₀, show frontier[0]? = some f from hi]
    rfl
  · rw [h₁, show frontier[1]? = some f from hi]
    rfl
  · rw [h₂, show frontier[2]? = some f from hi]
    rfl

/-- The expression is true for all truth values. -/
def Tautology (g : Graph) (frontier : List Nat) (id : Nat) : Prop :=
  ¬∃ σ, Evaluates g frontier σ id false

/-- All ones, bit by bit. -/
theorem isAllOnes_iff_get : v.isAllOnes = true ↔ ∀ k < v.width, v.get k = true := by
  constructor
  · intro h k hk
    rw [Bits.isAllOnes, beq_iff_eq] at h
    rw [Bits.get, h, testBit_two_pow_sub_one]
    exact decide_eq_true hk
  · intro h
    have hv : v = allOnes v.width := by
      refine eq_of_get rfl fun k hk => ?_
      rw [h k hk, Bits.get, allOnes_val, testBit_two_pow_sub_one, decide_eq_true hk]
    rw [hv]
    simp [Bits.isAllOnes]

/-- The table that flows to a node has a row for each choice of truth values. -/
theorem isAllOnes_iff_tautology (hlength : frontier.length ≤ 3)
    (hdag : LogicDag w.graph frontier id) (hv : FlowsTo w.graph frontier id v) :
    v.isAllOnes = true ↔ Tautology w.graph frontier id := by
  rw [isAllOnes_iff_get, hv.rows]
  constructor
  · intro h ⟨σ, hσ⟩
    obtain ⟨k, hk, hrow⟩ := exists_rowValue hlength σ
    have hfalse := Evaluates.unique hdag hrow hσ (hv.evaluates k hk)
    rw [h k hk] at hfalse
    cases hfalse
  · intro h k hk
    by_contra hnot
    rw [Bool.not_eq_true] at hnot
    have heval := hv.evaluates k hk
    rw [hnot] at heval
    exact h ⟨_, heval⟩

/-- A table over two nodes does not tell rows apart that differ in the third. -/
theorem not_tellsThird (hlength : frontier.length = 2) (hdag : LogicDag w.graph frontier id)
    (hv : FlowsTo w.graph frontier id v) : tellsThird v = false := by
  have hinitial : ∀ i : Fin 3, i.val < 2 → ∀ k < 4,
      (TruthTable.getInitialVector i).get (2 * k) =
        (TruthTable.getInitialVector i).get (2 * k + 1) := by
    decide
  rw [tellsThird, any_eq_false]
  intro k hk
  rw [mem_range] at hk
  have hrow : ∀ f ∈ frontier, rowValue frontier (2 * k) f = rowValue frontier (2 * k + 1) f := by
    intro f hf
    obtain ⟨v', hv'⟩ := Option.isSome_iff_exists.1 (frontierVector_of_mem (by omega) hf)
    obtain ⟨i, hi, rfl⟩ := mem_of_frontierVector hv'
    have hlt := (List.getElem?_eq_some_iff.1 hi).1
    rw [rowValue, rowValue, hv']
    exact hinitial i (by omega) k hk
  have hsame := Evaluates.unique hdag hrow (hv.evaluates (2 * k) (by omega))
    (hv.evaluates (2 * k + 1) (by omega))
  simp [hsame]

/-- `SBits(-1)` is all ones, in widths with a bit. -/
theorem sBits_neg_one (h : 0 < m) : sBits (-1) m = .ok (allOnes m) := by
  have hmin : minBitCountSigned (-1) = 1 := rfl
  have hword : u64 (-1) &&& mask (min m 64) = 2 ^ min m 64 - 1 := by
    have hu64 : u64 (-1) = 2 ^ 64 - 1 := by decide
    rw [hu64, mask_eq]
    refine eq_of_testBit_eq fun i => ?_
    rw [testBit_and, testBit_two_pow_sub_one, testBit_two_pow_sub_one, ← Bool.decide_and]
    exact decide_eq_decide.2 (by omega)
  unfold sBits
  rw [hmin, decide_eq_true (show 1 ≤ m from h), checkThat_true, Result.ok_bind, hword,
    if_pos (by decide)]
  have hle : 2 ^ min m 64 ≤ 2 ^ m := Nat.pow_le_pow_right (by omega) (by omega)
  have hpos := Nat.two_pow_pos (min m 64)
  refine congrArg Except.ok (ext rfl ?_)
  rw [ofNat_val, allOnes_val]
  have hsum : 2 ^ min m 64 - 1 + (2 ^ m - 2 ^ min m 64) = 2 ^ m - 1 := by omega
  rw [hsum]
  exact mod_eq_of_lt (by omega)

/-! ### Replacements -/

/-- Matching a table returns, whatever it finds. -/
theorem matchesSymmetrical_ok {t : TruthTable} (hcompute : t.computeTruthTable = .ok v)
    (hpresent : ∀ i, t.present i = true → i.val < frontier.length)
    (hid : id < w.graph.nodes.length) :
    ∃ minimal, t.matchesSymmetrical w.graph id frontier = .ok minimal := by
  unfold TruthTable.matchesSymmetrical
  have hderef : derefOption w.graph.nodes[id]? = .ok w.graph.nodes[id] := by
    rw [getElem?_eq_getElem hid]
    rfl
  rw [hderef, Result.ok_bind]
  cases hop : t.logicalOp with
  | some op =>
    dsimp only
    split
    · exact ⟨_, rfl⟩
    · exact ⟨_, rfl⟩
  | none =>
    dsimp only
    split
    · rename_i hnone
      -- a table without an operation has an operand
      have hnil : t.operandVectors = [] := by
        rw [TruthTable.operandVectors, filterMap_eq_nil_iff]
        intro i hi
        rw [TruthTable.operandVector, if_neg (find?_eq_none.1 hnone i hi)]
      unfold TruthTable.computeTruthTable at hcompute
      rw [hop, hnil] at hcompute
      cases hcompute
    · rename_i i hsome
      have hlt := hpresent i (find?_some hsome)
      rw [getElem?_eq_getElem hlt]
      exact ⟨_, rfl⟩

/-- Nodes of a bits type hold words of its width. -/
theorem exists_holdsAll {b : ℚ}
    (htype : ∀ i ∈ ids, w.graph.nodes[i]?.map Node.type = some (.bits m))
    (hrank : ∀ i ∈ ids, w.rank i < b) : ∃ xs, HoldsAll w b ids xs ∧ ∀ x ∈ xs, x.width = m := by
  induction ids with
  | nil => exact ⟨[], .nil, by simp⟩
  | cons i ids ih =>
    obtain ⟨hi, htype⟩ := forall_mem_cons.1 htype
    obtain ⟨hlt, hrank⟩ := forall_mem_cons.1 hrank
    obtain ⟨x, hwidth, hx⟩ := holds_of_type hi hlt
    obtain ⟨xs, hxs, hwidths⟩ := ih htype hrank
    exact ⟨x :: xs, .cons hx hxs, forall_mem_cons.2 ⟨hwidth, hwidths⟩⟩

/-- A table of ones lifts to all ones, at every width. -/
theorem lifts_allOnes {xs : List Bits} (hrows : v.width = 8) (h : v.isAllOnes = true) :
    Lifts xs m v (allOnes m) where
  rows := hrows
  width := rfl
  get := by
    intro j hj k hk _
    rw [isAllOnes_iff_get.1 h k (by rwa [hrows]), Bits.get, allOnes_val, testBit_two_pow_sub_one]
    exact decide_eq_true hj

theorem lifts_zero {xs : List Bits} (hrows : v.width = 8) (h : v.isZero = true) :
    Lifts xs m v (Bits.ofNat m 0) where
  rows := hrows
  width := rfl
  get := by
    intro j _ k _ _
    rw [Bits.isZero, beq_iff_eq] at h
    rw [Bits.get, Bits.get, h, ofNat_val, zero_mod, zero_testBit, zero_testBit]

/-- The replacement has the word of the node. -/
theorem ensures_resolveTruthTable {x : Bits} (hlength : 2 ≤ frontier.length)
    (hlength' : frontier.length ≤ 3) (hdag : LogicDag w.graph frontier id)
    (hrank : ∀ f ∈ frontier, w.rank f < w.rank id)
    (htype : w.graph.nodes[id]?.map Node.type = some (.bits m))
    (htypes : ∀ f ∈ frontier, w.graph.nodes[f]?.map Node.type = some (.bits m))
    (hv : FlowsTo w.graph frontier id v) (hx : WordAt w frontier m id x)
    (hroom : v.isAllOnes = true → 0 < m) :
    w.Ensures (resolveTruthTable v frontier id) fun w' r =>
      ∀ new, r = some new → w'.Holds (w.rank id) new x := by
  have hid : w.Holds (w.rank id + 1) id x := by
    refine ⟨?_, hx.value, lt_add_one _⟩
    rw [htype, hx.width]
  obtain ⟨xs, hxs, hwidths⟩ := exists_holdsAll htypes hrank
  have hlifts : Lifts xs m v x :=
    lifts_of_flow hlength' (hxs.imp fun _ _ h => h.value) hdag hv hx
  unfold resolveTruthTable
  refine OneBitMux.ensures_retCheck (decide_eq_true ⟨hlength, hlength'⟩) ?_
  split
  · rename_i hones
    have hpos := hroom hones
    have hxones : x = allOnes m := hlifts.unique (lifts_allOnes hv.rows hones)
    refine ensures_bind (ensures_bitCountOrDie hid) fun w₁ width h₁ hwidth => ?_
    rw [hwidth, hx.width]
    refine ensures_lift (sBits_neg_one hpos) ?_
    refine ensures_bind (ensures_literal (allOnes m) (w.rank id)) fun w₂ literal h₂ h => ?_
    refine ensures_pure fun w₃ h₃ new hnew => ?_
    cases hnew
    rw [hxones]
    exact h.mono h₃
  · split
    · rename_i hzero
      have hxzero : x = Bits.ofNat m 0 := hlifts.unique (lifts_zero hv.rows hzero)
      refine ensures_bind (ensures_bitCountOrDie hid) fun w₁ width h₁ hwidth => ?_
      rw [hwidth, hx.width]
      refine ensures_bind (ensures_literal (Bits.ofNat m 0) (w.rank id)) fun w₂ literal h₂ h => ?_
      refine ensures_pure fun w₃ h₃ new hnew => ?_
      cases hnew
      rw [hxzero]
      exact h.mono h₃
    · obtain ⟨tables, htables, hentries⟩ := createTruthTables_ok
      refine ensures_lift htables ?_
      have hkey : BitsOps.toUint64 v = .ok v.val := by
        refine toUint64_eq ?_
        rw [hv.rows]
        decide
      refine ensures_lift hkey ?_
      cases hlookup : tables.lookup v.val with
      | none => exact ensures_pure fun _ _ new hnew => nomatch hnew
      | some t =>
        obtain ⟨v', hentry⟩ := hentries v.val t hlookup
        have hsame : v' = v := ext (hentry.width.trans hv.rows.symm) hentry.key
        subst hsame
        have hpresent : ∀ i, t.present i = true → i.val < frontier.length := by
          intro i hi
          by_contra hnot
          obtain rfl : i = 2 := by omega
          have htells := hentry.third hi
          rw [not_tellsThird (by omega) hdag hv] at htells
          cases htells
        refine ensures_get fun w₁ h₁ => ?_
        obtain ⟨minimal, hminimal⟩ := matchesSymmetrical_ok (w := w₁) hentry.compute hpresent
          (lt_of_lt_of_le hid.lt h₁.length)
        refine ensures_lift hminimal ?_
        split
        · exact ensures_pure fun _ _ new hnew => nomatch hnew
        · refine ensures_bind (ensures_createReplacement (hxs.mono h₁) hlength' hwidths hpresent
            hentry.compute) fun w₂ r h₂ hr => ?_
          obtain ⟨y, hy, hyLifts⟩ := hr
          refine ensures_pure fun w₃ h₃ new hnew => ?_
          cases hnew
          rw [hlifts.unique hyLifts]
          exact hy.mono h₃

/-! ### The replacement of a node -/

/-- The flow and the resolution return, and the replacement, if there is one, has the value of
the node, for every input of the function. -/
def Simplifies (g : Graph) (frontier : List Nat) (id : Nat) : Prop :=
  ∃ bits memo r g', flowFromFrontierToNode g frontier (g.nodes.length + 1) id [] =
      .ok (bits, memo) ∧ resolveTruthTable bits frontier id g = .ok (r, g') ∧
    ∀ (env : Env) (args : List Value) (w : World env args), w.graph = g →
      ∀ new, r = some new → ∃ w' : World env args, w'.graph = g' ∧ w ≤ w' ∧
        w'.vals[new]? = w.vals[id]?

/-- There is room for the literal of a tautology. -/
def HasRoom (g : Graph) (frontier : List Nat) (id : Nat) : Prop :=
  g.nodes[id]?.map Node.type ≠ some (.bits 0) ∨ ∃ σ, Evaluates g frontier σ id false

/-- A node with its frontier, as the pass finds it. -/
structure Found (w : World env args) (frontier : List Nat) (id m : Nat) : Prop where
  type : w.graph.nodes[id]?.map Node.type = some (.bits m)
  dag : LogicDag w.graph frontier id
  length : frontier.length ≤ 3
  types : ∀ f ∈ frontier, w.graph.nodes[f]?.map Node.type = some (.bits m)
  rank : ∀ f ∈ frontier, w.rank f < w.rank id

theorem found_of_mapSpans (h : MapSpans w nodeToFrontier)
    (hlookup : nodeToFrontier.lookup id = some (.vector frontier)) :
    ∃ m, Found w frontier id m := by
  obtain ⟨n, hn, hlogic, hspans⟩ := h id _ hlookup
  have hspans := hspans frontier rfl
  obtain ⟨types, -, hverify⟩ := w.verified id n hn
  obtain ⟨m, hm⟩ := IrType.eq_bits_of_isBits (types_of_isLogicOp hlogic hverify).1
  refine ⟨m, ?_, .logic hn hlogic hspans.dag, hspans.length, ?_, hspans.rank⟩
  · rw [hn, Option.map_some, hm]
  · rw [← hm]
    exact hspans.type

theorem exists_flow (h : Found w frontier id m) :
    ∃ v memo, flowFromFrontierToNode w.graph frontier (w.graph.nodes.length + 1) id [] =
      .ok (v, memo) ∧ FlowsTo w.graph frontier id v := by
  obtain ⟨v, memo, hflow, hv, -⟩ := flowFromFrontierToNode_ok h.length h.dag
    (lt_succ_of_le (Graph.below_le w.graph w.rank id)) (memoFlows_nil w.graph frontier)
  exact ⟨v, memo, hflow, hv⟩

/-- With room, the replacement is made and has the value of the node. -/
theorem ensures_of_hasRoom (h : Found w frontier id m) (hlength : 2 ≤ frontier.length)
    (hv : FlowsTo w.graph frontier id v) (hroom : HasRoom w.graph frontier id) :
    ∃ x, WordAt w frontier m id x ∧ w.Ensures (resolveTruthTable v frontier id) fun w' r =>
      ∀ new, r = some new → w'.Holds (w.rank id) new x := by
  obtain ⟨x, hx⟩ := exists_wordAt h.dag h.type
  refine ⟨x, hx, ensures_resolveTruthTable hlength h.length h.dag h.rank h.type h.types hv hx ?_⟩
  intro hones
  rcases hroom with htype | hfalse
  · refine Nat.pos_of_ne_zero fun hzero => htype ?_
    rw [h.type, hzero]
  · exact absurd hfalse ((isAllOnes_iff_tautology h.length h.dag hv).1 hones)

section

variable (hlookup : (visitFrontiers w.graph ids).lookup id = some (.vector frontier))
  (hlength : 2 ≤ frontier.length)
include hlookup hlength

/-- With room for the `-1` of the constructor, the replacement keeps the value. -/
theorem simplifies_of_hasRoom (hroom : HasRoom w.graph frontier id) :
    Simplifies w.graph frontier id := by
  obtain ⟨m, hfound⟩ := found_of_mapSpans (mapSpans_visitFrontiers w ids) hlookup
  obtain ⟨v, memo, hflow, hv⟩ := exists_flow hfound
  obtain ⟨x, -, hresolve⟩ := ensures_of_hasRoom hfound hlength hv hroom
  obtain ⟨r, w', hrun, -, -⟩ := hresolve w (le_refl w)
  refine ⟨v, memo, r, w'.graph, hflow, hrun, fun env₀ args₀ w₀ hgraph new hnew => ?_⟩
  -- the run is the same on every input
  rw [← hgraph] at hlookup hflow hroom hrun
  obtain ⟨m₀, hfound₀⟩ := found_of_mapSpans (mapSpans_visitFrontiers w₀ ids) hlookup
  obtain ⟨v₀, memo₀, hflow₀, hv₀⟩ := exists_flow hfound₀
  cases hflow.symm.trans hflow₀
  obtain ⟨x₀, hx₀, hresolve₀⟩ := ensures_of_hasRoom hfound₀ hlength hv₀ hroom
  obtain ⟨r₀, w₀', hrun₀, hle, hholds⟩ := hresolve₀ w₀ (le_refl w₀)
  obtain ⟨hr, hg⟩ := Prod.mk.inj (Except.ok.inj (hrun.symm.trans hrun₀))
  refine ⟨w₀', hg.symm, hle, ?_⟩
  rw [hx₀.value]
  exact (hholds new (hr.symm.trans hnew)).value

/-- Over no bits, the literal of a tautology is not made. -/
theorem not_simplifies (hroom : ¬HasRoom w.graph frontier id) :
    ¬Simplifies w.graph frontier id := by
  intro ⟨bits, memo, r, g', hflow, hrun, _⟩
  obtain ⟨m, hfound⟩ := found_of_mapSpans (mapSpans_visitFrontiers w ids) hlookup
  obtain ⟨v, memo', hflow', hv⟩ := exists_flow hfound
  cases hflow.symm.trans hflow'
  obtain ⟨htype, htautology⟩ := not_or.1 hroom
  have hones := (isAllOnes_iff_tautology hfound.length hfound.dag hv).2 htautology
  have hzero : Graph.bitCountOrDie id w.graph = .ok (0, w.graph) :=
    run_bitCountOrDie (not_not.1 htype)
  have hcheck : OneBitMux.retCheck (decide (2 ≤ frontier.length ∧ frontier.length ≤ 3))
      "2 <= operands.size() && operands.size() <= 3" = pure () := by
    rw [OneBitMux.retCheck, if_pos (decide_eq_true ⟨hlength, hfound.length⟩)]
  unfold resolveTruthTable at hrun
  rw [hcheck, pure_bind, if_pos hones] at hrun
  change (Graph.bitCountOrDie id w.graph >>= fun p => _) = _ at hrun
  rw [hzero] at hrun
  cases hrun

end

/-- For every logic expression over two or three nodes, as the pass finds its frontier, the
truth table is resolved to a node of the same value exactly if the node has a bit or the
expression is not a tautology. -/
theorem simplifies_iff (w : World env args) {ids : List Nat} {id : Nat} {frontier : List Nat}
    (hlookup : (visitFrontiers w.graph ids).lookup id = some (.vector frontier))
    (hlength : 2 ≤ frontier.length) :
    Simplifies w.graph frontier id ↔ (w.graph.nodes[id]?.map Node.type ≠ some (.bits 0) ∨
        ∃ σ, Evaluates w.graph frontier σ id false) := by
  constructor
  · intro h
    by_contra hnot
    exact not_simplifies hlookup hlength hnot h
  · exact simplifies_of_hasRoom hlookup hlength

/-- `or(x, and(x, y))`, which becomes `x`. -/
def absorption : Function where
  params := [.bits 8, .bits 8]
  nodes := [⟨.param 0, [], .bits 8⟩, ⟨.param 1, [], .bits 8⟩, ⟨.nary .and, [0, 1], .bits 8⟩,
    ⟨.nary .or, [0, 2], .bits 8⟩]
  returnValue := 3
  verified := by decide
  returnValue_lt := by decide

theorem run_absorption : Interpreter.run (Interpreter.packageEnv []) absorption
    [.leaf (Bits.ofNat 8 6), .leaf (Bits.ofNat 8 3)] = .ok [.leaf (Bits.ofNat 8 6),
      .leaf (Bits.ofNat 8 3), .leaf (Bits.ofNat 8 2), .leaf (Bits.ofNat 8 6)] := rfl

theorem simplifies_absorption : Simplifies absorption.graph [0, 1] 3 :=
  (@simplifies_iff _ _ (World.ofRun run_absorption) [2, 3] 3 [0, 1] rfl (by decide)).2
    (.inl (by decide))

/-- `or(x, y, not(x))`, over no bits. -/
def emptyTautology : Function where
  params := [.bits 0, .bits 0]
  nodes := [⟨.param 0, [], .bits 0⟩, ⟨.param 1, [], .bits 0⟩, ⟨.un .not, [0], .bits 0⟩,
    ⟨.nary .or, [0, 1, 2], .bits 0⟩]
  returnValue := 3
  verified := by decide
  returnValue_lt := by decide

theorem resolveTruthTable_emptyTautology :
    (visitFrontiers emptyTautology.graph [2, 3]).lookup 3 = some (.vector [0, 1]) ∧
    resolveTruthTable (Bits.ofNat 8 255) [0, 1] 3 emptyTautology.graph = .error .check ∧
    ¬Simplifies emptyTautology.graph [0, 1] 3 := by
  have hflow : ∃ memo, flowFromFrontierToNode emptyTautology.graph [0, 1] 5 3 [] =
      .ok (Bits.ofNat 8 255, memo) := ⟨_, rfl⟩
  refine ⟨rfl, rfl, ?_⟩
  intro ⟨bits, memo, r, g', hflow', hrun, _⟩
  obtain ⟨memo', hflow⟩ := hflow
  cases hflow'.symm.trans hflow
  cases hrun

/-! ### The whole pass -/

/-- The rewrite only adds nodes. -/
def Grows {α : Type} (c : Graph.Build α) : Prop :=
  ∀ g a g', c g = .ok (a, g') → g.nodes <+: g'.nodes

section Grows

variable {α β : Type}

theorem Grows.bind {c : Graph.Build α} {f : α → Graph.Build β} (hc : Grows c)
    (hf : ∀ a, Grows (f a)) : Grows (c >>= f) := by
  intro g b g' hrun
  obtain ⟨⟨a, g₁⟩, hc', hf'⟩ := Result.bind_eq_ok.1
    (show (c g >>= fun p => f p.1 p.2) = .ok (b, g') from hrun)
  exact (hc g a g₁ hc').trans (hf a g₁ b g' hf')

theorem grows_pure (a : α) : Grows (pure a) := by
  intro g a' g' hrun
  cases hrun
  exact prefix_refl _

theorem grows_throw (f : Failure) : Grows (throw f : Graph.Build α) := by
  intro g a g' hrun
  cases hrun

theorem grows_liftM (c : Result α) : Grows (liftM c) := by
  intro g a g' hrun
  cases c with
  | error f => cases hrun
  | ok a' =>
    cases hrun
    exact prefix_refl _

theorem grows_get : Grows get := by
  intro g a g' hrun
  cases hrun
  exact prefix_refl _

theorem grows_makeNode (n : Node) : Grows (Graph.makeNode n) := by
  intro g a g' hrun
  cases hrun
  exact prefix_append _ _

theorem grows_getNode (id : Nat) : Grows (Graph.getNode id) := by
  intro g a g' hrun
  obtain ⟨n, -, hrun⟩ := Result.bind_eq_ok.1 hrun
  cases hrun
  exact prefix_refl _

theorem grows_bitCountOrDie (id : Nat) : Grows (Graph.bitCountOrDie id) := by
  refine (grows_getNode id).bind fun n => ?_
  split
  · exact grows_pure _
  · exact grows_throw _

theorem grows_createOperand (t : TruthTable) (i : Fin 3) (o : Nat) :
    Grows (t.createOperand i o) := by
  unfold TruthTable.createOperand
  split
  · exact (grows_getNode o).bind fun n => grows_makeNode _
  · exact grows_pure o

theorem grows_createOperands (t : TruthTable) (operands : List Nat) (is : List (Fin 3)) :
    Grows (t.createOperands operands is) := by
  induction is with
  | nil => exact grows_pure []
  | cons i is ih =>
    rw [TruthTable.createOperands]
    split
    · exact (grows_liftM _).bind fun o => (grows_createOperand t i o).bind fun o' =>
        ih.bind fun rest => grows_pure _
    · exact ih

theorem grows_createReplacement (t : TruthTable) (operands : List Nat) :
    Grows (t.createReplacement operands) := by
  unfold TruthTable.createReplacement
  split
  · exact grows_throw _
  · refine (grows_createOperands t operands _).bind fun thisOperands => ?_
    split
    · exact grows_pure _
    · exact grows_throw _
    · exact (grows_liftM _).bind fun first => (grows_getNode first).bind fun n => grows_makeNode _

/-- A table is resolved by nodes that are appended. -/
theorem grows_resolveTruthTable (bits : Bits) (operands : List Nat) (id : Nat) :
    Grows (resolveTruthTable bits operands id) := by
  have hcheck : ∀ {cond : Bool} {text : String}, Grows (OneBitMux.retCheck cond text) := by
    intro cond text
    unfold OneBitMux.retCheck
    split
    · exact grows_pure _
    · exact grows_throw _
  refine hcheck.bind fun _ => ?_
  split
  · exact (grows_bitCountOrDie id).bind fun width => (grows_liftM _).bind fun value =>
      (grows_makeNode _).bind fun literal => grows_pure _
  · split
    · exact (grows_bitCountOrDie id).bind fun width =>
        (grows_makeNode _).bind fun literal => grows_pure _
    · refine (grows_liftM _).bind fun tables => (grows_liftM _).bind fun key => ?_
      split
      · exact grows_pure _
      · refine grows_get.bind fun g => (grows_liftM _).bind fun minimal => ?_
        split
        · exact grows_pure _
        · exact (grows_createReplacement _ operands).bind fun r => grows_pure _

end Grows

theorem LogicDag.of_grown {g g' : Graph} (h : LogicDag g frontier id)
    (hgrown : g.nodes <+: g'.nodes) : LogicDag g' frontier id := by
  induction h with
  | frontier hid => exact .frontier hid
  | logic hn hlogic _ ih =>
    have hn' := getElem?_of_prefix hgrown hn
    exact .logic hn' hlogic ih

/-- Frontiers still span when nodes are appended. -/
theorem MapSpans.of_grown (h : MapSpans w nodeToFrontier) (hle : w ≤ w')
    (hgrown : w.graph.nodes <+: w'.graph.nodes) : MapSpans w' nodeToFrontier := by
  intro id f hlookup
  obtain ⟨n, hn, hlogic, hspans⟩ := h id f hlookup
  refine ⟨n, getElem?_of_prefix hgrown hn, hlogic, fun nodes hnodes => ?_⟩
  have hold := hspans nodes hnodes
  refine ⟨hold.length, fun f hf => ?_, fun f hf => ?_,
    fun o ho => (hold.dag o ho).of_grown hgrown⟩
  · obtain ⟨m, hm, htype⟩ := Option.map_eq_some_iff.1 (hold.type f hf)
    have hm' := getElem?_of_prefix hgrown hm
    rw [hm', Option.map_some, htype]
  · obtain ⟨m, hm, -⟩ := Option.map_eq_some_iff.1 (hold.type f hf)
    rw [hle.rank f (List.getElem?_eq_some_iff.1 hm).1,
      hle.rank id (List.getElem?_eq_some_iff.1 hn).1]
    exact hold.rank f hf

/-- The frontiers are right, and every replacement has the value of its node. -/
structure TrackerSound (w : World env args) (t : Tracker) : Prop where
  map : MapSpans w t.nodeToFrontier
  replacements : ∀ r ∈ t.nodeReplacements, ∃ x, w.Holds (w.rank r.1 + 1) r.1 x ∧
    w.Holds (w.rank r.1) r.2 x

theorem replacement_mono (hle : w ≤ w') {r : Nat × Nat}
    (h : ∃ x, w.Holds (w.rank r.1 + 1) r.1 x ∧ w.Holds (w.rank r.1) r.2 x) :
    ∃ x, w'.Holds (w'.rank r.1 + 1) r.1 x ∧ w'.Holds (w'.rank r.1) r.2 x := by
  obtain ⟨x, hold, hnew⟩ := h
  rw [hle.rank r.1 hold.lt]
  exact ⟨x, hold.mono hle, hnew.mono hle⟩

theorem TrackerSound.mono {t : Tracker} (h : TrackerSound w t) (hle : w ≤ w')
    (hgrown : w.graph.nodes <+: w'.graph.nodes) : TrackerSound w' t where
  map := h.map.of_grown hle hgrown
  replacements := fun r hr => replacement_mono hle (h.replacements r hr)

/-- A visit keeps the invariant and the nodes that are there. -/
def Visits (w : World env args) (c : Graph.Build Tracker) : Prop :=
  ∃ t w', c w.graph = .ok (t, w'.graph) ∧ w ≤ w' ∧ w.graph.nodes <+: w'.graph.nodes ∧
    TrackerSound w' t

theorem visits_pure {t : Tracker} (h : TrackerSound w t) : Visits w (pure t) :=
  ⟨t, w, rfl, le_refl w, prefix_refl _, h⟩

/-- A logic operation keeps what the tracker knows. -/
theorem visits_handleLogicOp {t : Tracker} (h : TrackerSound w t) (hn : w.graph.nodes[id]? = some n)
    (hlogic : isLogicOp n = true) (hwide : n.type ≠ .bits 0) : Visits w (handleLogicOp t id n) := by
  have hmap : MapSpans w ((id, unionOperandFrontier t.nodeToFrontier n) :: t.nodeToFrontier) := by
    have hvisit : visitFrontier w.graph t.nodeToFrontier id =
        (id, unionOperandFrontier t.nodeToFrontier n) :: t.nodeToFrontier := by
      unfold visitFrontier
      rw [hn]
      exact if_pos hlogic
    rw [← hvisit]
    exact mapSpans_visitFrontier h.map id
  unfold handleLogicOp
  dsimp only
  split
  · exact visits_pure ⟨hmap, h.replacements⟩
  · rename_i operands hfrontier
    rw [hfrontier] at hmap ⊢
    split
    · rename_i hlength
      have hlookup : ((id, Frontier.vector operands) :: t.nodeToFrontier).lookup id =
          some (.vector operands) := by
        rw [lookup_cons, beq_self_eq_true]
      obtain ⟨m, hfound⟩ := found_of_mapSpans hmap hlookup
      obtain ⟨v, memo, hflow, hv⟩ := exists_flow hfound
      have hroom : HasRoom w.graph operands id := by
        left
        rw [hn]
        exact fun htype => hwide (Option.some.inj htype)
      obtain ⟨x, hx, hresolve⟩ := ensures_of_hasRoom hfound hlength hv hroom
      obtain ⟨r, w', hrun, hle, hholds⟩ := hresolve w (le_refl w)
      have hgrown := grows_resolveTruthTable v operands id w.graph r w'.graph hrun
      have hsound : TrackerSound w' ⟨(id, .vector operands) :: t.nodeToFrontier,
          t.nodeReplacements⟩ := TrackerSound.mono ⟨hmap, h.replacements⟩ hle hgrown
      have hstep : ∀ {f : Option Nat → Graph.Build Tracker} {t' : Tracker},
          f r w'.graph = .ok (t', w'.graph) → TrackerSound w' t' →
          Visits w (get >>= fun g =>
            liftM (flowFromFrontierToNode g operands (g.nodes.length + 1) id []) >>= fun p =>
              resolveTruthTable p.1 operands id >>= f) := by
        intro f t' hf ht'
        refine ⟨t', w', ?_, hle, hgrown, ht'⟩
        show (liftM (flowFromFrontierToNode w.graph operands (w.graph.nodes.length + 1) id []) >>=
          fun p => resolveTruthTable p.1 operands id >>= f) w.graph = _
        rw [run_liftM hflow, run_bind_of_ok hrun, hf]
      -- a replacement is noted beside its node, to be made at the end
      cases r with
      | none => exact hstep rfl hsound
      | some new =>
        have hid : w.Holds (w.rank id + 1) id x := by
          refine ⟨?_, hx.value, lt_add_one _⟩
          rw [hfound.type, hx.width]
        refine hstep rfl ⟨hsound.map, forall_mem_append.2 ⟨hsound.replacements,
          forall_mem_singleton.2 ⟨x, ?_, ?_⟩⟩⟩
        · rw [hle.rank id hid.lt]
          exact hid.mono hle
        · rw [hle.rank id hid.lt]
          exact hholds new rfl
    · exact visits_pure ⟨hmap, h.replacements⟩

/-- The induction over the nodes in the order in which they are visited. -/
theorem visits_foldlM {t : Tracker} (h : TrackerSound w t)
    (hwide : ∀ id ∈ order, ∃ n, w.graph.nodes[id]? = some n ∧
      (isLogicOp n = true → n.type ≠ .bits 0)) : Visits w (order.foldlM visitNode t) := by
  induction order generalizing w t with
  | nil => exact visits_pure h
  | cons id order ih =>
    obtain ⟨⟨n, hn, hid⟩, hrest⟩ := forall_mem_cons.1 hwide
    have hvisit : Visits w (visitNode t id) := by
      have hstep : Visits w (if isLogicOp n then handleLogicOp t id n else pure t) := by
        split
        · rename_i hlogic
          exact visits_handleLogicOp h hn hlogic (hid hlogic)
        · exact visits_pure h
      obtain ⟨t', w', hrun, hsound⟩ := hstep
      exact ⟨t', w', (run_getNode hn).trans hrun, hsound⟩
    obtain ⟨t₁, w₁, hrun₁, hle₁, hgrown₁, hsound₁⟩ := hvisit
    obtain ⟨t₂, w₂, hrun₂, hle₂, hgrown₂, hsound₂⟩ := ih hsound₁ fun i hi => by
      obtain ⟨m, hm, hmwide⟩ := hrest i hi
      exact ⟨m, getElem?_of_prefix hgrown₁ hm, hmwide⟩
    refine ⟨t₂, w₂, ?_, hle₁.trans hle₂, hgrown₁.trans hgrown₂, hsound₂⟩
    rw [foldlM_cons, run_bind_of_ok hrun₁]
    exact hrun₂

theorem ensures_replaceAll {replacements : List (Nat × Nat)}
    (h : ∀ r ∈ replacements, ∃ x, w.Holds (w.rank r.1 + 1) r.1 x ∧ w.Holds (w.rank r.1) r.2 x) :
    w.Ensures (replacements.forM fun r => Graph.replaceUsesWith r.1 r.2) fun _ _ => True := by
  induction replacements generalizing w with
  | nil => exact ensures_pure fun _ _ => trivial
  | cons r replacements ih =>
    obtain ⟨⟨x, hold, hnew⟩, hrest⟩ := forall_mem_cons.1 h
    exact ensures_bind (ensures_replaceUsesWith hold hnew) fun w' _ hle _ =>
      ih fun r' hr' => replacement_mono hle (hrest r' hr')

/-- If no logic operation is empty, the pass returns and every node keeps its value, in
whatever order the nodes are visited. -/
theorem runOnFunctionBaseInternal_keepsValues
    (hwide : ∀ id ∈ order, ∃ n, w.graph.nodes[id]? = some n ∧
      (isLogicOp n = true → n.type ≠ .bits 0)) : w.Returns (runOnFunctionBaseInternal order) := by
  have hstart : TrackerSound w ⟨[], []⟩ :=
    ⟨fun _ _ hlookup => (nomatch hlookup), fun _ hr => (nomatch hr)⟩
  obtain ⟨t, w₁, hrun₁, hle₁, -, hsound⟩ := visits_foldlM hstart hwide
  obtain ⟨⟨⟩, w₂, hrun₂, hle₂, -⟩ := ensures_replaceAll hsound.replacements w₁ (le_refl w₁)
  refine ⟨!t.nodeReplacements.isEmpty, w₂, ?_, hle₁.trans hle₂⟩
  exact (run_bind_of_ok hrun₁).trans (run_bind_of_ok hrun₂)

theorem runOnFunctionBaseInternal_keepsValues_absorption :
    (World.ofRun run_absorption).Returns (runOnFunctionBaseInternal [0, 1, 2, 3]) :=
  runOnFunctionBaseInternal_keepsValues fun id hid => by
    fin_cases hid <;> exact ⟨_, rfl, by decide⟩

end BooleanSimplification

end Xls

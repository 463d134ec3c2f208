import Xls.TableSwitch.Sound

/-!
# Xls.TableSwitch.Pass

The chains that the pass finds in a graph. A link that `MatchLink` matches is a select with the
value of the chain there (`exists_linkAt`), and so is a whole chain (`exists_chainAt`); the
lookup in the table then has the value of the node, and the pass keeps every value.
-/

namespace Xls

open Interpreter BoolList BitsOps Option List Except
open Graph (World)
open Graph.World

namespace TableSwitch

open Canonicalization (Operands exists_at has_bits)
open OneBitMux (Select asSelect)
open StatelessQueryEngine (knownValueAsBits knownValueAsBits_sound)

variable {env : Env} {args : List Value} {w : World env args} {id : Nat}

/-! ### Comparisons with a constant -/

/-- A number fits 64 bits. -/
theorem fits_iff (b : Bits) : fitsInNBitsUnsigned b 64 = true ↔ b.val < 2 ^ 64 := by
  have hdrop : toNat (b.toBools.drop 64) = b.val / 2 ^ 64 := by
    rw [toNat_drop, Bits.toNat_toBools]
  have hzero : fitsInNBitsUnsigned b 64 = true ↔
      toNat (b.toBools.drop 64) = 0 := by
    rw [fitsInNBitsUnsigned, ← not_iff_not]
    refine Iff.trans ?_ (any_id_iff _)
    simp
  rw [hzero, hdrop, Nat.div_eq_zero_iff]
  simp

theorem toUint64_of_fits {b : Bits} (h : b.val < 2 ^ 64) : BitsOps.toUint64 b = .ok b.val := by
  by_cases hw : b.width ≤ 64
  · exact toUint64_eq hw
  · have hwords : (b.width + 63) / 64 = (b.width + 63) / 64 - 1 + 1 := by omega
    rw [BitsOps.toUint64, if_neg (by omega), (fits_iff b).2 h, words, hwords, Limbs.limbs,
      headD_cons, Nat.mod_eq_of_lt h]
    rfl

/-- A constant is the value of its node. -/
theorem toUint64Constant_sound {key : Nat} (h : toUint64Constant w.graph id = some key) :
    ∃ c : Bits, w.vals[id]? = some (.leaf c) ∧
      w.graph.nodes[id]?.map Node.type = some (.bits c.width) ∧ c.val = key ∧ key < 2 ^ 64 := by
  unfold toUint64Constant at h
  obtain ⟨c, hc, h⟩ := bind_eq_some_iff.1 h
  obtain ⟨hvalue, htype⟩ := knownValueAsBits_sound hc
  split at h
  · rename_i hfits
    rw [fits_iff] at hfits
    rw [toUint64_of_fits hfits] at h
    cases h
    exact ⟨c, hvalue, htype, rfl, hfits⟩
  · cases h

/-- Whether the select picks the value of its link. -/
def picks (op : CompareOp) (index key : Nat) : Bool :=
  if op = .eq then decide (index = key) else !decide (index = key)

/-- A comparison of an index with a key, and the value of the comparison. -/
structure ComparisonAt (w : World env args) (id : Nat) (c : Uint64Comparison) (x : Bits) :
    Prop where
  index : w.Has (w.rank id) c.index (.bits x.width) (.leaf x)
  key : c.key < 2 ^ x.width
  word : c.key < 2 ^ 64
  value : w.vals[id]? = some (.leaf (Bits.ofNat 1 (picks c.comparisonOp x.val c.key).toNat))

variable {x : Bits} {index : Nat} {t : IrType} {u : Value} {links : List Link}

/-- A comparison with a literal, on either side. -/
theorem compareOp_eq_picks {op : CompareOp} (hop : op = .eq ∨ op = .ne) {c : Bits}
    (hw : x.width = c.width) :
    compareOp op (.leaf x) (.leaf c) = .ok (picks op x.val c.val) ∧
      compareOp op (.leaf c) (.leaf x) = .ok (picks op x.val c.val) := by
  have hiff : (LeafTree.leaf x = LeafTree.leaf c) ↔ x.val = c.val := by
    rw [LeafTree.leaf.injEq, Bits.ext_iff']
    exact ⟨fun h => h.2, fun h => ⟨hw, h⟩⟩
  have hiff' : (LeafTree.leaf c = LeafTree.leaf x) ↔ x.val = c.val := by
    rw [← hiff]
    exact eq_comm
  rcases hop with rfl | rfl
  · constructor
    · exact congrArg ok (decide_eq_decide.2 hiff)
    · exact congrArg ok (decide_eq_decide.2 hiff')
  · constructor
    · exact congrArg (fun b => ok !b) (decide_eq_decide.2 hiff)
    · exact congrArg (fun b => ok !b) (decide_eq_decide.2 hiff')

/-- An index and a constant of one type, on either side of a comparison. -/
theorem index_of_constant {b : ℚ} {constant key : Nat} {u' : Value}
    (hconstant : toUint64Constant w.graph constant = some key) (hu : w.Has b constant t u)
    (hu' : w.Has b index t u') :
    ∃ x y : Bits, u = .leaf y ∧ u' = .leaf x ∧ x.width = y.width ∧ y.val = key ∧ key < 2 ^ 64 ∧
      w.Has b index (.bits x.width) (.leaf x) := by
  obtain ⟨y, hy, hytype, rfl, hword⟩ := toUint64Constant_sound hconstant
  have htype := hu.type
  rw [hytype] at htype
  cases htype
  have hvalue := hu.value
  rw [hy] at hvalue
  cases hvalue
  obtain ⟨x, rfl, hwidth⟩ := has_bits hu'
  refine ⟨x, y, rfl, rfl, hwidth, rfl, hword, ?_⟩
  rw [hwidth]
  exact hu'

/-- A comparison that is matched compares with its literal. -/
theorem exists_comparisonAt {c : Uint64Comparison}
    (h : matchCompareEqAgainstUint64 w.graph id = some c) : ∃ x, ComparisonAt w id c x := by
  unfold matchCompareEqAgainstUint64 at h
  obtain ⟨n, hn, h⟩ := bind_eq_some_iff.1 h
  split at h
  · rename_i op lhs rhs hkind hoperands
    split at h
    · cases h
    · rename_i hop
      have hop : op = .eq ∨ op = .ne := by
        by_contra hnot
        exact hop (not_or.1 hnot)
      obtain ⟨t, u, u', r, hat, hlhs, hrhs, -, hcompare⟩ :=
        Canonicalization.exists_compare hn hkind hoperands
      -- the constant is one of the operands, and the index the other
      split at h
      · rename_i constant hconstant
        cases h
        obtain ⟨x, y, rfl, rfl, hwidth, rfl, hword, hindex⟩ :=
          index_of_constant hconstant hlhs hrhs
        rw [(compareOp_eq_picks hop hwidth).2] at hcompare
        cases hcompare
        refine ⟨x, hindex, ?_, hword, hat.value⟩
        rw [hwidth]
        exact y.isLt
      · split at h
        · rename_i constant hconstant
          cases h
          obtain ⟨x, y, rfl, rfl, hwidth, rfl, hword, hindex⟩ :=
            index_of_constant hconstant hrhs hlhs
          rw [(compareOp_eq_picks hop hwidth).1] at hcompare
          cases hcompare
          refine ⟨x, hindex, ?_, hword, hat.value⟩
          rw [hwidth]
          exact y.isLt
        · cases h
  · cases h

/-! ### Links and chains -/

/-- A literal node has its value. -/
theorem literalValue_sound {value : Value} (h : literalValue w.graph id = some value) :
    w.vals[id]? = some value := by
  unfold literalValue at h
  obtain ⟨n, hn, h⟩ := bind_eq_some_iff.1 h
  obtain ⟨types, ops, v, hat⟩ := exists_at hn
  have heval := hat.eval
  split at h
  · rename_i hkind
    rw [hkind] at heval
    cases h
    cases heval
    exact hat.value
  · cases h

/-- A select that is a link: its value is that of the link where the index equals the key, and
that of the next node otherwise. -/
structure LinkAt (w : World env args) (id : Nat) (t : IrType) (link : Link) (x : Bits)
    (u : Value) : Prop where
  index : w.vals[link.index]? = some (.leaf x)
  indexType : w.graph.nodes[link.index]?.map Node.type = some (.bits x.width)
  indexRank : w.rank link.index < w.rank id
  key : link.key < 2 ^ x.width
  word : link.key < 2 ^ 64
  conforms : link.value.Conforms t
  next : w.Has (w.rank id) link.next t u
  has : w.Has (w.rank id + 1) id t (if x.val = link.key then link.value else u)

theorem sel_two {p : Bool} {u₀ u₁ : Value} :
    Interpreter.sel (Bits.ofNat 1 p.toNat) [u₀, u₁] none = .ok (if p then u₁ else u₀) := by
  cases p <;> rfl

/-- A link of a chain selects between its value and the rest. -/
theorem exists_linkAt {index : Option Nat} {link : Link}
    (h : matchLink w.graph id index = some link) :
    (∃ t x u, LinkAt w id t link x u) ∧ index.all (· == link.index) = true := by
  unfold matchLink at h
  obtain ⟨n, hn, h⟩ := bind_eq_some_iff.1 h
  obtain ⟨sel, hsel, h⟩ := bind_eq_some_iff.1 h
  obtain ⟨s, us, ud, v, hat⟩ := OneBitMux.exists_select hn hsel
  split at h
  · cases h
  · rename_i hbinary
    obtain ⟨c, hc, h⟩ := bind_eq_some_iff.1 h
    obtain ⟨case0, hcase0, h⟩ := bind_eq_some_iff.1 h
    obtain ⟨case1, hcase1, h⟩ := bind_eq_some_iff.1 h
    obtain ⟨value, hvalue, h⟩ := bind_eq_some_iff.1 h
    split at h
    · rename_i hindex
      cases h
      obtain ⟨x, hcomparison⟩ := exists_comparisonAt hc
      -- a binary select has two cases and no default
      rw [isBinarySelect, Bool.not_eq_true', Bool.not_eq_false, Bool.and_eq_true, beq_iff_eq,
        isNone_iff_eq_none] at hbinary
      obtain ⟨hlength, hnone⟩ := hbinary
      have hcases := hat.cases
      have hdefault := hat.default
      have heval := hat.eval
      rw [hnone] at hdefault
      cases hdefault
      obtain ⟨c₀, c₁, hpair⟩ := length_eq_two.1 hlength
      rw [hpair] at hcases hcase0 hcase1
      cases hcase0
      cases hcase1
      cases hcases with
      | @cons _ u₀ _ _ h₀ hrest =>
        cases hrest with
        | @cons _ u₁ _ _ h₁ hnil =>
          cases hnil
          have hs : s = Bits.ofNat 1 (picks c.comparisonOp x.val c.key).toNat := by
            have hsvalue := hat.selector.value
            rw [hcomparison.value] at hsvalue
            exact (LeafTree.leaf.inj (Option.some.inj hsvalue)).symm
          rw [hs, sel_two] at heval
          cases heval
          have hliteral := literalValue_sound hvalue
          have hrank := hcomparison.index.rank.trans hat.selector.rank
          -- on `eq` the value is the second case, on `ne` the first
          have hnext : ∃ u, w.Has (w.rank id) (if c.comparisonOp = .eq then case0 else case1)
                n.type u ∧ value.Conforms n.type ∧
              (if picks c.comparisonOp x.val c.key then u₁ else u₀) =
                if x.val = c.key then value else u := by
            by_cases hop : c.comparisonOp = .eq
            · rw [if_pos hop, h₁.value] at hliteral
              cases hliteral
              refine ⟨u₀, by rwa [if_pos hop], h₁.conforms, ?_⟩
              rw [picks, if_pos hop]
              simp
            · rw [if_neg hop, h₀.value] at hliteral
              cases hliteral
              refine ⟨u₁, by rwa [if_neg hop], h₀.conforms, ?_⟩
              rw [picks, if_neg hop]
              simp
          obtain ⟨u, hu, hconforms, hpicked⟩ := hnext
          refine ⟨⟨n.type, x, u, hcomparison.index.value, hcomparison.index.type, hrank,
            hcomparison.key, hcomparison.word, hconforms, hu, ?_⟩, hindex⟩
          rw [← hpicked]
          exact hat.has
    · cases h

/-- The node above the last of some links that start at a node. -/
def lastNext (next : Nat) (links : List Link) : Nat := (links.getLast?.map Link.next).getD next

/-- A chain: one index, keys that fit it, and a value that is that of the chain. -/
structure ChainAt (w : World env args) (id : Nat) (t : IrType) (links : List Link) (x : Bits)
    (u last : Value) : Prop where
  index : ∀ link ∈ links, w.vals[link.index]? = some (.leaf x) ∧
    w.graph.nodes[link.index]?.map Node.type = some (.bits x.width)
  key : ∀ link ∈ links, link.key < 2 ^ x.width
  word : ∀ link ∈ links, link.key < 2 ^ 64
  conforms : ∀ link ∈ links, link.value.Conforms t
  above : w.vals[lastNext id links]? = some last
  lastConforms : last.Conforms t
  value : chainValue x.val last links = u

theorem lastNext_cons (next : Nat) (link : Link) (links : List Link) :
    lastNext next (link :: links) = lastNext link.next links := by
  cases links with
  | nil => rfl
  | cons link' links =>
    rw [lastNext, lastNext, getLast?_cons_cons]
    cases h : (link' :: links).getLast? with
    | none => simp at h
    | some l => rfl

/-- A link in front of a chain on the same index. -/
theorem ChainAt.cons {t : IrType} {link : Link} {links : List Link} {x : Bits} {u last : Value}
    (hlink : LinkAt w id t link x u) (h : ChainAt w link.next t links x u last) :
    ChainAt w id t (link :: links) x (if x.val = link.key then link.value else u) last where
  index := forall_mem_cons.2 ⟨⟨hlink.index, hlink.indexType⟩, h.index⟩
  key := forall_mem_cons.2 ⟨hlink.key, h.key⟩
  word := forall_mem_cons.2 ⟨hlink.word, h.word⟩
  conforms := forall_mem_cons.2 ⟨hlink.conforms, h.conforms⟩
  above := by
    rw [lastNext_cons]
    exact h.above
  lastConforms := h.lastConforms
  value := by
    rw [chainValue, h.value]

/-- The links that the loop finds above a node. -/
theorem chainAt_chainLinks {fuel next : Nat} {b : ℚ} (hindex : w.vals[index]? = some (.leaf x))
    (hnext : w.Has b next t u) :
    ∃ last, ChainAt w next t (chainLinks w.graph index fuel next) x u last := by
  have hnil : ∀ {b next u}, w.Has b next t u → ChainAt w next t [] x u u := by
    intro b next u hnext
    refine ⟨?_, ?_, ?_, ?_, hnext.value, hnext.conforms, rfl⟩ <;>
      exact fun link hlink => nomatch hlink
  induction fuel generalizing next b u with
  | zero => exact ⟨u, hnil hnext⟩
  | succ fuel ih =>
    rw [chainLinks]
    split
    · rename_i link hlink
      obtain ⟨⟨t', x', u', hat⟩, hsame⟩ := exists_linkAt hlink
      rw [all_some, beq_iff_eq] at hsame
      have hx := hat.index
      rw [← hsame, hindex] at hx
      cases hx
      have ht := hat.has.type
      rw [hnext.type] at ht
      cases ht
      have hu := hat.has.value
      rw [hnext.value] at hu
      cases hu
      obtain ⟨last, hchain⟩ := ih hat.next
      exact ⟨last, hchain.cons hat⟩
    · exact ⟨u, hnil hnext⟩

/-- The walk up the graph ends at a node that is no link, not for lack of steps. -/
theorem chainLinks_stops {fuel next : Nat} (hfuel : w.graph.below w.rank next < fuel) :
    matchLink w.graph (lastNext next (chainLinks w.graph index fuel next)) (some index) = none := by
  induction fuel generalizing next with
  | zero => omega
  | succ fuel ih =>
    rw [chainLinks]
    split
    · rename_i link hlink
      obtain ⟨⟨t, x, u, hat⟩, -⟩ := exists_linkAt hlink
      rw [lastNext_cons]
      apply ih
      have hlt := Graph.below_lt hat.next.lt hat.next.rank
      omega
    · assumption

/-- A chain that the pass finds has the value of the node where it starts. -/
theorem exists_chainAt (h : chainFrom w.graph id = some links) :
    ∃ start t x u last, links.head? = some start ∧ w.rank start.index < w.rank id ∧
      ChainAt w id t links x u last ∧ w.Has (w.rank id + 1) id t u ∧
      matchLink w.graph (lastNext id links) (some start.index) = none := by
  unfold chainFrom at h
  obtain ⟨start, hstart, h⟩ := bind_eq_some_iff.1 h
  cases h
  obtain ⟨⟨t, x, u, hat⟩, -⟩ := exists_linkAt hstart
  obtain ⟨last, hchain⟩ : ∃ last, ChainAt w start.next t
      (chainLinks w.graph start.index (w.graph.nodes.length + 1) start.next) x _ last :=
    chainAt_chainLinks hat.index hat.next
  refine ⟨start, t, x, _, last, rfl, hat.indexRank, hchain.cons hat, hat.has, ?_⟩
  rw [lastNext_cons]
  exact chainLinks_stops (Nat.lt_succ_of_le (Graph.below_le _ _ _))

/-- The lookup in the table has the value of the node where the chain starts. -/
theorem arrayIndex_of_chain {last table : Value} (h : ChainAt w id t links x u last)
    (htable : linksToTable w.graph links = .ok (some table)) : arrayIndex table [x] = .ok u := by
  rw [← h.value]
  refine arrayIndex_of_linksToTable (fun link hlink => (h.index link hlink).2) h.word ?_ htable
  intro link value hlink hvalue
  have hlast := h.above
  rw [lastNext, hlink] at hlast
  exact Option.some.inj ((literalValue_sound hvalue).symm.trans hlast)

/-- `LinksToTable` returns on every chain of a verified graph. -/
theorem linksToTable_ok {last : Value} (h : ChainAt w id t links x u last) (hne : links ≠ []) :
    ∃ result, linksToTable w.graph links = .ok result ∧ TableOf (fun v => v.Conforms t) result := by
  obtain ⟨front, rest, rfl⟩ := exists_cons_of_ne_nil hne
  obtain ⟨back, hback⟩ : ∃ back, (front :: rest).getLast? = some back :=
    ⟨_, getLast?_eq_some_getLast hne⟩
  obtain ⟨index, hindex, htype⟩ :=
    map_eq_some_iff.1 (h.index front mem_cons_self).2
  have helse : ∀ value, literalValue w.graph back.next = some value → value.Conforms t := by
    intro value hvalue
    have hlast := h.above
    rw [lastNext, hback] at hlast
    cases (literalValue_sound hvalue).symm.trans hlast
    exact h.lastConforms
  obtain ⟨result, hresult, htable⟩ := tableFromKeys_ok (gathers_gatherKeys (front :: rest)) hne
    h.key h.word h.conforms helse
  refine ⟨result, ?_, htable⟩
  unfold linksToTable
  rw [head?_cons, hback]
  dsimp only
  rw [hindex]
  show tableFromKeys (indexSpaceSize index.type.flatBitCount) _ _ = _
  rw [htype, flatBitCount_bits]
  exact hresult

/-! ### The pass -/

variable {elements : List Value}

theorem conforms_of_forall (h : ∀ e ∈ elements, Value.Conforms e t) :
    Value.Conforms (.node elements) (.array elements.length t) := by
  unfold Value.Conforms
  rw [IrType.shape, LeafTree.rel_node]
  refine forall₂_iff_get.2 ⟨length_replicate.symm, fun i hi hi' => ?_⟩
  rw [get_eq_getElem, get_eq_getElem, getElem_replicate]
  exact h _ (getElem_mem hi)

/-- The lookup in the table has the value of the chain. -/
theorem ensures_replaceWithLookup {table : Value} (hid : w.Has (w.rank id + 1) id t u)
    (hindex : w.Has (w.rank id) index (.bits x.width) (.leaf x)) (htable : table = .node elements)
    (helements : ∀ e ∈ elements, Value.Conforms e t) (hlookup : arrayIndex table [x] = .ok u) :
    w.Ensures (replaceWithLookup id index table) fun _ _ => True := by
  subst htable
  refine ensures_bind (ensures_getNode_of_has hid) fun w₁ n h₁ hn => ?_
  obtain ⟨-, rfl⟩ := hn
  have hconf := conforms_of_forall helements
  refine ensures_bind (ensures_node (n := ⟨.literal (.node elements), [],
    .array elements.length n.type⟩) (b := w.rank id) .nil (decide_eq_true hconf) rfl hconf)
    fun w₂ literal h₂ hliteral => ?_
  have hoperands : Operands w₂ (w.rank id) [literal, index]
      [.array elements.length n.type, .bits x.width] [.node elements, .leaf x] :=
    .cons hliteral (.cons (hindex.mono (h₁.trans h₂)) .nil)
  refine ensures_bind (ensures_node (n := ⟨.arrayIndex, [literal, index], n.type⟩) hoperands
    ?_ hlookup hid.conforms) fun w₃ lookup h₃ hnew => ?_
  · simp [verifyNode, IrType.isBits, IrType.indexedElementType]
  · have hle := h₁.trans (h₂.trans h₃)
    have hrank := hle.rank id hid.lt
    rw [← hrank] at hnew
    exact ensures_replaceUsesWith_of_has (hid.mono hle) hnew

/-- One node of the loop: every node keeps its value. -/
theorem ensures_visitNode (changed : Bool) (transformed : List Nat) (id : Nat) :
    w.Ensures (visitNode changed transformed id) fun _ _ => True := by
  unfold visitNode
  split
  · exact ensures_pure fun _ _ => trivial
  · refine ensures_get fun w₁ _ => ?_
    split
    · exact ensures_pure fun _ _ => trivial
    · rename_i links hlinks
      split
      · exact ensures_pure fun _ _ => trivial
      · rename_i hlong
        obtain ⟨start, t, x, u, last, hstart, hrank, hchain, hid, -⟩ := exists_chainAt hlinks
        have hne : links ≠ [] := by
          intro hnil
          rw [hnil] at hlong
          exact hlong (Nat.zero_le _)
        obtain ⟨result, hresult, htable⟩ := linksToTable_ok hchain hne
        refine ensures_lift hresult ?_
        rw [hstart]
        cases result with
        | none => exact ensures_pure fun _ _ => trivial
        | some table =>
          obtain ⟨elements, helements, -, hconf⟩ := htable table rfl
          have hindex := hchain.index start (mem_of_mem_head? hstart)
          have hlookup := arrayIndex_of_chain hchain hresult
          refine ensures_bind (ensures_replaceWithLookup hid
            ⟨hindex.2, hindex.1, hrank⟩ helements hconf hlookup) fun w₂ _ _ _ => ?_
          exact ensures_pure fun _ _ => trivial

/-- The induction over the nodes of the function. -/
theorem ensures_foldlM (order : List Nat) (state : Bool × List Nat) :
    w.Ensures (order.foldlM (fun state id => visitNode state.1 state.2 id) state)
      fun _ _ => True := by
  induction order generalizing w state with
  | nil => exact ensures_pure fun _ _ => trivial
  | cons id order ih =>
    rw [foldlM_cons]
    exact ensures_bind (ensures_visitNode state.1 state.2 id) fun w₁ state' _ _ => ih state'

theorem returns_runOnFunctionBaseInternal (order : List Nat) :
    w.Returns (runOnFunctionBaseInternal order) := by
  refine Returns.of_ensures (P := fun _ _ => True) ?_
  exact ensures_bind (ensures_foldlM order _) fun w₁ _ _ _ => ensures_pure fun _ _ => trivial

/-- A table that `LinksToTable` returns is worth, at every value of the index, what the chain
is, for any keys of one word and any width of the index. The chain that the pass finds at a
node has the value of the node, and the whole pass returns and keeps the value of every node
of a function. -/
theorem tableSwitch_sound :
    (∀ (g : Graph) (links : List Link) (x : Bits) (last table : Value),
      (∀ link ∈ links, g.nodes[link.index]?.map Node.type = some (.bits x.width)) →
      (∀ link ∈ links, link.key < 2 ^ 64) →
      (∀ link value, links.getLast? = some link → literalValue g link.next = some value →
        value = last) → linksToTable g links = .ok (some table) →
      arrayIndex table [x] = .ok (chainValue x.val last links)) ∧
    (∀ (env : Env) (args : List Value) (w : World env args) (id : Nat) (links : List Link)
      (table : Value), chainFrom w.graph id = some links →
      linksToTable w.graph links = .ok (some table) →
      ∃ (x : Bits) (v : Value), (∀ link ∈ links, w.vals[link.index]? = some (.leaf x)) ∧
        w.vals[id]? = some v ∧ arrayIndex table [x] = .ok v) ∧
    (∀ (env : Env) (args : List Value) (f : Function) (vals : List Value)
      (hrun : Interpreter.run env f args = .ok vals) (order : List Nat),
      (World.ofRun hrun).Returns (runOnFunctionBaseInternal order)) := by
  refine ⟨?_, ?_, ?_⟩
  · intro g links x last table hindex hkeys hlast h
    exact arrayIndex_of_linksToTable hindex hkeys hlast h
  · intro env args w id links table hlinks htable
    obtain ⟨start, t, x, u, last, -, -, hchain, hid, -⟩ := exists_chainAt hlinks
    exact ⟨x, u, fun link hlink => (hchain.index link hlink).1, hid.value,
      arrayIndex_of_chain hchain htable⟩
  · intro env args f vals hrun order
    exact returns_runOnFunctionBaseInternal order

/-- Three selects on a two-bit parameter, one of them on `ne`. -/
def threeLinks : Function where
  params := [.bits 2]
  nodes :=
    [⟨.param 0, [], .bits 2⟩, ⟨.literal (.leaf (Bits.ofNat 8 9)), [], .bits 8⟩,
      ⟨.literal (.leaf (Bits.ofNat 2 0)), [], .bits 2⟩,
      ⟨.literal (.leaf (Bits.ofNat 2 1)), [], .bits 2⟩,
      ⟨.literal (.leaf (Bits.ofNat 2 2)), [], .bits 2⟩,
      ⟨.compare .eq, [0, 2], .bits 1⟩, ⟨.compare .ne, [3, 0], .bits 1⟩,
      ⟨.compare .eq, [0, 4], .bits 1⟩, ⟨.literal (.leaf (Bits.ofNat 8 5)), [], .bits 8⟩,
      ⟨.sel false, [5, 1, 8], .bits 8⟩, ⟨.sel false, [6, 8, 9], .bits 8⟩,
      ⟨.sel false, [7, 10, 8], .bits 8⟩]
  returnValue := 11
  verified := by decide
  returnValue_lt := by decide

theorem run_threeLinks : Interpreter.run (packageEnv []) threeLinks
    [.leaf (Bits.ofNat 2 3)] = .ok [.leaf (Bits.ofNat 2 3), .leaf (Bits.ofNat 8 9),
      .leaf (Bits.ofNat 2 0), .leaf (Bits.ofNat 2 1), .leaf (Bits.ofNat 2 2),
      .leaf (Bits.ofNat 1 0), .leaf (Bits.ofNat 1 1), .leaf (Bits.ofNat 1 0),
      .leaf (Bits.ofNat 8 5), .leaf (Bits.ofNat 8 9), .leaf (Bits.ofNat 8 9),
      .leaf (Bits.ofNat 8 9)] := rfl

/-- The chain above the last node, from its start on. -/
def threeLinksChain : List Link :=
  [⟨11, 0, 2, .leaf (Bits.ofNat 8 5), 10⟩, ⟨10, 0, 1, .leaf (Bits.ofNat 8 5), 9⟩,
    ⟨9, 0, 0, .leaf (Bits.ofNat 8 5), 1⟩]

/-- The hole at index three holds the value above the chain. -/
theorem tableSwitch_threeLinks :
    (∃ table, linksToTable threeLinks.graph threeLinksChain = .ok (some table) ∧
      arrayIndex table [Bits.ofNat 2 3] = .ok (.leaf (Bits.ofNat 8 9))) ∧
    (∃ v, (World.ofRun run_threeLinks).vals[11]? = some v ∧ v = .leaf (Bits.ofNat 8 9)) ∧
    (World.ofRun run_threeLinks).Returns (runOnFunctionBaseInternal [11, 10, 9]) := by
  obtain ⟨hlinks, hchain, hpass⟩ := tableSwitch_sound
  refine ⟨⟨_, rfl, ?_⟩, ?_, hpass _ _ _ _ run_threeLinks _⟩
  · refine hlinks threeLinks.graph threeLinksChain (Bits.ofNat 2 3) (.leaf (Bits.ofNat 8 9)) _
      (by decide) (by decide) ?_ rfl
    intro link value hlink hvalue
    cases hlink
    cases hvalue
    rfl
  · obtain ⟨x, v, hx, hv, -⟩ := hchain _ _ (World.ofRun run_threeLinks) 11 threeLinksChain _ rfl rfl
    cases hv
    exact ⟨_, rfl, rfl⟩

/-- The return value becomes the lookup. -/
example : (runOnFunctionBaseInternal [11, 10, 9] threeLinks.graph).map (fun p =>
    (p.1, p.2.returnValue)) = .ok (true, 13) := rfl

end TableSwitch

end Xls

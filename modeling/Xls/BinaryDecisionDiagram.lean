import Xls.Status
import Xls.Lib.DecisionDiagram

/-!
# Xls.BinaryDecisionDiagram

`xls/data_structures/binary_decision_diagram.cc`: many Boolean functions over one
table of decision nodes, with a map from node contents to indices and a memo for
if-then-else.

`Invariant` is what every call preserves: the table is canonical, the node map is
its exact inverse, and every memo entry is right. The specification of a call says
that it returns (so no `CHECK` fails), keeps the invariant, only adds nodes, and
returns an index that denotes the described function.
-/

namespace Xls

open Result CellTable Or List

/-- `BddNode`: a variable, the children for true and false, and the number of
paths to the leaves. -/
structure BddNode extends Cell Nat where
  pathCount : Nat
  deriving DecidableEq, Repr

/-- `BinaryDecisionDiagram`. The leaves zero and one have the indices 0 and 1 and
no fields that any function reads, so `nodes` starts with index 2. -/
structure BinaryDecisionDiagram where
  nextVar : Nat
  nodes : List BddNode
  nodeMap : List ((Nat × Nat × Nat) × Nat)
  iteMap : List ((Nat × Nat × Nat) × Nat)
  deriving DecidableEq, Repr

namespace BinaryDecisionDiagram

/-- The diagram with only the leaves. -/
def empty : BinaryDecisionDiagram := ⟨0, [], [], []⟩

/-- Index of the leaf for false. -/
def zero : Nat := 0

/-- Index of the leaf for true. -/
def one : Nat := 1

/-- The inner node at an index. -/
def node? (b : BinaryDecisionDiagram) (i : Nat) : Option BddNode :=
  if i < 2 then none else b.nodes[i - 2]?

/-- `GetNode` of an index that is not a leaf. -/
def getNode (b : BinaryDecisionDiagram) (i : Nat) : Result BddNode := derefOption (b.node? i)

/-- `path_count`. -/
def pathCount (b : BinaryDecisionDiagram) (i : Nat) : Result Nat :=
  if i < 2 then .ok 1 else do
    let node ← b.getNode i
    return node.pathCount

/-- `std::numeric_limits<int32_t>::max()`. -/
def int32Max : Nat := 2 ^ 31 - 1

/-- `GetOrCreateNode`. -/
def getOrCreateNode (b : BinaryDecisionDiagram) (var high low : Nat) :
    Result (Nat × BinaryDecisionDiagram) :=
  match b.nodeMap.lookup (var, high, low) with
  | some i => .ok (i, b)
  | none =>
    if low = high then .ok (low, b) else do
      let lowPaths ← b.pathCount low
      let highPaths ← b.pathCount high
      let paths := min (lowPaths + highPaths) int32Max
      let nodeIndex := b.nodes.length + 2
      .ok (nodeIndex,
        { b with
          nodes := b.nodes ++ [⟨⟨var, high, low⟩, paths⟩]
          nodeMap := ((var, high, low), nodeIndex) :: b.nodeMap })

/-- `Restrict`: fix the variable of the topmost test. -/
def restrict (b : BinaryDecisionDiagram) (expr var : Nat) (value : Bool) : Result Nat :=
  if expr = zero ∨ expr = one then .ok expr else do
    let node ← b.getNode expr
    checkThat (decide (var ≤ node.var))
    return if node.var = var then (if value then node.high else node.low) else expr

/-- The smaller of `var` and the variable of an expression that is not a leaf. -/
def minVariable (b : BinaryDecisionDiagram) (var expr : Nat) : Result Nat :=
  if expr ≠ zero ∧ expr ≠ one then do
    let node ← b.getNode expr
    return min var node.var
  else .ok var

/-- `IfThenElse`. The first argument bounds the depth of the recursion. -/
def ifThenElseFuel : Nat → BinaryDecisionDiagram → Nat → Nat → Nat →
    Result (Nat × BinaryDecisionDiagram)
  | 0, _, _, _, _ => .error .check
  | fuel + 1, b, cond, ifTrue, ifFalse =>
    if cond = one then .ok (ifTrue, b)
    else if cond = zero then .ok (ifFalse, b)
    else if ifTrue = one ∧ ifFalse = zero then .ok (cond, b)
    else if ifTrue = ifFalse then .ok (ifTrue, b)
    else
      match b.iteMap.lookup (cond, ifTrue, ifFalse) with
      | some i => .ok (i, b)
      | none => do
        let condNode ← b.getNode cond
        let var ← b.minVariable condNode.var ifTrue
        let minVar ← b.minVariable var ifFalse
        let cond1 ← b.restrict cond minVar true
        let true1 ← b.restrict ifTrue minVar true
        let false1 ← b.restrict ifFalse minVar true
        let (trueCofactor, b) ← ifThenElseFuel fuel b cond1 true1 false1
        let cond0 ← b.restrict cond minVar false
        let true0 ← b.restrict ifTrue minVar false
        let false0 ← b.restrict ifFalse minVar false
        let (falseCofactor, b) ← ifThenElseFuel fuel b cond0 true0 false0
        if trueCofactor = falseCofactor then
          .ok (trueCofactor,
            { b with iteMap := ((cond, ifTrue, ifFalse), trueCofactor) :: b.iteMap })
        else do
          let (expr, b) ← b.getOrCreateNode minVar trueCofactor falseCofactor
          .ok (expr, { b with iteMap := ((cond, ifTrue, ifFalse), expr) :: b.iteMap })

/-- `IfThenElse`; children have smaller indices, so the sum of the arguments
bounds the depth. -/
def ifThenElse (b : BinaryDecisionDiagram) (cond ifTrue ifFalse : Nat) :
    Result (Nat × BinaryDecisionDiagram) :=
  ifThenElseFuel (cond + ifTrue + ifFalse + 1) b cond ifTrue ifFalse

/-- `NewVariable`. -/
def newVariable (b : BinaryDecisionDiagram) : Result (Nat × BinaryDecisionDiagram) :=
  { b with nextVar := b.nextVar + 1 }.getOrCreateNode b.nextVar one zero

/-- `Not`. -/
def not (b : BinaryDecisionDiagram) (expr : Nat) : Result (Nat × BinaryDecisionDiagram) :=
  b.ifThenElse expr zero one

/-- `Or`. -/
def or (b : BinaryDecisionDiagram) (x y : Nat) : Result (Nat × BinaryDecisionDiagram) :=
  b.ifThenElse x one y

/-- `And`. -/
def and (b : BinaryDecisionDiagram) (x y : Nat) : Result (Nat × BinaryDecisionDiagram) :=
  b.ifThenElse x y zero

/-- `IsVariableBaseNode`. -/
def isVariableBaseNode (b : BinaryDecisionDiagram) (expr : Nat) : Bool :=
  match b.node? expr with
  | some node => node.high == one && node.low == zero
  | none => false

/-- `GetVariableBaseNode`. -/
def getVariableBaseNode (b : BinaryDecisionDiagram) (var : Nat) : Result Nat :=
  derefOption (b.nodeMap.lookup (var, one, zero))

/-- The loop of `Evaluate`; the first argument bounds the number of rounds. -/
def evaluateFuel : Nat → BinaryDecisionDiagram → (Nat → Option Bool) → Nat → Result Bool
  | 0, _, _, result => .ok (result == one)
  | fuel + 1, b, variableValues, result =>
    if result ≠ zero ∧ result ≠ one then do
      let node ← b.getNode result
      let varNode ← b.getVariableBaseNode node.var
      match variableValues varNode with
      | none => .error (.status "Missing value for BDD variable")
      | some value => evaluateFuel fuel b variableValues (if value then node.high else node.low)
    else .ok (result == one)

/-- `Evaluate`; the values are given for the base nodes of the variables. Children
have smaller indices, so the index bounds the number of rounds. -/
def evaluate (b : BinaryDecisionDiagram) (expr : Nat) (variableValues : Nat → Option Bool) :
    Result Bool :=
  evaluateFuel expr b variableValues expr

/-! ### The invariant -/

/-- The table of the diagram. -/
def cells (b : BinaryDecisionDiagram) : CellTable Nat := fun i => (b.node? i).map BddNode.toCell

/-- The table is canonical, the node map is its inverse and the memo is right. -/
structure Consistent (b : BinaryDecisionDiagram) : Prop where
  canonical : b.cells.Canonical
  bounded : ∀ {i c}, b.cells i = some c → c.var < b.nextVar
  nodeMap : ∀ v h l i, b.nodeMap.lookup (v, h, l) = some i ↔ b.cells i = some ⟨v, h, l⟩
  iteMap : ∀ {c t f r}, b.iteMap.lookup (c, t, f) = some r → b.cells.IsIte c t f r

/-- What every call preserves; moreover every variable has its base node. -/
structure Invariant (b : BinaryDecisionDiagram) : Prop extends Consistent b where
  base : ∀ v, v < b.nextVar → ∃ i, b.cells i = some ⟨v, one, zero⟩

/-- The later diagram has every node of the earlier one. -/
structure Grows (b b' : BinaryDecisionDiagram) : Prop where
  cells : b.cells.Extends b'.cells
  nextVar : b.nextVar ≤ b'.nextVar

theorem Grows.refl (b : BinaryDecisionDiagram) : b.Grows b := ⟨fun _ _ h => h, le_refl _⟩

theorem Grows.trans {b b' b'' : BinaryDecisionDiagram} (h : b.Grows b') (h' : b'.Grows b'') :
    b.Grows b'' :=
  ⟨h.cells.trans h'.cells, h.nextVar.trans h'.nextVar⟩

/-- The diagram of the constructor satisfies the invariant. -/
theorem invariant_empty : Invariant empty := by
  have hnone : ∀ i, empty.cells i = none := by
    intro i
    simp [cells, node?, empty]
  refine ⟨⟨?canonical, ?bounded, ?nodeMap, ?iteMap⟩, ?base⟩
  case canonical => constructor <;> simp [hnone]
  case bounded => simp [hnone]
  case nodeMap =>
    intro v h l i
    rw [hnone]
    exact ⟨fun h => (by cases h), fun h => (by cases h)⟩
  case iteMap =>
    intro c t f r h
    cases h
  case base =>
    intro v hv
    exact absurd hv (Nat.not_lt_zero v)

variable {b b' : BinaryDecisionDiagram} {i c t f x : Nat} {p : Nat × BinaryDecisionDiagram}

theorem node?_of_cells {c : Cell Nat} (h : b.cells i = some c) :
    2 ≤ i ∧ i < b.nodes.length + 2 ∧ ∃ n, b.node? i = some n ∧ n.toCell = c := by
  obtain ⟨n, hn, rfl⟩ := Option.map_eq_some_iff.1 h
  unfold node? at hn
  split at hn
  · cases hn
  · have hlt := (List.getElem?_eq_some_iff.1 hn).1
    refine ⟨by omega, by omega, n, ?_, rfl⟩
    rw [node?, if_neg (by omega), hn]

theorem valid_lt (h : b.cells.Valid i) : i < b.nodes.length + 2 := by
  rcases h with h | ⟨c, hc⟩
  · omega
  · exact (node?_of_cells hc).2.1

theorem getNode_of_cells {c : Cell Nat} (h : b.cells i = some c) :
    ∃ n, b.getNode i = .ok n ∧ n.toCell = c := by
  obtain ⟨-, -, n, hn, hc⟩ := node?_of_cells h
  exact ⟨n, by rw [getNode, hn]; rfl, hc⟩

theorem cells_of_valid (h : b.cells.Valid i) (h0 : i ≠ zero) (h1 : i ≠ one) :
    ∃ c, b.cells i = some c := by
  rcases h with h | h
  · unfold zero at h0
    unfold one at h1
    omega
  · exact h

theorem pathCount_of_valid (h : b.cells.Valid i) : ∃ n, b.pathCount i = .ok n := by
  unfold pathCount
  split
  · exact ⟨1, rfl⟩
  · rcases h with h | ⟨c, hc⟩
    · omega
    · obtain ⟨n, hn, -⟩ := getNode_of_cells hc
      exact ⟨n.pathCount, by rw [hn]; rfl⟩

/-- A node that is appended defines one new cell. -/
theorem cells_append (n : BddNode) (map : List ((Nat × Nat × Nat) × Nat)) :
    cells { b with nodes := b.nodes ++ [n], nodeMap := map } =
      Function.update b.cells (b.nodes.length + 2) (some n.toCell) := by
  funext i
  by_cases hi : i = b.nodes.length + 2
  · subst hi
    simp [cells, node?]
  · rw [Function.update_of_ne hi]
    unfold cells node?
    split
    · rfl
    · rcases Nat.lt_or_ge (i - 2) b.nodes.length with hlt | hge
      · dsimp only
        rw [getElem?_append_left hlt]
      · rw [getElem?_eq_none hge, getElem?_eq_none]
        simp
        omega

/-! ### Nodes -/

variable {var : Nat} {σ : Nat → Bool} {values : Nat → Option Bool}

/-- `GetOrCreateNode` for different children returns the one node with these
contents. -/
theorem getOrCreateNode_spec (hb : b.Consistent) {high low : Nat} (hvar : var < b.nextVar)
    (hhigh : b.cells.Valid high) (hlow : b.cells.Valid low) (hhv : b.cells.Above var high)
    (hlv : b.cells.Above var low) (hne : high ≠ low) :
    ∃ r b', b.getOrCreateNode var high low = .ok (r, b') ∧ b'.Consistent ∧ b.Grows b' ∧
      b'.cells r = some ⟨var, high, low⟩ ∧ b'.nextVar = b.nextVar := by
  unfold getOrCreateNode
  cases hfind : b.nodeMap.lookup (var, high, low) with
  | some i =>
    exact ⟨i, b, rfl, hb, Grows.refl b, (hb.nodeMap _ _ _ _).1 hfind, rfl⟩
  | none =>
    obtain ⟨pl, hpl⟩ := pathCount_of_valid hlow
    obtain ⟨ph, hph⟩ := pathCount_of_valid hhigh
    dsimp only
    rw [if_neg (Ne.symm hne), hpl, ok_bind, hph, ok_bind]
    have hnew : ∀ i, b.cells i ≠ some ⟨var, high, low⟩ := by
      intro i hi
      rw [(hb.nodeMap _ _ _ _).2 hi] at hfind
      cases hfind
    have hfree : b.cells (b.nodes.length + 2) = none := by simp [cells, node?]
    obtain ⟨hext, hcan⟩ := hb.canonical.insert (c := ⟨var, high, low⟩) (by omega) hfree
      ⟨valid_lt hhigh, valid_lt hlow⟩ ⟨hhigh, hlow⟩ ⟨hhv, hlv⟩ hne hnew
    refine ⟨_, _, rfl, ?_, ⟨?_, le_refl _⟩, ?_, rfl⟩
    · constructor
      case canonical =>
        rw [cells_append]
        exact hcan
      case bounded =>
        intro i c hc
        rw [cells_append] at hc
        by_cases hi : i = b.nodes.length + 2
        · rw [hi, Function.update_self] at hc
          cases hc
          exact hvar
        · rw [Function.update_of_ne hi] at hc
          exact hb.bounded hc
      case nodeMap =>
        intro v h l i
        rw [cells_append, lookup_cons]
        by_cases hkey : (v, h, l) = (var, high, low)
        · cases hkey
          rw [beq_self_eq_true]
          constructor
          · rintro ⟨⟩
            rw [Function.update_self]
          · intro hi
            by_cases heq : i = b.nodes.length + 2
            · rw [heq]
            · rw [Function.update_of_ne heq] at hi
              exact absurd hi (hnew i)
        · rw [beq_false_of_ne hkey]
          dsimp only
          rw [hb.nodeMap]
          by_cases heq : i = b.nodes.length + 2
          · rw [heq, Function.update_self, hfree]
            constructor
            · intro hnil
              cases hnil
            · intro hnew
              cases hnew
              exact absurd rfl hkey
          · rw [Function.update_of_ne heq]
      case iteMap =>
        intro c t f r hr
        rw [cells_append]
        exact (hb.iteMap hr).mono hb.canonical hcan hext
    · rw [cells_append]
      exact hext
    · rw [cells_append, Function.update_self]

/-- `NewVariable` returns the base node of the next variable. -/
theorem newVariable_spec (hb : b.Invariant) :
    ∃ p, b.newVariable = .ok p ∧ p.2.Invariant ∧ b.Grows p.2 ∧
      p.2.cells p.1 = some ⟨b.nextVar, one, zero⟩ ∧ p.2.nextVar = b.nextVar + 1 := by
  let bigger : BinaryDecisionDiagram := { b with nextVar := b.nextVar + 1 }
  have hbig : bigger.Consistent :=
    ⟨hb.canonical, fun hc => Nat.lt_succ_of_lt (hb.bounded hc), hb.nodeMap, hb.iteMap⟩
  have habove : ∀ v i, i < 2 → bigger.cells.Above v i := by
    intro v i hi c hc
    rw [hbig.canonical.leaf i hi] at hc
    cases hc
  obtain ⟨r, b', hrun, hcons, hgrows, hr, hnext⟩ := getOrCreateNode_spec hbig
    (Nat.lt_succ_self b.nextVar) (valid_leaf (i := one) (by decide))
    (valid_leaf (i := zero) (by decide)) (habove _ _ (by decide))
    (habove _ _ (by decide)) (by decide)
  refine ⟨(r, b'), hrun, ⟨hcons, ?_⟩, ⟨hgrows.cells, ?_⟩, hr, hnext⟩
  · intro v hv
    rw [hnext] at hv
    rcases Nat.lt_succ_iff_lt_or_eq.1 hv with hlt | rfl
    · obtain ⟨i, hi⟩ := hb.base v hlt
      exact ⟨i, hgrows.cells i _ hi⟩
    · exact ⟨r, hr⟩
  · rw [hnext]
    exact Nat.le_succ _

/-! ### If-then-else -/

/-- Restricting a node that tests the variable or a later one takes its branch. -/
theorem restrict_spec (hb : b.Invariant) {expr : Nat} (hv : b.cells.Valid expr)
    (hle : b.cells.AtLeast var expr) (value : Bool) :
    b.restrict expr var value = .ok (b.cells.cofactor var value expr) := by
  unfold restrict
  split
  · rename_i hleaf
    have hnone : b.cells expr = none := hb.canonical.leaf expr (by unfold zero one at hleaf; omega)
    rw [cofactor, hnone]
  · rename_i hleaf
    obtain ⟨c, hc⟩ := cells_of_valid hv (fun h => hleaf (inl h)) fun h => hleaf (inr h)
    obtain ⟨n, hn, rfl⟩ := getNode_of_cells hc
    rw [hn, ok_bind, decide_eq_true (hle _ hc), checkThat_true, ok_bind, cofactor, hc]
    rfl

/-- `minVariable` lowers the variable just to the first test of the expression. -/
theorem minVariable_spec {v expr : Nat} (hb : b.Invariant) (hv : b.cells.Valid expr) :
    ∃ m, b.minVariable v expr = .ok m ∧ m ≤ v ∧ b.cells.AtLeast m expr ∧
      (m = v ∨ ∃ c, b.cells expr = some c ∧ c.var = m) := by
  unfold minVariable
  split
  · rename_i hleaf
    obtain ⟨c, hc⟩ := cells_of_valid hv hleaf.1 hleaf.2
    obtain ⟨n, hn, rfl⟩ := getNode_of_cells hc
    rw [hn, ok_bind]
    refine ⟨_, rfl, min_le_left _ _, ?_, ?_⟩
    · intro d hd
      rw [hc] at hd
      cases hd
      exact min_le_right _ _
    · rcases min_choice v n.var with h | h
      · exact inl h
      · exact inr ⟨_, hc, h.symm⟩
  · rename_i hleaf
    have hnone : b.cells expr = none :=
      hb.canonical.leaf expr (by unfold zero one at hleaf; omega)
    refine ⟨v, rfl, le_refl _, fun c hc => ?_, inl rfl⟩
    rw [hnone] at hc
    cases hc

/-- The result of a choice, in the diagram after the call. -/
structure IteResult (b : BinaryDecisionDiagram) (c t f : Nat) (p : Nat × BinaryDecisionDiagram) :
    Prop where
  invariant : p.2.Invariant
  grows : b.Grows p.2
  nextVar : p.2.nextVar = b.nextVar
  isIte : p.2.cells.IsIte c t f p.1

theorem IteResult.refl (hb : b.Invariant) {r : Nat} (h : b.cells.IsIte c t f r) :
    b.IteResult c t f (r, b) :=
  ⟨hb, Grows.refl b, rfl, h⟩

theorem IteResult.of_grows (h : b'.IteResult c t f p) (hgrows : b.Grows b')
    (hnext : b'.nextVar = b.nextVar) : b.IteResult c t f p :=
  ⟨h.invariant, hgrows.trans h.grows, h.nextVar.trans hnext, h.isIte⟩

/-- A right answer may be recorded in the memo. -/
theorem IteResult.memo {r : Nat} (h : b.IteResult c t f (r, b')) :
    b.IteResult c t f (r, { b' with iteMap := ((c, t, f), r) :: b'.iteMap }) where
  invariant := by
    refine ⟨⟨h.invariant.canonical, h.invariant.bounded, h.invariant.nodeMap, ?_⟩, h.invariant.base⟩
    intro c' t' f' r' hr
    rw [lookup_cons] at hr
    by_cases hkey : (c', t', f') = (c, t, f)
    · cases hkey
      rw [beq_self_eq_true] at hr
      cases hr
      exact h.isIte
    · rw [beq_false_of_ne hkey] at hr
      exact h.invariant.iteMap hr
  grows := ⟨h.grows.cells, h.grows.nextVar⟩
  nextVar := h.nextVar
  isIte := h.isIte

/-- The variable that a non-trivial choice is decomposed by: the first one tested
by its three arguments. -/
theorem minVariable_three (hb : b.Invariant) {n : BddNode} (hc : b.cells c = some n.toCell)
    (ht : b.cells.Valid t) (hf : b.cells.Valid f) :
    ∃ m m', b.minVariable n.var t = .ok m ∧ b.minVariable m f = .ok m' ∧ m' < b.nextVar ∧
      b.cells.AtLeast m' c ∧ b.cells.AtLeast m' t ∧ b.cells.AtLeast m' f ∧
      ∃ i d, (i = c ∨ i = t ∨ i = f) ∧ b.cells i = some d ∧ d.var = m' := by
  obtain ⟨m, hm, hmle, htm, hmt⟩ := minVariable_spec (v := n.var) hb ht
  obtain ⟨m', hm', hmle', hfm, hmf⟩ := minVariable_spec (v := m) hb hf
  have hat : ∃ i d, (i = c ∨ i = t ∨ i = f) ∧ b.cells i = some d ∧ d.var = m' := by
    rcases hmf with rfl | ⟨d, hd, hdv⟩
    · rcases hmt with rfl | ⟨d, hd, hdv⟩
      · exact ⟨c, n.toCell, inl rfl, hc, rfl⟩
      · exact ⟨t, d, inr (inl rfl), hd, hdv⟩
    · exact ⟨f, d, inr (inr rfl), hd, hdv⟩
  obtain ⟨i, d, hi, hd, hdv⟩ := hat
  refine ⟨m, m', hm, hm', hdv ▸ hb.bounded hd, ?_, ?_, hfm, i, d, hi, hd, hdv⟩
  · intro e he
    rw [hc] at he
    cases he
    exact hmle'.trans hmle
  · intro e he
    exact hmle'.trans (htm e he)

/-- The last step of a decomposition: the node that tests `var` and goes on with
the two cofactor choices. -/
theorem iteResult_node (hb : b.Invariant) (hvar : var < b.nextVar) (hc : b.cells.Valid c)
    (ht : b.cells.Valid t) (hf : b.cells.Valid f) (hcv : b.cells.AtLeast var c)
    (htv : b.cells.AtLeast var t) (hfv : b.cells.AtLeast var f)
    (hmin : ∀ u, b.cells.Above u c → b.cells.Above u t → b.cells.Above u f → u < var)
    {g : Bool → Nat} (hcof : ∀ v, b.cells.IsIte (b.cells.cofactor var v c)
      (b.cells.cofactor var v t) (b.cells.cofactor var v f) (g v)) :
    if g true = g false then b.IteResult c t f (g true, b)
    else ∃ r b', b.getOrCreateNode var (g true) (g false) = .ok (r, b') ∧
      b.IteResult c t f (r, b') := by
  have habove : ∀ v, b.cells.Above var (g v) := fun v => (hcof v).above var
    (hb.canonical.cofactor_above hcv v) (hb.canonical.cofactor_above htv v)
    (hb.canonical.cofactor_above hfv v)
  split
  · rename_i heq
    refine IteResult.refl hb (hb.canonical.isIte_shannon hc ht hf (hcof true).valid hcv htv hfv
      hmin hcof (fun σ => ?_) fun u hu d hd => hu.trans (habove true d hd))
    cases σ var
    · rw [heq]
    · rfl
  · rename_i hne
    obtain ⟨r, b', hrun, hcons, hgrows, hr, hnext⟩ := getOrCreateNode_spec hb.toConsistent hvar
      (hcof true).valid (hcof false).valid (habove true) (habove false) hne
    have hinv : b'.Invariant := by
      refine ⟨hcons, fun v hv => ?_⟩
      obtain ⟨i, hi⟩ := hb.base v (hnext ▸ hv)
      exact ⟨i, hgrows.cells i _ hi⟩
    refine ⟨r, b', hrun, hinv, hgrows, hnext, ?_⟩
    refine hcons.canonical.isIte_shannon (g := g) (hc.mono hgrows.cells) (ht.mono hgrows.cells)
      (hf.mono hgrows.cells) (valid_cell hr)
      (hcv.mono hcons.canonical hgrows.cells hc) (htv.mono hcons.canonical hgrows.cells ht)
      (hfv.mono hcons.canonical hgrows.cells hf) ?_ ?_ ?_ ?_
    · intro u huc hut huf
      exact hmin u (above_of_extends hgrows.cells huc)
        (above_of_extends hgrows.cells hut)
        (above_of_extends hgrows.cells huf)
    · intro v
      rw [cofactor_extends hcons.canonical hgrows.cells hc,
        cofactor_extends hcons.canonical hgrows.cells ht,
        cofactor_extends hcons.canonical hgrows.cells hf]
      exact (hcof v).mono hb.canonical hcons.canonical hgrows.cells
    · intro σ
      rw [hcons.canonical.denote_cell hr]
      unfold CellTable.next Cell.branch
      cases σ var <;> rfl
    · intro u hu d hd
      rw [hr] at hd
      cases hd
      exact hu

section

variable (hb : b.Invariant) (hc : b.cells.Valid c) (ht : b.cells.Valid t) (hf : b.cells.Valid f)
include hb hc ht hf

/-- `IfThenElse` returns an index for the choice. Each round replaces the three
arguments by cofactors, and one of them by a child, so their sum decreases. -/
theorem ifThenElseFuel_spec {fuel : Nat} (hfuel : c + t + f < fuel) :
    ∃ p, ifThenElseFuel fuel b c t f = .ok p ∧ b.IteResult c t f p := by
  induction fuel generalizing b c t f with
  | zero => omega
  | succ fuel ih =>
    unfold ifThenElseFuel
    by_cases h1 : c = one
    · subst h1
      rw [if_pos rfl]
      exact ⟨_, rfl, IteResult.refl hb (hb.canonical.isIte_true ht hf)⟩
    rw [if_neg h1]
    by_cases h0 : c = zero
    · subst h0
      rw [if_pos rfl]
      exact ⟨_, rfl, IteResult.refl hb (hb.canonical.isIte_false ht hf)⟩
    rw [if_neg h0]
    by_cases h10 : t = one ∧ f = zero
    · obtain ⟨rfl, rfl⟩ := h10
      rw [if_pos ⟨rfl, rfl⟩]
      exact ⟨_, rfl, IteResult.refl hb (hb.canonical.isIte_cond hc)⟩
    rw [if_neg h10]
    by_cases hsame : t = f
    · subst hsame
      rw [if_pos rfl]
      exact ⟨_, rfl, IteResult.refl hb (isIte_same hc ht)⟩
    rw [if_neg hsame]
    cases hmemo : b.iteMap.lookup (c, t, f) with
    | some r => exact ⟨_, rfl, IteResult.refl hb (hb.iteMap hmemo)⟩
    | none =>
      obtain ⟨d, hd⟩ := cells_of_valid hc h0 h1
      obtain ⟨n, hn, rfl⟩ := getNode_of_cells hd
      obtain ⟨m, var, hm, hmvar, hvar, hcv, htv, hfv, i, e, hi, he, hev⟩ :=
        minVariable_three hb hd ht hf
      -- one of the three is replaced by a child
      have hsum : ∀ v, b.cells.cofactor var v c + b.cells.cofactor var v t +
          b.cells.cofactor var v f < fuel := by
        intro v
        have hlt := hb.canonical.cofactor_lt he hev v
        have hcle := hb.canonical.cofactor_le hcv v
        have htle := hb.canonical.cofactor_le htv v
        have hfle := hb.canonical.cofactor_le hfv v
        rcases hi with rfl | rfl | rfl <;> omega
      have hmin : ∀ u, b.cells.Above u c → b.cells.Above u t → b.cells.Above u f →
          u < var := by
        intro u huc hut huf
        rw [← hev]
        rcases hi with rfl | rfl | rfl
        · exact huc e he
        · exact hut e he
        · exact huf e he
      have hcval := hb.canonical.cofactor_valid hcv hc
      have htval := hb.canonical.cofactor_valid htv ht
      have hfval := hb.canonical.cofactor_valid hfv hf
      obtain ⟨⟨r1, b1⟩, hrun1, hres1⟩ :=
        ih hb (hcval true) (htval true) (hfval true) (hsum true)
      have hext1 := hres1.grows.cells
      have hcan1 := hres1.invariant.canonical
      have hcof1 := @cofactor_extends _ _ _ _ hcan1 hext1
      have hc0 := restrict_spec hres1.invariant (hc.mono hext1) (hcv.mono hcan1 hext1 hc) false
      have ht0 := restrict_spec hres1.invariant (ht.mono hext1) (htv.mono hcan1 hext1 ht) false
      have hf0 := restrict_spec hres1.invariant (hf.mono hext1) (hfv.mono hcan1 hext1 hf) false
      rw [hcof1 hc] at hc0
      rw [hcof1 ht] at ht0
      rw [hcof1 hf] at hf0
      obtain ⟨⟨r0, b0⟩, hrun0, hres0⟩ := ih hres1.invariant ((hcval false).mono hext1)
        ((htval false).mono hext1) ((hfval false).mono hext1) (hsum false)
      have hgrows := hres1.grows.trans hres0.grows
      have hnext := hres0.nextVar.trans hres1.nextVar
      have hext := hgrows.cells
      have hcan := hres0.invariant.canonical
      have hnode := iteResult_node (g := fun v => if v then r1 else r0) hres0.invariant
        (hnext ▸ hvar : var < b0.nextVar) (hc.mono hext) (ht.mono hext) (hf.mono hext)
        (hcv.mono hcan hext hc) (htv.mono hcan hext ht) (hfv.mono hcan hext hf) ?_ ?_
      · rw [hn, ok_bind, hm, ok_bind, hmvar, ok_bind,
          restrict_spec hb hc hcv, ok_bind, restrict_spec hb ht htv, ok_bind,
          restrict_spec hb hf hfv, ok_bind, hrun1, ok_bind]
        dsimp only
        rw [hc0, ok_bind, ht0, ok_bind, hf0, ok_bind, hrun0, ok_bind]
        simp only [↓reduceIte, Bool.false_eq_true] at hnode
        split at hnode
        · rename_i heq
          rw [if_pos heq]
          exact ⟨_, rfl, (hnode.of_grows hgrows hnext).memo⟩
        · rename_i hne
          obtain ⟨r, b2, hrun2, hres2⟩ := hnode
          rw [if_neg hne, hrun2, ok_bind]
          exact ⟨_, rfl, (hres2.of_grows hgrows hnext).memo⟩
      · intro u huc hut huf
        exact hmin u (above_of_extends hext huc)
          (above_of_extends hext hut) (above_of_extends hext huf)
      · intro v
        rw [cofactor_extends hcan hext hc, cofactor_extends hcan hext ht,
          cofactor_extends hcan hext hf]
        cases v with
        | false => exact hres0.isIte
        | true => exact hres1.isIte.mono hcan1 hcan hres0.grows.cells

theorem ifThenElse_spec : ∃ p, b.ifThenElse c t f = .ok p ∧ b.IteResult c t f p :=
  ifThenElseFuel_spec hb hc ht hf (Nat.lt_succ_self _)

end

/-! ### The operations -/

/-- A call that started in `b` returned an index of the function `g`. -/
structure Denotes (b : BinaryDecisionDiagram) (g : (Nat → Bool) → Bool)
    (p : Nat × BinaryDecisionDiagram) : Prop where
  invariant : p.2.Invariant
  grows : b.Grows p.2
  valid : p.2.cells.Valid p.1
  denote : ∀ σ, p.2.cells.denote σ p.1 = g σ

theorem denote_grows (hb : b.Invariant) (hb' : b'.Invariant) (h : b.Grows b') (hi : b.cells.Valid i)
    (σ : Nat → Bool) : b'.cells.denote σ i = b.cells.denote σ i :=
  denote_extends hb.canonical hb'.canonical h.cells hi σ

theorem valid_zero : b.cells.Valid zero := valid_leaf (by decide)

theorem valid_one : b.cells.Valid one := valid_leaf (by decide)

theorem Invariant.denote_zero (hb : b.Invariant) (σ : Nat → Bool) : b.cells.denote σ zero = false :=
  hb.canonical.denote_zero σ

theorem Invariant.denote_one (hb : b.Invariant) (σ : Nat → Bool) : b.cells.denote σ one = true :=
  hb.canonical.denote_one σ

theorem IteResult.denotes (hb : b.Invariant) (h : b.IteResult c t f p) (hc : b.cells.Valid c)
    (ht : b.cells.Valid t) (hf : b.cells.Valid f) :
    b.Denotes (fun σ => if b.cells.denote σ c then b.cells.denote σ t else b.cells.denote σ f) p
    where
  invariant := h.invariant
  grows := h.grows
  valid := h.isIte.valid
  denote σ := by
    rw [h.isIte.denote, denote_grows hb h.invariant h.grows hc,
      denote_grows hb h.invariant h.grows ht,
      denote_grows hb h.invariant h.grows hf]

theorem Denotes.congr {g g' : (Nat → Bool) → Bool} (h : b.Denotes g p) (hg : ∀ σ, g σ = g' σ) :
    b.Denotes g' p :=
  ⟨h.invariant, h.grows, h.valid, fun σ => (h.denote σ).trans (hg σ)⟩

section

variable (hb : b.Invariant)
include hb

/-- A base node denotes its variable. -/
theorem Invariant.denote_base {v : Nat} (hi : b.cells i = some ⟨v, one, zero⟩) (σ : Nat → Bool) :
    b.cells.denote σ i = σ v := by
  rw [hb.canonical.denote_cell hi]
  unfold CellTable.next Cell.branch
  cases σ v
  · exact hb.denote_zero σ
  · exact hb.denote_one σ

theorem not_spec (hx : b.cells.Valid x) :
    ∃ p, b.not x = .ok p ∧ p.2.nextVar = b.nextVar ∧
      b.Denotes (fun σ => !b.cells.denote σ x) p := by
  obtain ⟨p, hp, hres⟩ := ifThenElse_spec hb hx valid_zero valid_one
  refine ⟨p, hp, hres.nextVar, (hres.denotes hb hx valid_zero valid_one).congr fun σ => ?_⟩
  rw [hb.denote_zero, hb.denote_one]
  cases b.cells.denote σ x <;> rfl

theorem or_spec {y : Nat} (hx : b.cells.Valid x) (hy : b.cells.Valid y) :
    ∃ p, b.or x y = .ok p ∧ p.2.nextVar = b.nextVar ∧
      b.Denotes (fun σ => b.cells.denote σ x || b.cells.denote σ y) p := by
  obtain ⟨p, hp, hres⟩ := ifThenElse_spec hb hx valid_one hy
  refine ⟨p, hp, hres.nextVar, (hres.denotes hb hx valid_one hy).congr fun σ => ?_⟩
  rw [hb.denote_one]
  cases b.cells.denote σ x <;> rfl

theorem and_spec {y : Nat} (hx : b.cells.Valid x) (hy : b.cells.Valid y) :
    ∃ p, b.and x y = .ok p ∧ p.2.nextVar = b.nextVar ∧
      b.Denotes (fun σ => b.cells.denote σ x && b.cells.denote σ y) p := by
  obtain ⟨p, hp, hres⟩ := ifThenElse_spec hb hx hy valid_zero
  refine ⟨p, hp, hres.nextVar, (hres.denotes hb hx hy valid_zero).congr fun σ => ?_⟩
  rw [hb.denote_zero]
  cases b.cells.denote σ x <;> rfl

/-- `Evaluate` of an index of an earlier diagram, with a value for every variable of
that diagram, computes what the index denotes. -/
theorem evaluate_grows (hb' : b'.Invariant) (hgrows : b.Grows b')
    (hvalues : ∀ v i, v < b.nextVar → b'.cells i = some ⟨v, one, zero⟩ → values i = some (σ v))
    (hx : b.cells.Valid x) : b'.evaluate x values = .ok (b'.cells.denote σ x) := by
  suffices hind : ∀ fuel x, x ≤ fuel → b.cells.Valid x →
      evaluateFuel fuel b' values x = .ok (b'.cells.denote σ x) from hind x x (le_refl x) hx
  intro fuel
  induction fuel with
  | zero =>
    intro x hle hx
    obtain rfl : x = 0 := by omega
    rw [hb'.canonical.denote_zero]
    rfl
  | succ fuel ih =>
    intro x hle hx
    unfold evaluateFuel
    split
    · rename_i hleaf
      obtain ⟨c, hc⟩ := cells_of_valid hx hleaf.1 hleaf.2
      have hc' := hgrows.cells x c hc
      obtain ⟨n, hn, rfl⟩ := getNode_of_cells hc'
      obtain ⟨i, hi⟩ := hb'.base n.var (hb'.bounded hc')
      have hbase : b'.getVariableBaseNode n.var = .ok i := by
        rw [getVariableBaseNode, (hb'.nodeMap _ _ _ _).2 hi]
        rfl
      have hlt := hb.canonical.next_lt hc σ
      rw [hn, ok_bind, hbase, ok_bind, hvalues _ _ (hb.bounded hc) hi,
        hb'.canonical.denote_cell hc']
      exact ih (CellTable.next σ n.toCell) (by omega) (hb.canonical.next_valid hc σ)
    · rename_i hleaf
      have hnone : b'.cells x = none := hb'.canonical.leaf x (by unfold zero one at hleaf; omega)
      rw [denote_leaf hnone]
      rfl

/-- `Evaluate` with a value for every variable computes what the index denotes. -/
theorem evaluate_spec (hvalues : ∀ v i, b.cells i = some ⟨v, one, zero⟩ → values i = some (σ v))
    (hx : b.cells.Valid x) : b.evaluate x values = .ok (b.cells.denote σ x) :=
  evaluate_grows hb hb (Grows.refl b) (fun v i _ => hvalues v i) hx

end

end BinaryDecisionDiagram

end Xls

import Xls.AbstractNodeEvaluator.Node
import Xls.BinaryDecisionDiagram

/-!
# Xls.BddFunction

`xls/passes/bdd_function.cc`: the nodes of a function as decision diagrams. An
operation whose diagram has more paths than the limit gives `TooManyPaths`, and a bit
that is forgotten so becomes a new variable.

The evaluator is an instance of the abstract one: its elements live in a diagram that
grows, and they stand for what their index denotes under a valuation of the
variables.
-/

namespace Xls

open Grow BinaryDecisionDiagram LeafTree

/-- The diagram of a `BddFunction`. -/
structure BddState where
  bdd : BinaryDecisionDiagram
  invariant : bdd.Invariant

namespace BddState

/-- Evaluation adds nodes to the diagram, but no variables. -/
instance : Preorder BddState where
  le s t := s.bdd.Grows t.bdd ∧ t.bdd.nextVar = s.bdd.nextVar
  le_refl s := ⟨BinaryDecisionDiagram.Grows.refl _, rfl⟩
  le_trans _ _ _ h h' := ⟨h.1.trans h'.1, h'.2.trans h.2⟩

/-- The index is one of the diagram. -/
def Valid (s : BddState) (i : Nat) : Prop := s.bdd.cells.Valid i

instance (s : BddState) (i : Nat) : Decidable (s.Valid i) :=
  decidable_of_iff (i < 2 ∨ (s.bdd.cells i).isSome) (by
    unfold Valid CellTable.Valid
    rw [Option.isSome_iff_exists])

/-- What an index denotes under a valuation of the variables. -/
def denote (s : BddState) (σ : Nat → Bool) (i : Nat) : Bool := s.bdd.cells.denote σ i

theorem Valid.mono {s t : BddState} {i : Nat} (h : s.Valid i) (hst : s.bdd.Grows t.bdd) :
    t.Valid i :=
  CellTable.Valid.mono h hst.cells

theorem denote_mono {s t : BddState} (hst : s.bdd.Grows t.bdd) {i : Nat} (hi : s.Valid i)
    (σ : Nat → Bool) : t.denote σ i = s.denote σ i :=
  denote_grows s.invariant t.invariant hst hi σ

/-- The index is one of the diagram and has the value of the bit. -/
def Denotes (s : BddState) (σ : Nat → Bool) (i : Nat) (b : Bool) : Prop :=
  s.Valid i ∧ s.denote σ i = b

/-- What an index denotes depends on the variables created so far. -/
theorem denote_congr (s : BddState) {σ σ' : Nat → Bool} (h : ∀ v, v < s.bdd.nextVar → σ v = σ' v)
    (i : Nat) : s.denote σ i = s.denote σ' i := by
  suffices hind : ∀ n i, i ≤ n → s.denote σ i = s.denote σ' i from hind i i (le_refl i)
  intro n
  induction n with
  | zero =>
    intro i hi
    obtain rfl : i = 0 := Nat.le_zero.1 hi
    exact (s.invariant.canonical.denote_zero σ).trans (s.invariant.canonical.denote_zero σ').symm
  | succ n ih =>
    intro i hi
    cases hc : s.bdd.cells i with
    | none => exact (CellTable.denote_leaf hc σ).trans (CellTable.denote_leaf hc σ').symm
    | some c =>
      have hlt := s.invariant.canonical.next_lt hc σ
      have hvar := h c.var (s.invariant.bounded hc)
      have hnext : CellTable.next σ c = CellTable.next σ' c := by
        unfold CellTable.next
        rw [hvar]
      calc s.denote σ i = s.denote σ (CellTable.next σ c) :=
            s.invariant.canonical.denote_cell hc σ
        _ = s.denote σ' (CellTable.next σ c) := ih _ (by omega)
        _ = s.denote σ' (CellTable.next σ' c) := by rw [hnext]
        _ = s.denote σ' i := (s.invariant.canonical.denote_cell hc σ').symm

/-! ### Calls of the diagram -/

/-- A call of the diagram on indices of the diagram. Any other index is undefined
behaviour. -/
def call (valid : List Nat) (op : BinaryDecisionDiagram → Result (Nat × BinaryDecisionDiagram))
    (hop : ∀ b, b.Invariant → (∀ i ∈ valid, b.cells.Valid i) → ∀ p, op b = .ok p →
      p.2.Invariant ∧ b.Grows p.2 ∧ p.2.nextVar = b.nextVar) : EvalM BddState Nat where
  run s :=
    if h : ∀ i ∈ valid, s.Valid i then
      match hp : op s.bdd with
      | .ok p => .ok (p.1, ⟨p.2, (hop s.bdd s.invariant h p hp).1⟩)
      | .error e => .error e
    else .error .check
  mono s a s' h := by
    split at h
    rotate_left
    · cases h
    split at h
    · cases h
      have hspec := hop s.bdd s.invariant ‹_› _ ‹_›
      exact hspec.2
    · cases h

/-- `Not`. -/
def not (x : Nat) : EvalM BddState Nat :=
  call [x] (fun b => b.not x) fun b hb hv p hp => by
    obtain ⟨q, hq, hnext, hden⟩ := not_spec hb (hv x (by simp))
    cases hq.symm.trans hp
    exact ⟨hden.invariant, hden.grows, hnext⟩

/-- `And`. -/
def and (x y : Nat) : EvalM BddState Nat :=
  call [x, y] (fun b => b.and x y) fun b hb hv p hp => by
    obtain ⟨q, hq, hnext, hden⟩ :=
      and_spec hb (hv x (by simp)) (hv y (by simp))
    cases hq.symm.trans hp
    exact ⟨hden.invariant, hden.grows, hnext⟩

/-- `Or`. -/
def or (x y : Nat) : EvalM BddState Nat :=
  call [x, y] (fun b => b.or x y) fun b hb hv p hp => by
    obtain ⟨q, hq, hnext, hden⟩ :=
      or_spec hb (hv x (by simp)) (hv y (by simp))
    cases hq.symm.trans hp
    exact ⟨hden.invariant, hden.grows, hnext⟩

/-- `NewVariable`. -/
def newVariable (s : BddState) : Result (Nat × BddState) :=
  match hp : s.bdd.newVariable with
  | .ok p => .ok (p.1, ⟨p.2, by
      obtain ⟨q, hq, hinv, -⟩ := BinaryDecisionDiagram.newVariable_spec s.invariant
      cases hq.symm.trans hp
      exact hinv⟩)
  | .error e => .error e

/-- `path_count`. -/
def pathCount (i : Nat) : EvalM BddState Nat where
  run s := do
    let n ← s.bdd.pathCount i
    return (n, s)
  mono s a s' h := by
    obtain ⟨n, -, h⟩ := Result.bind_eq_ok.1 h
    cases h
    exact le_refl s

/-- What a call that returned did, for an operation that denotes `g`. -/
structure Called (s : BddState) (g : (Nat → Bool) → Bool) (r : Nat) (s' : BddState) : Prop where
  le : s ≤ s'
  valid : s'.Valid r
  denote : ∀ σ, s'.denote σ r = g σ

section Call

variable {valid : List Nat} {op : BinaryDecisionDiagram → Result (Nat × BinaryDecisionDiagram)}
  {hop : ∀ b, b.Invariant → (∀ i ∈ valid, b.cells.Valid i) → ∀ p, op b = .ok p →
    p.2.Invariant ∧ b.Grows p.2 ∧ p.2.nextVar = b.nextVar} {s s' : BddState} {r : Nat}

theorem valid_of_run_call (h : (call valid op hop).run s = .ok (r, s')) :
    ∀ i ∈ valid, s.Valid i := by
  unfold call at h
  dsimp only at h
  split at h
  · assumption
  · cases h

/-- A call of the diagram succeeds on valid indices, and the diagram grows. -/
theorem call_run {g : (Nat → Bool) → Bool} (hv : ∀ i ∈ valid, s.Valid i)
    {p : Nat × BinaryDecisionDiagram} (hp : op s.bdd = .ok p) (hden : s.bdd.Denotes g p) :
    ∃ r s', (call valid op hop).run s = .ok (r, s') ∧ Called s g r s' := by
  have hrun : (call valid op hop).run s = .ok (p.1, ⟨p.2, hden.invariant⟩) := by
    unfold call
    dsimp only
    rw [dif_pos hv]
    split
    · rename_i q hq
      cases hp.symm.trans hq
      rfl
    · rename_i e he
      cases hp.symm.trans he
  exact ⟨_, _, hrun, (call valid op hop).mono _ _ _ hrun, hden.valid, hden.denote⟩

end Call

section Specs

variable {s s' : BddState} {r x y : Nat}

theorem not_run (hx : s.Valid x) :
    ∃ r s', (not x).run s = .ok (r, s') ∧ Called s (fun σ => !s.denote σ x) r s' := by
  obtain ⟨p, hp, -, hden⟩ := not_spec s.invariant hx
  exact call_run (by simpa using hx) hp hden

theorem and_run (hx : s.Valid x) (hy : s.Valid y) :
    ∃ r s', (and x y).run s = .ok (r, s') ∧
      Called s (fun σ => s.denote σ x && s.denote σ y) r s' := by
  obtain ⟨p, hp, -, hden⟩ := and_spec s.invariant hx hy
  exact call_run (by simp [hx, hy]) hp hden

theorem or_run (hx : s.Valid x) (hy : s.Valid y) :
    ∃ r s', (or x y).run s = .ok (r, s') ∧
      Called s (fun σ => s.denote σ x || s.denote σ y) r s' := by
  obtain ⟨p, hp, -, hden⟩ := or_spec s.invariant hx hy
  exact call_run (by simp [hx, hy]) hp hden

theorem run_not (h : (not x).run s = .ok (r, s')) :
    s.Valid x ∧ Called s (fun σ => !s.denote σ x) r s' := by
  have hx : s.Valid x := valid_of_run_call h x (by simp)
  obtain ⟨r', t, hr, hcalled⟩ := not_run hx
  cases hr.symm.trans h
  exact ⟨hx, hcalled⟩

theorem run_and (h : (and x y).run s = .ok (r, s')) :
    s.Valid x ∧ s.Valid y ∧ Called s (fun σ => s.denote σ x && s.denote σ y) r s' := by
  have hx : s.Valid x := valid_of_run_call h x (by simp)
  have hy : s.Valid y := valid_of_run_call h y (by simp)
  obtain ⟨r', t, hr, hcalled⟩ := and_run hx hy
  cases hr.symm.trans h
  exact ⟨hx, hy, hcalled⟩

theorem run_or (h : (or x y).run s = .ok (r, s')) :
    s.Valid x ∧ s.Valid y ∧ Called s (fun σ => s.denote σ x || s.denote σ y) r s' := by
  have hx : s.Valid x := valid_of_run_call h x (by simp)
  have hy : s.Valid y := valid_of_run_call h y (by simp)
  obtain ⟨r', t, hr, hcalled⟩ := or_run hx hy
  cases hr.symm.trans h
  exact ⟨hx, hy, hcalled⟩

section Returns

variable {F : BddState} {σ : Nat → Bool}

/-- What a call denotes in its own final state it denotes in every later one. -/
theorem Called.denotes {g : (Nat → Bool) → Bool} (h : Called s g r s') (hF : s' ≤ F)
    (σ : Nat → Bool) : F.Denotes σ r (g σ) :=
  ⟨h.valid.mono hF.1, (denote_mono hF.1 h.valid σ).trans (h.denote σ)⟩

variable {a : Bool}

theorem returns_not (hx : F.Denotes σ x a) (hr : Grow.Returns F (not x) r) :
    F.Denotes σ r (!a) := by
  obtain ⟨s, s', hrun, hF⟩ := hr
  obtain ⟨hv, hcalled⟩ := run_not hrun
  rw [← hx.2, denote_mono (hcalled.le.trans hF).1 hv]
  exact hcalled.denotes hF σ

theorem returns_and {b : Bool} (hx : F.Denotes σ x a) (hy : F.Denotes σ y b)
    (hr : Grow.Returns F (and x y) r) : F.Denotes σ r (a && b) := by
  obtain ⟨s, s', hrun, hF⟩ := hr
  obtain ⟨hv, hw, hcalled⟩ := run_and hrun
  have hle := (hcalled.le.trans hF).1
  rw [← hx.2, ← hy.2, denote_mono hle hv, denote_mono hle hw]
  exact hcalled.denotes hF σ

theorem returns_or {b : Bool} (hx : F.Denotes σ x a) (hy : F.Denotes σ y b)
    (hr : Grow.Returns F (or x y) r) : F.Denotes σ r (a || b) := by
  obtain ⟨s, s', hrun, hF⟩ := hr
  obtain ⟨hv, hw, hcalled⟩ := run_or hrun
  have hle := (hcalled.le.trans hF).1
  rw [← hx.2, ← hy.2, denote_mono hle hv, denote_mono hle hw]
  exact hcalled.denotes hF σ

theorem denotes_zero (F : BddState) (σ : Nat → Bool) :
    F.Denotes σ BinaryDecisionDiagram.zero false :=
  ⟨valid_zero, F.invariant.denote_zero σ⟩

theorem denotes_one (F : BddState) (σ : Nat → Bool) : F.Denotes σ BinaryDecisionDiagram.one true :=
  ⟨valid_one, F.invariant.denote_one σ⟩

end Returns

/-- A new variable is the next one, and its index its base node. -/
theorem newVariable_spec (s : BddState) :
    ∃ r s', newVariable s = .ok (r, s') ∧ s.bdd.Grows s'.bdd ∧ s'.bdd.nextVar = s.bdd.nextVar + 1 ∧
      s'.bdd.cells r = some ⟨s.bdd.nextVar, BinaryDecisionDiagram.one,
        BinaryDecisionDiagram.zero⟩ := by
  obtain ⟨p, hp, hinv, hgrows, hcell, hnext⟩ := BinaryDecisionDiagram.newVariable_spec s.invariant
  refine ⟨p.1, ⟨p.2, hinv⟩, ?_, hgrows, hnext, hcell⟩
  unfold newVariable
  split
  · rename_i q hq
    cases hp.symm.trans hq
    rfl
  · rename_i e he
    cases hp.symm.trans he

end Specs

end BddState

/-! ### The saturating evaluator -/

/-- `SaturatingBddNodeIndex`. -/
inductive SaturatingBddNodeIndex
  | index (i : Nat)
  | tooManyPaths
  deriving DecidableEq, Repr

namespace SaturatingBddEvaluator

/-- `TooManyPaths` if the result has more paths than a positive limit. -/
def limited (pathLimit : Int) (c : EvalM BddState Nat) : EvalM BddState SaturatingBddNodeIndex := do
  let result ← c
  if 0 < pathLimit then do
    let count ← BddState.pathCount result
    return if pathLimit < count then .tooManyPaths else .index result
  else return .index result

/-- `SaturatingBddEvaluator`. `TooManyPaths` equals nothing, so it is not `Zero`. -/
def evaluator (pathLimit : Int) : Evaluator BddState SaturatingBddNodeIndex where
  one := .index BinaryDecisionDiagram.one
  zero := .index BinaryDecisionDiagram.zero
  not
    | .index x => limited pathLimit (BddState.not x)
    | .tooManyPaths => return .tooManyPaths
  and
    | .index x, .index y => limited pathLimit (BddState.and x y)
    | _, _ => return .tooManyPaths
  or
    | .index x, .index y => limited pathLimit (BddState.or x y)
    | _, _ => return .tooManyPaths
  isNotZero e := e != .index BinaryDecisionDiagram.zero

/-- An index stands for what it denotes; `TooManyPaths` stands for anything. -/
def Stands (F : BddState) (σ : Nat → Bool) (e : SaturatingBddNodeIndex) (b : Bool) : Prop :=
  ∀ i, e = .index i → F.Denotes σ i b

/-- An index is one of the diagram. -/
def Valid (s : BddState) (e : SaturatingBddNodeIndex) : Prop := ∀ i, e = .index i → s.Valid i

variable {pathLimit : Int} {F : BddState} {σ : Nat → Bool}

theorem stands_tooManyPaths (b : Bool) : Stands F σ .tooManyPaths b := by
  intro i h
  cases h

theorem Stands.index {i : Nat} {b : Bool} (h : Stands F σ (.index i) b) : F.Denotes σ i b :=
  h i rfl

variable {e : SaturatingBddNodeIndex} {c : EvalM BddState Nat}

theorem Stands.mono {t : BddState} {b : Bool} (h : Stands F σ e b) (hle : F.bdd.Grows t.bdd)
    {σ' : Nat → Bool} (hσ : ∀ v, v < F.bdd.nextVar → σ v = σ' v) : Stands t σ' e b := by
  intro i hi
  obtain ⟨hv, hd⟩ := h i hi
  refine ⟨hv.mono hle, ?_⟩
  rw [BddState.denote_mono hle hv, ← F.denote_congr hσ, hd]

/-- If the limit left an index, the call itself returned that index. -/
theorem returns_limited (h : Grow.Returns F (limited pathLimit c) e) {i : Nat} (hi : e = .index i) :
    Grow.Returns F c i := by
  obtain ⟨r, hr, h⟩ := returns_bind h
  split at h
  · obtain ⟨n, -, h⟩ := returns_bind h
    have he := returns_pure h
    split at he
    · rw [he] at hi
      cases hi
    · rw [he] at hi
      cases hi
      exact hr
  · have he := returns_pure h
    rw [he] at hi
    cases hi
    exact hr

/-- The operations of the diagram stand for those on bits, under every assignment. -/
theorem evaluator_sound : (evaluator pathLimit).Sound F (Stands F σ) where
  one := by
    intro i hi
    cases hi
    exact F.denotes_one σ
  zero := by
    intro i hi
    cases hi
    exact F.denotes_zero σ
  not := by
    intro a r x ha hr
    cases a with
    | tooManyPaths =>
      rw [returns_pure hr]
      exact stands_tooManyPaths _
    | index i => exact fun j hj => BddState.returns_not ha.index (returns_limited hr hj)
  and := by
    intro a b r x y ha hb hr
    cases a with
    | tooManyPaths =>
      rw [returns_pure hr]
      exact stands_tooManyPaths _
    | index i =>
      cases b with
      | tooManyPaths =>
        rw [returns_pure hr]
        exact stands_tooManyPaths _
      | index j => exact fun k hk => BddState.returns_and ha.index hb.index (returns_limited hr hk)
  or := by
    intro a b r x y ha hb hr
    cases a with
    | tooManyPaths =>
      rw [returns_pure hr]
      exact stands_tooManyPaths _
    | index i =>
      cases b with
      | tooManyPaths =>
        rw [returns_pure hr]
        exact stands_tooManyPaths _
      | index j => exact fun k hk => BddState.returns_or ha.index hb.index (returns_limited hr hk)
  isNotZero := by
    intro a ha
    unfold evaluator
    simp only [bne_iff_ne, ne_eq]
    rintro rfl
    have hden := ha.index.2
    rw [(F.denotes_zero σ).2] at hden
    cases hden

/-- A total call stays total under the path limit. -/
theorem ensures_limited {s : BddState}
    (hc : ∀ t, s ≤ t → ∃ r t', c.run t = .ok (r, t') ∧ t'.Valid r) :
    Grow.Ensures s (limited pathLimit c) Valid := by
  have hensures : Grow.Ensures s c fun t r => t.Valid r := hc
  have hindex : ∀ {t : BddState} {r : Nat}, t.Valid r → ∀ u, t ≤ u → Valid u (.index r) := by
    intro t r hr u hu i hi
    cases hi
    exact hr.mono hu.1
  refine Grow.ensures_bind hensures fun t r _ hr => ?_
  split
  · intro u hu
    obtain ⟨n, hn⟩ := pathCount_of_valid (hr.mono hu.1)
    refine ⟨_, u, bindRun_eq_ok.2 ⟨n, u, ?_, rfl⟩, ?_⟩
    · change (do let n ← u.bdd.pathCount r; return (n, u)) = _
      rw [hn]
      rfl
    · split
      · intro i hi
        cases hi
      · exact hindex hr u hu
  · exact Grow.ensures_pure (hindex hr)

theorem ensures_tooManyPaths {s : BddState} :
    Grow.Ensures s (pure .tooManyPaths : EvalM BddState SaturatingBddNodeIndex) Valid :=
  Grow.ensures_pure fun _ _ i hi => by cases hi

/-- Every operation of the evaluator returns, and with a valid element. -/
theorem evaluator_total : (evaluator pathLimit).TotalOps Valid where
  mono := fun hst h i hi => (h i hi).mono hst.1
  one := by
    intro s i hi
    cases hi
    exact valid_one
  zero := by
    intro s i hi
    cases hi
    exact valid_zero
  not := by
    intro s a ha
    cases a with
    | tooManyPaths => exact ensures_tooManyPaths
    | index i =>
      refine ensures_limited fun t ht => ?_
      obtain ⟨r, t', hr, hcalled⟩ := BddState.not_run ((ha i rfl).mono ht.1)
      exact ⟨r, t', hr, hcalled.valid⟩
  and := by
    intro s a b ha hb
    cases a with
    | tooManyPaths => exact ensures_tooManyPaths
    | index i =>
      cases b with
      | tooManyPaths => exact ensures_tooManyPaths
      | index j =>
        refine ensures_limited fun t ht => ?_
        obtain ⟨r, t', hr, hcalled⟩ :=
          BddState.and_run ((ha i rfl).mono ht.1) ((hb j rfl).mono ht.1)
        exact ⟨r, t', hr, hcalled.valid⟩
  or := by
    intro s a b ha hb
    cases a with
    | tooManyPaths => exact ensures_tooManyPaths
    | index i =>
      cases b with
      | tooManyPaths => exact ensures_tooManyPaths
      | index j =>
        refine ensures_limited fun t ht => ?_
        obtain ⟨r, t', hr, hcalled⟩ := BddState.or_run ((ha i rfl).mono ht.1) ((hb j rfl).mono ht.1)
        exact ⟨r, t', hr, hcalled.valid⟩

end SaturatingBddEvaluator

/-! ### The function -/

/-- A node with its vector, if it is of a bits type, and whether it is in
`saturated_expressions_`. -/
structure BddValue where
  node : Node
  vector : Option (List SaturatingBddNodeIndex)
  saturated : Bool

namespace BddFunction

open SaturatingBddEvaluator (evaluator)

/-- The comparisons that are expressed, if an operand is a literal. -/
def isExpressedCompare : CompareOp → Bool
  | .uge | .ugt | .ule | .ult | .eq | .ne => true
  | .sge | .sgt | .sle | .slt => false

def isLiteral (n : Node) : Bool :=
  match n.kind with
  | .literal _ => true
  | _ => false

/-- More than `kMaxWidth` bits. -/
def isWide (n : Node) : Bool := decide (64 < n.type.flatBitCount)

/-- `ShouldEvaluate`. -/
def shouldEvaluate (n : Node) (operands : List Node) : Bool :=
  n.type.isBits &&
    match n.kind with
    | .nary _ => true
    | .un .not => true
    | .extend _ _ => true
    | .literal _ => true
    | .bitSlice _ _ => true
    | .concat => true
    | .un .reverse => true
    | .un .identity => true
    | .dynamicBitSlice _ => !isWide n
    | .oneHot _ => !isWide n
    | .oneHotSel => true
    | .prioritySel => true
    | .sel _ => true
    | .decode _ => true
    | .encode => true
    | .compare op => isExpressedCompare op && (operands.take 2).any isLiteral
    | .reduce _ => true
    | _ => false

/-- Every element that exceeded the path limit becomes a new variable. -/
def forget : List SaturatingBddNodeIndex → BddState →
    Result (List SaturatingBddNodeIndex × BddState)
  | [], s => .ok ([], s)
  | .index i :: es, s => do
    let (rest, s) ← forget es s
    return (.index i :: rest, s)
  | .tooManyPaths :: es, s => do
    let (i, s) ← s.newVariable
    let (rest, s) ← forget es s
    return (.index i :: rest, s)

/-- `create_new_node_vector`: every element of the vector is a new variable. -/
def createNewNodeVector (n : Node) (s : BddState) :
    Result (List SaturatingBddNodeIndex × BddState) :=
  forget (List.replicate n.type.flatBitCount .tooManyPaths) s

/-- The operations of `ShouldEvaluate` for which `AbstractEvaluate` calls its default
handler. -/
def hasDefaultHandler (n : Node) : Bool :=
  match n.kind with
  | .dynamicBitSlice _ => true
  | _ => false

/-- The value of an operand, which must be of a bits type. -/
def operandOf (v : BddValue) : Option (Evaluator.Operand SaturatingBddNodeIndex) :=
  v.vector.map fun vector => ⟨v.node, .leaf vector⟩

/-- Evaluate a node on the vectors of its operands. The second result says whether
the node is inserted into `saturated_expressions_`. -/
def evaluateVector (pathLimit : Int) (n : Node) (operands : List BddValue) (s : BddState) :
    Result (List SaturatingBddNodeIndex × Bool × BddState) := do
  let ops ← derefOption (collect operandOf operands)
  if hasDefaultHandler n then do
    let (v, s) ← createNewNodeVector n s
    return (v, true, s)
  else do
    let (value, s) ← ((evaluator pathLimit).abstractNode (fail .check) n ops).run s
    let v ← derefOption value.leaf?
    let (r, s) ← forget v s
    return (r, v.contains .tooManyPaths, s)

/-- The vector of a node of a bits type, and whether the node is inserted into
`saturated_expressions_`. -/
def nodeVector (pathLimit : Int) (filtered : Bool) (n : Node) (operands : List BddValue)
    (s : BddState) : Result (List SaturatingBddNodeIndex × Bool × BddState) :=
  if !shouldEvaluate n (operands.map BddValue.node) || filtered ||
      operands.any (fun o => !o.node.type.isBits) then do
    let (v, s) ← createNewNodeVector n s
    return (v, true, s)
  else evaluateVector pathLimit n operands s

/-- The loop of `Run` over the nodes. -/
def visitNodes (pathLimit : Int) (nodeFilter : Option (Nat → Bool)) :
    List BddValue → BddState → List Node → Result (List BddValue × BddState)
  | values, s, [] => .ok (values, s)
  | values, s, n :: ns => do
    let operands ← derefOption (collect (fun o => values[o]?) n.operands)
    if n.type.isBits then do
      let filtered := (nodeFilter.map fun keep => !keep values.length).getD false
      let (vector, saturated, s) ← nodeVector pathLimit filtered n operands s
      visitNodes pathLimit nodeFilter (values ++ [⟨n, some vector, saturated⟩]) s ns
    else visitNodes pathLimit nodeFilter (values ++ [⟨n, none, false⟩]) s ns

/-- An index that is not `TooManyPaths`. -/
def toIndex : SaturatingBddNodeIndex → Option Nat
  | .index i => some i
  | .tooManyPaths => none

/-- `ToBddNodeVector` of the vector of a node, if it has one. -/
def toBddNodeVector (v : BddValue) : Option (Option (List Nat)) :=
  match v.vector with
  | none => some none
  | some vector => (collect toIndex vector).map some

end BddFunction

/-- `BddFunction`: the function, its diagram, `node_map_` and
`saturated_expressions_`. -/
structure BddFunction where
  function : Function
  bdd : BddState
  nodeMap : List (Option (List Nat))
  saturatedExpressions : List Bool

namespace BddFunction

/-- The empty diagram. -/
def emptyState : BddState :=
  ⟨BinaryDecisionDiagram.empty, invariant_empty⟩

/-- `BddFunction::Run`. The filter is on the positions of the nodes. -/
def run (f : Function) (pathLimit : Int) (nodeFilter : Option (Nat → Bool)) :
    Result BddFunction := do
  let (values, s) ← visitNodes pathLimit nodeFilter [] emptyState f.nodes
  let nodeMap ← derefOption (collect toBddNodeVector values)
  return ⟨f, s, nodeMap, values.map BddValue.saturated⟩

end BddFunction

end Xls

import Mathlib.Algebra.Order.Field.Rat
import Mathlib.Data.Finset.Card
import Xls.Interpreter

/-!
# Xls.Graph

The graph of a function while a pass rewrites it. A node is its position in a list
that only grows; `ReplaceUsesWith` redirects operands, so operands may come to stand
after their users and the list is no longer in topological order.

The meaning of a graph on given arguments is a valuation: a value for every node that
is what the interpreter computes from the values of the operands. Ranks show that the
graph is free of cycles, so it has at most one valuation (`Valuation.unique`), and a
run of a function is the valuation of its graph (`valuation_of_run`).

A `World` is a graph with its valuation and ranks. `Ensures` says that a rewrite
returns and leads from every later world to a later one, where every node still has
its value; passes are verified with its rules.
-/

namespace Xls

open List LeafTree

/-- The nodes of a function and the position of its return value. -/
structure Graph where
  nodes : List Node
  returnValue : Nat

/-- The graph of a function. -/
def Function.graph (f : Function) : Graph := ⟨f.nodes, f.returnValue⟩

namespace Graph

/-! ### Rewriting -/

/-- A computation that may change the graph and may fail. -/
abbrev Build (α : Type) := StateT Graph (Except Failure) α

/-- The node at a position. -/
def getNode (id : Nat) : Build Node := fun g => do
  let n ← derefOption g.nodes[id]?
  return (n, g)

/-- `BitCountOrDie`. -/
def bitCountOrDie (id : Nat) : Build Nat := do
  let n ← getNode id
  match n.type with
  | .bits w => return w
  | _ => throw .check

/-- `MakeNode`. -/
def makeNode (n : Node) : Build Nat := fun g =>
  .ok (g.nodes.length, { g with nodes := g.nodes ++ [n] })

/-- The node with uses of one node turned into uses of another. -/
def redirect (old new : Nat) (n : Node) : Node :=
  { n with operands := n.operands.map fun o => if o = old then new else o }

/-- `ReplaceUsesWith`, including the use as the return value. -/
def replaceUsesWith (old new : Nat) : Build Unit := fun g =>
  if g.nodes[old]?.map Node.type = g.nodes[new]?.map Node.type then
    .ok ((), ⟨g.nodes.map (redirect old new), if g.returnValue = old then new else g.returnValue⟩)
  else .error (.status "XLS_RET_CHECK failure: GetType() == replacement->GetType()")

/-- The users of a node. -/
def users (g : Graph) (id : Nat) : List Node := g.nodes.filter fun n => n.operands.contains id

/-- `HasSingleUse`. -/
def hasSingleUse (g : Graph) (id : Nat) : Bool :=
  if g.returnValue = id then (g.users id).isEmpty else (g.users id).length == 1

/-! ### Meaning -/

/-- A value for every node, as the interpreter computes it from the operands. -/
structure Valuation (env : Env) (args : List Value) (g : Graph) (vals : List Value) : Prop where
  length_eq : vals.length = g.nodes.length
  node : ∀ (i : Nat) n, g.nodes[i]? = some n → ∃ ops v,
    collect (fun o => vals[o]?) n.operands = some ops ∧ vals[i]? = some v ∧
      Interpreter.interpretNode env args n ops = .ok v

/-- Operands rank below their users, so there is no cycle. -/
def Ranked (g : Graph) (rank : Nat → ℚ) : Prop :=
  ∀ (i : Nat) n, g.nodes[i]? = some n → ∀ o ∈ n.operands, rank o < rank i

/-- Every node passes the verifier. -/
def Verified (params : List IrType) (g : Graph) : Prop :=
  ∀ (i : Nat) n, g.nodes[i]? = some n → ∃ types,
    operandTypes g.nodes n.operands = some types ∧ verifyNode params n.kind types n.type = true

/-- The number of nodes that rank below a node. -/
def below (g : Graph) (rank : Nat → ℚ) (i : Nat) : Nat :=
  ((Finset.range g.nodes.length).filter fun j => rank j < rank i).card

theorem below_lt {g : Graph} {rank : Nat → ℚ} {o i : Nat} (ho : o < g.nodes.length)
    (h : rank o < rank i) : g.below rank o < g.below rank i := by
  refine Finset.card_lt_card ⟨fun j hj => ?_, fun hsub => ?_⟩
  · rw [Finset.mem_filter] at hj ⊢
    exact ⟨hj.1, hj.2.trans h⟩
  · have hmem := hsub (Finset.mem_filter.2 ⟨Finset.mem_range.2 ho, h⟩)
    exact lt_irrefl _ (Finset.mem_filter.1 hmem).2

theorem below_le (g : Graph) (rank : Nat → ℚ) (i : Nat) : g.below rank i ≤ g.nodes.length :=
  (Finset.card_filter_le _ _).trans (Finset.card_range _).le

section Valuation

variable {env : Env} {args : List Value} {g : Graph} {vals : List Value}

theorem collect_congr {α : Type} {f f' : Nat → Option α} {l : List Nat}
    (h : ∀ i ∈ l, f i = f' i) : collect f l = collect f' l := by
  induction l with
  | nil => rfl
  | cons i l ih =>
    rw [collect, collect, h i mem_cons_self, ih fun j hj => h j (mem_cons_of_mem _ hj)]

variable {i : Nat} {vals' : List Value}

theorem collect_mem {α : Type} {f : Nat → Option α} {l : List Nat} {r : List α}
    (h : collect f l = some r) (hi : i ∈ l) : ∃ a, f i = some a := by
  rw [collect_eq_some] at h
  obtain ⟨j, hj, rfl⟩ := getElem_of_mem hi
  exact ⟨_, Forall₂.get h hj (by rwa [← h.length_eq])⟩

/-- The operands of a node are nodes of the graph. -/
theorem Valuation.operand_lt (h : Valuation env args g vals) {n : Node} (hn : g.nodes[i]? = some n)
    {o : Nat} (ho : o ∈ n.operands) : o < g.nodes.length := by
  obtain ⟨ops, v, hops, -⟩ := h.node i n hn
  obtain ⟨a, ha⟩ := collect_mem hops ho
  rw [← h.length_eq]
  exact (List.getElem?_eq_some_iff.1 ha).1

/-- A graph without cycles has at most one valuation. -/
theorem Valuation.unique {rank : Nat → ℚ} (hrank : g.Ranked rank) (h : Valuation env args g vals)
    (h' : Valuation env args g vals') : vals = vals' := by
  -- induction on the number of nodes below, since the list is not in topological order
  have hlt : ∀ (k : Nat) (i : Nat), g.below rank i < k → i < g.nodes.length →
      vals[i]? = vals'[i]? := by
    intro k
    induction k with
    | zero =>
      intro i hi
      exact absurd hi (Nat.not_lt_zero _)
    | succ k ih =>
      intro i hi hlen
      obtain ⟨n, hn⟩ : ∃ n, g.nodes[i]? = some n := ⟨_, getElem?_eq_getElem hlen⟩
      obtain ⟨ops, v, hops, hv, hint⟩ := h.node i n hn
      obtain ⟨ops', v', hops', hv', hint'⟩ := h'.node i n hn
      have heq : collect (fun o => vals[o]?) n.operands =
          collect (fun o => vals'[o]?) n.operands := by
        refine collect_congr fun o ho => ih o ?_ (h.operand_lt hn ho)
        exact lt_of_lt_of_le (below_lt (h.operand_lt hn ho) (hrank i n hn o ho))
          (Nat.le_of_lt_succ hi)
      rw [heq, hops'] at hops
      cases hops
      rw [hint] at hint'
      cases hint'
      rw [hv, hv']
  refine ext_getElem? fun i => ?_
  by_cases hi : i < g.nodes.length
  · exact hlt _ i (Nat.lt_succ_self _) hi
  · rw [getElem?_eq_none (by rw [h.length_eq]; omega),
      getElem?_eq_none (by rw [h'.length_eq]; omega)]

/-- One more node, with the value that the interpreter computes for it. -/
theorem Valuation.snoc (h : Valuation env args g vals) {n : Node} {ops : List Value} {v : Value}
    (hops : collect (fun o => vals[o]?) n.operands = some ops)
    (hv : Interpreter.interpretNode env args n ops = .ok v) :
    Valuation env args { g with nodes := g.nodes ++ [n] } (vals ++ [v]) where
  length_eq := by simp [h.length_eq]
  node := by
    intro i m hm
    have hold : ∀ o, o < vals.length → (vals ++ [v])[o]? = vals[o]? :=
      fun o ho => getElem?_append_left ho
    have hcollect : ∀ {os : List Nat} {rs : List Value},
        collect (fun o => vals[o]?) os = some rs →
          collect (fun o => (vals ++ [v])[o]?) os = some rs := by
      intro os rs hrs
      rw [← hrs]
      refine collect_congr fun o ho => hold o ?_
      obtain ⟨a, ha⟩ := collect_mem hrs ho
      exact (List.getElem?_eq_some_iff.1 ha).1
    by_cases hi : i < g.nodes.length
    · dsimp only at hm
      rw [getElem?_append_left hi] at hm
      obtain ⟨ops', v', hops', hv', hint⟩ := h.node i m hm
      exact ⟨ops', v', hcollect hops', by rw [hold i (by rwa [h.length_eq]), hv'], hint⟩
    · have heq : i = g.nodes.length := by
        have hlt := (List.getElem?_eq_some_iff.1 hm).1
        rw [length_append, length_singleton] at hlt
        omega
      subst heq
      dsimp only at hm
      rw [getElem?_concat_length] at hm
      cases hm
      refine ⟨ops, v, hcollect hops, ?_, hv⟩
      rw [← h.length_eq]
      exact getElem?_concat_length

variable {before : List Node}

/-- The values that an interpreter run appends are a valuation of the longer graph. -/
theorem valuation_of_visit {ns : List Node} {ret : Nat} (h : Valuation env args ⟨before, ret⟩ vals)
    (hv : Interpreter.visit env args vals ns = .ok vals') :
    Valuation env args ⟨before ++ ns, ret⟩ vals' := by
  induction ns generalizing before vals with
  | nil =>
    cases hv
    rwa [append_nil]
  | cons n ns ih =>
    obtain ⟨ops, hops, hv⟩ := Result.bind_eq_ok.1 hv
    obtain ⟨v, hnv, hv⟩ := Result.bind_eq_ok.1 hv
    rw [derefOption_eq_ok] at hops
    have hih := ih (h.snoc hops hnv) hv
    rwa [List.append_assoc, singleton_append] at hih

/-- A run of a function is the valuation of its graph. -/
theorem valuation_of_run {f : Function} (hrun : Interpreter.run env f args = .ok vals) :
    Valuation env args f.graph vals := by
  have hnil : Valuation env args ⟨[], f.returnValue⟩ [] := ⟨rfl, fun i n hn => by simp at hn⟩
  exact valuation_of_visit hnil (Interpreter.visit_of_run hrun)

/-- Operands of a verified node come before it. -/
theorem operands_lt_of_verifyFrom {params : List IrType} {ns : List Node}
    (h : verifyFrom params before ns = true) {n : Node} (hn : ns[i]? = some n) {o : Nat}
    (ho : o ∈ n.operands) : o < before.length + i := by
  induction ns generalizing before i with
  | nil => simp at hn
  | cons m ns ih =>
    rw [verifyFrom, Bool.and_eq_true] at h
    cases i with
    | zero =>
      obtain rfl : m = n := Option.some.inj hn
      cases htypes : operandTypes before m.operands with
      | none => simp [htypes] at h
      | some types =>
        obtain ⟨t, ht⟩ := collect_mem htypes ho
        rw [Option.map_eq_some_iff] at ht
        obtain ⟨n', hn', -⟩ := ht
        exact (List.getElem?_eq_some_iff.1 hn').1
    | succ i =>
      have hlt := ih h.2 hn
      rw [length_append, length_singleton] at hlt
      omega

/-- The positions in topological order rank the graph of a function. -/
theorem ranked_graph (f : Function) : f.graph.Ranked fun i => (i : ℚ) := by
  intro i n hn o ho
  have hlt := operands_lt_of_verifyFrom f.verified hn ho
  rw [length_nil, Nat.zero_add] at hlt
  show (o : ℚ) < (i : ℚ)
  exact_mod_cast hlt

/-- Types of operands are found again when nodes are added. -/
theorem operandTypes_append {os : List Nat} {types : List IrType}
    (h : operandTypes before os = some types) (ns : List Node) :
    operandTypes (before ++ ns) os = some types := by
  rw [← h]
  refine collect_congr fun o ho => ?_
  obtain ⟨t, ht⟩ := collect_mem h ho
  rw [Option.map_eq_some_iff] at ht
  obtain ⟨n, hn, -⟩ := ht
  rw [getElem?_append_left (List.getElem?_eq_some_iff.1 hn).1]

/-- The graph of a function is verified. -/
theorem verified_graph (f : Function) : f.graph.Verified f.params := by
  intro i n hn
  change f.nodes[i]? = some n at hn
  obtain ⟨hi, hget⟩ := List.getElem?_eq_some_iff.1 hn
  have hsplit : f.nodes = f.nodes.take i ++ n :: f.nodes.drop (i + 1) := by
    rw [← hget, getElem_cons_drop, take_append_drop]
  obtain ⟨types, htypes, hverify⟩ := f.verified_at hsplit
  refine ⟨types, ?_, hverify⟩
  change operandTypes f.nodes n.operands = some types
  rw [hsplit]
  exact operandTypes_append htypes _

end Valuation

/-! ### Worlds -/

/-- A verified graph with its valuation, and ranks that show that it has no cycle. -/
structure World (env : Env) (args : List Value) where
  graph : Graph
  params : List IrType
  vals : List Value
  rank : Nat → ℚ
  verified : graph.Verified params
  valuation : Valuation env args graph vals
  ranked : graph.Ranked rank

namespace World

variable {env : Env} {args : List Value}

/-- Every node keeps its value, its type and its rank, and the return value is the same. -/
structure Le (w w' : World env args) : Prop where
  params : w'.params = w.params
  vals : w.vals <+: w'.vals
  types : w.graph.nodes.map Node.type <+: w'.graph.nodes.map Node.type
  rank : ∀ i, i < w.graph.nodes.length → w'.rank i = w.rank i
  returns : ∀ v, w.vals[w.graph.returnValue]? = some v →
    w'.vals[w'.graph.returnValue]? = some v

variable {w w' : World env args} {bound : ℚ} {id : Nat}

theorem Le.length (h : Le w w') : w.graph.nodes.length ≤ w'.graph.nodes.length := by
  simpa using h.types.length_le

instance : Preorder (World env args) where
  le := Le
  le_refl w := ⟨rfl, prefix_refl _, prefix_refl _, fun _ _ => rfl, fun _ h => h⟩
  le_trans _ _ _ h h' :=
    ⟨h'.params.trans h.params, h.vals.trans h'.vals, h.types.trans h'.types,
      fun i hi => (h'.rank i (lt_of_lt_of_le hi h.length)).trans (h.rank i hi),
      fun v hv => h'.returns v (h.returns v hv)⟩

/-- The run of a function as a world. -/
def ofRun {f : Function} {vals : List Value} (hrun : Interpreter.run env f args = .ok vals) :
    World env args :=
  ⟨f.graph, f.params, vals, fun i => (i : ℚ), verified_graph f, valuation_of_run hrun,
    ranked_graph f⟩

/-- The node has a bits type and the value `x`, and ranks below the bound. -/
structure Holds (w : World env args) (bound : ℚ) (id : Nat) (x : Bits) : Prop where
  type : w.graph.nodes[id]?.map Node.type = some (.bits x.width)
  value : w.vals[id]? = some (.leaf x)
  rank : w.rank id < bound

theorem getElem?_of_prefix {α : Type} {l l' : List α} (h : l <+: l') {i : Nat} {a : α}
    (ha : l[i]? = some a) : l'[i]? = some a := by
  obtain ⟨t, rfl⟩ := h
  rw [getElem?_append_left (List.getElem?_eq_some_iff.1 ha).1]
  exact ha

/-- The node has the type and the value, and ranks below the bound. -/
structure Has (w : World env args) (bound : ℚ) (id : Nat) (type : IrType) (v : Value) : Prop where
  type : w.graph.nodes[id]?.map Node.type = some type
  value : w.vals[id]? = some v
  rank : w.rank id < bound

variable {x : Bits}

theorem Holds.has (h : w.Holds bound id x) : w.Has bound id (.bits x.width) (.leaf x) :=
  ⟨h.type, h.value, h.rank⟩

theorem Has.holds (h : w.Has bound id (.bits x.width) (.leaf x)) : w.Holds bound id x :=
  ⟨h.type, h.value, h.rank⟩

theorem Has.lt {t : IrType} {v : Value} (h : w.Has bound id t v) : id < w.graph.nodes.length := by
  rw [← w.valuation.length_eq]
  exact (List.getElem?_eq_some_iff.1 h.value).1

theorem Has.mono {t : IrType} {v : Value} (h : w.Has bound id t v) (hle : w ≤ w') :
    w'.Has bound id t v where
  type := by
    have htype := h.type
    rw [← getElem?_map] at htype ⊢
    exact getElem?_of_prefix hle.types htype
  value := getElem?_of_prefix hle.vals h.value
  rank := by
    rw [hle.rank id h.lt]
    exact h.rank

theorem Holds.lt (h : w.Holds bound id x) :
    id < w.graph.nodes.length := h.has.lt

theorem Holds.mono (h : w.Holds bound id x) (hle : w ≤ w') : w'.Holds bound id x :=
  ⟨(h.has.mono hle).type, (h.has.mono hle).value, (h.has.mono hle).rank⟩

section Runs

variable {α β : Type} {g : Graph} {f : α → Build β}

theorem run_bind_of_ok {c : Build α} {a : α} {g' : Graph} (h : c g = .ok (a, g')) :
    (c >>= f) g = f a g' := by
  change (c g >>= fun p => f p.1 p.2) = _
  rw [h]
  rfl

theorem run_bind_of_error {c : Build α} {err : Failure} (h : c g = .error err) :
    (c >>= f) g = .error err := by
  change (c g >>= fun p => f p.1 p.2) = _
  rw [h]
  rfl

theorem run_liftM {c : Result α} {a : α} (h : c = .ok a) : (liftM c >>= f) g = f a g := by
  subst h
  rfl

theorem run_get {f : Graph → Build α} : (get >>= f) g = f g g := rfl

theorem run_getNode {id : Nat} {n : Node} {f : Node → Build α} (hn : g.nodes[id]? = some n) :
    (getNode id >>= f) g = f n g := by
  refine run_bind_of_ok ?_
  rw [getNode, hn]
  rfl

theorem run_bitCountOrDie {id k : Nat} (h : g.nodes[id]?.map Node.type = some (.bits k)) :
    bitCountOrDie id g = .ok (k, g) := by
  obtain ⟨n, hn, ht⟩ := Option.map_eq_some_iff.1 h
  rw [bitCountOrDie, run_getNode hn, ht]
  rfl

end Runs

/-- The rewrite returns from every later world, leads to a later one and its result
satisfies `P` there. -/
def Ensures {α : Type} (w : World env args) (c : Build α) (P : World env args → α → Prop) : Prop :=
  ∀ w₁, w ≤ w₁ → ∃ a w₂, c w₁.graph = .ok (a, w₂.graph) ∧ w₁ ≤ w₂ ∧ P w₂ a

section Rules

variable {α β : Type} {w : World env args}
  {P : World env args → α → Prop} {w' : World env args} {types : List IrType}

theorem ensures_pure {a : α} (h : ∀ w', w ≤ w' → P w' a) : w.Ensures (pure a) P :=
  fun w₁ h₁ => ⟨a, w₁, rfl, le_refl w₁, h w₁ h₁⟩

variable {c : Build α} {f : α → Build β} {Q : World env args → β → Prop} {old new : Nat}

theorem ensures_bind (hc : w.Ensures c P) (hf : ∀ w' a, w ≤ w' → P w' a → w'.Ensures (f a) Q) :
    w.Ensures (c >>= f) Q := by
  intro w₁ h₁
  obtain ⟨a, w₂, hrun, h₂, ha⟩ := hc w₁ h₁
  obtain ⟨b, w₃, hrun', h₃, hb⟩ := hf w₂ a (h₁.trans h₂) ha w₂ (le_refl w₂)
  exact ⟨b, w₃, (run_bind_of_ok hrun).trans hrun', h₂.trans h₃, hb⟩

theorem Ensures.imp {Q : World env args → α → Prop} (h : w.Ensures c P)
    (hpq : ∀ w' a, w ≤ w' → P w' a → Q w' a) : w.Ensures c Q := by
  intro w₁ h₁
  obtain ⟨a, w₂, hrun, h₂, ha⟩ := h w₁ h₁
  exact ⟨a, w₂, hrun, h₂, hpq w₂ a (h₁.trans h₂) ha⟩

theorem Ensures.of_le (h : w.Ensures c P) (hle : w ≤ w') : w'.Ensures c P :=
  fun w₁ h₁ => h w₁ (hle.trans h₁)

/-- Read the graph. -/
theorem ensures_get {f : Graph → Build α} {Q : World env args → α → Prop}
    (h : ∀ w', w ≤ w' → w'.Ensures (f w'.graph) Q) : w.Ensures (get >>= f) Q := by
  intro w₁ h₁
  exact h w₁ h₁ w₁ (le_refl w₁)

/-- A result that does not depend on the graph. -/
theorem ensures_lift {c : Result α} {a : α} (hc : c = .ok a) (h : w.Ensures (f a) Q) :
    w.Ensures (liftM c >>= f) Q := by
  subst hc
  exact h

theorem exists_rank {l : List ℚ} {b : ℚ} (h : ∀ x ∈ l, x < b) : ∃ r, (∀ x ∈ l, x < r) ∧ r < b := by
  induction l with
  | nil => exact ⟨b - 1, by simp, sub_one_lt b⟩
  | cons x l ih =>
    rw [forall_mem_cons] at h
    obtain ⟨r, hr, hrb⟩ := ih h.2
    obtain ⟨r', hr', hrb'⟩ := exists_between (max_lt h.1 hrb)
    refine ⟨r', forall_mem_cons.2 ⟨(le_max_left x r).trans_lt hr', fun y hy => ?_⟩, hrb'⟩
    exact (hr y hy).trans ((le_max_right x r).trans_lt hr')

theorem collect_mono (hle : w ≤ w') {os : List Nat} {rs : List Value}
    (h : collect (fun o => w.vals[o]?) os = some rs) :
    collect (fun o => w'.vals[o]?) os = some rs := by
  rw [← h]
  refine collect_congr fun o ho => ?_
  obtain ⟨a, ha⟩ := collect_mem h ho
  rw [ha]
  exact getElem?_of_prefix hle.vals ha

theorem operandTypes_mono (hle : w ≤ w') {os : List Nat}
    (h : operandTypes w.graph.nodes os = some types) :
    operandTypes w'.graph.nodes os = some types := by
  rw [← h]
  refine collect_congr fun o ho => ?_
  obtain ⟨t, ht⟩ := collect_mem h ho
  rw [ht]
  rw [← getElem?_map] at ht ⊢
  exact getElem?_of_prefix hle.types ht

/-- One more node that passes the verifier. -/
theorem verified_snoc {params : List IrType} {g : Graph} (h : g.Verified params) {n : Node}
    (htypes : operandTypes g.nodes n.operands = some types)
    (hverify : verifyNode params n.kind types n.type = true) :
    Verified params { g with nodes := g.nodes ++ [n] } := by
  intro i m hm
  dsimp only at hm ⊢
  by_cases hi : i < g.nodes.length
  · rw [getElem?_append_left hi] at hm
    obtain ⟨types', htypes', hverify'⟩ := h i m hm
    exact ⟨types', operandTypes_append htypes' _, hverify'⟩
  · have heq : i = g.nodes.length := by
      have hlt := (List.getElem?_eq_some_iff.1 hm).1
      rw [length_append, length_singleton] at hlt
      omega
    subst heq
    rw [getElem?_concat_length] at hm
    cases hm
    exact ⟨types, operandTypes_append htypes _, hverify⟩

/-- A new node has the value that the interpreter computes for it, and a rank between
those of its operands and the bound. -/
theorem ensures_makeNode {n : Node} {ops : List Value} {v : Value} {bound : ℚ}
    (htypes : operandTypes w.graph.nodes n.operands = some types)
    (hverify : verifyNode w.params n.kind types n.type = true)
    (hops : collect (fun o => w.vals[o]?) n.operands = some ops)
    (hv : Interpreter.interpretNode env args n ops = .ok v)
    (hrank : ∀ o ∈ n.operands, w.rank o < bound) :
    w.Ensures (makeNode n) fun w' id => w'.graph.nodes[id]?.map Node.type = some n.type ∧
      w'.vals[id]? = some v ∧ w'.rank id < bound := by
  intro w₁ h₁
  have hops₁ := collect_mono h₁ hops
  have hlt : ∀ o ∈ n.operands, o < w₁.graph.nodes.length := by
    intro o ho
    obtain ⟨a, ha⟩ := collect_mem hops₁ ho
    rw [← w₁.valuation.length_eq]
    exact (List.getElem?_eq_some_iff.1 ha).1
  have hbelow : ∀ x ∈ n.operands.map w₁.rank, x < bound := by
    intro x hx
    obtain ⟨o, ho, rfl⟩ := mem_map.1 hx
    obtain ⟨a, ha⟩ := collect_mem hops ho
    rw [h₁.rank o (by rw [← w.valuation.length_eq]; exact (List.getElem?_eq_some_iff.1 ha).1)]
    exact hrank o ho
  obtain ⟨r, hr, hrb⟩ := exists_rank hbelow
  have hold : ∀ o, o < w₁.graph.nodes.length →
      Function.update w₁.rank w₁.graph.nodes.length r o = w₁.rank o :=
    fun o ho => Function.update_of_ne (Nat.ne_of_lt ho) _ _
  have hranked : Ranked { w₁.graph with nodes := w₁.graph.nodes ++ [n] }
      (Function.update w₁.rank w₁.graph.nodes.length r) := by
    intro i m hm o ho
    dsimp only at hm
    by_cases hi : i < w₁.graph.nodes.length
    · rw [getElem?_append_left hi] at hm
      rw [hold i hi, hold o (w₁.valuation.operand_lt hm ho)]
      exact w₁.ranked i m hm o ho
    · have heq : i = w₁.graph.nodes.length := by
        have hlt' := (List.getElem?_eq_some_iff.1 hm).1
        rw [length_append, length_singleton] at hlt'
        omega
      subst heq
      rw [getElem?_concat_length] at hm
      cases hm
      rw [hold o (hlt o ho), Function.update_self]
      exact hr _ (mem_map_of_mem ho)
  have hverified : Verified w₁.params { w₁.graph with nodes := w₁.graph.nodes ++ [n] } := by
    refine verified_snoc w₁.verified (operandTypes_mono h₁ htypes) ?_
    rw [h₁.params]
    exact hverify
  refine ⟨w₁.graph.nodes.length, ⟨_, _, _, _, hverified, w₁.valuation.snoc hops₁ hv, hranked⟩,
    rfl, ⟨rfl, ?_, ?_, hold, ?_⟩, ?_, ?_, ?_⟩
  · exact prefix_append _ _
  · simp
  · intro u hu
    exact getElem?_of_prefix (prefix_append _ _) hu
  · simp
  · dsimp only
    rw [← w₁.valuation.length_eq]
    exact getElem?_concat_length
  · dsimp only
    rw [Function.update_self]
    exact hrb

/-- Redirecting uses to a node of the same type keeps the types of operands. -/
theorem operandTypes_redirect {ns : List Node} (h : ns[old]?.map Node.type = ns[new]?.map Node.type)
    (os : List Nat) :
    operandTypes (ns.map (redirect old new)) (os.map fun o => if o = old then new else o) =
      operandTypes ns os := by
  have htype : ∀ o : Nat, (ns.map (redirect old new))[if o = old then new else o]?.map Node.type =
      ns[o]?.map Node.type := by
    intro o
    rw [getElem?_map, Option.map_map]
    split
    · rename_i heq
      rw [heq, h]
      rfl
    · rfl
  induction os with
  | nil => rfl
  | cons o os ih =>
    unfold operandTypes at ih ⊢
    rw [map_cons, collect, collect, ih, htype]

/-- Uses of a node may be replaced by uses of one of the same value and a lower rank. -/
theorem ensures_replaceUsesWith_of_has {bound : ℚ} {t : IrType} {v : Value}
    (hold : w.Has bound old t v) (hnew : w.Has (w.rank old) new t v) :
    w.Ensures (replaceUsesWith old new) fun _ _ => True := by
  intro w₁ h₁
  have hold₁ := hold.mono h₁
  have hnew₁ := hnew.mono h₁
  rw [← h₁.rank old hold.lt] at hnew₁
  have hsame : ∀ o, w₁.vals[if o = old then new else o]? = w₁.vals[o]? := by
    intro o
    split
    · rename_i heq
      rw [heq, hnew₁.value, hold₁.value]
    · rfl
  have hcollect : ∀ os : List Nat, collect (fun o => w₁.vals[o]?)
      (os.map fun o => if o = old then new else o) = collect (fun o => w₁.vals[o]?) os := by
    intro os
    induction os with
    | nil => rfl
    | cons o os ih => rw [map_cons, collect, collect, hsame, ih]
  have hvaluation : Valuation env args ⟨w₁.graph.nodes.map (redirect old new),
      if w₁.graph.returnValue = old then new else w₁.graph.returnValue⟩ w₁.vals := by
    refine ⟨by rw [w₁.valuation.length_eq, length_map], fun i n hn => ?_⟩
    dsimp only at hn
    rw [getElem?_map, Option.map_eq_some_iff] at hn
    obtain ⟨m, hm, rfl⟩ := hn
    obtain ⟨ops, v, hops, hv, hint⟩ := w₁.valuation.node i m hm
    exact ⟨ops, v, (hcollect m.operands).trans hops, hv, hint⟩
  have hranked : Ranked ⟨w₁.graph.nodes.map (redirect old new),
      if w₁.graph.returnValue = old then new else w₁.graph.returnValue⟩ w₁.rank := by
    intro i n hn o ho
    dsimp only at hn
    rw [getElem?_map, Option.map_eq_some_iff] at hn
    obtain ⟨m, hm, rfl⟩ := hn
    obtain ⟨o', ho', rfl⟩ := mem_map.1 ho
    have hlt := w₁.ranked i m hm o' ho'
    split
    · rename_i heq
      rw [heq] at hlt
      exact hnew₁.rank.trans hlt
    · exact hlt
  have hverified : Verified w₁.params ⟨w₁.graph.nodes.map (redirect old new),
      if w₁.graph.returnValue = old then new else w₁.graph.returnValue⟩ := by
    intro i n hn
    dsimp only at hn
    rw [getElem?_map, Option.map_eq_some_iff] at hn
    obtain ⟨m, hm, rfl⟩ := hn
    obtain ⟨types, htypes, hverify⟩ := w₁.verified i m hm
    refine ⟨types, ?_, hverify⟩
    rw [← htypes]
    exact operandTypes_redirect (hold₁.type.trans hnew₁.type.symm) m.operands
  refine ⟨(), ⟨_, _, _, _, hverified, hvaluation, hranked⟩, ?_,
    ⟨rfl, ?_, ?_, fun _ _ => rfl, ?_⟩, trivial⟩
  · unfold replaceUsesWith
    rw [if_pos (hold₁.type.trans hnew₁.type.symm)]
  · exact prefix_refl _
  · dsimp only
    rw [map_map]
    exact prefix_refl _
  · intro v hv
    dsimp only
    rw [hsame]
    exact hv

theorem ensures_replaceUsesWith {bound : ℚ} {x : Bits} (hold : w.Holds bound old x)
    (hnew : w.Holds (w.rank old) new x) : w.Ensures (replaceUsesWith old new) fun _ _ => True :=
  ensures_replaceUsesWith_of_has hold.has hnew.has

end Rules

end World

end Graph

end Xls

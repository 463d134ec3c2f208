import Mathlib.Logic.Relation
import Xls.Graph.Nodes

/-!
# Xls.Graph.Changes

What a rewrite does to a graph, change by change. A change adds a node, or turns the uses of a
node into uses of one with the same value. `Leads` says that a rewrite returns and leads from
one world to a later one by such changes, so that every replacement on the way keeps the value.
-/

namespace Xls.Graph

open List

/-- A change of a graph whose nodes have the given values. -/
inductive Change : Graph × List Value → Graph × List Value → Prop
  | node (g : Graph) (vals : List Value) (n : Node) (v : Value) :
      Change (g, vals) ({ g with nodes := g.nodes ++ [n] }, vals ++ [v])
  | uses {g g' : Graph} {vals : List Value} {old new : Nat} {v : Value} :
      vals[old]? = some v → vals[new]? = some v → replaceUsesWith old new g = .ok ((), g') →
        Change (g, vals) (g', vals)

abbrev Changes : Graph × List Value → Graph × List Value → Prop := Relation.ReflTransGen Change

variable {s s' : Graph × List Value}

/-- Every node keeps its value, and the function returns the same. -/
theorem Change.keeps (h : Change s s') :
    s.2 <+: s'.2 ∧ ∀ v, s.2[s.1.returnValue]? = some v → s'.2[s'.1.returnValue]? = some v := by
  cases h with
  | node g vals n v =>
    exact ⟨prefix_append _ _, fun u hu =>
      World.getElem?_of_prefix (prefix_append _ _) hu⟩
  | uses hold hnew hrun =>
    refine ⟨prefix_refl _, fun u hu => ?_⟩
    unfold replaceUsesWith at hrun
    split at hrun
    · cases hrun
      dsimp only at hu ⊢
      split
      · rename_i heq
        rw [heq, hold] at hu
        rw [hnew, hu]
      · exact hu
    · cases hrun

theorem Changes.keeps (h : Changes s s') :
    s.2 <+: s'.2 ∧ ∀ v, s.2[s.1.returnValue]? = some v → s'.2[s'.1.returnValue]? = some v := by
  induction h with
  | refl => exact ⟨prefix_refl _, fun v hv => hv⟩
  | tail _ hchange ih =>
    exact ⟨ih.1.trans hchange.keeps.1, fun v hv => hchange.keeps.2 v (ih.2 v hv)⟩

namespace World

variable {env : Env} {args : List Value} {w : World env args}

/-- A graph and the values of its nodes. -/
def state (w : World env args) : Graph × List Value := (w.graph, w.vals)

/-- The rewrite returns and leads by changes to a later world, where its result satisfies `P`. -/
def Leads {α : Type} (w : World env args) (c : Build α) (P : World env args → α → Prop) : Prop :=
  ∃ a w', c w.graph = .ok (a, w'.graph) ∧ w ≤ w' ∧ Changes w.state w'.state ∧ P w' a

section Rules

variable {α β : Type} {P Q : World env args → α → Prop}

theorem leads_pure {a : α} (h : P w a) : w.Leads (pure a) P :=
  ⟨a, w, rfl, le_refl w, .refl, h⟩

variable {f : α → Build β}

theorem leads_bind {c : Build α} {Q : World env args → β → Prop} (hc : w.Leads c P)
    (hf : ∀ w' a, w ≤ w' → P w' a → w'.Leads (f a) Q) : w.Leads (c >>= f) Q := by
  obtain ⟨a, w₁, hrun, h₁, hchanges, ha⟩ := hc
  obtain ⟨b, w₂, hrun', h₂, hchanges', hb⟩ := hf w₁ a h₁ ha
  exact ⟨b, w₂, (run_bind_of_ok hrun).trans hrun', h₁.trans h₂, hchanges.trans hchanges', hb⟩

theorem Leads.imp {c : Build α} (h : w.Leads c P) (hpq : ∀ w' a, w ≤ w' → P w' a → Q w' a) :
    w.Leads c Q := by
  obtain ⟨a, w', hrun, hle, hchanges, ha⟩ := h
  exact ⟨a, w', hrun, hle, hchanges, hpq w' a hle ha⟩

theorem leads_get {f : Graph → Build α} (h : w.Leads (f w.graph) Q) : w.Leads (get >>= f) Q := h

theorem leads_lift {c : Result α} {a : α} {Q : World env args → β → Prop} (hc : c = .ok a)
    (h : w.Leads (f a) Q) : w.Leads (liftM c >>= f) Q := by
  obtain ⟨b, w', hrun, hrest⟩ := h
  exact ⟨b, w', (run_liftM hc).trans hrun, hrest⟩

theorem leads_getNode {id : Nat} {n : Node} {f : Node → Build α} (hn : w.graph.nodes[id]? = some n)
    (h : w.Leads (f n) Q) : w.Leads (getNode id >>= f) Q := by
  obtain ⟨a, w', hrun, hrest⟩ := h
  exact ⟨a, w', (run_getNode hn).trans hrun, hrest⟩

/-- A new node is one change. -/
theorem leads_makeNode {n : Node} {P : World env args → Nat → Prop}
    (h : w.Ensures (makeNode n) P) : w.Leads (makeNode n) P := by
  obtain ⟨id, w', hrun, hle, hP⟩ := h w (le_refl w)
  refine ⟨id, w', hrun, hle, ?_, hP⟩
  have hgraph : w'.graph = { w.graph with nodes := w.graph.nodes ++ [n] } :=
    (Prod.mk.inj (Except.ok.inj hrun)).2.symm
  obtain ⟨vs, hvs⟩ := hle.vals
  have hlength : vs.length = 1 := by
    have hlen := w'.valuation.length_eq
    rw [hgraph, ← hvs, length_append, w.valuation.length_eq, length_append,
      length_singleton] at hlen
    omega
  obtain ⟨v, rfl⟩ := length_eq_one_iff.1 hlength
  rw [state, state, hgraph, ← hvs]
  exact .single (.node _ _ n v)

/-- A replacement by a node of the same value and a lower rank is one change. -/
theorem leads_replaceUsesWith {old new : Nat} {bound : ℚ} {t : IrType} {v : Value}
    (hold : w.Has bound old t v) (hnew : w.Has (w.rank old) new t v) :
    w.Leads (replaceUsesWith old new) fun _ _ => True := by
  obtain ⟨⟨⟩, w', hrun, hle, -⟩ := ensures_replaceUsesWith_of_has hold hnew w (le_refl w)
  refine ⟨(), w', hrun, hle, ?_, trivial⟩
  have hlength : w'.graph.nodes.length = w.graph.nodes.length := by
    have hcopy := hrun
    unfold replaceUsesWith at hcopy
    rw [if_pos (hold.type.trans hnew.type.symm)] at hcopy
    rw [← (Prod.mk.inj (Except.ok.inj hcopy)).2, length_map]
  have hvals : w.vals = w'.vals := by
    refine hle.vals.eq_of_length ?_
    rw [w.valuation.length_eq, w'.valuation.length_eq, hlength]
  rw [state, state, ← hvals]
  exact .single (.uses hold.value hnew.value hrun)

/-- A loop over nodes keeps an invariant that tells of the nodes to come. -/
theorem leads_foldlM {σ : Type} {f : σ → Nat → Build σ} {I : List Nat → World env args → σ → Prop}
    (hstep : ∀ id rest (w : World env args) s, I (id :: rest) w s →
      w.Leads (f s id) (I rest)) {order : List Nat} {s : σ} (h : I order w s) :
    w.Leads (order.foldlM f s) (I []) := by
  induction order generalizing w s with
  | nil => exact leads_pure h
  | cons id order ih =>
    rw [foldlM_cons]
    exact leads_bind (hstep id order w s h) fun w' s' _ h' => ih h'

/-! ### Sorted worlds -/

/-- The world with the ranks of another order of its nodes. -/
def withRank (w : World env args) (rank : Nat → ℚ) (h : w.graph.Ranked rank) : World env args :=
  ⟨w.graph, w.params, w.vals, rank, w.verified, w.valuation, h⟩

end Rules

end World

end Xls.Graph

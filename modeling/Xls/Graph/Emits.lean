import Xls.Reassociation.Nodes

/-!
# Xls.Graph.Emits

Rewrites that only add nodes. `Emits` is `Ensures` together with the nodes that were
added: the rewrite leaves the nodes of the graph as they are, and every node that it adds
satisfies a condition. The rules are those of `Ensures`.
-/

namespace Xls.Graph.World

variable {env : Env} {args : List Value} {α β : Type} {w : World env args}

/-- The nodes of a graph and more nodes, each of which satisfies `G`. -/
def Extends (G : Node → Prop) (g g' : Graph) : Prop :=
  ∃ made, g' = { g with nodes := g.nodes ++ made } ∧ ∀ n ∈ made, G n

theorem Extends.refl {G : Node → Prop} (g : Graph) : Extends G g g :=
  ⟨[], by rw [List.append_nil], by simp⟩

theorem Extends.trans {G : Node → Prop} {g g' g'' : Graph} (h : Extends G g g')
    (h' : Extends G g' g'') : Extends G g g'' := by
  obtain ⟨made, rfl, hmade⟩ := h
  obtain ⟨made', rfl, hmade'⟩ := h'
  refine ⟨made ++ made', by rw [List.append_assoc], fun n hn => ?_⟩
  exact (List.mem_append.1 hn).elim (hmade n) (hmade' n)

/-- The rewrite returns from every later world, adds nodes that satisfy `G`, and its result
satisfies `P` in the world that it leads to. -/
def Emits (G : Node → Prop) (w : World env args) (c : Build α)
    (P : World env args → α → Prop) : Prop :=
  ∀ w₁, w ≤ w₁ → ∃ a w₂, c w₁.graph = .ok (a, w₂.graph) ∧ w₁ ≤ w₂ ∧
    Extends G w₁.graph w₂.graph ∧ P w₂ a

variable {G : Node → Prop} {P : World env args → α → Prop} {Q : World env args → β → Prop}

theorem emits_pure {a : α} (h : ∀ w', w ≤ w' → P w' a) : Emits G w (pure a) P :=
  fun w₁ h₁ => ⟨a, w₁, rfl, le_refl w₁, .refl _, h w₁ h₁⟩

variable {c : Build α} {f : α → Build β}

theorem emits_bind (hc : Emits G w c P) (hf : ∀ w' a, w ≤ w' → P w' a → Emits G w' (f a) Q) :
    Emits G w (c >>= f) Q := by
  intro w₁ h₁
  obtain ⟨a, w₂, hrun, h₂, hmade, ha⟩ := hc w₁ h₁
  obtain ⟨b, w₃, hrun', h₃, hmade', hb⟩ := hf w₂ a (h₁.trans h₂) ha w₂ (le_refl w₂)
  exact ⟨b, w₃, (run_bind_of_ok hrun).trans hrun', h₂.trans h₃, hmade.trans hmade', hb⟩

theorem Emits.ensures (h : Emits G w c P) : w.Ensures c P := by
  intro w₁ h₁
  obtain ⟨a, w₂, hrun, h₂, -, ha⟩ := h w₁ h₁
  exact ⟨a, w₂, hrun, h₂, ha⟩

theorem Emits.imp {Q : World env args → α → Prop} (h : Emits G w c P)
    (hpq : ∀ w' a, w ≤ w' → P w' a → Q w' a) : Emits G w c Q := by
  intro w₁ h₁
  obtain ⟨a, w₂, hrun, h₂, hmade, ha⟩ := h w₁ h₁
  exact ⟨a, w₂, hrun, h₂, hmade, hpq w₂ a (h₁.trans h₂) ha⟩

/-- A result that does not depend on the graph. -/
theorem emits_lift {c : Result α} {a : α} (hc : c = .ok a) (h : Emits G w (f a) Q) :
    Emits G w (liftM c >>= f) Q := by
  subst hc
  exact h

/-- One more node. -/
theorem emits_makeNode {n : Node} {P : World env args → Nat → Prop} (hn : G n)
    (h : w.Ensures (makeNode n) P) : Emits G w (makeNode n) P := by
  intro w₁ h₁
  obtain ⟨id, w₂, hrun, h₂, hid⟩ := h w₁ h₁
  have hgraph := (Except.ok.inj (congrArg (Except.map Prod.snd) hrun)).symm
  refine ⟨id, w₂, hrun, h₂, ⟨[n], hgraph, ?_⟩, hid⟩
  intro m hm
  rwa [List.mem_singleton.1 hm]

/-- Reading the width of a node adds nothing. -/
theorem emits_bitCountOrDie {b : ℚ} {i : Nat} {x : Bits} {f : Nat → Build β} (h : w.Holds b i x)
    (hf : Emits G w (f x.width) Q) : Emits G w (bitCountOrDie i >>= f) Q := by
  intro w₁ h₁
  obtain ⟨a, w₂, hrun, h₂, hmade, ha⟩ := hf w₁ h₁
  refine ⟨a, w₂, ?_, h₂, hmade, ha⟩
  rw [run_bind_of_ok (run_bitCountOrDie (h.mono h₁).type)]
  exact hrun

end Xls.Graph.World

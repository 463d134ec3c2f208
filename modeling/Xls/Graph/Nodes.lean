import Xls.Canonicalization.Rules

/-!
# Xls.Graph.Nodes

New nodes by the types and values of their operands. Operands of bits types are given by
the bits that they hold.
-/

namespace Xls.Graph.World

open Interpreter
open Canonicalization (Operands)

variable {env : Env} {args : List Value} {w : World env args} {b : ℚ}

/-- A new node that passes the verifier has the value of its operation. -/
theorem ensures_node {n : Node} {types : List IrType} {ops : List Value} {v : Value}
    (hoperands : Operands w b n.operands types ops)
    (hverify : verifyNode w.params n.kind types n.type = true)
    (heval : evalNode env args n.kind n.type ops = .ok v) (hconf : v.Conforms n.type) :
    w.Ensures (Graph.makeNode n) fun w' id => w'.Has b id n.type v := by
  have hint : interpretNode env args n ops = .ok v := by
    rw [interpretNode, heval, Result.ok_bind, if_pos hconf]
    rfl
  refine (ensures_makeNode hoperands.types hverify hoperands.values hint hoperands.rank).imp
    fun w' id _ h => ⟨h.1, h.2.1, h.2.2⟩

/-- Nodes that hold bits. -/
abbrev HoldsAll (w : World env args) (b : ℚ) (ids : List Nat) (xs : List Bits) : Prop :=
  List.Forall₂ (w.Holds b) ids xs

variable {ids : List Nat}

theorem HoldsAll.mono {w' : World env args} {xs : List Bits} (h : HoldsAll w b ids xs)
    (hle : w ≤ w') : HoldsAll w' b ids xs :=
  List.Forall₂.imp (fun _ _ hx => hx.mono hle) h

theorem HoldsAll.operands {xs : List Bits} (h : HoldsAll w b ids xs) :
    Operands w b ids (xs.map fun x => .bits x.width) (xs.map .leaf) := by
  induction h with
  | nil => exact .nil
  | cons hx _ ih => exact .cons hx.has ih

/-- A unary operation on a node that holds bits. -/
theorem ensures_unary {op : UnOp} {i : Nat} {x z : Bits} (hi : w.Holds b i x)
    (hz : z.width = x.width)
    (heval : evalNode env args (.un op) (.bits x.width) [.leaf x] = .ok (.leaf z)) :
    w.Ensures (getNode i >>= fun n => makeNode ⟨.un op, [i], n.type⟩) fun w' id =>
      w'.Holds b id z := by
  refine ensures_bind (ensures_getNode hi) fun w' m hle hm => ?_
  rw [hm.2]
  have hi' := hi.mono hle
  have hoperands : Operands w' b [i] [.bits x.width] [.leaf x] := .cons hi'.has .nil
  refine ensures_makeBits hoperands.types ?_ (by rw [hz]) hoperands.values heval hoperands.rank
  simp [verifyNode, IrType.isBits]

/-- Nodes of bits types hold bits. -/
theorem holdsAll_of_operands {ts : List IrType} {us : List Value} (h : Operands w b ids ts us)
    (hbits : ∀ t ∈ ts, t.isBits = true) :
    ∃ xs, HoldsAll w b ids xs ∧ ts = xs.map (fun x => .bits x.width) ∧ us = xs.map .leaf := by
  induction h with
  | nil => exact ⟨[], .nil, rfl, rfl⟩
  | cons hu _ ih =>
    obtain ⟨ht, hts⟩ := List.forall_mem_cons.mp hbits
    obtain ⟨xs, hxs, rfl, rfl⟩ := ih hts
    obtain ⟨k, rfl⟩ := IrType.eq_bits_of_isBits ht
    obtain ⟨x, rfl, rfl⟩ := Canonicalization.has_bits hu
    exact ⟨x :: xs, .cons hu.holds hxs, rfl, rfl⟩

/-! ### Rewrites of a whole node -/

/-- The rewrite returns, and every node and the return value keep their values. -/
def Returns {α : Type} (w : World env args) (c : Build α) : Prop :=
  ∃ a, ∃ w' : World env args, c w.graph = .ok (a, w'.graph) ∧ w ≤ w'

variable {α : Type} {c : Build α} {P : World env args → α → Prop}

theorem Returns.of_ensures (h : w.Ensures c P) : w.Returns c := by
  obtain ⟨a, w', hrun, hle, -⟩ := h w (le_refl w)
  exact ⟨a, w', hrun, hle⟩

theorem not_returns_of_error {f : Failure} (h : c w.graph = .error f) : ¬ w.Returns c := by
  intro ⟨a, w', hrun, _⟩
  rw [h] at hrun
  cases hrun

theorem Returns.bind_ensures {β : Type} {f : α → Build β} (hc : w.Ensures c P)
    (hf : ∀ w' a, w ≤ w' → P w' a → w'.Returns (f a)) : w.Returns (c >>= f) := by
  obtain ⟨a, w₁, hrun, h₁, ha⟩ := hc w (le_refl w)
  obtain ⟨r, w₂, hrun', h₂⟩ := hf w₁ a h₁ ha
  exact ⟨r, w₂, (run_bind_of_ok hrun).trans hrun', h₁.trans h₂⟩

end Xls.Graph.World

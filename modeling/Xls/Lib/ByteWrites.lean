import Mathlib.Data.List.Basic

/-!
# Xls.Lib.ByteWrites

Contiguous writes to a memory that is a function of the address. The last write that covers an
address says what is read there; an address that no write covers keeps what it held.
-/

namespace Xls

open List

/-- Cells written from an address on. -/
structure Write (β : Type) where
  start : Nat
  cells : List β

namespace Write

variable {β : Type}

/-- What is written to an address. -/
def at? (w : Write β) (a : Nat) : Option β :=
  if w.start ≤ a then w.cells[a - w.start]? else none

/-- The memory after a write. -/
def apply (w : Write β) (m : Nat → β) : Nat → β := fun a => (w.at? a).getD (m a)

theorem apply_eq (w : Write β) (m : Nat → β) (a : Nat) : w.apply m a = (w.at? a).getD (m a) := rfl

/-- The memory after writes, the first one first. -/
def applyAll (ws : List (Write β)) (m : Nat → β) : Nat → β := ws.foldl (fun m w => w.apply m) m

@[simp] theorem applyAll_nil (m : Nat → β) : applyAll [] m = m := rfl

@[simp] theorem applyAll_cons (w : Write β) (ws : List (Write β)) (m : Nat → β) :
    applyAll (w :: ws) m = applyAll ws (w.apply m) := rfl

theorem applyAll_append (ws ws' : List (Write β)) (m : Nat → β) :
    applyAll (ws ++ ws') m = applyAll ws' (applyAll ws m) := foldl_append

variable {a : Nat} {ws : List (Write β)} {m : Nat → β}

theorem at?_isSome {w : Write β} :
    (w.at? a).isSome ↔ w.start ≤ a ∧ a < w.start + w.cells.length := by
  unfold at?
  split
  · rw [isSome_getElem?]
    omega
  · simp
    omega

theorem at?_add (w : Write β) (i : Nat) : w.at? (w.start + i) = w.cells[i]? := by
  rw [at?, if_pos (Nat.le_add_right _ _), Nat.add_sub_cancel_left]

/-- Every cell that is written has the value, if all of them have. -/
theorem at?_replicate {start n : Nat} {b c : β}
    (h : (Write.mk start (replicate n c)).at? a = some b) : b = c := by
  unfold at? at h
  split at h
  · exact eq_of_mem_replicate (mem_of_getElem? h)
  · cases h

theorem applyAll_of_none (h : ∀ w ∈ ws, w.at? a = none) : applyAll ws m a = m a := by
  induction ws generalizing m with
  | nil => rfl
  | cons w ws ih =>
    obtain ⟨hw, hws⟩ := forall_mem_cons.mp h
    rw [applyAll_cons, ih hws, apply_eq, hw]
    rfl

/-- Writes that agree on an address. -/
theorem applyAll_of_forall {c : β} (h : ∀ w ∈ ws, ∀ b, w.at? a = some b → b = c) (hm : m a = c) :
    applyAll ws m a = c := by
  induction ws generalizing m with
  | nil => exact hm
  | cons w ws ih =>
    obtain ⟨hw, hws⟩ := forall_mem_cons.mp h
    rw [applyAll_cons]
    refine ih hws ?_
    rw [apply_eq]
    cases hat : w.at? a with
    | none => exact hm
    | some b => exact hw b hat

/-- Writes that agree on an address, at least one of which covers it. -/
theorem applyAll_of_exists {c : β} (h : ∀ w ∈ ws, ∀ b, w.at? a = some b → b = c)
    (hex : ∃ w ∈ ws, (w.at? a).isSome) : applyAll ws m a = c := by
  obtain ⟨w, hw, hsome⟩ := hex
  obtain ⟨ws₁, ws₂, rfl⟩ := append_of_mem hw
  obtain ⟨b, hb⟩ := Option.isSome_iff_exists.mp hsome
  rw [applyAll_append, applyAll_cons]
  refine applyAll_of_forall (fun w' hw' => h w' (by simp [hw'])) ?_
  rw [apply_eq, hb]
  exact h w (by simp) b hb

end Write

end Xls

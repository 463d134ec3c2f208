import Mathlib.Data.List.Nodup
import Mathlib.Tactic.Tauto

/-!
# Xls.Lib.MergedWeight

The weights that a list gives to its elements, merged with an operation that is commutative
and associative. An element may have no weight; `mergeAll` has none when no element has one.
`weigh` merges the weights of the entries of a map whose keys satisfy a predicate.
-/

namespace Xls

open Option

variable {α β : Type}

/-- The weights of the elements of a list, merged. -/
def mergeAll (f : β → β → β) (weight : α → Option β) (l : List α) : Option β :=
  l.foldr (fun a acc => merge f (weight a) acc) none

/-- The merged weight of the entries whose keys satisfy a predicate. -/
def weigh (f : β → β → β) (entries : List (Sigma fun _ : α => β)) (p : α → Prop)
    [DecidablePred p] : Option β :=
  mergeAll f (fun e => if p e.1 then some e.2 else none) entries

section

variable {f : β → β → β} {weight weight' : α → Option β} {l : List α}

@[simp] theorem mergeAll_nil : mergeAll f weight [] = none := rfl

@[simp] theorem mergeAll_cons (a : α) :
    mergeAll f weight (a :: l) = merge f (weight a) (mergeAll f weight l) := rfl

theorem merge_comm [Std.Commutative f] (a b : Option β) : merge f a b = merge f b a :=
  Std.Commutative.comm a b

theorem merge_assoc [Std.Associative f] (a b c : Option β) :
    merge f (merge f a b) c = merge f a (merge f b c) :=
  Std.Associative.assoc a b c

theorem mergeAll_congr (h : ∀ a ∈ l, weight a = weight' a) :
    mergeAll f weight l = mergeAll f weight' l := by
  induction l with
  | nil => rfl
  | cons a l ih =>
    rw [mergeAll_cons, mergeAll_cons, h a List.mem_cons_self,
      ih fun b hb => h b (List.mem_cons_of_mem a hb)]

theorem mergeAll_eq_none : mergeAll f weight l = none ↔ ∀ a ∈ l, weight a = none := by
  induction l with
  | nil => simp
  | cons a l ih => simp [merge_eq_none_iff, ih]

/-- Merging two weights of each element merges the two results. -/
theorem mergeAll_merge [Std.Commutative f] [Std.Associative f] :
    mergeAll f (fun a => merge f (weight a) (weight' a)) l =
      merge f (mergeAll f weight l) (mergeAll f weight' l) := by
  induction l with
  | nil => rfl
  | cons a l ih =>
    simp only [mergeAll_cons, ih]
    ac_rfl

/-- If one element at most has a weight, it is the merged weight. -/
theorem mergeAll_single [DecidableEq α] {u : α} (hl : l.Nodup) (h : ∀ a, a ≠ u → weight a = none) :
    mergeAll f weight l = if u ∈ l then weight u else none := by
  induction l with
  | nil => rfl
  | cons a l ih =>
    obtain ⟨hnotMem, hl⟩ := List.nodup_cons.mp hl
    rw [mergeAll_cons, ih hl]
    by_cases ha : a = u
    · subst ha
      simp [hnotMem]
    · simp [h a ha, Ne.symm ha]

/-- If two elements at most have weights, these are merged. -/
theorem mergeAll_pair [DecidableEq α] [Std.Commutative f] [Std.Associative f] {u v : α}
    (hl : l.Nodup) (huv : u ≠ v) (h : ∀ a, a ≠ u → a ≠ v → weight a = none) :
    mergeAll f weight l =
      merge f (if u ∈ l then weight u else none) (if v ∈ l then weight v else none) := by
  have hsplit : mergeAll f weight l = mergeAll f (fun a => merge f
      (if a = u then weight a else none) (if a = v then weight a else none)) l := by
    refine mergeAll_congr fun a _ => ?_
    by_cases hau : a = u
    · subst hau
      simp [huv]
    · by_cases hav : a = v
      · simp [hav, Ne.symm huv]
      · simp [hau, hav, h a hau hav]
  rw [hsplit, mergeAll_merge, mergeAll_single (u := u) hl fun a ha => if_neg ha,
    mergeAll_single (u := v) hl fun a ha => if_neg ha, if_pos rfl, if_pos rfl]

end

section

variable {f : β → β → β} {entries : List (Sigma fun _ : α => β)} {p q : α → Prop}
  [DecidablePred p] [DecidablePred q]

@[simp] theorem weigh_nil : weigh f [] p = none := rfl

theorem weigh_cons (e : Sigma fun _ : α => β) :
    weigh f (e :: entries) p = merge f (if p e.1 then some e.2 else none) (weigh f entries p) := rfl

theorem weigh_congr (h : ∀ e ∈ entries, p e.1 ↔ q e.1) : weigh f entries p = weigh f entries q := by
  refine mergeAll_congr fun e he => ?_
  simp only [h e he]

theorem weigh_eq_none : weigh f entries p = none ↔ ∀ e ∈ entries, ¬p e.1 := by
  rw [weigh, mergeAll_eq_none]
  refine forall₂_congr fun e _ => ?_
  by_cases he : p e.1 <;> simp [he]

/-- The merged weight of two disjoint sets of keys. -/
theorem weigh_or [Std.Commutative f] [Std.Associative f] (h : ∀ e ∈ entries, p e.1 → ¬q e.1) :
    weigh f entries (fun a => p a ∨ q a) = merge f (weigh f entries p) (weigh f entries q) := by
  rw [weigh, weigh, weigh, ← mergeAll_merge]
  refine mergeAll_congr fun e he => ?_
  by_cases hp : p e.1
  · simp [hp, h e he hp]
  · simp [hp]

end

end Xls

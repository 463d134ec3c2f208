import Xls.Lib.Grow

/-!
# Xls.Lib.LeafTree

Trees with data at the leaves and any number of children at the inner nodes.

`Rel R` lifts a relation on leaf data to trees of one shape. A computation that
walks several trees of one shape in parallel (`zipAll`) is written once for any
monad; `returns_zipAll` says that two walks, one in `Grow` and one in `Except`,
whose leaf computations respect relations give related trees.
-/

namespace Xls

open List Option

/-- A tree with data at its leaves. -/
inductive LeafTree (α : Type) where
  | leaf (a : α)
  | node (children : List (LeafTree α))

namespace LeafTree

variable {α β γ δ σ : Type}

/-- Induction with the hypothesis for every child. -/
@[elab_as_elim]
theorem ind {motive : LeafTree α → Prop} (leaf : ∀ a, motive (leaf a))
    (node : ∀ ts, (∀ t ∈ ts, motive t) → motive (node ts)) (t : LeafTree α) : motive t :=
  @LeafTree.rec α motive (fun ts => ∀ t ∈ ts, motive t) leaf node
    (fun _ h => absurd h not_mem_nil)
    (fun _ _ ih ihs _ h => by
      rcases mem_cons.1 h with rfl | h
      · exact ih
      · exact ihs _ h) t

mutual
/-- Equality of trees is decidable when it is for the data. -/
def decEq [DecidableEq α] : (s t : LeafTree α) → Decidable (s = t)
  | .leaf a, .leaf b => decidable_of_iff (a = b) ⟨congrArg _, LeafTree.leaf.inj⟩
  | .leaf _, .node _ => isFalse nofun
  | .node _, .leaf _ => isFalse nofun
  | .node ss, .node ts =>
    match decEqList ss ts with
    | isTrue h => isTrue (congrArg _ h)
    | isFalse h => isFalse fun he => h (LeafTree.node.inj he)
def decEqList [DecidableEq α] : (ss ts : List (LeafTree α)) → Decidable (ss = ts)
  | [], [] => isTrue rfl
  | [], _ :: _ => isFalse nofun
  | _ :: _, [] => isFalse nofun
  | s :: ss, t :: ts =>
    match decEq s t, decEqList ss ts with
    | isTrue h, isTrue hs => isTrue (h ▸ hs ▸ rfl)
    | isFalse h, _ => isFalse fun he => h (cons.inj he).1
    | _, isFalse hs => isFalse fun he => hs (cons.inj he).2
end

instance [DecidableEq α] : DecidableEq (LeafTree α) := decEq

/-- The children; a leaf has none. -/
def children : LeafTree α → List (LeafTree α)
  | .leaf _ => []
  | .node ts => ts

/-- The data of a tree that is a single leaf. -/
def leaf? : LeafTree α → Option α
  | .leaf a => some a
  | .node _ => none

mutual
/-- The data of the leaves, in order. -/
def leaves : LeafTree α → List α
  | .leaf a => [a]
  | .node ts => leavesList ts
def leavesList : List (LeafTree α) → List α
  | [] => []
  | t :: ts => leaves t ++ leavesList ts
end

mutual
/-- Apply a function to the data of every leaf. -/
def map (f : α → β) : LeafTree α → LeafTree β
  | .leaf a => .leaf (f a)
  | .node ts => .node (mapList f ts)
def mapList (f : α → β) : List (LeafTree α) → List (LeafTree β)
  | [] => []
  | t :: ts => map f t :: mapList f ts
end

@[simp] theorem mapList_eq_map (f : α → β) (ts : List (LeafTree α)) :
    mapList f ts = ts.map (map f) := by
  induction ts with
  | nil => rfl
  | cons t ts ih => rw [mapList, ih, map_cons]

@[simp] theorem leavesList_eq_flatMap (ts : List (LeafTree α)) :
    leavesList ts = ts.flatMap leaves := by
  induction ts with
  | nil => rfl
  | cons t ts ih => rw [leavesList, ih, flatMap_cons]

/-! ### Lifting relations -/

mutual
/-- Trees of one shape whose leaves are related. -/
def Rel (R : α → β → Prop) : LeafTree α → LeafTree β → Prop
  | .leaf a, .leaf b => R a b
  | .node ts, .node us => RelList R ts us
  | _, _ => False
def RelList (R : α → β → Prop) : List (LeafTree α) → List (LeafTree β) → Prop
  | [], [] => True
  | t :: ts, u :: us => Rel R t u ∧ RelList R ts us
  | _, _ => False
end

variable {R : α → β → Prop} {ts : List (LeafTree α)} {us : List (LeafTree β)} {t : LeafTree α}
  {u : LeafTree β} {Q : γ → δ → Prop} {f : α → β → Option γ} {v : LeafTree δ}

theorem relList_iff : RelList R ts us ↔ Forall₂ (Rel R) ts us := by
  induction ts generalizing us with
  | nil => cases us <;> simp [RelList]
  | cons t ts ih => cases us <;> simp [RelList, ih]

variable {b : β} {R' : α → β → Prop} {P : α → δ → Prop} {r : LeafTree γ}

@[simp] theorem rel_leaf {a : α} : Rel R (.leaf a) (.leaf b) ↔ R a b := by
  rw [Rel]

@[simp] theorem rel_node : Rel R (.node ts) (.node us) ↔ Forall₂ (Rel R) ts us := by
  rw [Rel, relList_iff]

@[simp] theorem not_rel_leaf_node {a : α} : ¬Rel R (.leaf a) (.node us) := by simp [Rel]

@[simp] theorem not_rel_node_leaf : ¬Rel R (.node ts) (.leaf b) := by simp [Rel]

/-- A tree related to a leaf is a leaf. -/
theorem rel_leaf_right (h : Rel R t (.leaf b)) : ∃ a, t = .leaf a ∧ R a b := by
  cases t with
  | leaf a => exact ⟨a, rfl, rel_leaf.1 h⟩
  | node ts => exact absurd h not_rel_node_leaf

theorem rel_leaf_left {a : α} (h : Rel R (.leaf a) u) : ∃ b, u = .leaf b ∧ R a b := by
  cases u with
  | leaf b => exact ⟨b, rfl, rel_leaf.1 h⟩
  | node us => exact absurd h not_rel_leaf_node

theorem rel_node_right (h : Rel R t (.node us)) : ∃ ts, t = .node ts ∧ Forall₂ (Rel R) ts us := by
  cases t with
  | leaf a => exact absurd h not_rel_leaf_node
  | node ts => exact ⟨ts, rfl, rel_node.1 h⟩

theorem rel_node_left (h : Rel R (.node ts) u) : ∃ us, u = .node us ∧ Forall₂ (Rel R) ts us := by
  cases u with
  | leaf b => exact absurd h not_rel_node_leaf
  | node us => exact ⟨us, rfl, rel_node.1 h⟩

theorem Rel.children (h : Rel R t u) : Forall₂ (Rel R) t.children u.children := by
  cases t with
  | leaf a =>
    obtain ⟨b, rfl, -⟩ := rel_leaf_left h
    exact Forall₂.nil
  | node ts =>
    obtain ⟨us, rfl, hus⟩ := rel_node_left h
    exact hus

theorem Rel.leaf? (h : Rel R t u) (hb : u.leaf? = some b) : ∃ a, t.leaf? = some a ∧ R a b := by
  cases u with
  | node us => cases hb
  | leaf c =>
    cases hb
    obtain ⟨a, rfl, hab⟩ := rel_leaf_right h
    exact ⟨a, rfl, hab⟩

theorem forall₂_flatMap {P : α → β → Prop} {f : α → List γ} {g : β → List δ} {as : List α}
    {bs : List β} (h : Forall₂ P as bs) (hfg : ∀ a ∈ as, ∀ b, P a b → Forall₂ Q (f a) (g b)) :
    Forall₂ Q (as.flatMap f) (bs.flatMap g) := by
  induction h with
  | nil => exact Forall₂.nil
  | cons hab _ ih =>
    rw [flatMap_cons, flatMap_cons]
    refine rel_append (hfg _ mem_cons_self _ hab) (ih fun a ha b => ?_)
    exact hfg a (mem_cons_of_mem _ ha) b

/-- The leaves of related trees are related one by one. -/
theorem Rel.leaves (h : Rel R t u) : Forall₂ R t.leaves u.leaves := by
  induction t using ind generalizing u with
  | leaf a =>
    obtain ⟨b, rfl, hab⟩ := rel_leaf_left h
    exact Forall₂.cons hab Forall₂.nil
  | node ts ih =>
    obtain ⟨us, rfl, hus⟩ := rel_node_left h
    rw [LeafTree.leaves, LeafTree.leaves, leavesList_eq_flatMap, leavesList_eq_flatMap]
    exact forall₂_flatMap hus ih

/-- Implication of relations at the leaves lifts to trees. -/
theorem Rel.imp (himp : ∀ a b, R a b → R' a b) (h : Rel R t u) : Rel R' t u := by
  induction t using ind generalizing u with
  | leaf a =>
    obtain ⟨b, rfl, hab⟩ := rel_leaf_left h
    exact rel_leaf.2 (himp a b hab)
  | node ts ih =>
    obtain ⟨us, rfl, hus⟩ := rel_node_left h
    refine rel_node.2 ?_
    clear h
    induction hus with
    | nil => exact Forall₂.nil
    | cons htu _ ihl =>
      refine Forall₂.cons (ih _ mem_cons_self htu) (ihl fun t ht u => ?_)
      exact ih t (mem_cons_of_mem _ ht)

/-- Symmetry of related trees, with the relation turned round. -/
theorem Rel.symm (h : Rel R t u) : Rel (fun b a => R a b) u t := by
  induction t using ind generalizing u with
  | leaf a =>
    obtain ⟨b, rfl, hab⟩ := rel_leaf_left h
    exact rel_leaf.2 hab
  | node ts ih =>
    obtain ⟨us, rfl, hus⟩ := rel_node_left h
    refine rel_node.2 ?_
    clear h
    induction hus with
    | nil => exact Forall₂.nil
    | cons htu _ ihl =>
      refine Forall₂.cons (ih _ mem_cons_self htu) (ihl fun t ht u => ?_)
      exact ih t (mem_cons_of_mem _ ht)

/-- Relations at the leaves compose. -/
theorem Rel.comp {R' : β → γ → Prop} {Q : α → γ → Prop} (hcomp : ∀ a b c, R a b → R' b c → Q a c)
    {v : LeafTree γ} (h : Rel R t u) (h' : Rel R' u v) : Rel Q t v := by
  induction t using ind generalizing u v with
  | leaf a =>
    obtain ⟨b, rfl, hab⟩ := rel_leaf_left h
    obtain ⟨c, rfl, hbc⟩ := rel_leaf_left h'
    exact rel_leaf.2 (hcomp a b c hab hbc)
  | node ts ih =>
    obtain ⟨us, rfl, hus⟩ := rel_node_left h
    obtain ⟨vs, rfl, hvs⟩ := rel_node_left h'
    refine rel_node.2 ?_
    clear h h'
    induction hus generalizing vs with
    | nil =>
      cases hvs
      exact Forall₂.nil
    | cons htu _ ihl =>
      cases hvs with
      | cons huv hvs =>
        refine Forall₂.cons (ih _ mem_cons_self htu huv) ?_
        exact ihl (fun t ht u v => ih t (mem_cons_of_mem _ ht)) _ hvs

/-- A map on the left moves into the relation. -/
theorem rel_map_left {R : β → γ → Prop} {f : α → β} {u : LeafTree γ} :
    Rel R (t.map f) u ↔ Rel (fun a c => R (f a) c) t u := by
  induction t using ind generalizing u with
  | leaf a => cases u <;> simp [map]
  | node ts ih =>
    cases u with
    | leaf c => simp [map]
    | node us =>
      rw [map, mapList_eq_map, rel_node, rel_node, forall₂_map_left_iff]
      constructor
      · intro h
        induction h with
        | nil => exact Forall₂.nil
        | cons htu _ ihl =>
          refine Forall₂.cons ((ih _ mem_cons_self).1 htu) (ihl fun t ht u => ?_)
          exact ih t (mem_cons_of_mem _ ht)
      · intro h
        induction h with
        | nil => exact Forall₂.nil
        | cons htu _ ihl =>
          refine Forall₂.cons ((ih _ mem_cons_self).2 htu) (ihl fun t ht u => ?_)
          exact ih t (mem_cons_of_mem _ ht)

/-- A tree is related to itself when each leaf is. -/
theorem Rel.refl {R : α → α → Prop} (hrefl : ∀ a, R a a) (t : LeafTree α) : Rel R t t := by
  induction t using ind with
  | leaf a => exact rel_leaf.2 (hrefl a)
  | node ts ih => exact rel_node.2 (forall₂_same.2 ih)

mutual
/-- Whether two trees are related is decidable when it is for the data. -/
def decRel (R : α → β → Prop) [∀ a b, Decidable (R a b)] :
    (t : LeafTree α) → (u : LeafTree β) → Decidable (Rel R t u)
  | .leaf a, .leaf b => decidable_of_iff (R a b) rel_leaf.symm
  | .leaf _, .node _ => isFalse not_rel_leaf_node
  | .node _, .leaf _ => isFalse not_rel_node_leaf
  | .node ts, .node us =>
    match decRelList R ts us with
    | isTrue h => isTrue (by rw [Rel]; exact h)
    | isFalse h => isFalse (by rw [Rel]; exact h)
def decRelList (R : α → β → Prop) [∀ a b, Decidable (R a b)] :
    (ts : List (LeafTree α)) → (us : List (LeafTree β)) → Decidable (RelList R ts us)
  | [], [] => isTrue (by rw [RelList]; trivial)
  | [], _ :: _ => isFalse (by simp [RelList])
  | _ :: _, [] => isFalse (by simp [RelList])
  | t :: ts, u :: us =>
    match decRel R t u, decRelList R ts us with
    | isTrue h, isTrue hs => isTrue (by rw [RelList]; exact ⟨h, hs⟩)
    | isFalse h, _ => isFalse (by rw [RelList]; exact fun hc => h hc.1)
    | _, isFalse hs => isFalse (by rw [RelList]; exact fun hc => hs hc.2)
end

instance (R : α → β → Prop) [∀ a b, Decidable (R a b)] (t : LeafTree α) (u : LeafTree β) :
    Decidable (Rel R t u) :=
  decRel R t u

/-- Trees whose leaves are equal are equal. -/
theorem eq_of_rel_eq {u : LeafTree α} (h : Rel Eq t u) : t = u := by
  induction t using ind generalizing u with
  | leaf a =>
    obtain ⟨b, rfl, rfl⟩ := rel_leaf_left h
    rfl
  | node ts ih =>
    obtain ⟨us, rfl, hus⟩ := rel_node_left h
    congr 1
    clear h
    induction hus with
    | nil => rfl
    | cons htu _ ihs =>
      rw [ih _ mem_cons_self htu, ihs fun t ht => ih t (mem_cons_of_mem _ ht)]

/-- Weaken a relation at the leaves that occur. -/
theorem Rel.imp_of_mem_left (himp : ∀ a b, a ∈ t.leaves → R a b → R' a b) (h : Rel R t u) :
    Rel R' t u := by
  induction t using ind generalizing u with
  | leaf a =>
    obtain ⟨b, rfl, hab⟩ := rel_leaf_left h
    exact rel_leaf.2 (himp a b (by simp [LeafTree.leaves]) hab)
  | node ts ih =>
    obtain ⟨us, rfl, hus⟩ := rel_node_left h
    rw [LeafTree.leaves, leavesList_eq_flatMap] at himp
    refine rel_node.2 ?_
    clear h
    induction hus with
    | nil => exact Forall₂.nil
    | cons htu _ ihs =>
      refine Forall₂.cons (ih _ mem_cons_self (fun a b ha => himp a b ?_) htu)
        (ihs (fun t ht => ih t (mem_cons_of_mem _ ht)) fun a b ha => himp a b ?_)
      · exact mem_flatMap.2 ⟨_, mem_cons_self, ha⟩
      · obtain ⟨t, ht, ha⟩ := mem_flatMap.1 ha
        exact mem_flatMap.2 ⟨t, mem_cons_of_mem _ ht, ha⟩

/-! ### Combining two trees -/

mutual
/-- Combine two trees leaf by leaf, if they have one shape and the function is
defined at every pair of leaves. -/
def merge (f : α → β → Option γ) : LeafTree α → LeafTree β → Option (LeafTree γ)
  | .leaf a, .leaf b => (f a b).map .leaf
  | .node ts, .node us => (mergeList f ts us).map .node
  | _, _ => none
def mergeList (f : α → β → Option γ) :
    List (LeafTree α) → List (LeafTree β) → Option (List (LeafTree γ))
  | [], [] => some []
  | t :: ts, u :: us =>
    match merge f t u, mergeList f ts us with
    | some r, some rs => some (r :: rs)
    | _, _ => none
  | _, _ => none
end

theorem mergeList_cons_eq_some {rs : List (LeafTree γ)} :
    mergeList f (t :: ts) (u :: us) = some rs ↔
      ∃ r rs', merge f t u = some r ∧ mergeList f ts us = some rs' ∧ rs = r :: rs' := by
  rw [mergeList]
  cases merge f t u with
  | none => simp
  | some r =>
    cases mergeList f ts us with
    | none => simp
    | some rs' => simp [eq_comm]

/-- A combined tree relates to what the left tree relates to, if every combined leaf
does. -/
theorem Rel.merge_left (hf : ∀ a b c d, P a d → f a b = some c → Q c d) (h : Rel P t v)
    (hr : merge f t u = some r) : Rel Q r v := by
  induction t using ind generalizing u r v with
  | leaf a =>
    obtain ⟨d, rfl, had⟩ := rel_leaf_left h
    cases u with
    | leaf b =>
      rw [merge, map_eq_some_iff] at hr
      obtain ⟨c, hc, rfl⟩ := hr
      exact rel_leaf.2 (hf _ _ _ _ had hc)
    | node us => simp [merge] at hr
  | node ts ih =>
    obtain ⟨vs, rfl, hvs⟩ := rel_node_left h
    cases u with
    | leaf b => simp [merge] at hr
    | node us =>
      rw [merge, map_eq_some_iff] at hr
      obtain ⟨rs, hrs, rfl⟩ := hr
      rw [rel_node]
      induction hvs generalizing us rs with
      | nil =>
        cases us with
        | nil =>
          rw [mergeList] at hrs
          cases hrs
          exact Forall₂.nil
        | cons u us => simp [mergeList] at hrs
      | cons htv hvs ihs =>
        cases us with
        | nil => simp [mergeList] at hrs
        | cons u us =>
          obtain ⟨r, rs', hr, hrs', rfl⟩ := mergeList_cons_eq_some.1 hrs
          refine Forall₂.cons (ih _ mem_cons_self htv hr) ?_
          exact ihs (fun t ht => ih t (mem_cons_of_mem _ ht)) (rel_node.2 hvs) us
            rs' hrs'

mutual
theorem merge_swap (f : α → β → Option γ) :
    (t : LeafTree α) → (u : LeafTree β) → merge f t u = merge (fun b a => f a b) u t
  | .leaf _, .leaf _ => by rw [merge, merge]
  | .leaf _, .node _ => by simp [merge]
  | .node _, .leaf _ => by simp [merge]
  | .node ts, .node us => by rw [merge, merge, mergeList_swap f ts us]
theorem mergeList_swap (f : α → β → Option γ) :
    (ts : List (LeafTree α)) → (us : List (LeafTree β)) →
      mergeList f ts us = mergeList (fun b a => f a b) us ts
  | [], [] => by rw [mergeList, mergeList]
  | [], _ :: _ => by simp [mergeList]
  | _ :: _, [] => by simp [mergeList]
  | t :: ts, u :: us => by rw [mergeList, mergeList, merge_swap f t u, mergeList_swap f ts us]
end

theorem Rel.merge_right {P : β → δ → Prop} (hf : ∀ a b c d, P b d → f a b = some c → Q c d)
    (h : Rel P u v) (hr : merge f t u = some r) : Rel Q r v := by
  rw [merge_swap] at hr
  exact h.merge_left (fun b a c d hb hc => hf a b c d hb hc) hr

/-- Trees that relate to one tree can be combined, if related leaves can. -/
theorem Rel.merge_both {P' : β → δ → Prop}
    (hf : ∀ a b d, P a d → P' b d → ∃ c, f a b = some c ∧ Q c d) (h : Rel P t v) (h' : Rel P' u v) :
    ∃ r, merge f t u = some r ∧ Rel Q r v := by
  induction t using ind generalizing u v with
  | leaf a =>
    obtain ⟨d, rfl, had⟩ := rel_leaf_left h
    obtain ⟨b, rfl, hbd⟩ := rel_leaf_right h'
    obtain ⟨c, hc, hcd⟩ := hf a b d had hbd
    exact ⟨.leaf c, by rw [merge, hc]; rfl, rel_leaf.2 hcd⟩
  | node ts ih =>
    obtain ⟨vs, rfl, hvs⟩ := rel_node_left h
    obtain ⟨us, rfl, hus⟩ := rel_node_right h'
    have hlist : ∃ rs, mergeList f ts us = some rs ∧ Forall₂ (Rel Q) rs vs := by
      clear h h'
      induction hvs generalizing us with
      | nil =>
        cases hus
        exact ⟨[], by rw [mergeList], Forall₂.nil⟩
      | cons htv hvs ihs =>
        cases hus with
        | cons huv hus =>
          obtain ⟨r, hr, hrv⟩ := ih _ mem_cons_self htv huv
          obtain ⟨rs, hrs, hrsv⟩ := ihs (fun t ht => ih t (mem_cons_of_mem _ ht)) _ hus
          exact ⟨r :: rs, mergeList_cons_eq_some.2 ⟨r, rs, hr, hrs, rfl⟩, Forall₂.cons hrv hrsv⟩
    obtain ⟨rs, hrs, hrsv⟩ := hlist
    exact ⟨.node rs, by rw [merge, hrs]; rfl, rel_node.2 hrsv⟩

/-! ### Walking several trees in parallel -/

/-- The results of a partial function on every element, if it is defined on all. -/
def collect (f : α → Option β) : List α → Option (List β)
  | [] => some []
  | a :: as =>
    match f a, collect f as with
    | some b, some bs => some (b :: bs)
    | _, _ => none

/-- Collecting succeeds when every element has a value. -/
theorem collect_eq_some {f : α → Option β} {as : List α} {bs : List β} :
    collect f as = some bs ↔ Forall₂ (fun a b => f a = some b) as bs := by
  induction as generalizing bs with
  | nil =>
    cases bs <;> simp [collect]
  | cons a as ih =>
    cases ha : f a with
    | none => cases bs <;> simp [collect, ha]
    | some b =>
      cases has : collect f as with
      | none =>
        have hnone : ∀ cs, ¬Forall₂ (fun a b => f a = some b) as cs := by
          intro cs hcs
          rw [← ih, has] at hcs
          cases hcs
        cases bs <;> simp [collect, ha, has, hnone]
      | some bs' =>
        cases bs with
        | nil => simp [collect, ha, has]
        | cons c cs =>
          have hih := @ih cs
          rw [has] at hih
          simp only [collect, ha, has, some.injEq, cons.injEq, forall₂_cons]
          rw [← hih, some.injEq]

section ZipAll

variable {m : Type → Type} [Monad m]

mutual
/-- Combine the trees leaf by leaf, along a tree that gives their shape; `stop` is
taken where a tree does not have the shape. -/
def zipAll (stop : ∀ γ : Type, m γ) (f : σ → List α → m β) :
    LeafTree σ → List (LeafTree α) → m (LeafTree β)
  | .leaf s, ts =>
    match collect leaf? ts with
    | some as => do
      let b ← f s as
      return .leaf b
    | none => stop _
  | .node ss, ts => do
    let us ← zipAllList stop f ss 0 ts
    return .node us
def zipAllList (stop : ∀ γ : Type, m γ) (f : σ → List α → m β) :
    List (LeafTree σ) → Nat → List (LeafTree α) → m (List (LeafTree β))
  | [], _, _ => pure []
  | s :: ss, i, ts =>
    match collect (fun t => t.children[i]?) ts with
    | some cs => do
      let u ← zipAll stop f s cs
      let us ← zipAllList stop f ss (i + 1) ts
      return u :: us
    | none => stop _
end

/-- A way to read off the values a computation can return. -/
structure Observer (m : Type → Type) [Monad m] (stop : ∀ γ : Type, m γ) where
  ret : ∀ {α : Type}, m α → α → Prop
  ret_pure : ∀ {α : Type} {a b : α}, ret (pure a) b → b = a
  ret_bind : ∀ {α β : Type} {x : m α} {f : α → m β} {b : β}, ret (x >>= f) b →
    ∃ a, ret x a ∧ ret (f a) b
  not_ret_stop : ∀ {α : Type} {a : α}, ¬ret (stop α) a

variable {P : α → β → Prop} {as : List α} {bs : List β}

/-- Related inputs collect to related outputs. -/
theorem collect_rel {Q : γ → δ → Prop} {f : α → Option γ} {g : β → Option δ}
    (hfg : ∀ a b c d, P a b → f a = some c → g b = some d → Q c d) (h : Forall₂ P as bs)
    {cs : List γ} {ds : List δ} (hc : collect f as = some cs) (hd : collect g bs = some ds) :
    Forall₂ Q cs ds := by
  rw [collect_eq_some] at hc hd
  induction h generalizing cs ds with
  | nil =>
    cases hc
    cases hd
    exact Forall₂.nil
  | cons hab _ ih =>
    cases hc with
    | cons hac hc =>
      cases hd with
      | cons hbd hd => exact Forall₂.cons (hfg _ _ _ _ hab hac hbd) (ih hc hd)

theorem rel_getElem?_right (h : Forall₂ P as bs) {i : Nat} {b : β} (hb : bs[i]? = some b) :
    ∃ a, as[i]? = some a ∧ P a b := by
  obtain ⟨hi, rfl⟩ := List.getElem?_eq_some_iff.1 hb
  have hi' : i < as.length := by rwa [h.length_eq]
  exact ⟨as[i], getElem?_eq_getElem hi', Forall₂.get h hi' hi⟩

theorem forall₂_comp {Q : β → γ → Prop} {R : α → γ → Prop} (hpq : ∀ a b c, P a b → Q b c → R a c)
    {cs : List γ} (h : Forall₂ P as bs) (h' : Forall₂ Q bs cs) : Forall₂ R as cs := by
  induction h generalizing cs with
  | nil =>
    cases h'
    exact Forall₂.nil
  | cons hab _ ih =>
    cases h' with
    | cons hbc h' => exact Forall₂.cons (hpq _ _ _ hab hbc) (ih h')

/-- Elements at the same place of related lists are related. -/
theorem rel_getElem? {R : α → β → Prop} (h : Forall₂ R as bs) {i : Nat} {a : α} {b : β}
    (ha : as[i]? = some a) (hb : bs[i]? = some b) : R a b := by
  induction h generalizing i with
  | nil => simp at ha
  | cons hab _ ih =>
    cases i with
    | zero =>
      cases ha
      cases hb
      exact hab
    | succ i => exact ih ha hb

/-- The subtree at a path of child positions. -/
def get? : LeafTree α → List Nat → Option (LeafTree α)
  | t, [] => some t
  | t, i :: path => t.children[i]?.bind fun c => c.get? path

/-- A path into one of two related trees is a path into both. -/
theorem Rel.get? {R : α → β → Prop} {t s : LeafTree α} {u : LeafTree β} (h : Rel R t u)
    {path : List Nat} (hs : t.get? path = some s) : ∃ v, u.get? path = some v ∧ Rel R s v := by
  induction path generalizing t u with
  | nil =>
    cases hs
    exact ⟨u, rfl, h⟩
  | cons i path ih =>
    rw [LeafTree.get?, bind_eq_some_iff] at hs
    obtain ⟨c, hc, hs⟩ := hs
    have hchildren := h.children
    have hi : i < u.children.length := by
      rw [← hchildren.length_eq]
      exact (List.getElem?_eq_some_iff.1 hc).1
    have hd := getElem?_eq_getElem hi
    obtain ⟨v, hv, hsv⟩ := ih (rel_getElem? hchildren hc hd) hs
    exact ⟨v, by rw [LeafTree.get?, hd]; exact hv, hsv⟩

section Rel

variable {m' : Type → Type} [Monad m'] {stop : ∀ γ : Type, m γ} {stop' : ∀ γ : Type, m' γ}
  (O : Observer m stop) (O' : Observer m' stop') {f : σ → List α → m γ} {g : σ → List β → m' δ}
  {P : α → β → Prop} {Q : γ → δ → Prop}

/-- Zipping related trees gives related trees, for the children from a place on. -/
theorem rel_zipAllList {ss : List (LeafTree σ)} {ts : List (LeafTree α)} {us : List (LeafTree β)}
    (h : Forall₂ (Rel P) ts us) (ih : ∀ s ∈ ss, ∀ {cs : List (LeafTree α)} {ds : List (LeafTree β)},
      Forall₂ (Rel P) cs ds → ∀ {v w}, O.ret (zipAll stop f s cs) v →
        O'.ret (zipAll stop' g s ds) w → Rel Q v w)
    {i : Nat} {vs : List (LeafTree γ)} {ws : List (LeafTree δ)}
    (hvs : O.ret (zipAllList stop f ss i ts) vs) (hws : O'.ret (zipAllList stop' g ss i us) ws) :
    Forall₂ (Rel Q) vs ws := by
  induction ss generalizing i vs ws with
  | nil =>
    rw [zipAllList] at hvs hws
    rw [O.ret_pure hvs, O'.ret_pure hws]
    exact Forall₂.nil
  | cons s ss ihs =>
    rw [zipAllList] at hvs hws
    split at hvs
    · rename_i cs hcs
      split at hws
      · rename_i ds hds
        obtain ⟨v, hv, hvs⟩ := O.ret_bind hvs
        obtain ⟨vs', hvs', hvs⟩ := O.ret_bind hvs
        obtain ⟨w, hw, hws⟩ := O'.ret_bind hws
        obtain ⟨ws', hws', hws⟩ := O'.ret_bind hws
        rw [O.ret_pure hvs, O'.ret_pure hws]
        refine Forall₂.cons (ih s mem_cons_self (collect_rel ?_ h hcs hds) hv hw) ?_
        · intro t u a b htu ha hb
          exact rel_getElem? htu.children ha hb
        · exact ihs (fun s' hs' => ih s' (mem_cons_of_mem _ hs')) hvs' hws'
      · exact absurd hws O'.not_ret_stop
    · exact absurd hvs O.not_ret_stop

/-- Two walks along one shape whose leaf computations respect relations give
related trees. -/
theorem rel_zipAll
    (hf : ∀ s as bs c d, Forall₂ P as bs → O.ret (f s as) c → O'.ret (g s bs) d → Q c d)
    {shape : LeafTree σ} {ts : List (LeafTree α)} {us : List (LeafTree β)}
    (h : Forall₂ (Rel P) ts us) {t : LeafTree γ} {u : LeafTree δ}
    (ht : O.ret (zipAll stop f shape ts) t) (hu : O'.ret (zipAll stop' g shape us) u) :
    Rel Q t u := by
  induction shape using ind generalizing ts us t u with
  | leaf s =>
    rw [zipAll] at ht hu
    split at ht
    · rename_i as has
      split at hu
      · rename_i bs hbs
        obtain ⟨c, hc, ht⟩ := O.ret_bind ht
        obtain ⟨d, hd, hu⟩ := O'.ret_bind hu
        rw [O.ret_pure ht, O'.ret_pure hu]
        refine rel_leaf.2 (hf s as bs c d (collect_rel ?_ h has hbs) hc hd)
        intro t u a b htu ha hb
        obtain ⟨a', ha', hab⟩ := htu.leaf? hb
        rw [ha] at ha'
        cases ha'
        exact hab
      · exact absurd hu O'.not_ret_stop
    · exact absurd ht O.not_ret_stop
  | node ss ih =>
    rw [zipAll] at ht hu
    obtain ⟨vs, hvs, ht⟩ := O.ret_bind ht
    obtain ⟨ws, hws, hu⟩ := O'.ret_bind hu
    rw [O.ret_pure ht, O'.ret_pure hu]
    exact rel_node.2 (rel_zipAllList O O' h ih hvs hws)

end Rel

section Except

variable {ε : Type} {stop : ∀ γ : Type, Except ε γ} {g : σ → List β → Except ε δ}
  {shape : LeafTree σ} {us : List (LeafTree β)} {C : β → σ → Prop}

/-- A predicate on shape, inputs and result that holds of the children when it
holds of the whole, and that the leaf computation meets, describes the walk. -/
theorem zipAll_eq_ok {J : LeafTree σ → List (LeafTree β) → LeafTree δ → Prop}
    (hleaf : ∀ s us u, J (.leaf s) us u →
      ∃ bs d, collect leaf? us = some bs ∧ u = .leaf d ∧ g s bs = .ok d)
    (hnode : ∀ ss us u, J (.node ss) us u → ∃ ds, u = .node ds ∧ ds.length = ss.length ∧
      ∀ (i : Nat) s d, ss[i]? = some s → ds[i]? = some d →
        ∃ cs, collect (fun t => t.children[i]?) us = some cs ∧ J s cs d) {u : LeafTree δ}
    (h : J shape us u) : zipAll stop g shape us = .ok u := by
  induction shape using ind generalizing us u with
  | leaf s =>
    obtain ⟨bs, d, hbs, rfl, hd⟩ := hleaf s us u h
    rw [zipAll, hbs]
    show (g s bs >>= fun b => pure (leaf b)) = _
    rw [hd]
    rfl
  | node ss ih =>
    obtain ⟨ds, rfl, hlen, hds⟩ := hnode ss us u h
    -- the suffix of the children from a position on
    have hlist : ∀ (ss' : List (LeafTree σ)) (ds' : List (LeafTree δ)) (k : Nat),
        ds'.length = ss'.length → (∀ s ∈ ss', s ∈ ss) →
        (∀ (i : Nat) s d, ss'[i]? = some s → ds'[i]? = some d →
          ∃ cs, collect (fun t => t.children[k + i]?) us = some cs ∧ J s cs d) →
        zipAllList stop g ss' k us = .ok ds' := by
      intro ss'
      induction ss' with
      | nil =>
        intro ds' k hlen' _ _
        rw [zipAllList, eq_nil_of_length_eq_zero hlen']
        rfl
      | cons s ss' ihs =>
        intro ds' k hlen' hmem hch
        cases ds' with
        | nil => cases hlen'
        | cons d ds' =>
          obtain ⟨cs, hcs, hJ⟩ := hch 0 s d rfl rfl
          rw [Nat.add_zero] at hcs
          have htail : zipAllList stop g ss' (k + 1) us = .ok ds' := by
            refine ihs ds' (k + 1) (Nat.succ.inj hlen')
              (fun s' hs' => hmem s' (mem_cons_of_mem _ hs')) ?_
            intro i s' d' hs' hd'
            have hnext := hch (i + 1) s' d' hs' hd'
            rwa [Nat.add_comm i 1, ← Nat.add_assoc] at hnext
          rw [zipAllList, hcs]
          show (zipAll stop g s cs >>= fun u => zipAllList stop g ss' (k + 1) us >>=
            fun us => pure (u :: us)) = _
          rw [ih s (hmem s mem_cons_self) hJ, htail]
          rfl
    rw [zipAll, hlist ss ds 0 hlen (fun _ hs => hs) (by simpa using hds)]
    rfl

theorem collect_leaf?_of_rel {s : σ} (h : ∀ v ∈ us, Rel C v (.leaf s)) :
    ∃ bs, collect leaf? us = some bs ∧ us = bs.map .leaf ∧ ∀ b ∈ bs, C b s := by
  induction us with
  | nil => exact ⟨[], rfl, rfl, by simp⟩
  | cons v us ih =>
    obtain ⟨b, rfl, hb⟩ := rel_leaf_right (h v mem_cons_self)
    obtain ⟨bs, hbs, rfl, hC⟩ := ih fun v hv => h v (mem_cons_of_mem _ hv)
    refine ⟨b :: bs, ?_, rfl, ?_⟩
    · simp [collect, leaf?, hbs]
    · simpa using ⟨hb, hC⟩

variable {ss : List (LeafTree σ)}

/-- The children at a place of trees of one shape. -/
theorem collect_children_of_rel {i : Nat} {s : LeafTree σ} (hs : ss[i]? = some s)
    (h : ∀ v ∈ us, Rel C v (.node ss)) :
    ∃ cs, collect (fun t => t.children[i]?) us = some cs ∧
      Forall₂ (fun v c => v.children[i]? = some c) us cs ∧ ∀ c ∈ cs, Rel C c s := by
  induction us with
  | nil => exact ⟨[], rfl, Forall₂.nil, by simp⟩
  | cons v us ih =>
    obtain ⟨vs, rfl, hvs⟩ := rel_node_right (h v mem_cons_self)
    obtain ⟨cs, hcs, hall, hC⟩ := ih fun v hv => h v (mem_cons_of_mem _ hv)
    have hi : i < vs.length := by
      rw [hvs.length_eq]
      exact (List.getElem?_eq_some_iff.1 hs).1
    have hc : vs[i]? = some vs[i] := getElem?_eq_getElem hi
    refine ⟨vs[i] :: cs, ?_, Forall₂.cons hc hall, ?_⟩
    · have hchild : (node vs).children[i]? = some vs[i] := hc
      simp only [collect, hchild, hcs]
    · intro c hmem
      rcases mem_cons.1 hmem with rfl | hmem
      · exact rel_getElem? hvs hc hs
      · exact hC c hmem

/-- A walk that picks the same input at every leaf returns that input. -/
theorem zipAll_pick {g : σ → List β → Except ε β} {n k : Nat}
    (hg : ∀ s bs b, (∀ b ∈ bs, C b s) → bs.length = n → bs[k]? = some b → g s bs = .ok b)
    (hC : ∀ v ∈ us, Rel C v shape) (hn : us.length = n) {u : LeafTree β} (hu : us[k]? = some u) :
    zipAll stop g shape us = .ok u := by
  refine zipAll_eq_ok
    (J := fun shape us u => (∀ v ∈ us, Rel C v shape) ∧ us.length = n ∧ us[k]? = some u)
    ?_ ?_ ⟨hC, hn, hu⟩
  · rintro s us u ⟨hC, hn, hu⟩
    obtain ⟨bs, hbs, rfl, hCb⟩ := collect_leaf?_of_rel hC
    rw [getElem?_map, map_eq_some_iff] at hu
    obtain ⟨b, hb, rfl⟩ := hu
    exact ⟨bs, b, hbs, rfl, hg s bs b hCb (by simpa using hn) hb⟩
  · rintro ss us u ⟨hC, hn, hu⟩
    obtain ⟨ds, rfl, hds⟩ := rel_node_right (hC u (mem_of_getElem? hu))
    refine ⟨ds, rfl, hds.length_eq, ?_⟩
    intro i s d hs hd
    obtain ⟨cs, hcs, hall, hCc⟩ := collect_children_of_rel hs hC
    refine ⟨cs, hcs, hCc, by rw [← hall.length_eq, hn], ?_⟩
    have hk : k < cs.length := by
      rw [← hall.length_eq]
      exact (List.getElem?_eq_some_iff.1 hu).1
    have hck := getElem?_eq_getElem hk
    have hchild := rel_getElem? hall hu hck
    rw [hck, ← hchild]
    exact hd

/-- A walk whose leaf results depend on the shape only. -/
theorem zipAll_const {n : Nat} {c : σ → δ}
    (hg : ∀ s bs, (∀ b ∈ bs, C b s) → bs.length = n → g s bs = .ok (c s))
    (hC : ∀ v ∈ us, Rel C v shape) (hn : us.length = n) :
    zipAll stop g shape us = .ok (shape.map c) := by
  refine zipAll_eq_ok
    (J := fun shape us u => (∀ v ∈ us, Rel C v shape) ∧ us.length = n ∧ u = shape.map c)
    ?_ ?_ ⟨hC, hn, rfl⟩
  · rintro s us u ⟨hC, hn, rfl⟩
    obtain ⟨bs, hbs, rfl, hCb⟩ := collect_leaf?_of_rel hC
    exact ⟨bs, c s, hbs, by rw [map], hg s bs hCb (by simpa using hn)⟩
  · rintro ss us u ⟨hC, hn, rfl⟩
    refine ⟨ss.map (map c), by rw [map, mapList_eq_map], length_map _, ?_⟩
    intro i s d hs hd
    obtain ⟨cs, hcs, hall, hCc⟩ := collect_children_of_rel hs hC
    refine ⟨cs, hcs, hCc, by rw [← hall.length_eq, hn], ?_⟩
    rw [getElem?_map, hs] at hd
    exact (some.inj hd).symm

/-- The elements whose mark is set. -/
def marked (marks : List Bool) (l : List α) : List α :=
  ((marks.zip l).filter Prod.fst).map Prod.snd

@[simp] theorem marked_nil_right (marks : List Bool) : marked marks ([] : List α) = [] := by
  cases marks <;> rfl

@[simp] theorem marked_cons (b : Bool) (marks : List Bool) (a : α) (l : List α) :
    marked (b :: marks) (a :: l) = if b then a :: marked marks l else marked marks l := by
  cases b <;> rfl

/-- Marking related rows with the same marks. -/
theorem forall₂_marked {P : α → β → Prop} (marks : List Bool) {as : List α} {bs : List β}
    (h : Forall₂ P as bs) : Forall₂ P (marked marks as) (marked marks bs) := by
  induction h generalizing marks with
  | nil => simp
  | cons hab _ ih =>
    cases marks with
    | nil => exact Forall₂.nil
    | cons b marks =>
      cases b with
      | false => exact ih marks
      | true => exact Forall₂.cons hab (ih marks)

theorem collect_marked {f : α → Option β} {as : List α} {bs : List β} (marks : List Bool)
    (h : collect f as = some bs) : collect f (marked marks as) = some (marked marks bs) :=
  collect_eq_some.2 (forall₂_marked marks (collect_eq_some.1 h))

theorem bind_eq_ok {x : Except ε α} {k : α → Except ε β} {b : β} (h : (x >>= k) = .ok b) :
    ∃ a, x = .ok a ∧ k a = .ok b := by
  cases x with
  | error e => cases h
  | ok a => exact ⟨a, rfl, h⟩

/-- What a walk over the children did at each position. -/
theorem zipAllList_eq_ok (hstop : ∀ γ a, stop γ ≠ .ok a) {k : Nat} {ds : List (LeafTree δ)}
    (h : zipAllList stop g ss k us = .ok ds) :
    ds.length = ss.length ∧ ∀ (i : Nat) s d, ss[i]? = some s → ds[i]? = some d →
      ∃ cs, collect (fun t => t.children[k + i]?) us = some cs ∧ zipAll stop g s cs = .ok d := by
  induction ss generalizing k ds with
  | nil =>
    cases h
    exact ⟨rfl, by simp⟩
  | cons s ss ih =>
    rw [zipAllList] at h
    split at h
    · rename_i cs hcs
      obtain ⟨d, hd, h⟩ := bind_eq_ok h
      obtain ⟨ds', hds, h⟩ := bind_eq_ok h
      cases h
      obtain ⟨hlen, hall⟩ := ih hds
      refine ⟨by simp [hlen], ?_⟩
      intro i s' d' hs hd'
      cases i with
      | zero =>
        cases hs
        cases hd'
        exact ⟨cs, hcs, hd⟩
      | succ i =>
        obtain ⟨cs', hcs', hz⟩ := hall i s' d' hs hd'
        rw [Nat.add_assoc, Nat.add_comm 1 i] at hcs'
        exact ⟨cs', hcs', hz⟩
    · exact absurd h (hstop _ _)

/-- Walking over the marked inputs is walking over all of them with a leaf
computation that looks at the marked ones. -/
theorem zipAll_marked (hstop : ∀ γ a, stop γ ≠ .ok a) {marks : List Bool}
    {g' : σ → List β → Except ε δ}
    (hg : ∀ s bs d, (∀ b ∈ bs, C b s) → g s (marked marks bs) = .ok d → g' s bs = .ok d)
    (hC : ∀ v ∈ us, Rel C v shape) {u : LeafTree δ}
    (h : zipAll stop g shape (marked marks us) = .ok u) : zipAll stop g' shape us = .ok u := by
  refine zipAll_eq_ok (J := fun shape us u =>
    (∀ v ∈ us, Rel C v shape) ∧ zipAll stop g shape (marked marks us) = .ok u) ?_ ?_ ⟨hC, h⟩
  · rintro s us u ⟨hC, h⟩
    obtain ⟨bs, hbs, -, hCb⟩ := collect_leaf?_of_rel hC
    rw [zipAll, collect_marked marks hbs] at h
    obtain ⟨d, hd, h⟩ := bind_eq_ok h
    cases h
    exact ⟨bs, d, hbs, rfl, hg s bs d hCb hd⟩
  · rintro ss us u ⟨hC, h⟩
    rw [zipAll] at h
    obtain ⟨ds, hds, h⟩ := bind_eq_ok h
    cases h
    obtain ⟨hlen, hall⟩ := zipAllList_eq_ok hstop hds
    refine ⟨ds, rfl, hlen, ?_⟩
    intro i s d hs hd
    obtain ⟨cs', hcs', hz⟩ := hall i s d hs hd
    obtain ⟨cs, hcs, -, hCc⟩ := collect_children_of_rel hs hC
    rw [Nat.zero_add, collect_marked marks hcs] at hcs'
    cases hcs'
    exact ⟨cs, hcs, hCc, hz⟩

end Except

end ZipAll

end LeafTree

end Xls

import Mathlib.Data.List.MinMax
import Xls.TopoSort

/-!
# Xls.PostDominatorAnalysis

`xls/passes/post_dominator_analysis.cc`. The post-dominators of a node are kept as a sorted
list of places in the reverse topological order. They are the nodes on all paths from the
node along users to a root (`postDominatorAnalysis_exact`).
-/

namespace Xls.PostDominatorAnalysis

open List
open TopoSort (reverseTopoSort mem_users)

/-- A list index that holds the minimum advances. -/
def advance (minValue : Nat) (l : List Nat) : List Nat :=
  if l.headD 0 = minValue then l.tail else l

/-- The loop of `IntersectSortedLists`. A list stands for its part from its index on. -/
def intersectLoop : Nat → List (List Nat) → List Nat
  | 0, _ => []
  | fuel + 1, lists =>
    if lists.any isEmpty then []
    else
      let minValue := ((lists.map fun l => l.headD 0).min?).getD 0
      let intersection := intersectLoop fuel (lists.map (advance minValue))
      if lists.all fun l => decide (l.headD 0 = minValue) then minValue :: intersection
      else intersection

/-- `IntersectSortedLists`. Every round advances an index. -/
def intersectSortedLists (lists : List (List Nat)) : List Nat :=
  if lists.isEmpty then [] else intersectLoop ((lists.map length).sum + 1) lists

variable {V : Type} [DecidableEq V]

/-- The loop over the reverse topological order, with the place of the first node. -/
def gather (f : TopoSort.FunctionBase V) (hasImplicitUse : V → Bool) :
    List V → Nat → (V → Option (List Nat)) → Result (V → Option (List Nat))
  | [], _, postdominators => .ok postdominators
  | node :: rest, i, postdominators => do
    let userPostdominators ← (f.users node).mapM fun user => derefOption (postdominators user)
    let own := if hasImplicitUse node then [] else intersectSortedLists userPostdominators
    gather f hasImplicitUse rest (i + 1)
      (Function.update postdominators node (some (own ++ [i])))

/-- The two relations of the analysis. -/
structure Relations (V : Type) where
  dominatedNodeToPostDominators : V → Finset V
  postDominatorToDominatedNodes : V → Finset V

/-- One pair of the relations. -/
def Relations.relate (r : Relations V) (node postdominator : V) : Relations V :=
  ⟨Function.update r.dominatedNodeToPostDominators node
      (insert postdominator (r.dominatedNodeToPostDominators node)),
    Function.update r.postDominatorToDominatedNodes postdominator
      (insert node (r.postDominatorToDominatedNodes postdominator))⟩

/-- The loop that stores the relations. -/
def store (order : List V) : List (V × Nat) → Relations V → Result (Relations V)
  | [], r => .ok r
  | (node, index) :: rest, r => do
    let postdominator ← derefOption order[index]?
    store order rest (r.relate node postdominator)

/-- `PostDominatorAnalysis::Run`. -/
def run (f : TopoSort.FunctionBase V) (hasImplicitUse : V → Bool) : Result (Relations V) := do
  let order ← reverseTopoSort f
  let postdominators ← gather f hasImplicitUse order 0 fun _ => none
  store order (f.nodes.flatMap fun n => ((postdominators n).getD []).map (n, ·))
    ⟨fun _ => ∅, fun _ => ∅⟩

/-! ### Sorted lists -/

section Advance

variable {l : List Nat} {v m : Nat}

theorem pairwise_advance (v : Nat) (h : l.Pairwise (· < ·)) : (advance v l).Pairwise (· < ·) := by
  unfold advance
  split
  · exact h.sublist (tail_sublist l)
  · exact h

section

variable (hne : l ≠ []) (hsorted : l.Pairwise (· < ·))
include hne hsorted

theorem le_of_mem (hhead : l.headD 0 = v) (hm : m ∈ l) : v ≤ m := by
  obtain ⟨x, l, rfl⟩ := exists_cons_of_ne_nil hne
  subst hhead
  rcases mem_cons.mp hm with rfl | hm
  · exact le_refl _
  · exact (rel_of_pairwise_cons hsorted hm).le

theorem mem_iff_headD (hle : v ≤ l.headD 0) : l.headD 0 = v ↔ v ∈ l := by
  constructor
  · rintro rfl
    obtain ⟨x, l, rfl⟩ := exists_cons_of_ne_nil hne
    exact mem_cons_self
  · exact fun hv => le_antisymm (le_of_mem hne hsorted rfl hv) hle

/-- The list has the same elements, but for the least head. -/
theorem mem_advance (hle : v ≤ l.headD 0) : m ∈ advance v l ↔ m ∈ l ∧ v < m := by
  unfold advance
  obtain ⟨x, l, rfl⟩ := exists_cons_of_ne_nil hne
  have hx : m ∈ l → x < m := rel_of_pairwise_cons hsorted
  by_cases heq : x = v
  · rw [headD_cons, if_pos heq, tail_cons, mem_cons]
    grind
  · rw [headD_cons] at hle ⊢
    rw [if_neg heq, mem_cons]
    grind

end

/-- Advancing past a head shortens the lists. -/
theorem sum_advance_lt {lists : List (List Nat)} (hl : l ∈ lists) (hne : l ≠ [])
    (hhead : l.headD 0 = v) :
    ((lists.map (advance v)).map length).sum < (lists.map length).sum := by
  have hle : ∀ l : List Nat, (advance v l).length ≤ l.length := by
    intro l
    unfold advance
    split <;> simp
  rw [map_map]
  refine sum_lt_sum _ _ (fun l _ => hle l) ⟨l, hl, ?_⟩
  have hpos := length_pos_iff.mpr hne
  simp only [Function.comp_apply, advance, hhead, if_pos, length_tail]
  omega

end Advance

/-- The intersection of sorted lists is sorted. -/
theorem intersectLoop_spec {fuel : Nat} {lists : List (List Nat)} (hne : lists ≠ [])
    (hsorted : ∀ l ∈ lists, l.Pairwise (· < ·)) (hfuel : (lists.map length).sum < fuel) :
    (intersectLoop fuel lists).Pairwise (· < ·) ∧
      ∀ m, m ∈ intersectLoop fuel lists ↔ ∀ l ∈ lists, m ∈ l := by
  induction fuel generalizing lists with
  | zero => exact absurd hfuel (Nat.not_lt_zero _)
  | succ fuel ih =>
    rw [intersectLoop]
    split
    · -- a list is at its end, and holds nothing more
      rename_i hend
      obtain ⟨l, hl, hempty⟩ := any_eq_true.mp hend
      rw [List.isEmpty_iff] at hempty
      subst hempty
      exact ⟨.nil, fun m => by simpa using ⟨[], hl, not_mem_nil⟩⟩
    · rename_i hend
      have hnil : ∀ l ∈ lists, l ≠ [] := by
        rintro l hl rfl
        exact hend (any_eq_true.mpr ⟨[], hl, rfl⟩)
      obtain ⟨v, hv⟩ : ∃ v, (lists.map fun l => l.headD 0).min? = some v := by
        rw [← Option.isSome_iff_exists, isSome_min?_iff]
        simpa using hne
      obtain ⟨hmem, hle⟩ := min?_eq_some_iff.mp hv
      obtain ⟨l₀, hl₀, hhead⟩ := mem_map.mp hmem
      have hle : ∀ l ∈ lists, v ≤ l.headD 0 := fun l hl => hle _ (mem_map_of_mem hl)
      simp only [hv, Option.getD_some]
      obtain ⟨hpairs, hiff⟩ := @ih (lists.map (advance v)) (by simpa using hne)
        (by simpa using fun l hl => pairwise_advance v (hsorted l hl))
        (Nat.lt_of_lt_of_le (sum_advance_lt hl₀ (hnil l₀ hl₀) hhead) (Nat.le_of_lt_succ hfuel))
      have hiff : ∀ m, m ∈ intersectLoop fuel (lists.map (advance v)) ↔
          (∀ l ∈ lists, m ∈ l) ∧ v < m := by
        intro m
        rw [hiff, forall_mem_map]
        have hadvance := fun l hl => mem_advance (m := m) (hnil l hl) (hsorted l hl) (hle l hl)
        constructor
        · intro h
          have hlt := fun l hl => (hadvance l hl).mp (h l hl)
          exact ⟨fun l hl => (hlt l hl).1, (hlt l₀ hl₀).2⟩
        · exact fun h l hl => (hadvance l hl).mpr ⟨h.1 l hl, h.2⟩
      -- the least head is in all lists if it is the head of all
      have hall : (lists.all fun l => decide (l.headD 0 = v)) = true ↔ ∀ l ∈ lists, v ∈ l := by
        rw [all_eq_true]
        refine forall₂_congr fun l hl => ?_
        rw [decide_eq_true_eq, mem_iff_headD (hnil l hl) (hsorted l hl) (hle l hl)]
      by_cases hv : ∀ l ∈ lists, v ∈ l
      · rw [if_pos (hall.mpr hv), pairwise_cons]
        refine ⟨⟨fun m hm => ((hiff m).mp hm).2, hpairs⟩, fun m => ?_⟩
        rw [mem_cons, hiff]
        constructor
        · rintro (rfl | h)
          · exact hv
          · exact h.1
        · intro h
          have hvm : v ≤ m := le_of_mem (hnil l₀ hl₀) (hsorted l₀ hl₀) hhead (h l₀ hl₀)
          exact hvm.eq_or_lt.imp Eq.symm fun hlt => ⟨h, hlt⟩
      · rw [if_neg fun h => hv (hall.mp h)]
        refine ⟨hpairs, fun m => ?_⟩
        rw [hiff, and_iff_left_iff_imp]
        intro h
        have hvm : v ≤ m := le_of_mem (hnil l₀ hl₀) (hsorted l₀ hl₀) hhead (h l₀ hl₀)
        exact lt_of_le_of_ne hvm fun heq => hv (heq ▸ h)

theorem intersectSortedLists_spec (lists : List (List Nat))
    (hsorted : ∀ l ∈ lists, l.Pairwise (· < ·)) :
    (intersectSortedLists lists).Pairwise (· < ·) ∧
      ∀ m, m ∈ intersectSortedLists lists ↔ lists ≠ [] ∧ ∀ l ∈ lists, m ∈ l := by
  cases lists with
  | nil => exact ⟨.nil, by simp [intersectSortedLists]⟩
  | cons l lists =>
    have hspec := intersectLoop_spec (cons_ne_nil l lists) hsorted (Nat.lt_succ_self _)
    exact ⟨hspec.1, fun m => (hspec.2 m).trans (by simp)⟩

/-! ### Paths -/

variable {f : TopoSort.FunctionBase V} {hasImplicitUse : V → Bool} {order : List V}

/-- A node without users or with an implicit use. -/
def IsRoot (f : TopoSort.FunctionBase V) (hasImplicitUse : V → Bool) (n : V) : Prop :=
  f.users n = [] ∨ hasImplicitUse n = true

/-- A path along users to a root. -/
inductive Path (f : TopoSort.FunctionBase V) (hasImplicitUse : V → Bool) : V → List V → Prop
  | root {n : V} (h : IsRoot f hasImplicitUse n) : Path f hasImplicitUse n [n]
  | user {n u : V} {path : List V} (h : f.Uses u n) (rest : Path f hasImplicitUse u path) :
      Path f hasImplicitUse n (n :: path)

/-- Every path from the node to a root passes through the other one. -/
def PostDominates (f : TopoSort.FunctionBase V) (hasImplicitUse : V → Bool) (m n : V) : Prop :=
  ∀ path, Path f hasImplicitUse n path → m ∈ path

/-- Post-domination by the users: every user has to be post-dominated. -/
theorem postDominates_iff {m n : V} : PostDominates f hasImplicitUse m n ↔
    m = n ∨ (hasImplicitUse n = false ∧ f.users n ≠ [] ∧
      ∀ u ∈ f.users n, PostDominates f hasImplicitUse m u) := by
  constructor
  · intro h
    by_cases hmn : m = n
    · exact .inl hmn
    have hroot : ¬IsRoot f hasImplicitUse n := fun hroot =>
      hmn (mem_singleton.mp (h [n] (.root hroot)))
    simp only [IsRoot, not_or, Bool.not_eq_true] at hroot
    refine .inr ⟨hroot.2, hroot.1, fun u hu path hpath => ?_⟩
    exact (mem_cons.mp (h _ (.user (mem_users.mp hu) hpath))).resolve_left hmn
  · rintro (rfl | ⟨himplicit, husers, h⟩) path hpath
    · cases hpath <;> exact mem_cons_self
    · cases hpath with
      | root hroot => simp [IsRoot, himplicit, husers] at hroot
      | user huses hrest => exact mem_cons_of_mem n (h _ (mem_users.mpr huses) _ hrest)

/-! ### The analysis -/

/-- The places of the post-dominators, in a list of nodes that were visited. -/
structure Lists (f : TopoSort.FunctionBase V) (hasImplicitUse : V → Bool) (order : List V)
    (n : V) (l : List Nat) : Prop where
  sorted : l.Pairwise (· < ·)
  mem : ∀ i, i ∈ l ↔ ∃ m, order[i]? = some m ∧ PostDominates f hasImplicitUse m n

theorem mapM_eq_ok {α β : Type} {g : α → Result β} {h : α → β} {l : List α}
    (hg : ∀ a ∈ l, g a = .ok (h a)) : l.mapM g = .ok (l.map h) := by
  induction l with
  | nil => rfl
  | cons a l ih =>
    have hrest := ih fun b hb => hg b (mem_cons_of_mem a hb)
    simp [mapM_cons, hg a mem_cons_self, hrest]

/-- What the loop knows of the nodes that it visited. -/
def Gathered (f : TopoSort.FunctionBase V) (hasImplicitUse : V → Bool) (order visited : List V)
    (postdominators : V → Option (List Nat)) : Prop :=
  ∀ n ∈ visited, ∃ l, postdominators n = some l ∧ Lists f hasImplicitUse order n l ∧
    ∀ i ∈ l, i < visited.length

/-- In the order of the sort, all users are gathered before a node. -/
theorem gather_spec (horder : order.Nodup) (husers : order.Pairwise fun a b => ¬f.Uses b a)
    (hself : ∀ n, ¬f.Uses n n) (hmem : ∀ u n, f.Uses u n → u ∈ order) {visited rest : List V}
    (hsplit : visited ++ rest = order) {postdominators : V → Option (List Nat)}
    (h : Gathered f hasImplicitUse order visited postdominators) :
    ∃ postdominators', gather f hasImplicitUse rest visited.length postdominators =
        .ok postdominators' ∧ Gathered f hasImplicitUse order order postdominators' := by
  induction rest generalizing visited postdominators with
  | nil =>
    rw [append_nil] at hsplit
    subst hsplit
    exact ⟨postdominators, rfl, h⟩
  | cons node rest ih =>
    -- the users come first in the order
    have hvisited : ∀ u ∈ f.users node, u ∈ visited := by
      intro u hu
      have huses := mem_users.mp hu
      have hu' := hmem u node huses
      rw [← hsplit, mem_append, mem_cons] at hu'
      rw [← hsplit, pairwise_append, pairwise_cons] at husers
      rcases hu' with hu' | rfl | hu'
      · exact hu'
      · exact absurd huses (hself u)
      · exact absurd huses (husers.2.1.1 u hu')
    choose! l hl hlists hlt using h
    have hmap := mapM_eq_ok (g := fun u => derefOption (postdominators u)) (h := l)
      fun u hu => by rw [hl u (hvisited u hu)]; rfl
    obtain ⟨hsorted, hinter⟩ := intersectSortedLists_spec ((f.users node).map l)
      (by simpa using fun u hu => (hlists u (hvisited u hu)).sorted)
    simp only [ne_eq, map_eq_nil_iff, forall_mem_map] at hinter
    set own := if hasImplicitUse node then [] else
      intersectSortedLists ((f.users node).map l) with hown
    have hmemOwn : ∀ i, i ∈ own ↔ hasImplicitUse node = false ∧ f.users node ≠ [] ∧
        ∀ u ∈ f.users node, i ∈ l u := by
      intro i
      cases himplicit : hasImplicitUse node <;> simp [hown, himplicit, hinter]
    have hltOwn : ∀ i ∈ own, i < visited.length := by
      intro i hi
      obtain ⟨-, hne, hall⟩ := (hmemOwn i).mp hi
      obtain ⟨u, hu⟩ := exists_mem_of_ne_nil _ hne
      exact hlt u (hvisited u hu) i (hall u hu)
    have hplace : order[visited.length]? = some node := by simp [← hsplit]
    have hnode : Lists f hasImplicitUse order node (own ++ [visited.length]) := by
      constructor
      · rw [pairwise_append]
        refine ⟨?_, pairwise_singleton _ _, by simpa using hltOwn⟩
        rw [hown]
        split
        · exact .nil
        · exact hsorted
      · intro i
        rw [mem_append, mem_singleton, hmemOwn]
        constructor
        · rintro (⟨himplicit, hne, hall⟩ | rfl)
          · obtain ⟨u, hu⟩ := exists_mem_of_ne_nil _ hne
            obtain ⟨m, hm, -⟩ := ((hlists u (hvisited u hu)).mem i).mp (hall u hu)
            refine ⟨m, hm, postDominates_iff.mpr (.inr ⟨himplicit, hne, fun v hv => ?_⟩)⟩
            obtain ⟨m', hm', hdom⟩ := ((hlists v (hvisited v hv)).mem i).mp (hall v hv)
            rw [hm] at hm'
            rwa [Option.some.inj hm']
          · exact ⟨node, hplace, postDominates_iff.mpr (.inl rfl)⟩
        · rintro ⟨m, hm, hdom⟩
          rcases postDominates_iff.mp hdom with rfl | ⟨himplicit, hne, hall⟩
          · exact .inr ((getElem?_inj (List.getElem?_eq_some_iff.mp hm).1 horder).mp
              (hm.trans hplace.symm))
          · exact .inl ⟨himplicit, hne, fun u hu =>
              ((hlists u (hvisited u hu)).mem i).mpr ⟨m, hm, hall u hu⟩⟩
    have hrest := @ih (visited ++ [node]) (by simpa using hsplit)
      (Function.update postdominators node (some (own ++ [visited.length])))
      (by
        intro n hn
        by_cases heq : n = node
        · subst heq
          refine ⟨_, Function.update_self _ _ _, hnode, fun i hi => ?_⟩
          simp only [mem_append, mem_singleton, length_append] at hi ⊢
          exact hi.elim (fun hi => (hltOwn i hi).trans (Nat.lt_succ_self _)) fun hi => by simp [hi]
        · have hn := (mem_append.mp hn).resolve_right (by simpa using heq)
          refine ⟨l n, (Function.update_of_ne heq _ _).trans (hl n hn), hlists n hn, ?_⟩
          exact fun i hi => (hlt n hn i hi).trans (by simp))
    rw [gather, hmap]
    simpa using hrest

/-! ### The relations -/

theorem mem_relate (r : Relations V) (a b n m : V) :
    (m ∈ (r.relate a b).dominatedNodeToPostDominators n ↔
      m ∈ r.dominatedNodeToPostDominators n ∨ (n = a ∧ m = b)) ∧
    (n ∈ (r.relate a b).postDominatorToDominatedNodes m ↔
      n ∈ r.postDominatorToDominatedNodes m ∨ (n = a ∧ m = b)) := by
  simp only [Relations.relate, Function.update_apply]
  grind

/-- Both relations are stored for each entry. -/
theorem store_spec (entries : List (V × Nat)) (hentries : ∀ e ∈ entries, e.2 < order.length)
    (r : Relations V) : ∃ r', store order entries r = .ok r' ∧ ∀ n m,
      (m ∈ r'.dominatedNodeToPostDominators n ↔
        m ∈ r.dominatedNodeToPostDominators n ∨ ∃ i, (n, i) ∈ entries ∧ order[i]? = some m) ∧
      (n ∈ r'.postDominatorToDominatedNodes m ↔
        n ∈ r.postDominatorToDominatedNodes m ∨ ∃ i, (n, i) ∈ entries ∧ order[i]? = some m) := by
  induction entries generalizing r with
  | nil => exact ⟨r, rfl, by simp⟩
  | cons e entries ih =>
    obtain ⟨node, i⟩ := e
    obtain ⟨hi, hentries⟩ := forall_mem_cons.mp hentries
    have hplace : order[i]? = some order[i] := getElem?_eq_getElem hi
    obtain ⟨r', hrun, hr'⟩ := ih hentries (r.relate node order[i])
    have hfirst : ∀ n m, (∃ j, (n, j) ∈ (node, i) :: entries ∧ order[j]? = some m) ↔
        (n = node ∧ m = order[i]) ∨ ∃ j, (n, j) ∈ entries ∧ order[j]? = some m := by
      grind
    refine ⟨r', by rw [store, hplace]; exact hrun, fun n m => ?_⟩
    rw [(hr' n m).1, (hr' n m).2, (mem_relate r node order[i] n m).1,
      (mem_relate r node order[i] n m).2, hfirst, or_assoc, or_assoc]
    exact ⟨Iff.rfl, Iff.rfl⟩

/-- For every function or proc without cycles the analysis succeeds, a node post-dominates
another one if and only if all paths from this one along users to a root pass through it, and
the two relations are inverse to each other. -/
theorem postDominatorAnalysis_exact (f : TopoSort.FunctionBase V) (hasImplicitUse : V → Bool)
    (hnodes : f.nodes.Nodup) (hclosed : ∀ n ∈ f.nodes, ∀ o ∈ f.operands n, o ∈ f.nodes)
    (hacyclic : ∀ n, ¬Relation.TransGen f.Uses n n) :
    ∃ r, run f hasImplicitUse = .ok r ∧
      (∀ n ∈ f.nodes, ∀ m ∈ f.nodes, m ∈ r.dominatedNodeToPostDominators n ↔
        PostDominates f hasImplicitUse m n) ∧
      ∀ m n, n ∈ r.postDominatorToDominatedNodes m ↔ m ∈ r.dominatedNodeToPostDominators n := by
  obtain ⟨order, horder, hqueued, hperm, -⟩ :=
    TopoSort.reverseTopoSort_ok hnodes hclosed hacyclic
  have hnodup := hperm.nodup_iff.mpr hnodes
  have hstart : Gathered f hasImplicitUse order [] fun _ => none := by simp [Gathered]
  obtain ⟨p, hgather, hp⟩ := gather_spec hnodup hqueued.sorted
    (fun n h => hacyclic n (.single h)) (fun u n h => hperm.mem_iff.mpr h.1)
    (nil_append order) hstart
  choose! l hl hlists hlt using hp
  have hentry : ∀ n i, (n, i) ∈ (f.nodes.flatMap fun n => ((p n).getD []).map (n, ·)) ↔
      n ∈ f.nodes ∧ i ∈ (p n).getD [] := by
    simp
  have hget : ∀ n ∈ f.nodes, (p n).getD [] = l n := fun n hn => by
    rw [hl n (hperm.mem_iff.mpr hn), Option.getD_some]
  have hentries : ∀ e ∈ f.nodes.flatMap fun n => ((p n).getD []).map (n, ·),
      e.2 < order.length := by
    rintro ⟨n, i⟩ he
    obtain ⟨hn, hi⟩ := (hentry n i).mp he
    rw [hget n hn] at hi
    exact hlt n (hperm.mem_iff.mpr hn) i hi
  obtain ⟨r, hstore, hr⟩ := store_spec _ hentries ⟨fun _ => ∅, fun _ => ∅⟩
  simp only [hentry, Finset.notMem_empty, false_or] at hr
  refine ⟨r, ?_, fun n hn m hm => ?_, fun m n => (hr n m).2.trans (hr n m).1.symm⟩
  · rw [run, horder, Result.ok_bind]
    simp only [length_nil] at hgather
    rw [hgather, Result.ok_bind]
    exact hstore
  · rw [(hr n m).1]
    constructor
    · rintro ⟨i, ⟨-, hi⟩, him⟩
      rw [hget n hn] at hi
      obtain ⟨m', hm', hdom⟩ := ((hlists n (hperm.mem_iff.mpr hn)).mem i).mp hi
      rwa [Option.some.inj (him.symm.trans hm')]
    · intro hdom
      obtain ⟨i, hi⟩ := mem_iff_getElem?.mp (hperm.mem_iff.mpr hm)
      refine ⟨i, ⟨hn, ?_⟩, hi⟩
      rw [hget n hn]
      exact ((hlists n (hperm.mem_iff.mpr hn)).mem i).mpr ⟨m, hi, hdom⟩

section

local instance neZeroThree : NeZero 3 := ⟨by decide⟩

/-- A node that is the return value and has a user is post-dominated by itself alone. -/
def returned : TopoSort.FunctionBase (Fin 3) where
  nodes := [0, 1, 2]
  operands n := if n = 1 then [0] else if n = 2 then [1] else []
  returnValue := some 1

end

theorem postDominatorAnalysis_exact_returned :
    ∃ r, run returned (fun n => decide (n = 1)) = .ok r ∧
      1 ∈ r.dominatedNodeToPostDominators 0 ∧ 2 ∉ r.dominatedNodeToPostDominators 1 := by
  have hstep : ∀ u n, returned.Uses u n → n < u := by decide
  have hacyclic : ∀ n, ¬Relation.TransGen returned.Uses n n := by
    have hlt : ∀ n m, Relation.TransGen returned.Uses n m → m < n := by
      intro n m hm
      induction hm with
      | single h => exact hstep _ _ h
      | tail _ h ih => exact (hstep _ _ h).trans ih
    exact fun n h => lt_irrefl n (hlt n n h)
  obtain ⟨r, hrun, hexact, -⟩ := postDominatorAnalysis_exact returned (fun n => decide (n = 1))
    (by decide) (by decide) hacyclic
  refine ⟨r, hrun, (hexact 0 (by decide) 1 (by decide)).mpr ?_, fun h => ?_⟩
  · refine postDominates_iff.mpr (.inr ⟨rfl, by decide, fun u hu => ?_⟩)
    have hu : u = 1 := by revert u; decide
    exact postDominates_iff.mpr (.inl hu.symm)
  · have hroot := (hexact 1 (by decide) 2 (by decide)).mp h [1] (.root (.inr rfl))
    exact absurd hroot (by decide)

end Xls.PostDominatorAnalysis

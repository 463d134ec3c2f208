import Mathlib.Data.List.AList
import Xls.Status

/-!
# Xls.Predicates

The store of `scheduling/mutual_exclusion_pass.cc` for the predicates of nodes and for the
pairs of predicates that exclude each other. `store_consistent_of_allMeet` says which runs of
calls keep the store consistent: replacing a predicate is what can break it
(`store_inconsistent`).
-/

namespace Xls

open List

/-- `Predicates`. -/
structure Predicates where
  predicatedBy : AList fun _ : Nat => Nat
  predicateOf : AList fun _ : Nat => Finset Nat
  mutualExclusion : AList fun _ : Nat => AList fun _ : Nat => Bool

namespace Predicates

def new : Predicates := ⟨∅, ∅, ∅⟩

def getPredicate (s : Predicates) (node : Nat) : Option Nat := s.predicatedBy.lookup node

def getNodesPredicatedBy (s : Predicates) (node : Nat) : Finset Nat :=
  (s.predicateOf.lookup node).getD ∅

def queryMutuallyExclusive (s : Predicates) (predA predB : Nat) : Option Bool :=
  (s.mutualExclusion.lookup predA).bind fun row => row.lookup predB

/-- The nodes of a replaced predicate, without one; an empty set goes. -/
def unpredicate (s : Predicates) (replaced node : Nat) : AList fun _ : Nat => Finset Nat :=
  let nodes := (s.getNodesPredicatedBy replaced).erase node
  if nodes = ∅ then s.predicateOf.erase replaced else s.predicateOf.insert replaced nodes

/-- `SetPredicate`. -/
def setPredicate (s : Predicates) (node pred : Nat) : Predicates :=
  let predicateOf := match s.predicatedBy.lookup node with
    | none => s.predicateOf
    | some replaced => s.unpredicate replaced node
  { s with
    predicatedBy := s.predicatedBy.insert node pred
    predicateOf := predicateOf.insert pred (insert node ((predicateOf.lookup pred).getD ∅)) }

/-- `mutual_exclusion_[pred_a][pred_b] = value`. -/
def setEntry (s : Predicates) (predA predB : Nat) (value : Bool) : Predicates :=
  { s with
    mutualExclusion := s.mutualExclusion.insert predA
      (((s.mutualExclusion.lookup predA).getD ∅).insert predB value) }

variable (functionIsOneBit : Nat → Bool)

/-- `MarkMutuallyExclusive`, and `MarkNotMutuallyExclusive` for the value false. -/
def mark (s : Predicates) (predA predB : Nat) (value : Bool) : Result Predicates :=
  if predA ≠ predB ∧ functionIsOneBit predA ∧ functionIsOneBit predB then
    .ok ((s.setEntry predA predB value).setEntry predB predA value)
  else .error (.status "XLS_RET_CHECK failure")

/-- The loop of `ReplaceNode` over the neighbors. -/
def moveNeighbors (original replacement : Nat) : List (Sigma fun _ : Nat => Bool) →
    (AList fun _ : Nat => AList fun _ : Nat => Bool) →
    Result (AList fun _ : Nat => AList fun _ : Nat => Bool)
  | [], m => .ok m
  | ⟨neighbor, value⟩ :: rest, m => do
    let row ← derefOption (m.lookup neighbor)
    moveNeighbors original replacement rest
      (m.insert neighbor ((row.erase original).insert replacement value))

/-- `ReplaceNode`, for a node with a predicate. -/
def movePredicate (s : Predicates) (original replacement : Nat) : Result Predicates :=
  match s.predicatedBy.lookup original with
  | none => .ok s
  | some predicate => do
    let nodes ← derefOption (s.predicateOf.lookup predicate)
    return { s with
      predicatedBy := (s.predicatedBy.erase original).insert replacement predicate
      predicateOf := s.predicateOf.insert predicate (insert replacement (nodes.erase original)) }

/-- `ReplaceNode`, for a predicate: the nodes still name the old one. -/
def movePredicated (s : Predicates) (original replacement : Nat) : Predicates :=
  match s.predicateOf.lookup original with
  | none => s
  | some nodes =>
    let merged :=
      if nodes = ∅ then s.predicateOf
      else s.predicateOf.insert replacement (s.getNodesPredicatedBy replacement ∪ nodes)
    { s with predicateOf := merged.erase original }

/-- `ReplaceNode`. -/
def replaceNode (s : Predicates) (original replacement : Nat) : Result Predicates :=
  if original = replacement then .ok s
  else do
    let s ← s.movePredicate original replacement
    let s := s.movePredicated original replacement
    match s.mutualExclusion.lookup original with
    | none => return s
    | some neighbors => do
      let m ← moveNeighbors original replacement neighbors.entries
        ((s.mutualExclusion.erase original).insert replacement neighbors)
      return { s with mutualExclusion := m }

inductive Call
  | setPredicate (node pred : Nat)
  | mark (predA predB : Nat) (value : Bool)
  | replaceNode (original replacement : Nat)

def call (s : Predicates) : Call → Result Predicates
  | .setPredicate node pred => .ok (s.setPredicate node pred)
  | .mark predA predB value => s.mark functionIsOneBit predA predB value
  | .replaceNode original replacement => s.replaceNode original replacement

/-- A run of calls that succeed. A failing check of `mark` leaves the store as it is. -/
def run : Predicates → List Call → Result Predicates
  | s, [] => .ok s
  | s, c :: calls => do
    let s ← s.call functionIsOneBit c
    run s calls

/-! ### Consistency -/

/-- The two maps of the predicates are inverse, and exclusion is symmetric; a row of it that
exists has an entry. -/
structure Consistent (s : Predicates) : Prop where
  inverse : ∀ n q, n ∈ s.getNodesPredicatedBy q ↔ s.getPredicate n = some q
  symmetric : ∀ a b, s.queryMutuallyExclusive a b = s.queryMutuallyExclusive b a
  rows : ∀ a row, s.mutualExclusion.lookup a = some row → ∃ b, (row.lookup b).isSome

/-- The store mentions a node, in any role. -/
def Mentions (s : Predicates) (a : Nat) : Prop :=
  (∃ n q, (s.getPredicate n = some q ∨ n ∈ s.getNodesPredicatedBy q) ∧ (a = n ∨ a = q)) ∨
    ∃ b c, s.queryMutuallyExclusive a b = some c ∨ s.queryMutuallyExclusive b a = some c

/-- The facts after a replacement are the facts before it, with the node renamed. -/
def Transfers (s s' : Predicates) (original replacement : Nat) : Prop :=
  let rename := fun n => if n = original then replacement else n
  (∀ m r, s'.getPredicate m = some r ↔
    ∃ n q, s.getPredicate n = some q ∧ rename n = m ∧ rename q = r) ∧
  ∀ x y c, s'.queryMutuallyExclusive x y = some c ↔
    ∃ a b, s.queryMutuallyExclusive a b = some c ∧ rename a = x ∧ rename b = y

/-- A replacement of a node that is no predicate of any other, whose predicate is not that of
its replacement, and which knows all that its replacement knows of exclusion. -/
def Meets (s : Predicates) (original replacement : Nat) : Prop :=
  original = replacement ∨
    (∀ n, s.getPredicate n ≠ some original) ∧
    (∀ q r, s.getPredicate original = some q → s.getPredicate replacement = some r → q = r) ∧
    s.queryMutuallyExclusive original original = none ∧
    ((∀ b, s.queryMutuallyExclusive original b = none) ∨
      ∀ b c, b ≠ original → s.queryMutuallyExclusive replacement b = some c →
        s.queryMutuallyExclusive original b = some c)

theorem lookup_insert' {β : Type} (a b : Nat) (v : β) (m : AList fun _ : Nat => β) :
    (m.insert a v).lookup b = if b = a then some v else m.lookup b := by
  split
  · rename_i h
    rw [h, AList.lookup_insert]
  · rename_i h
    rw [AList.lookup_insert_ne h]

theorem lookup_erase' {β : Type} (a b : Nat) (m : AList fun _ : Nat => β) :
    (m.erase a).lookup b = if b = a then none else m.lookup b := by
  split
  · rename_i h
    rw [h, AList.lookup_erase]
  · rename_i h
    rw [AList.lookup_erase_ne h]

variable {s s' : Predicates} {a b : Nat}

theorem consistent_new : Consistent new := by
  constructor <;> simp [new, getNodesPredicatedBy, getPredicate, queryMutuallyExclusive]

/-! ### Each call -/

theorem getPredicate_setPredicate (node pred n : Nat) :
    (s.setPredicate node pred).getPredicate n =
      if n = node then some pred else s.getPredicate n := lookup_insert' ..

theorem lookup_unpredicate (r node q : Nat) : ((s.unpredicate r node).lookup q).getD ∅ =
    if q = r then (s.getNodesPredicatedBy r).erase node else s.getNodesPredicatedBy q := by
  unfold unpredicate
  dsimp only
  split
  · rename_i h
    rw [lookup_erase', h]
    split <;> rfl
  · rw [lookup_insert']
    split <;> rfl

/-- The nodes that a predicate predicates, after one is set. -/
theorem getNodesPredicatedBy_setPredicate (hs : Consistent s) (node pred q : Nat) :
    (s.setPredicate node pred).getNodesPredicatedBy q =
      if q = pred then insert node (s.getNodesPredicatedBy q)
      else (s.getNodesPredicatedBy q).erase node := by
  have hinverse := fun q => hs.inverse node q
  simp only [getPredicate] at hinverse
  rw [setPredicate, getNodesPredicatedBy]
  cases hp : s.predicatedBy.lookup node with
  | none =>
    simp only [hp, reduceCtorEq, iff_false] at hinverse
    rw [lookup_insert', Finset.erase_eq_of_notMem (hinverse q)]
    split
    · rename_i h
      rw [h]
      rfl
    · rfl
  | some r =>
    simp only [hp, Option.some.injEq] at hinverse
    have hold : ((s.unpredicate r node).lookup q).getD ∅ =
        (s.getNodesPredicatedBy q).erase node := by
      rw [lookup_unpredicate]
      split
      · rename_i h
        rw [h]
      · rename_i h
        exact (Finset.erase_eq_of_notMem fun hq => h ((hinverse q).mp hq).symm).symm
    rw [lookup_insert']
    split
    · rename_i h
      subst h
      rw [Option.getD_some, hold]
      ext n
      by_cases hn : n = node <;> simp [hn]
    · exact hold

theorem query_setEntry (p q : Nat) (value : Bool) (x y : Nat) :
    (s.setEntry p q value).queryMutuallyExclusive x y =
      if x = p ∧ y = q then some value else s.queryMutuallyExclusive x y := by
  simp only [setEntry, queryMutuallyExclusive, lookup_insert']
  by_cases hx : x = p
  · subst hx
    rw [if_pos rfl, Option.bind_some, lookup_insert']
    cases s.mutualExclusion.lookup x <;> simp
  · simp [hx]

theorem rows_setEntry (hs : ∀ a row, s.mutualExclusion.lookup a = some row →
      ∃ b, (row.lookup b).isSome) (p q : Nat) (value : Bool) (a : Nat)
    (row : AList fun _ : Nat => Bool)
    (h : (s.setEntry p q value).mutualExclusion.lookup a = some row) :
    ∃ b, (row.lookup b).isSome := by
  rw [setEntry, lookup_insert'] at h
  split at h
  · cases h
    exact ⟨q, by simp⟩
  · exact hs a row h

theorem consistent_setPredicate (hs : Consistent s) (node pred : Nat) :
    Consistent (s.setPredicate node pred) where
  inverse n q := by
    have hn := hs.inverse n q
    rw [getNodesPredicatedBy_setPredicate hs, getPredicate_setPredicate]
    split <;> split <;> simp_all [eq_comm]
  symmetric := hs.symmetric
  rows := hs.rows

/-- Marking keeps the store consistent and changes the answer for the pair only. -/
theorem consistent_mark {value : Bool} (hs : Consistent s)
    (h : s.mark functionIsOneBit a b value = .ok s') : Consistent s' ∧
      (∀ n, s'.getPredicate n = s.getPredicate n) ∧ ∀ x y, s'.queryMutuallyExclusive x y =
        if (x = a ∧ y = b) ∨ (x = b ∧ y = a) then some value else s.queryMutuallyExclusive x y := by
  unfold mark at h
  split at h
  · cases h
    have hquery : ∀ x y, ((s.setEntry a b value).setEntry b a value).queryMutuallyExclusive x y =
        if (x = a ∧ y = b) ∨ (x = b ∧ y = a) then some value
        else s.queryMutuallyExclusive x y := by
      intro x y
      rw [query_setEntry, query_setEntry]
      grind
    refine ⟨⟨hs.inverse, fun x y => ?_, rows_setEntry (rows_setEntry hs.rows a b value) b a value⟩,
      fun _ => rfl, hquery⟩
    rw [hquery, hquery, hs.symmetric x y]
    grind
  · cases h

/-! ### Replacements -/

/-- The neighbours of the old predicate are moved to the new one, which takes its place in their
rows. -/
theorem moveNeighbors_spec (entries : List (Sigma fun _ : Nat => Bool))
    (hnodup : (entries.map Sigma.fst).Nodup) (m : AList fun _ : Nat => AList fun _ : Nat => Bool)
    (hm : ∀ e ∈ entries, (m.lookup e.1).isSome) :
    ∃ m', moveNeighbors a b entries m = .ok m' ∧ ∀ x, m'.lookup x = match entries.dlookup x with
        | none => m.lookup x
        | some value => (m.lookup x).map fun row => (row.erase a).insert b value := by
  induction entries generalizing m with
  | nil => exact ⟨m, rfl, fun _ => rfl⟩
  | cons e entries ih =>
    obtain ⟨neighbor, value⟩ := e
    obtain ⟨hfirst, hrest⟩ := forall_mem_cons.mp hm
    obtain ⟨row, hrow⟩ := Option.isSome_iff_exists.mp hfirst
    rw [map_cons, nodup_cons] at hnodup
    obtain ⟨m', hrun, hm'⟩ := ih hnodup.2 (m.insert neighbor ((row.erase a).insert b value))
      fun e he => by
        rw [lookup_insert']
        split
        · rfl
        · exact hrest e he
    refine ⟨m', by rw [moveNeighbors, hrow]; exact hrun, fun x => ?_⟩
    rw [hm', lookup_insert']
    by_cases hx : x = neighbor
    · subst hx
      have hnone : entries.dlookup x = none := dlookup_eq_none.mpr hnodup.1
      rw [hnone, dlookup_cons_eq, if_pos rfl, hrow]
      rfl
    · rw [dlookup_cons_ne _ _ hx, if_neg hx]

/-- Nothing moves from a node that predicates no other. -/
theorem movePredicated_spec (h : s.getNodesPredicatedBy a = ∅) :
    (∀ q, (s.movePredicated a b).getNodesPredicatedBy q = s.getNodesPredicatedBy q) ∧
      (s.movePredicated a b).predicatedBy = s.predicatedBy ∧
      (s.movePredicated a b).mutualExclusion = s.mutualExclusion := by
  have hempty := h
  unfold movePredicated
  unfold getNodesPredicatedBy at hempty
  cases hnodes : s.predicateOf.lookup a with
  | none => exact ⟨fun _ => rfl, rfl, rfl⟩
  | some nodes =>
    rw [hnodes, Option.getD_some] at hempty
    refine ⟨fun q => ?_, rfl, rfl⟩
    simp only [hempty, if_true, getNodesPredicatedBy, lookup_erase']
    split
    · rename_i hq
      rw [hq, hnodes, Option.getD_some, hempty, Option.getD_none]
    · rfl

/-- A node that predicates no other takes its predicate to its replacement. -/
theorem movePredicate_spec (hs : Consistent s) (hne : a ≠ b)
    (hpred : ∀ n, s.getPredicate n ≠ some a)
    (hsame : ∀ q r, s.getPredicate a = some q → s.getPredicate b = some r → q = r) :
    ∃ s', s.movePredicate a b = .ok s' ∧ s'.mutualExclusion = s.mutualExclusion ∧
      s'.getNodesPredicatedBy a = ∅ ∧
      (∀ n q, n ∈ s'.getNodesPredicatedBy q ↔ s'.getPredicate n = some q) ∧
      ∀ m r, s'.getPredicate m = some r ↔
        ∃ n, s.getPredicate n = some r ∧ (if n = a then b else n) = m := by
  have hempty : s.getNodesPredicatedBy a = ∅ :=
    Finset.eq_empty_of_forall_notMem fun n hn => hpred n ((hs.inverse n a).mp hn)
  have hinverse := hs.inverse
  unfold movePredicate
  cases hp : s.predicatedBy.lookup a with
  | none =>
    have ha : s.getPredicate a = none := hp
    refine ⟨s, rfl, rfl, hempty, hinverse, fun m r => ?_⟩
    grind
  | some q =>
    have ha : s.getPredicate a = some q := hp
    have hq : q ≠ a := fun h => hpred a (h ▸ ha)
    obtain ⟨nodes, hnodes⟩ : ∃ nodes, s.predicateOf.lookup q = some nodes := by
      cases h : s.predicateOf.lookup q with
      | none =>
        have hmem := (hinverse a q).mpr ha
        simp [getNodesPredicatedBy, h] at hmem
      | some nodes => exact ⟨nodes, rfl⟩
    have hget : s.getNodesPredicatedBy q = nodes := by simp [getNodesPredicatedBy, hnodes]
    dsimp only
    rw [hnodes]
    refine ⟨_, rfl, rfl, ?_⟩
    have hp' : ∀ n, getPredicate { s with
        predicatedBy := (s.predicatedBy.erase a).insert b q
        predicateOf := s.predicateOf.insert q (insert b (nodes.erase a)) } n =
        if n = b then some q else if n = a then none else s.getPredicate n := by
      intro n
      simp only [getPredicate, lookup_insert', lookup_erase']
    have hn' : ∀ r, getNodesPredicatedBy { s with
        predicatedBy := (s.predicatedBy.erase a).insert b q
        predicateOf := s.predicateOf.insert q (insert b (nodes.erase a)) } r =
        if r = q then insert b (nodes.erase a) else s.getNodesPredicatedBy r := by
      intro r
      rw [getNodesPredicatedBy, lookup_insert']
      split <;> rfl
    refine ⟨by rw [hn', if_neg hq.symm, hempty], fun n r => ?_, fun m r => ?_⟩
    · have hr := hinverse n r
      rw [hn', hp']
      subst hget
      grind
    · rw [hp']
      grind

/-- The rows after a replacement. -/
theorem query_moveNeighbors (hs : Consistent s) (hne : a ≠ b)
    (hself : s.queryMutuallyExclusive a a = none) {neighbors : AList fun _ : Nat => Bool}
    (hrow : s.mutualExclusion.lookup a = some neighbors) :
    ∃ m, moveNeighbors a b neighbors.entries ((s.mutualExclusion.erase a).insert b neighbors) =
        .ok m ∧ (∀ x y, ((m.lookup x).bind fun row => row.lookup y) = if x = a ∨ y = a then none
        else if x = b then s.queryMutuallyExclusive a y else if y = b then
          (s.queryMutuallyExclusive a x).or (s.queryMutuallyExclusive x b)
        else s.queryMutuallyExclusive x y) ∧
      ∀ x row, m.lookup x = some row → ∃ y, (row.lookup y).isSome := by
  have hquery : ∀ y, neighbors.lookup y = s.queryMutuallyExclusive a y := by
    intro y
    rw [queryMutuallyExclusive, hrow, Option.bind_some]
  have hstart : ∀ x, ((s.mutualExclusion.erase a).insert b neighbors).lookup x =
      if x = b then some neighbors else if x = a then none else s.mutualExclusion.lookup x := by
    intro x
    rw [lookup_insert', lookup_erase']
  obtain ⟨m, hrun, hm⟩ := moveNeighbors_spec (a := a) (b := b) neighbors.entries
    neighbors.nodupKeys ((s.mutualExclusion.erase a).insert b neighbors) fun e he => by
      have hvalue : neighbors.lookup e.1 = some e.2 := AList.mem_lookup_iff.mpr he
      rw [hquery] at hvalue
      rw [hstart]
      -- a neighbor has a row, because exclusion is symmetric
      have hback := hs.symmetric a e.1
      rw [hvalue, queryMutuallyExclusive] at hback
      cases hneighbor : s.mutualExclusion.lookup e.1 with
      | none => simp [hneighbor] at hback
      | some row =>
        have hne : e.1 ≠ a := fun h => by simp [h, hself] at hvalue
        simp [hne]
        split <;> rfl
  have hm : ∀ x, m.lookup x = match s.queryMutuallyExclusive a x with
      | none => ((s.mutualExclusion.erase a).insert b neighbors).lookup x
      | some value => (((s.mutualExclusion.erase a).insert b neighbors).lookup x).map fun row =>
        (row.erase a).insert b value := fun x => by
    rw [hm, ← hquery]
    rfl
  refine ⟨m, hrun, fun x y => ?_, fun x row hx => ?_⟩
  · have hxa := hs.symmetric a x
    have hx : s.queryMutuallyExclusive x y =
      (s.mutualExclusion.lookup x).bind fun row => row.lookup y := rfl
    have hb : s.queryMutuallyExclusive x b =
      (s.mutualExclusion.lookup x).bind fun row => row.lookup b := rfl
    have ha : s.queryMutuallyExclusive x a =
      (s.mutualExclusion.lookup x).bind fun row => row.lookup a := rfl
    rw [hm, hstart]
    cases hvalue : s.queryMutuallyExclusive a x with
    | none =>
      have hold : s.queryMutuallyExclusive x a = none := hxa ▸ hvalue
      split <;> grind
    | some value =>
      split
      · grind [lookup_insert', lookup_erase']
      · cases hlookup : s.mutualExclusion.lookup x <;> grind [lookup_insert', lookup_erase']
  · rw [hm, hstart] at hx
    cases hvalue : s.queryMutuallyExclusive a x with
    | none =>
      rw [hvalue] at hx
      grind [hs.rows]
    | some value =>
      rw [hvalue] at hx
      obtain ⟨row', -, rfl⟩ := Option.map_eq_some_iff.mp hx
      exact ⟨b, by rw [lookup_insert', if_pos rfl]; rfl⟩

/-- A replacement that meets the condition keeps the store consistent. -/
theorem replaceNode_spec (hs : Consistent s) (hmeets : Meets s a b) :
    ∃ s', s.replaceNode a b = .ok s' ∧ Consistent s' ∧ Transfers s s' a b := by
  unfold replaceNode
  by_cases hab : a = b
  · subst hab
    have hid : ∀ n, (if n = a then a else n) = n := by grind
    exact ⟨s, by rw [if_pos rfl], hs, by simp [Transfers, hid]⟩
  obtain ⟨hpred, hsame, hself, hknows⟩ := hmeets.resolve_left hab
  obtain ⟨s₁, hmove, hmutual₁, hempty, hinverse, hget⟩ := movePredicate_spec hs hab hpred hsame
  obtain ⟨hnodes, hpredicated, hmutual⟩ := movePredicated_spec (b := b) hempty
  have hinverse₂ : ∀ n q, n ∈ (s₁.movePredicated a b).getNodesPredicatedBy q ↔
      (s₁.movePredicated a b).getPredicate n = some q := fun n q => by
    rw [hnodes, hinverse, getPredicate, getPredicate, hpredicated]
  have hget₂ : ∀ m r, (s₁.movePredicated a b).getPredicate m = some r ↔
      ∃ n q, s.getPredicate n = some q ∧ (if n = a then b else n) = m ∧
        (if q = a then b else q) = r := by
    intro m r
    have hother : ∀ n q, s.getPredicate n = some q → (if q = a then b else q) = q := by
      intro n q hn
      have hne : q ≠ a := fun h => hpred n (h ▸ hn)
      exact if_neg hne
    rw [show (s₁.movePredicated a b).getPredicate m = s₁.getPredicate m by
      rw [getPredicate, hpredicated, getPredicate], hget]
    constructor
    · rintro ⟨n, hn, hm⟩
      exact ⟨n, r, hn, hm, hother n r hn⟩
    · rintro ⟨n, q, hn, hm, hq⟩
      rw [hother n q hn] at hq
      exact ⟨n, hq ▸ hn, hm⟩
  rw [if_neg hab, hmove, Result.ok_bind]
  rw [hmutual₁] at hmutual
  dsimp only
  rw [hmutual]
  cases hrow : s.mutualExclusion.lookup a with
  | none =>
    have hquery : ∀ x y, (s₁.movePredicated a b).queryMutuallyExclusive x y =
        s.queryMutuallyExclusive x y := fun x y => by
      rw [queryMutuallyExclusive, hmutual, queryMutuallyExclusive]
    have hnone : ∀ y, s.queryMutuallyExclusive a y = none := fun y => by
      rw [queryMutuallyExclusive, hrow, Option.bind_none]
    refine ⟨_, rfl, ⟨hinverse₂, fun x y => ?_, hmutual ▸ hs.rows⟩, hget₂, fun x y c => ?_⟩
    · rw [hquery, hquery, hs.symmetric]
    · have hsymm := hs.symmetric
      rw [hquery]
      grind
  | some neighbors =>
    obtain ⟨y₀, hy₀⟩ := hs.rows a neighbors hrow
    have hknows := hknows.resolve_left fun h => by
      have hnone := h y₀
      rw [queryMutuallyExclusive, hrow, Option.bind_some] at hnone
      rw [hnone] at hy₀
      cases hy₀
    obtain ⟨m, hrun, hm, hrows⟩ := query_moveNeighbors hs hab hself hrow
    have hsymm := hs.symmetric
    -- what the replacement knows, the node knows
    have hquery : ∀ x y, ((m.lookup x).bind fun row => row.lookup y) =
        if x = a ∨ y = a then none
        else if x = b then s.queryMutuallyExclusive a y
        else if y = b then s.queryMutuallyExclusive a x
        else s.queryMutuallyExclusive x y := by
      intro x y
      rw [hm]
      split
      · rfl
      · rename_i hxy
        have hor : (s.queryMutuallyExclusive a x).or (s.queryMutuallyExclusive x b) =
            s.queryMutuallyExclusive a x := by
          cases hx : s.queryMutuallyExclusive x b with
          | none => exact Option.or_none
          | some c =>
            rw [hknows x c (fun h => hxy (.inl h)) (by rw [hsymm, hx])]
            rfl
        rw [hor]
    dsimp only
    rw [hrun]
    refine ⟨_, rfl, ⟨hinverse₂, fun x y => ?_, hrows⟩, hget₂, fun x y c => ?_⟩
    · rw [queryMutuallyExclusive, queryMutuallyExclusive, hquery, hquery]
      grind
    · rw [queryMutuallyExclusive, hquery]
      constructor
      · intro h
        split at h
        · cases h
        · split at h
          · exact ⟨a, y, h, by grind⟩
          · split at h
            · exact ⟨x, a, by rw [hsymm, h], by grind⟩
            · exact ⟨x, y, h, by grind⟩
      · rintro ⟨x₀, y₀, h, rfl, rfl⟩
        have hx := hknows x₀ c
        have hy := hknows y₀ c
        grind

/-! ### Runs -/

/-- The nodes that a call names. -/
def Call.nodes : Call → List Nat
  | .setPredicate a b | .mark a b _ | .replaceNode a b => [a, b]

variable {c : Call} {calls : List Call} {x : Nat}

theorem mentions_iff (hs : Consistent s) : s.Mentions x ↔
    (∃ n q, s.getPredicate n = some q ∧ (x = n ∨ x = q)) ∨
      ∃ y c, s.queryMutuallyExclusive x y = some c := by
  simp only [Mentions, hs.inverse, or_self, hs.symmetric _ x]

/-- A replacement mentions the nodes of the store but for the one that goes, and its
replacement. -/
theorem mentions_of_transfers (hs : Consistent s) (hs' : Consistent s')
    (h : Transfers s s' a b) (hx : s'.Mentions x) : x = b ∨ (x ≠ a ∧ s.Mentions x) := by
  rw [mentions_iff hs'] at hx
  rw [mentions_iff hs]
  rcases hx with ⟨n, q, hn, hx⟩ | ⟨y, c, hy⟩
  · obtain ⟨n', q', hn', rfl, rfl⟩ := (h.1 n q).mp hn
    have hmentions : x = b ∨ (x ≠ a ∧ (x = n' ∨ x = q')) := by grind
    exact hmentions.imp_right fun hx => ⟨hx.1, .inl ⟨n', q', hn', hx.2⟩⟩
  · obtain ⟨x', y', hx', rfl, rfl⟩ := (h.2 x y c).mp hy
    dsimp only
    split
    · exact .inl rfl
    · rename_i hne
      exact .inr ⟨hne, .inr ⟨y', c, hx'⟩⟩

/-- A call whose replacement meets the condition. -/
def Call.Meets (s : Predicates) (c : Call) : Prop :=
  ∀ a b, c = .replaceNode a b → s.Meets a b

/-- A call keeps the store consistent, and mentions no node that it does not name. -/
theorem call_spec (hs : Consistent s) (hmeets : c.Meets s)
    (hcall : s.call functionIsOneBit c = .ok s') :
    Consistent s' ∧ ∀ x, s'.Mentions x → x ∈ c.nodes ∨ s.Mentions x := by
  cases c with
  | setPredicate node pred =>
    cases hcall
    have hs' := consistent_setPredicate hs node pred
    refine ⟨hs', fun x hx => ?_⟩
    rw [mentions_iff hs'] at hx
    rw [mentions_iff hs]
    simp only [getPredicate_setPredicate, Call.nodes, mem_cons] at hx ⊢
    rcases hx with ⟨n, q, hn, hx⟩ | hx
    · split at hn <;> grind
    · exact .inr (.inr hx)
  | mark p q value =>
    obtain ⟨hs', hget, hquery⟩ := consistent_mark functionIsOneBit hs hcall
    refine ⟨hs', fun x hx => ?_⟩
    rw [mentions_iff hs'] at hx
    rw [mentions_iff hs]
    simp only [hget, hquery, Call.nodes, mem_cons] at hx ⊢
    rcases hx with hx | ⟨y, c, hy⟩
    · exact .inr (.inl hx)
    · split at hy <;> grind
  | replaceNode a b =>
    obtain ⟨s₁, hrun, hs₁, htransfers⟩ := replaceNode_spec hs (hmeets a b rfl)
    obtain rfl : s₁ = s' := Except.ok.inj (hrun.symm.trans hcall)
    refine ⟨hs₁, fun x hx => ?_⟩
    rcases mentions_of_transfers hs hs₁ htransfers hx with rfl | hx
    · exact .inl (by simp [Call.nodes])
    · exact .inr hx.2

/-- Every replacement of a run meets the condition. -/
def AllMeet : Predicates → List Call → Prop
  | _, [] => True
  | s, c :: calls => c.Meets s ∧ ∀ s', s.call functionIsOneBit c = .ok s' → AllMeet s' calls

/-- A run of calls that meet the condition keeps the store consistent and makes no predicate up. -/
theorem run_spec (hs : Consistent s) (hmeet : AllMeet functionIsOneBit s calls)
    (hrun : run functionIsOneBit s calls = .ok s') :
    Consistent s' ∧ ∀ x, s'.Mentions x → (∃ c ∈ calls, x ∈ c.nodes) ∨ s.Mentions x := by
  induction calls generalizing s with
  | nil =>
    cases hrun
    exact ⟨hs, fun x hx => .inr hx⟩
  | cons c calls ih =>
    obtain ⟨s₁, hcall, hrun⟩ := Result.bind_eq_ok.1 hrun
    obtain ⟨hs₁, hmentions₁⟩ := call_spec functionIsOneBit hs hmeet.1 hcall
    obtain ⟨hs', hmentions⟩ := ih hs₁ (hmeet.2 s₁ hcall) hrun
    refine ⟨hs', fun x hx => ?_⟩
    rcases hmentions x hx with ⟨d, hd, hx⟩ | hx
    · exact .inl ⟨d, mem_cons_of_mem c hd, hx⟩
    · exact (hmentions₁ x hx).imp_left fun hx => ⟨c, mem_cons_self, hx⟩

/-- A replaced node is mentioned again only after a call that names it. -/
theorem not_mentions_of_replaced {pre post : List Call} (hs : Consistent s) (hab : a ≠ b)
    (hmeet : AllMeet functionIsOneBit s (pre ++ .replaceNode a b :: post))
    (hrun : run functionIsOneBit s (pre ++ .replaceNode a b :: post) = .ok s')
    (hpost : ∀ c ∈ post, a ∉ c.nodes) : ¬s'.Mentions a := by
  induction pre generalizing s with
  | nil =>
    obtain ⟨s₁, hcall, hrun⟩ := Result.bind_eq_ok.1 hrun
    obtain ⟨s₂, hrun₂, hs₂, htransfers⟩ := replaceNode_spec hs (hmeet.1 a b rfl)
    obtain rfl : s₂ = s₁ := Except.ok.inj (hrun₂.symm.trans hcall)
    obtain ⟨-, hmentions⟩ := run_spec functionIsOneBit hs₂ (hmeet.2 _ hcall) hrun
    intro ha
    rcases hmentions a ha with ⟨c, hc, ha⟩ | ha
    · exact hpost c hc ha
    · rcases mentions_of_transfers hs hs₂ htransfers ha with h | h
      · exact hab h
      · exact h.1 rfl
  | cons c pre ih =>
    obtain ⟨s₁, hcall, hrun⟩ := Result.bind_eq_ok.1 hrun
    exact ih (call_spec functionIsOneBit hs hmeet.1 hcall).1 (hmeet.2 s₁ hcall) hrun

/-- In every run whose replacements meet the condition the maps of the predicates are inverse,
exclusion is symmetric, a replaced node is mentioned nowhere until a call names it again, and
every further such replacement moves exactly the facts of the node. -/
theorem store_consistent_of_allMeet (calls : List Call) (s : Predicates)
    (hrun : run functionIsOneBit new calls = .ok s) (hmeet : AllMeet functionIsOneBit new calls) :
    (∀ n q, n ∈ s.getNodesPredicatedBy q ↔ s.getPredicate n = some q) ∧
    (∀ p q, s.queryMutuallyExclusive p q = s.queryMutuallyExclusive q p) ∧
    (∀ pre a b post, calls = pre ++ .replaceNode a b :: post → a ≠ b →
      (∀ c ∈ post, a ∉ c.nodes) → ¬s.Mentions a) ∧
    ∀ a b, s.Meets a b → ∃ s', s.replaceNode a b = .ok s' ∧ Transfers s s' a b := by
  have hs := (run_spec functionIsOneBit consistent_new hmeet hrun).1
  refine ⟨hs.inverse, hs.symmetric, ?_, fun a b hmeets => ?_⟩
  · rintro pre a b post rfl hab hpost
    exact not_mentions_of_replaced functionIsOneBit consistent_new hab hmeet hrun hpost
  · obtain ⟨s', hcall, -, htransfers⟩ := replaceNode_spec hs hmeets
    exact ⟨s', hcall, htransfers⟩

/-- A node with a predicate and a fact of exclusion gives way to a new one. -/
theorem store_consistent_of_allMeet_fresh : ∃ s,
    run (fun _ => true) new [.setPredicate 1 2, .mark 1 3 true, .replaceNode 1 4] = .ok s ∧
      (∀ n q, n ∈ s.getNodesPredicatedBy q ↔ s.getPredicate n = some q) ∧ ¬s.Mentions 1 := by
  let s₂ := ((new.setPredicate 1 2).setEntry 1 3 true).setEntry 3 1 true
  have hp : ∀ n, s₂.getPredicate n = if n = 1 then some 2 else none :=
    getPredicate_setPredicate (s := new) 1 2
  have hq : ∀ x y, s₂.queryMutuallyExclusive x y = if x = 3 ∧ y = 1 then some true
      else if x = 1 ∧ y = 3 then some true else none := fun x y => by
    rw [query_setEntry, query_setEntry]
    rfl
  have hmeets : s₂.Meets 1 4 := by
    refine .inr ⟨?_, ?_, ?_, .inr ?_⟩ <;> simp only [hp, hq] <;> grind
  obtain ⟨hinverse, -, hgone, -⟩ := store_consistent_of_allMeet (fun _ => true)
    [.setPredicate 1 2, .mark 1 3 true, .replaceNode 1 4] _ rfl
    ⟨fun _ _ h => (by cases h), fun _ h => by
      cases h
      refine ⟨fun _ _ h => (by cases h), fun _ h => ?_⟩
      cases h
      exact ⟨fun _ _ h => (by cases h; exact hmeets), fun _ _ => trivial⟩⟩
  exact ⟨_, rfl, hinverse,
    hgone [.setPredicate 1 2, .mark 1 3 true] 1 4 [] rfl (by decide) (by simp)⟩

/-- A predicate is replaced: its node still names the old one. And the exclusions of the
replacement are lost on one side. -/
theorem store_inconsistent : ∃ s t,
    run (fun _ => true) new [.setPredicate 1 2, .replaceNode 2 3] = .ok s ∧
      1 ∈ s.getNodesPredicatedBy 3 ∧ s.getPredicate 1 = some 2 ∧
    run (fun _ => true) new [.mark 1 2 true, .mark 3 4 true, .replaceNode 1 3] = .ok t ∧
      t.queryMutuallyExclusive 3 4 = none ∧ t.queryMutuallyExclusive 4 3 = some true :=
  ⟨_, _, rfl, by decide, by decide, rfl, by decide, by decide⟩

end Predicates

end Xls

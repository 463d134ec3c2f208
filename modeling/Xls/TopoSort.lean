import Xls.Lib.Kahn
import Xls.Status

/-!
# Xls.TopoSort

`ReverseTopoSort` and `TopoSort` of `ir/topo_sort.cc`. The counter of a node tells how many of
its users are still missing in the order; it is made when the first user is placed, and minus
one marks a node that was scheduled.

The users of a node are a set in the source: a node that uses one operand several times is
one user. `reverseTopoSort_order` describes the order that is returned.
-/

namespace Xls.TopoSort

open List Result

/-- What the sorting reads of a function or a proc. A proc has no return value. -/
structure FunctionBase (V : Type) where
  nodes : List V
  operands : V → List V
  returnValue : Option V

variable {V : Type} [DecidableEq V]

/-- `Node::users`. -/
def FunctionBase.users (f : FunctionBase V) (n : V) : List V :=
  f.nodes.filter fun u => n ∈ f.operands u

/-- `pending_to_remaining_users`, `ready` and `ordered`. -/
structure State (V : Type) where
  pending : V → Option Int
  ready : List V
  ordered : List V

/-- `is_scheduled`. -/
def isScheduled (s : State V) (n : V) : Bool :=
  match s.pending n with
  | none => false
  | some remaining => decide (remaining < 0)

/-- `all_users_scheduled`. -/
def allUsersScheduled (f : FunctionBase V) (s : State V) (n : V) : Bool :=
  (f.users n).all (isScheduled s)

/-- `bump_down_remaining_users`. -/
def bumpDownRemainingUsers (f : FunctionBase V) (n : V) (s : State V) : Result (State V) := do
  checkThat (!(f.users n).isEmpty)
  let remaining := (s.pending n).getD (f.users n).length
  checkThat (decide (0 < remaining))
  if remaining - 1 = 0 then
    return { s with
      pending := Function.update s.pending n (some (remaining - 1 - 1)), ready := s.ready ++ [n] }
  else return { s with pending := Function.update s.pending n (some (remaining - 1)) }

/-- The loop of `add_to_order` over the operands, with `seen_operands`. -/
def bumpOperands (f : FunctionBase V) : List V → List V → State V → Result (State V)
  | [], _, s => .ok s
  | operand :: rest, seen, s =>
    if operand ∈ seen then bumpOperands f rest seen s
    else do
      let s ← bumpDownRemainingUsers f operand s
      bumpOperands f rest (operand :: seen) s

/-- `add_to_order`. -/
def addToOrder (f : FunctionBase V) (r : V) (s : State V) : Result (State V) := do
  checkThat (allUsersScheduled f s r)
  bumpOperands f (f.operands r).reverse [] { s with ordered := s.ordered ++ [r] }

/-- `seed_ready`. -/
def seedReady (n : V) (s : State V) : Result (State V) := do
  let s := { s with ready := n :: s.ready }
  checkThat (s.pending n).isNone
  return { s with pending := Function.update s.pending n (some (-1)) }

/-- The loop that finds the nodes without users, with `return_value`. -/
def seedNodes (f : FunctionBase V) : List V → Option V → State V → Result (Option V × State V)
  | [], returnValue, s => .ok (returnValue, s)
  | node :: rest, returnValue, s =>
    if (f.users node).isEmpty then
      if f.returnValue = some node then seedNodes f rest (some node) s
      else do
        checkThat (allUsersScheduled f s node)
        let s ← seedReady node s
        seedNodes f rest returnValue s
    else seedNodes f rest returnValue s

/-- The loop over the deque of ready nodes. Every round places a node. -/
def placeReady (f : FunctionBase V) : Nat → State V → Result (State V)
  | 0, s => if s.ready.isEmpty then .ok s else .error .check
  | fuel + 1, s =>
    match s.ready with
    | [] => .ok s
    | r :: ready => do
      let s ← addToOrder f r { s with ready := ready }
      placeReady f fuel s

/-- `ReverseTopoSort`. It aborts on a cycle. -/
def reverseTopoSort (f : FunctionBase V) : Result (List V) := do
  let (returnValue, s) ← seedNodes f f.nodes none ⟨fun _ => none, [], []⟩
  let s ← match returnValue with
    | some n => seedReady n s
    | none => .ok s
  let s ← placeReady f f.nodes.length s
  checkThat (!decide (s.ordered.length < f.nodes.length))
  return s.ordered

/-- `TopoSort`. -/
def topoSort (f : FunctionBase V) : Result (List V) := do
  let ordered ← reverseTopoSort f
  return ordered.reverse

/-! ### Counters -/

variable {f : FunctionBase V}

/-- A node uses an operand. -/
def FunctionBase.Uses (f : FunctionBase V) (u n : V) : Prop := u ∈ f.nodes ∧ n ∈ f.operands u

instance (f : FunctionBase V) : DecidableRel f.Uses := fun _ _ =>
  inferInstanceAs (Decidable (_ ∧ _))

variable {n : V}

theorem mem_users {u : V} : u ∈ f.users n ↔ f.Uses u n := by
  simp [FunctionBase.users, FunctionBase.Uses]

/-- The counters hold these numbers of missing users, and scheduled nodes are marked. -/
def Counts (f : FunctionBase V) (pending : V → Option Int) (count : V → Nat) (scheduled : List V) :
    Prop :=
  ∀ n ∈ f.nodes, (n ∈ scheduled → pending n = some (-1)) ∧
    (n ∉ scheduled → (pending n).getD (f.users n).length = count n ∧ 0 < count n ∧
      count n ≤ (f.users n).length)

variable {s : State V} {count : V → Nat} {scheduled : List V}

/-- One use less: the node becomes ready with the last of them. -/
theorem bumpDownRemainingUsers_spec (h : Counts f s.pending count scheduled) (hn : n ∈ f.nodes)
    (hscheduled : n ∉ scheduled) :
    ∃ s', bumpDownRemainingUsers f n s = .ok s' ∧ s'.ordered = s.ordered ∧
      s'.ready = s.ready ++ (if count n = 1 then [n] else []) ∧
      Counts f s'.pending (fun m => if m = n then count m - 1 else count m)
        (scheduled ++ if count n = 1 then [n] else []) := by
  obtain ⟨hremaining, hpos, hle⟩ := (h n hn).2 hscheduled
  have husers : (!(f.users n).isEmpty) = true := by
    rw [Bool.not_eq_true', isEmpty_eq_false_iff, ← length_pos_iff]
    omega
  have hcheck : decide (0 < (s.pending n).getD ((f.users n).length : Int)) = true := by
    rw [hremaining, decide_eq_true_eq]
    exact_mod_cast hpos
  have hother : ∀ (c : Int) (m : V), m ≠ n → Function.update s.pending n (some c) m = s.pending m :=
    fun c m hm => Function.update_of_ne hm _ _
  unfold bumpDownRemainingUsers
  simp only [husers, checkThat_true, ok_bind, hcheck]
  rw [hremaining]
  by_cases hone : count n = 1
  · refine ⟨_, if_pos (by omega), rfl, by rw [if_pos hone], fun m hm => ?_⟩
    by_cases hmn : m = n
    · subst hmn
      simp [hone]
    · have hm := h m hm
      simp only [hother _ m hmn, if_pos hone, mem_append, mem_singleton, hmn, or_false]
      exact hm
  · refine ⟨_, if_neg (by omega), rfl, by rw [if_neg hone, append_nil], fun m hm => ?_⟩
    rw [if_neg hone, append_nil]
    by_cases hmn : m = n
    · subst hmn
      refine ⟨fun hmem => absurd hmem hscheduled, fun _ => ?_⟩
      simp only [Function.update_self, Option.getD_some, if_pos]
      omega
    · simp only [hother _ m hmn, if_neg hmn]
      exact h m hm

/-- The loop over the operands counts every operand down once. -/
theorem bumpOperands_spec (operands : List V) {seen : List V}
    (h : Counts f s.pending count scheduled)
    (hoperands : ∀ o ∈ operands, o ∈ f.nodes ∧ (o ∉ seen → o ∉ scheduled)) :
    ∃ s' freed, bumpOperands f operands seen s = .ok s' ∧ s'.ordered = s.ordered ∧
      s'.ready = s.ready ++ freed ∧ freed.Nodup ∧
      (∀ o, o ∈ freed ↔ o ∈ operands ∧ o ∉ seen ∧ count o = 1) ∧
      Counts f s'.pending (fun m => if m ∈ operands ∧ m ∉ seen then count m - 1 else count m)
        (scheduled ++ freed) := by
  induction operands generalizing seen s count scheduled with
  | nil => exact ⟨s, [], rfl, rfl, by simp, .nil, by simp, by simpa using h⟩
  | cons o rest ih =>
    obtain ⟨hnode, hfree⟩ := hoperands o mem_cons_self
    have hrest : ∀ o' ∈ rest, o' ∈ f.nodes ∧ (o' ∉ seen → o' ∉ scheduled) :=
      fun o' ho' => hoperands o' (mem_cons_of_mem o ho')
    rw [bumpOperands]
    by_cases ho : o ∈ seen
    · rw [if_pos ho]
      obtain ⟨s', freed, hrun, hordered, hready, hnodup, hfreed, hcounts⟩ := ih h hrest
      have hmem : ∀ m, m ∈ o :: rest ∧ m ∉ seen ↔ m ∈ rest ∧ m ∉ seen := by
        intro m
        rw [mem_cons]
        constructor
        · intro hm
          exact ⟨hm.1.resolve_left fun heq => hm.2 (heq ▸ ho), hm.2⟩
        · exact fun hm => ⟨.inr hm.1, hm.2⟩
      refine ⟨s', freed, hrun, hordered, hready, hnodup, fun m => ?_, by simpa only [hmem]⟩
      rw [hfreed, ← and_assoc, ← and_assoc, hmem]
    · rw [if_neg ho]
      obtain ⟨s₁, hbump, hordered₁, hready₁, hcounts₁⟩ :=
        bumpDownRemainingUsers_spec h hnode (hfree ho)
      have hfree₁ : ∀ o' ∈ rest, o' ∈ f.nodes ∧ (o' ∉ o :: seen →
          o' ∉ scheduled ++ if count o = 1 then [o] else []) := by
        intro o' ho'
        refine ⟨(hrest o' ho').1, fun hseen => ?_⟩
        rw [mem_cons, not_or] at hseen
        have := (hrest o' ho').2 hseen.2
        by_cases hone : count o = 1
        · simp [hone, this, hseen.1]
        · simpa [hone] using this
      obtain ⟨s', freed, hrun, hordered, hready, hnodup, hfreed, hcounts⟩ := ih hcounts₁ hfree₁
      refine ⟨s', (if count o = 1 then [o] else []) ++ freed, ?_,
        hordered.trans hordered₁, ?_, ?_, fun m => ?_, ?_⟩
      · rw [hbump]
        exact hrun
      · rw [hready, hready₁, append_assoc]
      · by_cases hone : count o = 1
        · simp [hone, hnodup, hfreed]
        · simpa [hone] using hnodup
      · by_cases hmo : m = o
        · subst hmo
          by_cases hone : count m = 1 <;> simp [hone, ho, hfreed]
        · by_cases hone : count o = 1 <;> simp [hone, hmo, hfreed]
      · rw [← append_assoc]
        intro m hm
        have := hcounts m hm
        by_cases hmo : m = o
        · subst hmo
          simpa [ho] using this
        · simpa [hmo] using this

/-! ### The order -/

/-- What the loop over the ready nodes keeps. -/
structure Sorts (f : FunctionBase V) (s : State V) : Prop where
  queued : Kahn.Queued f.nodes f.Uses s.ready s.ordered
  counts : Counts f s.pending (Kahn.missing f.nodes f.Uses s.ordered) (s.ordered ++ s.ready)

theorem Counts.congr {pending : V → Option Int} {count' : V → Nat}
    (h : Counts f pending count scheduled) (hcount : ∀ n ∈ f.nodes, count n = count' n) :
    Counts f pending count' scheduled := by
  intro n hn
  rw [← hcount n hn]
  exact h n hn

theorem isScheduled_of_mem (h : Counts f s.pending count scheduled) (hn : n ∈ f.nodes)
    (hmem : n ∈ scheduled) : isScheduled s n = true := by
  rw [isScheduled, (h n hn).1 hmem]
  rfl

section

variable (hnodes : f.nodes.Nodup) (hclosed : ∀ n ∈ f.nodes, ∀ o ∈ f.operands n, o ∈ f.nodes)
  (h : Sorts f s)
include hnodes hclosed h

/-- The next node of the list is ordered, and its operands are counted down. -/
theorem addToOrder_spec {r : V} {ready : List V} (hready : s.ready = r :: ready) :
    ∃ s', addToOrder f r { s with ready := ready } = .ok s' ∧ Sorts f s' ∧
      s'.ordered = s.ordered ++ [r] := by
  obtain ⟨hqueued, hcounts⟩ := h
  rw [hready] at hqueued hcounts
  obtain ⟨hr, husers⟩ := hqueued.mem r (by simp)
  have hplaced : r ∉ s.ordered := fun hmem =>
    (nodup_append.mp hqueued.nodup).2.2 r hmem r mem_cons_self rfl
  have hscheduled : allUsersScheduled f { s with ready := ready } r = true := by
    refine all_eq_true.mpr fun u hu => ?_
    have huses : f.Uses u r := mem_users.mp hu
    exact isScheduled_of_mem hcounts huses.1 (mem_append_left _ (husers u huses.1 huses))
  -- An operand that is scheduled would have this user before it.
  have hfree : ∀ o ∈ (f.operands r).reverse,
      o ∈ f.nodes ∧ (o ∉ ([] : List V) → o ∉ s.ordered ++ r :: ready) := by
    intro o ho
    rw [mem_reverse] at ho
    exact ⟨hclosed r hr o ho, fun _ hmem => hplaced ((hqueued.mem o hmem).2 r hr ⟨hr, ho⟩)⟩
  obtain ⟨s', freed, hrun, hordered, hready', hnodup, hfreed, hcounts'⟩ :=
    bumpOperands_spec (f.operands r).reverse
      (s := { s with ready := ready, ordered := s.ordered ++ [r] }) hcounts hfree
  have hmissing : ∀ v, Kahn.missing f.nodes f.Uses s.ordered v =
      Kahn.missing f.nodes f.Uses (s.ordered ++ [r]) v + if f.Uses r v then 1 else 0 :=
    Kahn.missing_place hnodes hr hplaced
  refine ⟨s', ?_, ⟨?_, ?_⟩, hordered⟩
  · rw [addToOrder, hscheduled]
    exact hrun
  · rw [hordered, hready']
    refine hqueued.place hnodup fun v => ?_
    rw [hfreed, ← Kahn.missing_eq_zero, hmissing v, mem_reverse]
    constructor
    · intro hv
      have huses : f.Uses r v := ⟨hr, hv.1⟩
      have hone := hv.2.2
      rw [if_pos huses] at hone
      exact ⟨hclosed r hr v hv.1, huses, by omega⟩
    · intro hv
      rw [if_pos hv.2.1, hv.2.2]
      exact ⟨hv.2.1.2, not_mem_nil, rfl⟩
  · rw [hordered, hready', ← append_assoc]
    have hlist : s.ordered ++ r :: ready = s.ordered ++ [r] ++ ready := by simp
    rw [hlist] at hcounts'
    refine hcounts'.congr fun v _ => ?_
    rw [hmissing v]
    by_cases hv : v ∈ f.operands r
    · simp [hv, FunctionBase.Uses, hr]
    · simp [hv, FunctionBase.Uses]

/-- The loop over the deque places every node that becomes ready. -/
theorem placeReady_spec {fuel : Nat} (hfuel : f.nodes.length ≤ fuel + s.ordered.length) :
    ∃ s', placeReady f fuel s = .ok s' ∧ Sorts f s' ∧ s'.ready = [] ∧
      (s.ordered ++ s.ready.take 1) <+: s'.ordered := by
  induction fuel generalizing s with
  | zero =>
    cases hready : s.ready with
    | nil => exact ⟨s, by rw [placeReady, hready]; rfl, h, hready, by simp⟩
    | cons r ready =>
      have hle := (subperm_of_subset h.queued.nodup
        fun v hv => (h.queued.mem v hv).1).length_le
      rw [hready, length_append, length_cons] at hle
      omega
  | succ fuel ih =>
    cases hready : s.ready with
    | nil => exact ⟨s, by simp only [placeReady, hready], h, hready, by simp⟩
    | cons r ready =>
      obtain ⟨s₁, hadd, hsorts, hordered⟩ := addToOrder_spec hnodes hclosed h hready
      obtain ⟨s', hrun, hsorts', hempty, hprefix⟩ := ih hsorts (by
        rw [hordered, length_append, length_singleton]
        omega)
      refine ⟨s', ?_, hsorts', hempty, ?_⟩
      · simp only [placeReady, hready, hadd, ok_bind]
        exact hrun
      · rw [hordered] at hprefix
        exact (prefix_append _ _).trans hprefix

end

/-! ### The seeds -/

/-- What seeding keeps: the ready nodes are marked, and no other node has a counter. -/
structure Seeded (s : State V) : Prop where
  ordered : s.ordered = []
  nodup : s.ready.Nodup
  marked : ∀ n ∈ s.ready, s.pending n = some (-1)
  fresh : ∀ n, n ∉ s.ready → s.pending n = none

/-- Nodes without users are ready at once. -/
theorem seedReady_spec (h : Seeded s) (hn : n ∉ s.ready) :
    ∃ s', seedReady n s = .ok s' ∧ Seeded s' ∧ s'.ready = n :: s.ready := by
  have hnone : (s.pending n).isNone = true := by rw [h.fresh n hn]; rfl
  refine ⟨_, by unfold seedReady; simp only [hnone, checkThat_true, ok_bind]; rfl, ?_, rfl⟩
  refine ⟨h.ordered, nodup_cons.mpr ⟨hn, h.nodup⟩, fun m hm => ?_, fun m hm => ?_⟩
  · by_cases hmn : m = n
    · rw [hmn]
      exact Function.update_self ..
    · have hm : m ∈ s.ready := (mem_cons.mp hm).resolve_left hmn
      exact (Function.update_of_ne hmn _ _).trans (h.marked m hm)
  · rw [mem_cons, not_or] at hm
    exact (Function.update_of_ne hm.1 _ _).trans (h.fresh m hm.2)

/-- The loop seeds the nodes without users and keeps the return value apart. -/
theorem seedNodes_spec (nodes : List V) (hnodes : nodes.Nodup) (returnValue : Option V)
    (h : Seeded s) (hdisjoint : ∀ n ∈ nodes, n ∉ s.ready) :
    ∃ returnValue' s', seedNodes f nodes returnValue s = .ok (returnValue', s') ∧ Seeded s' ∧
      (∀ n, n ∈ s'.ready ↔ n ∈ s.ready ∨ n ∈ nodes ∧ f.users n = [] ∧ f.returnValue ≠ some n) ∧
      (∀ n, returnValue' = some n → returnValue = some n ∨
        f.returnValue = some n ∧ n ∈ nodes ∧ f.users n = []) ∧
      ∀ n, f.returnValue = some n → (returnValue = some n ∨ n ∈ nodes ∧ f.users n = []) →
        returnValue' = some n := by
  induction nodes generalizing returnValue s with
  | nil => exact ⟨returnValue, s, rfl, h, by simp, by simp, by simp⟩
  | cons node rest ih =>
    obtain ⟨hnode, hnodes⟩ := nodup_cons.mp hnodes
    have hrest : ∀ n ∈ rest, n ∉ s.ready := fun n hn => hdisjoint n (mem_cons_of_mem node hn)
    rw [seedNodes]
    by_cases husers : f.users node = []
    · rw [if_pos (List.isEmpty_iff.mpr husers)]
      by_cases hreturn : f.returnValue = some node
      · rw [if_pos hreturn]
        obtain ⟨returnValue', s', hrun, hs, hready, hfrom, hto⟩ :=
          ih hnodes (some node) h hrest
        refine ⟨returnValue', s', hrun, hs, fun n => ?_, fun n hn => ?_, fun n hn hor => ?_⟩
        · rw [hready, mem_cons]
          by_cases hn : n = node
          · subst hn
            simp [hnode, hreturn]
          · simp [hn]
        · rcases hfrom n hn with hn | ⟨hn, hmem, hempty⟩
          · cases hn
            exact .inr ⟨hreturn, mem_cons_self, husers⟩
          · exact .inr ⟨hn, mem_cons_of_mem node hmem, hempty⟩
        · rw [hreturn] at hn
          exact hto n (by rw [hreturn, hn]) (.inl hn)
      · rw [if_neg hreturn]
        obtain ⟨s₁, hseed, hs₁, hready₁⟩ := seedReady_spec h (hdisjoint node mem_cons_self)
        obtain ⟨returnValue', s', hrun, hs, hready, hfrom, hto⟩ :=
          ih hnodes returnValue hs₁ (fun n hn => by
            rw [hready₁, mem_cons, not_or]
            exact ⟨fun heq => hnode (heq ▸ hn), hrest n hn⟩)
        refine ⟨returnValue', s', ?_, hs, fun n => ?_, fun n hn => ?_, fun n hn hor => ?_⟩
        · rw [allUsersScheduled, husers]
          simp only [all_nil, checkThat_true, ok_bind, hseed]
          exact hrun
        · rw [hready, hready₁, mem_cons, mem_cons]
          by_cases hn : n = node
          · subst hn
            simp [husers, hreturn]
          · simp [hn]
        · rcases hfrom n hn with hn | ⟨hn, hmem, hempty⟩
          · exact .inl hn
          · exact .inr ⟨hn, mem_cons_of_mem node hmem, hempty⟩
        · refine hto n hn (hor.imp_right fun hmem => ⟨?_, hmem.2⟩)
          exact (mem_cons.mp hmem.1).resolve_left fun heq => hreturn (heq ▸ hn)
    · rw [if_neg fun hempty => husers (List.isEmpty_iff.mp hempty)]
      obtain ⟨returnValue', s', hrun, hs, hready, hfrom, hto⟩ := ih hnodes returnValue h hrest
      refine ⟨returnValue', s', hrun, hs, fun n => ?_, fun n hn => ?_, fun n hn hor => ?_⟩
      · rw [hready, mem_cons]
        by_cases hn : n = node
        · subst hn
          simp [husers, hnode]
        · simp [hn]
      · rcases hfrom n hn with hn | ⟨hn, hmem, hempty⟩
        · exact .inl hn
        · exact .inr ⟨hn, mem_cons_of_mem node hmem, hempty⟩
      · refine hto n hn (hor.imp_right fun hmem => ⟨?_, hmem.2⟩)
        exact (mem_cons.mp hmem.1).resolve_left fun heq => husers (heq ▸ hmem.2)

/-- The nodes that are seeded are those without users, with the return value in front. -/
theorem seeds_spec (hnodes : f.nodes.Nodup) :
    ∃ returnValue s₀ s, seedNodes f f.nodes none ⟨fun _ => none, [], []⟩ = .ok (returnValue, s₀) ∧
      (match returnValue with
        | some n => seedReady n s₀
        | none => .ok s₀) = .ok s ∧ Seeded s ∧
      (∀ n, n ∈ s.ready ↔ n ∈ f.nodes ∧ f.users n = []) ∧
      ∀ r ∈ f.nodes, f.returnValue = some r → f.users r = [] → s.ready.take 1 = [r] := by
  obtain ⟨returnValue, s₀, hrun, hs, hready, hfrom, hto⟩ :=
    seedNodes_spec (f := f) f.nodes hnodes none (s := ⟨fun _ => none, [], []⟩)
      ⟨rfl, .nil, fun n hn => absurd hn not_mem_nil, fun _ _ => rfl⟩
      (fun _ _ => not_mem_nil)
  simp only [not_mem_nil, false_or, reduceCtorEq] at hready hfrom hto
  cases returnValue with
  | none =>
    have hnone : ∀ r ∈ f.nodes, f.returnValue = some r → f.users r ≠ [] :=
      fun r hr hreturn husers => nomatch hto r hreturn ⟨hr, husers⟩
    refine ⟨none, s₀, s₀, hrun, rfl, hs, fun n => ?_, fun r hr hreturn husers =>
      absurd husers (hnone r hr hreturn)⟩
    rw [hready]
    constructor
    · exact fun hn => ⟨hn.1, hn.2.1⟩
    · exact fun hn => ⟨hn.1, hn.2, fun hreturn => hnone n hn.1 hreturn hn.2⟩
  | some r =>
    obtain ⟨hreturn, hr, husers⟩ := hfrom r rfl
    obtain ⟨s, hseed, hs', hready'⟩ :=
      seedReady_spec hs fun hmem => ((hready r).mp hmem).2.2 hreturn
    refine ⟨some r, s₀, s, hrun, hseed, hs', fun n => ?_, fun r' _ hreturn' _ => ?_⟩
    · rw [hready', mem_cons, hready]
      by_cases hn : n = r
      · subst hn
        simp [hr, husers]
      · have hne : f.returnValue ≠ some n := fun h => hn (Option.some.inj (h.symm.trans hreturn))
        simp [hn, hne]
    · rw [hready', Option.some.inj (hreturn'.symm.trans hreturn)]
      rfl

/-- The seeded state sorts the nodes that are ready. -/
theorem sorts_seeds (h : Seeded s) (hready : ∀ n, n ∈ s.ready ↔ n ∈ f.nodes ∧ f.users n = []) :
    Sorts f s := by
  have husers : ∀ n, f.users n = [] ↔ ∀ u ∈ f.nodes, ¬f.Uses u n := by
    intro n
    rw [eq_nil_iff_forall_not_mem]
    exact ⟨fun hall u _ hu => hall u (mem_users.mpr hu),
      fun hall u hu => hall u (mem_users.mp hu).1 (mem_users.mp hu)⟩
  refine ⟨?_, ?_⟩
  · rw [h.ordered]
    exact Kahn.Queued.start h.nodup fun n => by rw [hready, husers]
  · rw [h.ordered, nil_append]
    intro n hn
    have hcount : Kahn.missing f.nodes f.Uses [] n = (f.users n).length := by
      refine congrArg List.length (filter_congr fun u hu => ?_)
      simp [FunctionBase.Uses, hu]
    refine ⟨h.marked n, fun hmem => ?_⟩
    rw [h.fresh n hmem, hcount]
    refine ⟨rfl, length_pos_iff.mpr fun hempty => ?_, le_refl _⟩
    exact hmem ((hready n).mpr ⟨hn, hempty⟩)

section

variable (hnodes : f.nodes.Nodup) (hclosed : ∀ n ∈ f.nodes, ∀ o ∈ f.operands n, o ∈ f.nodes)
  (hacyclic : ∀ n, ¬Relation.TransGen f.Uses n n)
include hnodes hclosed hacyclic

/-- The sorting ends with all nodes placed, a return value without users first. -/
theorem reverseTopoSort_ok :
    ∃ order, reverseTopoSort f = .ok order ∧ Kahn.Queued f.nodes f.Uses [] order ∧
      order.Perm f.nodes ∧
      ∀ r ∈ f.nodes, f.returnValue = some r → f.users r = [] → order.head? = some r := by
  obtain ⟨returnValue, s₀, s, hseeds, hreturn, hseeded, hready, hfirst⟩ := seeds_spec hnodes
  obtain ⟨s', hplace, hsorts, hempty, hprefix⟩ :=
    placeReady_spec hnodes hclosed (sorts_seeds hseeded hready) (Nat.le_add_right _ _)
  have hqueued := hsorts.queued
  rw [hempty] at hqueued
  have hperm : s'.ordered.Perm f.nodes := by
    refine (perm_ext_iff_of_nodup (nodup_append.mp hqueued.nodup).1 hnodes).mpr ?_
    exact fun n => ⟨fun hn => (hqueued.mem n (mem_append_left _ hn)).1,
      hqueued.placed_of_acyclic hacyclic⟩
  refine ⟨s'.ordered, ?_, hqueued, hperm, fun r hr hreturnValue husers => ?_⟩
  · unfold reverseTopoSort
    simp only [hseeds, ok_bind]
    cases returnValue with
    | none =>
      cases hreturn
      simp only [hplace, ok_bind, hperm.length_eq, lt_self_iff_false]
      rfl
    | some r =>
      simp only at hreturn
      simp only [hreturn, hplace, ok_bind, hperm.length_eq, lt_self_iff_false]
      rfl
  · rw [hfirst r hr hreturnValue husers, hseeded.ordered] at hprefix
    obtain ⟨rest, hrest⟩ := hprefix
    rw [← hrest]
    rfl

/-- `TopoSort` lists operands before their users. -/
theorem topoSort_ok :
    ∃ order, topoSort f = .ok order ∧ order.Perm f.nodes ∧
      order.Pairwise (fun a b => b ∉ f.operands a) := by
  obtain ⟨order, hrun, hqueued, hperm, -⟩ := reverseTopoSort_ok hnodes hclosed hacyclic
  refine ⟨order.reverse, by rw [topoSort, hrun]; rfl, order.reverse_perm.trans hperm, ?_⟩
  refine pairwise_reverse.mpr (hqueued.sorted.imp_of_mem fun {a b} ha hb hab hmem => ?_)
  exact hab ⟨hperm.mem_iff.mp hb, hmem⟩

end

/-- `ReverseTopoSort` lists every node once, after all its users, and aborts on no function
without cycles; a return value without users comes first. -/
theorem reverseTopoSort_order (hnodes : f.nodes.Nodup)
    (hclosed : ∀ n ∈ f.nodes, ∀ o ∈ f.operands n, o ∈ f.nodes)
    (hacyclic : ∀ n, ¬Relation.TransGen f.Uses n n) :
    ∃ order, reverseTopoSort f = .ok order ∧ topoSort f = .ok order.reverse ∧ order.Perm f.nodes ∧
      (∀ u n, f.Uses u n → order.idxOf u < order.idxOf n) ∧
      ∀ r ∈ f.nodes, f.returnValue = some r → f.users r = [] → order.head? = some r := by
  obtain ⟨order, hrun, hqueued, hperm, hfirst⟩ := reverseTopoSort_ok hnodes hclosed hacyclic
  refine ⟨order, hrun, by rw [topoSort, hrun]; rfl, hperm, fun u n huses => ?_, hfirst⟩
  have hn : n ∈ order := hperm.mem_iff.mpr (hclosed u huses.1 n huses.2)
  exact hqueued.idxOf_lt hn huses.1 huses

section

local instance neZeroThree : NeZero 3 := ⟨by decide⟩

/-- A sum that uses its parameter twice, and a dead node. -/
def doubled : FunctionBase (Fin 3) where
  nodes := [0, 1, 2]
  operands n := if n = 1 then [0, 0] else []
  returnValue := some 1

end

theorem reverseTopoSort_order_doubled :
    ∃ order, reverseTopoSort doubled = .ok order ∧ order.head? = some 1 := by
  have hstep : ∀ u n, doubled.Uses u n → n < u := by decide
  have hacyclic : ∀ n, ¬Relation.TransGen doubled.Uses n n := by
    intro n hcycle
    have hlt : ∀ m, Relation.TransGen doubled.Uses n m → m < n := by
      intro m hm
      induction hm with
      | single h => exact hstep _ _ h
      | tail _ h ih => exact (hstep _ _ h).trans ih
    exact lt_irrefl n (hlt n hcycle)
  obtain ⟨order, hrun, -, -, -, hreturn⟩ := reverseTopoSort_order (f := doubled)
    (by decide) (by decide) hacyclic
  exact ⟨order, hrun, hreturn 1 (by decide) rfl rfl⟩

end Xls.TopoSort

import Xls.MinCut.Search

/-!
# Xls.MinCut.Cut

`MinCutBetweenNodes` returns a cut of minimum weight (`minCutBetweenNodes_minimum`). Every
augmentation takes the same amount from the residual capacity across every cut; in the end
nothing is left across the cut that is returned, and across any other cut the capacity is not
negative.
-/

namespace Xls.MinCut

open Result List

variable {N : Type} {g : Graph N}

/-- The weight of the edges that leave a set. -/
def cutWeight (A : N → Bool) (edges : List (Edge N)) : Int :=
  (edges.map fun e => if A e.fromNode = true ∧ A e.toNode = false then e.weight else 0).sum

variable {residual residual' : ResidualGraph g} {A : N → Bool} {fuel : Nat}

theorem across_nonneg (hnonneg : ∀ e, 0 ≤ residual e) (A : N → Bool) : 0 ≤ across A residual := by
  refine Finset.sum_nonneg fun e _ => mul_nonneg ?_ (hnonneg e)
  rw [leaves]
  split <;> decide

/-- Before any flow, what can cross is the weight of the cut. -/
theorem across_initial (A : N → Bool) :
    across A (initialResidualGraph g) = cutWeight A g.edges := by
  have hterm : ∀ i : Fin g.edges.length, ∑ b : Bool, leaves A (i, b) *
      initialResidualGraph g (i, b) = if A g.edges[i].fromNode = true ∧
        A g.edges[i].toNode = false then g.edges[i].weight else 0 := by
    intro i
    rw [Fintype.sum_bool]
    change leaves A (i, true) * 0 + leaves A (i, false) * g.edges[i].weight = _
    rw [mul_zero, zero_add, leaves]
    change (if A g.edges[i].fromNode = true ∧ A g.edges[i].toNode = false then 1 else 0) * _ = _
    split
    · rw [one_mul]
    · rw [zero_mul]
  rw [across, Fintype.sum_prod_type, Finset.sum_congr rfl fun i _ => hterm i, cutWeight]
  exact Fin.sum_univ_fun_getElem g.edges fun e =>
    if A e.fromNode = true ∧ A e.toNode = false then e.weight else 0

/-- No cut weighs more than all edges together. -/
theorem cutWeight_le (A : N → Bool) (edges : List (Edge N)) :
    cutWeight A edges ≤ ((edges.map fun e => e.weight.toNat).sum : Nat) := by
  induction edges with
  | nil => exact le_refl 0
  | cons e edges ih =>
    rw [cutWeight, map_cons, sum_cons, map_cons, sum_cons]
    change _ + cutWeight A edges ≤ _
    rw [Nat.cast_add]
    refine add_le_add ?_ ih
    split
    · exact Int.self_le_toNat _
    · exact Int.natCast_nonneg _

/-- Nothing crosses a closed set. -/
theorem across_of_closed (hnonneg : ∀ e, 0 ≤ residual e)
    (hclosed : Closed residual fun n => A n = true) : across A residual = 0 := by
  refine Finset.sum_eq_zero fun e _ => ?_
  rw [leaves]
  by_cases h : A e.fromNode = true ∧ A e.toNode = false
  · have hzero : ¬0 < residual e := by
      intro hpos
      have := hclosed e h.1 hpos
      simp only [h.2, Bool.false_eq_true] at this
    have := hnonneg e
    rw [if_pos h, one_mul]
    omega
  · rw [if_neg h, zero_mul]

theorem EndsIn.mem (h : EndsIn g) {e : Edge N} (he : e ∈ g.edges) :
    e.fromNode ∈ g.nodes ∧ e.toNode ∈ g.nodes := by
  obtain ⟨i, rfl⟩ := mem_iff_get.mp he
  exact h i

/-! ### The weight that is reported -/

/-- Weights whose sum fits are added without overflow. -/
theorem foldl_addInt64 (weights : List Int) {total : Int} (htotal : 0 ≤ total)
    (hweights : ∀ w ∈ weights, 0 ≤ w) (hfits : total + weights.sum ≤ int64Max) :
    weights.foldl addInt64 total = total + weights.sum := by
  induction weights generalizing total with
  | nil => simp
  | cons w weights ih =>
    have hw : 0 ≤ w := hweights w mem_cons_self
    have hrest : ∀ w' ∈ weights, 0 ≤ w' := fun w' h => hweights w' (mem_cons_of_mem w h)
    have hsum : 0 ≤ weights.sum := sum_nonneg hrest
    rw [sum_cons] at hfits ⊢
    rw [foldl_cons, addInt64_of_nonneg (by omega) (by omega), ih (by omega) hrest (by omega)]
    ring

theorem sum_filter_weight (p : Edge N → Prop) [DecidablePred p] (edges : List (Edge N)) :
    ((edges.filter fun e => p e).map Edge.weight).sum =
      (edges.map fun e => if p e then e.weight else 0).sum := by
  induction edges with
  | nil => rfl
  | cons e edges ih =>
    by_cases hp : p e
    · simp [hp, ih]
    · simp [hp, ih]

/-- The edges that cross, listed by the nodes they leave, have the weight of the cut. -/
theorem sum_crossing [DecidableEq N] {nodes : List N} (hnodup : nodes.Nodup) (A : N → Bool)
    (edges : List (Edge N)) :
    ((nodes.flatMap fun node => edges.filter fun e =>
      e.fromNode = node ∧ A node = true ∧ A e.toNode = false).map Edge.weight).sum =
        (edges.map fun e => if e.fromNode ∈ nodes ∧ A e.fromNode = true ∧ A e.toNode = false
          then e.weight else 0).sum := by
  induction nodes with
  | nil => simp
  | cons node nodes ih =>
    obtain ⟨hnode, hnodup⟩ := nodup_cons.mp hnodup
    rw [flatMap_cons, map_append, sum_append, ih hnodup, sum_filter_weight, ← sum_map_add]
    refine congrArg List.sum (map_congr_left fun e _ => ?_)
    -- An edge leaves the first node or one of the others, not both.
    by_cases hfrom : e.fromNode = node
    · subst hfrom
      simp [hnode]
    · simp [hfrom]

/-! ### The capacities fit -/

/-- The calls of `PushFlow`: the capacities that the residual graph goes through. -/
inductive Pushes (g : Graph N) : ResidualGraph g → Prop
  | initial : Pushes g (initialResidualGraph g)
  | push {residual residual' : ResidualGraph g} {amount : Int} {e : ResidualEdge g} :
      Pushes g residual → 0 ≤ amount → pushFlow residual amount e = .ok residual' →
      Pushes g residual'

variable {amount : Int}

theorem pushFlow_ok {e : ResidualEdge g} (h : pushFlow residual amount e = .ok residual') :
    amount ≤ residual e ∧ residual' = Function.update
      (Function.update residual e (residual e - amount)) e.dualEdge
        (residual e.dualEdge + amount) := by
  by_cases hle : amount ≤ residual e
  · refine ⟨hle, ?_⟩
    rw [pushFlow, decide_eq_true hle, checkThat_true] at h
    cases h
    rw [Function.update_of_ne (dualEdge_ne e)]
  · rw [pushFlow, decide_eq_false hle] at h
    cases h

theorem dualEdge_dualEdge (e : ResidualEdge g) : e.dualEdge.dualEdge = e := by
  obtain ⟨i, b⟩ := e
  cases b <;> rfl

/-- The two directions of an edge share its weight. -/
theorem Pushes.shares (h : Pushes g residual) (hweight : ∀ e ∈ g.edges, 0 ≤ e.weight)
    (e : ResidualEdge g) :
    0 ≤ residual e ∧ residual e + residual e.dualEdge = (g.edges.get e.1).weight := by
  induction h generalizing e with
  | initial =>
    obtain ⟨i, b⟩ := e
    cases b
    · exact ⟨hweight _ (getElem_mem _),
        by simp [initialResidualGraph, ResidualEdge.dualEdge]⟩
    · exact ⟨le_refl 0, by simp [initialResidualGraph, ResidualEdge.dualEdge]⟩
  | @push residual residual' amount d _ hamount hpush ih =>
    obtain ⟨hle, rfl⟩ := pushFlow_ok hpush
    obtain ⟨hd, hsum⟩ := ih d
    have hdual := (ih d.dualEdge).1
    by_cases he : e = d
    · subst he
      rw [Function.update_of_ne (dualEdge_ne e).symm, Function.update_self, Function.update_self]
      exact ⟨by omega, by rw [← hsum]; ring⟩
    · by_cases he' : e = d.dualEdge
      · subst he'
        rw [dualEdge_dualEdge, Function.update_self, Function.update_of_ne (dualEdge_ne d).symm,
          Function.update_self]
        refine ⟨by omega, ?_⟩
        change _ = (g.edges.get d.1).weight
        rw [← hsum]
        ring
      · have hdual' : e.dualEdge ≠ d := by
          rintro rfl
          exact he' (dualEdge_dualEdge e).symm
        have hdual'' : e.dualEdge ≠ d.dualEdge := by
          intro h
          exact he (by rw [← dualEdge_dualEdge e, h, dualEdge_dualEdge])
        rw [Function.update_of_ne he', Function.update_of_ne he, Function.update_of_ne hdual'',
          Function.update_of_ne hdual']
        exact ih e

/-- Every capacity that is stored fits an `int64_t`. -/
theorem Pushes.fits (h : Pushes g residual)
    (hweight : ∀ e ∈ g.edges, 0 ≤ e.weight ∧ e.weight ≤ int64Max) (e : ResidualEdge g) :
    0 ≤ residual e ∧ residual e ≤ int64Max := by
  have hnonneg : ∀ e ∈ g.edges, 0 ≤ e.weight := fun e he => (hweight e he).1
  obtain ⟨he, hsum⟩ := h.shares hnonneg e
  have hdual := (h.shares hnonneg e.dualEdge).1
  have hmax : (g.edges.get e.1).weight ≤ int64Max := (hweight _ (get_mem ..)).2
  exact ⟨he, by omega⟩

/-! ### The run -/

variable [DecidableEq N] {source sink : N}

/-- The loop over `AugmentFlow` ends without an augmenting path. The flow it adds is the same
across every cut. -/
theorem maximizeFlow_spec (hends : EndsIn g) (hne : sink ≠ source) (hsource : A source = true)
    (hsink : A sink = false) (hnonneg : ∀ e, 0 ≤ residual e) (hfuel : across A residual < fuel) :
    ∃ residual' total, maximizeFlow source sink fuel residual = .ok residual' ∧
      (∀ e, 0 ≤ residual' e) ∧ (∀ B : N → Bool, B source = true → B sink = false →
        across B residual' = across B residual - total) ∧
      ∃ R : N → Prop, R source ∧ ¬R sink ∧ Closed residual' R := by
  induction fuel generalizing residual with
  | zero =>
    have := across_nonneg hnonneg A
    simp only [Nat.cast_zero] at hfuel
    omega
  | succ fuel ih =>
    rw [maximizeFlow]
    rcases augmentFlow_spec hnonneg hends hne with
      ⟨amount, residual₁, hrun, hpos, hpushed⟩ | ⟨hrun, hclosed⟩
    · have hacross : ∀ B : N → Bool, B source = true → B sink = false →
          across B residual₁ = across B residual - amount := by
        intro B hB hB'
        rw [hpushed.across_eq, inside, inside, hB, hB']
        simp
      have hfuel₁ : across A residual₁ < fuel := by
        rw [hacross A hsource hsink]
        push_cast at hfuel
        omega
      obtain ⟨residual', total, hrun', hnonneg', hacross', hclosed⟩ :=
        ih (hpushed.nonneg hnonneg) hfuel₁
      refine ⟨residual', amount + total, ?_, hnonneg', ?_, hclosed⟩
      · simp only [hrun, bind, Except.bind, if_pos hpos]
        exact hrun'
      · intro B hB hB'
        rw [hacross' B hB hB', hacross B hB hB']
        ring
    · refine ⟨residual, 0, ?_, hnonneg, fun B _ _ => by rw [sub_zero], hclosed⟩
      simp only [hrun, bind, Except.bind, lt_irrefl, if_false]
      rfl

/-! ### The source partition -/

/-- What the loop over the edges of a reached node keeps. -/
structure Marked (residual : ResidualGraph g) (reachable frontier reachable' frontier' : List N) :
    Prop where
  keep : ∀ n ∈ reachable, n ∈ reachable'
  new : ∀ n ∈ reachable', n ∈ reachable ∨ n ∈ frontier'
  frontier_keep : ∀ n ∈ frontier, n ∈ frontier'
  frontier_sub : (∀ n ∈ frontier, n ∈ reachable) → ∀ n ∈ frontier', n ∈ reachable'
  nodup : reachable.Nodup → reachable'.Nodup
  length_eq : reachable'.length + frontier.length = reachable.length + frontier'.length

/-- One round over the edges of a node marks what the residual edges lead to. -/
theorem reachEdges_spec (residual : ResidualGraph g) (edges : List (ResidualEdge g))
    (reachable frontier : List N) :
    Marked residual reachable frontier (reachEdges residual edges reachable frontier).1
        (reachEdges residual edges reachable frontier).2 ∧ (∀ e ∈ edges, 0 < residual e →
        e.toNode ∈ (reachEdges residual edges reachable frontier).1) ∧
      ∀ n ∈ (reachEdges residual edges reachable frontier).1,
        n ∈ reachable ∨ ∃ e ∈ edges, 0 < residual e ∧ e.toNode = n := by
  induction edges generalizing reachable frontier with
  | nil =>
    exact ⟨⟨fun _ h => h, fun _ h => .inl h, fun _ h => h, fun h => h, fun h => h, rfl⟩,
      fun e he => absurd he not_mem_nil, fun n hn => .inl hn⟩
  | cons e rest ih =>
    rw [reachEdges]
    by_cases hmark : 0 < residual e ∧ e.toNode ∉ reachable
    · rw [if_pos hmark]
      obtain ⟨hm, hall, hnew⟩ := ih (e.toNode :: reachable) (frontier ++ [e.toNode])
      refine ⟨⟨?_, ?_, ?_, ?_, ?_, ?_⟩, ?_, ?_⟩
      · exact fun n hn => hm.keep n (mem_cons_of_mem _ hn)
      · intro n hn
        rcases hm.new n hn with h | h
        · rcases mem_cons.mp h with rfl | h
          · exact .inr (hm.frontier_keep _
              (mem_append_right _ (mem_singleton.mpr rfl)))
          · exact .inl h
        · exact .inr h
      · exact fun n hn => hm.frontier_keep n (mem_append_left _ hn)
      · intro hsub
        refine hm.frontier_sub fun n hn => ?_
        rcases mem_append.mp hn with hn | hn
        · exact mem_cons_of_mem _ (hsub n hn)
        · rw [mem_singleton.mp hn]
          exact mem_cons_self
      · exact fun hnodup => hm.nodup (nodup_cons.mpr ⟨hmark.2, hnodup⟩)
      · have := hm.length_eq
        simp only [length_cons, length_append, length_nil] at this
        omega
      · intro d hd hpos
        rcases mem_cons.mp hd with rfl | hd
        · exact hm.keep _ mem_cons_self
        · exact hall d hd hpos
      · intro n hn
        rcases hnew n hn with h | ⟨d, hd, hpos, hto⟩
        · rcases mem_cons.mp h with rfl | h
          · exact .inr ⟨e, mem_cons_self, hmark.1, rfl⟩
          · exact .inl h
        · exact .inr ⟨d, mem_cons_of_mem e hd, hpos, hto⟩
    · rw [if_neg hmark]
      obtain ⟨hm, hall, hnew⟩ := ih reachable frontier
      refine ⟨hm, ?_, ?_⟩
      · intro d hd hpos
        rcases mem_cons.mp hd with rfl | hd
        · by_contra hnot
          exact hmark ⟨hpos, fun h => hnot (hm.keep _ h)⟩
        · exact hall d hd hpos
      · intro n hn
        rcases hnew n hn with h | ⟨d, hd, hpos, hto⟩
        · exact .inl h
        · exact .inr ⟨d, mem_cons_of_mem e hd, hpos, hto⟩

/-- The walk from the source marks the least closed set that contains it. -/
theorem reach_spec (hends : EndsIn g) (residual : ResidualGraph g) {reachable frontier : List N}
    (hnodup : reachable.Nodup) (hnodes : ∀ n ∈ reachable, n ∈ g.nodes)
    (hsub : ∀ n ∈ frontier, n ∈ reachable)
    (hdone : ∀ e : ResidualEdge g, e.fromNode ∈ reachable → e.fromNode ∉ frontier →
      0 < residual e → e.toNode ∈ reachable)
    (hfuel : g.nodes.length + frontier.length ≤ fuel + reachable.length) :
    ∃ reached, reach residual fuel reachable frontier = .ok reached ∧
      (∀ n ∈ reachable, n ∈ reached) ∧ Closed residual (· ∈ reached) ∧
      ∀ R : N → Prop, (∀ n ∈ reachable, R n) → Closed residual R → ∀ n ∈ reached, R n := by
  induction fuel generalizing reachable frontier with
  | zero =>
    have hle := length_le_of_nodup hnodup hnodes
    cases frontier with
    | nil =>
      refine ⟨reachable, rfl, fun _ h => h, ?_, fun R hR _ => hR⟩
      exact fun e he hpos => hdone e he not_mem_nil hpos
    | cons node frontier =>
      rw [length_cons] at hfuel
      omega
  | succ fuel ih =>
    cases frontier with
    | nil =>
      refine ⟨reachable, rfl, fun _ h => h, ?_, fun R hR _ => hR⟩
      exact fun e he hpos => hdone e he not_mem_nil hpos
    | cons node frontier =>
      rw [reach]
      obtain ⟨hm, hall, hnew⟩ :=
        reachEdges_spec residual (successors g node) reachable frontier
      have hnode : node ∈ reachable := hsub node mem_cons_self
      have hlength := hm.length_eq
      rw [length_cons] at hfuel
      obtain ⟨reached, hrun, hkeep, hclosed, hleast⟩ := ih (hm.nodup hnodup)
        (fun n hn => by
          rcases hnew n hn with h | ⟨e, -, -, rfl⟩
          · exact hnodes n h
          · exact hends.toNode e)
        (hm.frontier_sub fun n hn => hsub n (mem_cons_of_mem node hn))
        (fun e he hnot hpos => by
          by_cases hen : e.fromNode = node
          · exact hall e (mem_successors.mpr hen) hpos
          · have hnotMem : e.fromNode ∉ node :: frontier := by
              intro h
              rcases mem_cons.mp h with h | h
              · exact hen h
              · exact hnot (hm.frontier_keep _ h)
            rcases hm.new _ he with h | h
            · exact hm.keep _ (hdone e h hnotMem hpos)
            · exact absurd h hnot)
        (by omega)
      refine ⟨reached, hrun, fun n hn => hkeep n (hm.keep n hn), hclosed, ?_⟩
      intro R hR hRclosed
      refine hleast R (fun n hn => ?_) hRclosed
      rcases hnew n hn with h | ⟨e, he, hpos, rfl⟩
      · exact hR n h
      · refine hRclosed e ?_ hpos
        rw [mem_successors.mp he]
        exact hR node hnode

/-- `MinCutBetweenNodes` returns, and its source partition has minimum weight among the sets
that contain the source and not the sink. -/
theorem minCutBetweenNodes_spec (hends : EndsIn g) (hsource : source ∈ g.nodes)
    (hne : sink ≠ source) (hweight : ∀ e ∈ g.edges, 0 ≤ e.weight) :
    ∃ cut, ∃ S : N → Bool, minCutBetweenNodes g source sink = .ok cut ∧
      S source = true ∧ S sink = false ∧ cut.sourcePartition = g.nodes.filter S ∧
      cut.sinkPartition = g.nodes.filter (fun n => !S n) ∧
      ∀ A : N → Bool, A source = true → A sink = false →
        cutWeight S g.edges ≤ cutWeight A g.edges := by
  have hnonneg : ∀ e, 0 ≤ initialResidualGraph g e := by
    rintro ⟨i, b⟩
    cases b
    · exact hweight _ (getElem_mem _)
    · exact le_refl 0
  have hfuel : across (fun n => decide (n = source)) (initialResidualGraph g) <
      ((g.edges.map fun e => e.weight.toNat).sum + 1 : Nat) := by
    rw [across_initial]
    have := cutWeight_le (fun n => decide (n = source)) g.edges
    omega
  obtain ⟨residual, total, hmax, hnonneg', hacross, R, hRsource, hRsink, hRclosed⟩ :=
    maximizeFlow_spec hends hne (decide_eq_true rfl) (decide_eq_false hne) hnonneg hfuel
  have hcount : g.nodes.length + [source].length ≤ g.nodes.length + 1 + [source].length := by omega
  obtain ⟨reached, hreach, hkeep, hclosed, hleast⟩ := reach_spec hends residual
    (nodup_cons.mpr ⟨not_mem_nil, nodup_nil⟩)
    (fun n hn => by rw [mem_singleton.mp hn]; exact hsource)
    (fun n hn => hn) (fun e he hnot => absurd he hnot) hcount
  have hsinkReached : sink ∉ reached := fun h =>
    hRsink (hleast R (fun n hn => by rw [mem_singleton.mp hn]; exact hRsource) hRclosed sink h)
  refine ⟨cutBetween g reached, fun n => decide (n ∈ reached), ?_, ?_, ?_, ?_, ?_, ?_⟩
  · rw [minCutBetweenNodes, hmax]
    simp only [bind, Except.bind, hreach, decide_eq_true hsinkReached, checkThat_true]
    rfl
  · exact decide_eq_true (hkeep source (mem_singleton.mpr rfl))
  · exact decide_eq_false hsinkReached
  · rfl
  · refine filter_congr fun n _ => ?_
    by_cases h : n ∈ reached <;> simp [h]
  · intro A hA hA'
    have hzero : across (fun n => decide (n ∈ reached)) residual = 0 := by
      refine across_of_closed hnonneg' ?_
      intro e he hpos
      simp only [decide_eq_true_eq] at he ⊢
      exact hclosed e he hpos
    have hcut := hacross (fun n => decide (n ∈ reached))
      (decide_eq_true (hkeep source (mem_singleton.mpr rfl))) (decide_eq_false hsinkReached)
    have hother := hacross A hA hA'
    have := across_nonneg hnonneg' A
    rw [across_initial] at hcut hother
    omega

/-! ### The cut that is returned -/

/-- Pushing along a path keeps that the residual graph comes from pushes. -/
theorem augmentPath_pushes {pathBack : PathBack g} (hamount : 0 ≤ amount) {n : N}
    (hresidual : Pushes g residual)
    (h : augmentPath source amount pathBack fuel n residual = .ok residual') :
    Pushes g residual' := by
  induction fuel generalizing n residual with
  | zero => cases h
  | succ fuel ih =>
    rw [augmentPath] at h
    split at h
    · cases h
      exact hresidual
    · obtain ⟨entry, -, h⟩ := bind_eq_ok.mp h
      obtain ⟨next, hpush, h⟩ := bind_eq_ok.mp h
      obtain ⟨-, -, h⟩ := bind_eq_ok.mp h
      exact ih (hresidual.push hamount hpush) h

/-- An augmentation keeps that the residual graph comes from pushes. -/
theorem augmentFlow_pushes (hresidual : Pushes g residual)
    (h : augmentFlow source sink residual = .ok (amount, residual')) : Pushes g residual' := by
  rw [augmentFlow] at h
  obtain ⟨found, -, h⟩ := bind_eq_ok.mp h
  cases found with
  | none =>
    cases h
    exact hresidual
  | some pathBack =>
    obtain ⟨entry, -, h⟩ := bind_eq_ok.mp h
    obtain ⟨_, hpos, h⟩ := bind_eq_ok.mp h
    obtain ⟨next, hpath, h⟩ := bind_eq_ok.mp h
    cases h
    have hamount : 0 < entry.2 := of_decide_eq_true (checkThat_eq_ok.mp hpos)
    exact augmentPath_pushes hamount.le hresidual hpath

/-- The loop changes capacities by `PushFlow` only. -/
theorem maximizeFlow_pushes (hresidual : Pushes g residual)
    (h : maximizeFlow source sink fuel residual = .ok residual') : Pushes g residual' := by
  induction fuel generalizing residual with
  | zero => cases h
  | succ fuel ih =>
    rw [maximizeFlow] at h
    obtain ⟨⟨amount, next⟩, hflow, h⟩ := bind_eq_ok.mp h
    have hnext : Pushes g next := augmentFlow_pushes hresidual hflow
    simp only at h
    split at h
    · exact ih hnext h
    · cases h
      exact hnext

theorem minCutBetweenNodes_ok {cut : GraphCut N} (h : minCutBetweenNodes g source sink = .ok cut) :
    ∃ residual reached, Pushes g residual ∧
      reach residual (g.nodes.length + 1) [source] [source] = .ok reached ∧
      cut = cutBetween g reached := by
  rw [minCutBetweenNodes] at h
  obtain ⟨residual, hmax, h⟩ := bind_eq_ok.mp h
  obtain ⟨reached, hreach, h⟩ := bind_eq_ok.mp h
  obtain ⟨-, -, h⟩ := bind_eq_ok.mp h
  cases h
  exact ⟨residual, reached, maximizeFlow_pushes .initial hmax, hreach, rfl⟩

/-- The weight that is reported is the weight of the edges that cross, when that fits. -/
theorem weight_cutBetween (hnodes : g.nodes.Nodup) (hends : EndsIn g) {reached : List N}
    (hA : ∀ n ∈ g.nodes, A n = decide (n ∈ reached)) (hweight : ∀ e ∈ g.edges, 0 ≤ e.weight)
    (hfits : cutWeight A g.edges ≤ int64Max) :
    (cutBetween g reached).weight = cutWeight A g.edges := by
  have hcrossing : (g.nodes.flatMap fun node => g.edges.filter fun e =>
      e.fromNode = node ∧ node ∈ reached ∧ e.toNode ∉ reached) =
      g.nodes.flatMap fun node => g.edges.filter fun e =>
        e.fromNode = node ∧ A node = true ∧ A e.toNode = false := by
    refine flatMap_congr fun node hnode => filter_congr fun e he => ?_
    simp [hA node hnode, hA _ (hends.mem he).2]
  have hsum : ((g.nodes.flatMap fun node => g.edges.filter fun e => e.fromNode = node ∧
      A node = true ∧ A e.toNode = false).map Edge.weight).sum = cutWeight A g.edges := by
    rw [sum_crossing hnodes, cutWeight]
    refine congrArg List.sum (map_congr_left fun e he => ?_)
    simp [(hends.mem he).1]
  rw [cutBetween, hcrossing]
  refine (foldl_addInt64 _ (le_refl 0) ?_ ?_).trans (by rw [zero_add, hsum])
  · intro w hw
    obtain ⟨e, he, rfl⟩ := mem_map.mp hw
    obtain ⟨node, -, he⟩ := mem_flatMap.mp he
    exact hweight e (mem_filter.mp he).1
  · rw [hsum, zero_add]
    exact hfits

/-- `MinCutBetweenNodes` returns a minimum cut, with its weight, when the weight of some cut
fits an `int64_t`; the capacities that it stores fit as well. -/
theorem minCutBetweenNodes_minimum (hnodes : g.nodes.Nodup) (hends : EndsIn g)
    (hsource : source ∈ g.nodes) (hsink : sink ∈ g.nodes) (hne : sink ≠ source)
    (hweight : ∀ e ∈ g.edges, 0 ≤ e.weight ∧ e.weight ≤ int64Max)
    (hfits : ∃ A : N → Bool, A source = true ∧ A sink = false ∧ cutWeight A g.edges ≤ int64Max) :
    (∃ cut, ∃ S : N → Bool, minCutBetweenNodes g source sink = .ok cut ∧
      source ∈ cut.sourcePartition ∧ sink ∈ cut.sinkPartition ∧
      cut.sourcePartition = g.nodes.filter S ∧ cut.sinkPartition = g.nodes.filter (fun n => !S n) ∧
      cut.weight = cutWeight S g.edges ∧ ∀ A : N → Bool, A source = true → A sink = false →
        cut.weight ≤ cutWeight A g.edges) ∧
    ∀ residual, Pushes g residual → ∀ e, 0 ≤ residual e ∧ residual e ≤ int64Max := by
  refine ⟨?_, fun residual h => h.fits hweight⟩
  have hnonneg : ∀ e ∈ g.edges, 0 ≤ e.weight := fun e he => (hweight e he).1
  obtain ⟨cut, S, hrun, hSsource, hSsink, hsourcePart, hsinkPart, hmin⟩ :=
    minCutBetweenNodes_spec hends hsource hne hnonneg
  obtain ⟨residual, reached, -, -, rfl⟩ := minCutBetweenNodes_ok hrun
  have hS : ∀ n ∈ g.nodes, S n = decide (n ∈ reached) := by
    intro n hn
    have hfilter : n ∈ g.nodes.filter (fun n => decide (n ∈ reached)) ↔ n ∈ g.nodes.filter S :=
      Eq.to_iff (congrArg (n ∈ ·) hsourcePart)
    simp only [mem_filter, hn, true_and, decide_eq_true_eq] at hfilter
    by_cases hmem : n ∈ reached
    · simp [hmem, hfilter.mp hmem]
    · simpa [hmem] using fun h => hmem (hfilter.mpr h)
  obtain ⟨A, hAsource, hAsink, hAfits⟩ := hfits
  have hcut := weight_cutBetween hnodes hends hS hnonneg ((hmin A hAsource hAsink).trans hAfits)
  refine ⟨_, S, hrun, ?_, ?_, hsourcePart, hsinkPart, hcut, ?_⟩
  · rw [hsourcePart]
    exact mem_filter.mpr ⟨hsource, hSsource⟩
  · rw [hsinkPart]
    exact mem_filter.mpr ⟨hsink, by rw [hSsink]; rfl⟩
  · intro B hB hB'
    rw [hcut]
    exact hmin B hB hB'

section

local instance neZeroThree : NeZero 3 := ⟨by decide⟩

/-- Two parallel edges of the largest weight, of which the sink hangs on a light one. -/
def saturatedGraph : Graph (Fin 3) where
  nodes := [0, 1, 2]
  edges := [⟨0, 1, int64Max⟩, ⟨0, 1, int64Max⟩, ⟨1, 1, 5⟩, ⟨1, 2, 3⟩]

end

theorem minCutBetweenNodes_minimum_saturatedGraph :
    ∃ cut, minCutBetweenNodes saturatedGraph 0 2 = .ok cut ∧ cut.weight ≤ 3 := by
  have hsource : (0 : Fin 3) ∈ saturatedGraph.nodes := by decide
  have hsink : (2 : Fin 3) ∈ saturatedGraph.nodes := by decide
  have hends : EndsIn saturatedGraph := by unfold EndsIn; decide
  obtain ⟨⟨cut, S, hrun, -, -, -, -, -, hmin⟩, -⟩ :=
    minCutBetweenNodes_minimum (by decide) hends hsource hsink (by decide) (by decide)
      ⟨fun n => n ≠ 2, by decide, by decide, by decide⟩
  exact ⟨cut, hrun, hmin (fun n => n ≠ 2) (by decide) (by decide)⟩

end Xls.MinCut

import Xls.MinCut.Flow

/-!
# Xls.MinCut.Search

The breadth-first searches end (`augmentFlow_spec`). The search for an augmenting path either
finds the sink, with paths that can take their capacity, or shows a set of nodes that
contains the source and not the sink and that no residual capacity leaves. The walk that
marks the source partition finds the least such set.
-/

namespace Xls.MinCut

open List

variable {N : Type} {g : Graph N}

/-- No residual capacity leaves the set. -/
def Closed (residual : ResidualGraph g) (R : N → Prop) : Prop :=
  ∀ e : ResidualEdge g, R e.fromNode → 0 < residual e → R e.toNode

/-- The ends of the edges are nodes of the graph. -/
def EndsIn (g : Graph N) : Prop :=
  ∀ i : Fin g.edges.length, (g.edges.get i).fromNode ∈ g.nodes ∧ (g.edges.get i).toNode ∈ g.nodes

theorem EndsIn.toNode (h : EndsIn g) (e : ResidualEdge g) : e.toNode ∈ g.nodes := by
  obtain ⟨i, b⟩ := e
  cases b
  · exact (h i).2
  · exact (h i).1

/-- Distinct members of a list are at most as many as the list has. -/
theorem length_le_of_nodup {xs ys : List N} (hxs : xs.Nodup) (h : ∀ x ∈ xs, x ∈ ys) :
    xs.length ≤ ys.length :=
  (subperm_of_subset hxs h).length_le

variable [DecidableEq N] {source sink : N} {residual : ResidualGraph g}
  {n : N} {e : ResidualEdge g} {pathBack' : PathBack g}

/-- The edges that leave a node. -/
theorem mem_successors : e ∈ successors g n ↔ e.fromNode = n := by
  obtain ⟨i, b⟩ := e
  rw [successors, mem_flatMap]
  constructor
  · rintro ⟨j, -, hmem⟩
    rcases mem_append.mp hmem with hmem | hmem
    · split at hmem
      · rename_i hj
        cases mem_singleton.mp hmem
        exact hj
      · cases hmem
    · split at hmem
      · rename_i hj
        cases mem_singleton.mp hmem
        exact hj
      · cases hmem
  · intro h
    refine ⟨i, mem_finRange i, mem_append.mpr ?_⟩
    cases b
    · left
      have hi : g.edges[i].fromNode = n := h
      rw [if_pos hi]
      exact mem_singleton.mpr rfl
    · right
      have hi : g.edges[i].toNode = n := h
      rw [if_pos hi]
      exact mem_singleton.mpr rfl

/-! ### The search for an augmenting path -/

/-- The nodes that were found. -/
def foundNodes (pathBack : PathBack g) : List N := pathBack.map Prod.fst

variable {pathBack : PathBack g}

/-- A node has no path back if it was not found. -/
theorem pathBackAt_eq_none : pathBackAt n pathBack = none ↔ n ∉ foundNodes pathBack := by
  induction pathBack with
  | nil => simp [pathBackAt, foundNodes]
  | cons entry rest ih =>
    obtain ⟨m, entry⟩ := entry
    rw [pathBackAt]
    by_cases hm : m = n
    · subst hm
      simp [foundNodes]
    · rw [if_neg hm, ih]
      simp [foundNodes, Ne.symm hm]

theorem pathBackAt_isSome : (pathBackAt n pathBack).isSome = true ↔ n ∈ foundNodes pathBack := by
  rw [Option.isSome_iff_ne_none, Ne, pathBackAt_eq_none, not_not]

theorem PathsOk.nodup (h : PathsOk source residual pathBack) : (foundNodes pathBack).Nodup := by
  induction pathBack with
  | nil => exact nodup_nil
  | cons entry rest ih =>
    obtain ⟨m, e, c⟩ := entry
    exact nodup_cons.mpr ⟨pathBackAt_eq_none.mp h.1, ih h.2.2.2.2.2⟩

/-- Nodes that were found belong to the graph. -/
theorem PathsOk.mem_nodes (h : PathsOk source residual pathBack) (hends : EndsIn g)
    (hn : n ∈ foundNodes pathBack) : n ∈ g.nodes := by
  induction pathBack with
  | nil => cases hn
  | cons entry rest ih =>
    obtain ⟨m, e, c⟩ := entry
    rcases mem_cons.mp hn with rfl | hn
    · have hto : e.toNode = n := h.2.1
      rw [← hto]
      exact hends.toNode e
    · exact ih h.2.2.2.2.2 hn

/-- The nodes that have a path from the source. -/
def Known (source : N) (pathBack : PathBack g) (n : N) : Prop :=
  n = source ∨ n ∈ foundNodes pathBack

/-- What the loops over edges and nodes keep. -/
structure Grown (source : N) (residual : ResidualGraph g) (pathBack : PathBack g)
    (nextFrontier : List N) (pathBack' : PathBack g) (nextFrontier' : List N) : Prop where
  ok : PathsOk source residual pathBack'
  keep : ∀ n ∈ foundNodes pathBack, n ∈ foundNodes pathBack'
  new : ∀ n ∈ foundNodes pathBack', n ∈ foundNodes pathBack ∨ n ∈ nextFrontier'
  next_keep : ∀ n ∈ nextFrontier, n ∈ nextFrontier'
  next_found : (∀ n ∈ nextFrontier, n ∈ foundNodes pathBack) →
    ∀ n ∈ nextFrontier', n ∈ foundNodes pathBack'
  length_eq : pathBack'.length + nextFrontier.length = pathBack.length + nextFrontier'.length

theorem Grown.refl (h : PathsOk source residual pathBack) (nextFrontier : List N) :
    Grown source residual pathBack nextFrontier pathBack nextFrontier where
  ok := h
  keep _ hn := hn
  new _ hn := .inl hn
  next_keep _ hn := hn
  next_found h := h
  length_eq := rfl

/-- Growing the paths twice. -/
theorem Grown.trans {pathBack'' : PathBack g} {next next' next'' : List N}
    (h : Grown source residual pathBack next pathBack' next')
    (h' : Grown source residual pathBack' next' pathBack'' next'') :
    Grown source residual pathBack next pathBack'' next'' where
  ok := h'.ok
  keep n hn := h'.keep n (h.keep n hn)
  new n hn := by
    rcases h'.new n hn with hn | hn
    · exact (h.new n hn).imp_right (h'.next_keep n)
    · exact .inr hn
  next_keep n hn := h'.next_keep n (h.next_keep n hn)
  next_found hall := h'.next_found (h.next_found hall)
  length_eq := by
    have := h.length_eq
    have := h'.length_eq
    omega

theorem Known.grown {next next' : List N} (hn : Known source pathBack n)
    (h : Grown source residual pathBack next pathBack' next') : Known source pathBack' n :=
  hn.imp_right (h.keep n)

/-- An edge with capacity left is taken if its end was not found before. -/
theorem maybeExtendFrontier_spec (hok : PathsOk source residual pathBack)
    (hknown : Known source pathBack e.fromNode) (hpos : 0 < residual e) (next : List N) :
    Grown source residual pathBack next (maybeExtendFrontier residual e pathBack next).1
        (maybeExtendFrontier residual e pathBack next).2 ∧
      e.toNode ∈ foundNodes (maybeExtendFrontier residual e pathBack next).1 ∧
      ∀ n ∈ foundNodes (maybeExtendFrontier residual e pathBack next).1,
        n ∈ foundNodes pathBack ∨ n = e.toNode := by
  rw [maybeExtendFrontier]
  by_cases hto : (pathBackAt e.toNode pathBack).isSome = true
  · rw [if_pos hto]
    exact ⟨Grown.refl hok next, pathBackAt_isSome.mp hto, fun n hn => .inl hn⟩
  · rw [if_neg hto]
    have hnone : pathBackAt e.toNode pathBack = none := by
      rw [pathBackAt_eq_none, ← pathBackAt_isSome]
      exact hto
    refine ⟨⟨?_, ?_, ?_, ?_, ?_, ?_⟩, mem_cons_self, ?_⟩
    · refine ⟨hnone, rfl, ?_, min_le_right _ _, ?_, hok⟩
      · refine lt_min ?_ hpos
        cases hfrom : pathBackAt e.fromNode pathBack with
        | none =>
          change 0 < int64Max
          decide
        | some entry => exact (toNode_of_pathBackAt hok hfrom).2
      · rcases hknown with h | h
        · exact .inl h
        · obtain ⟨⟨e', c'⟩, hentry⟩ := Option.isSome_iff_exists.mp (pathBackAt_isSome.mpr h)
          refine .inr ⟨e', c', hentry, ?_⟩
          rw [hentry]
          exact min_le_left _ _
    · exact fun n hn => mem_cons_of_mem _ hn
    · intro n hn
      rcases mem_cons.mp hn with rfl | hn
      · exact .inr (mem_append_right _ (mem_singleton.mpr rfl))
      · exact .inl hn
    · exact fun n hn => mem_append_left _ hn
    · intro hall n hn
      rcases mem_append.mp hn with hn | hn
      · exact mem_cons_of_mem _ (hall n hn)
      · rw [mem_singleton.mp hn]
        exact mem_cons_self
    · simp only [length_cons, length_append, length_nil]
      omega
    · intro n hn
      rcases mem_cons.mp hn with rfl | hn
      · exact .inr rfl
      · exact .inl hn

/-- What a loop of the search returns: the sink was found, or the paths have grown and what
the loop is about holds. -/
def Scanned (source sink : N) (residual : ResidualGraph g) (pathBack : PathBack g)
    (next : List N) (P : PathBack g → Prop) : Search g → Prop
  | .found pathBack' => PathsOk source residual pathBack' ∧ sink ∈ foundNodes pathBack'
  | .frontier pathBack' next' => Grown source residual pathBack next pathBack' next' ∧
      sink ∉ foundNodes pathBack' ∧ P pathBack'

section

variable (hnonneg : ∀ e, 0 ≤ residual e)
include hnonneg

/-- Scanning the edges finds all their ends, or the sink. -/
theorem scanEdges_spec (edges : List (ResidualEdge g)) (next : List N)
    (hok : PathsOk source residual pathBack) (hsink : sink ∉ foundNodes pathBack)
    (hknown : ∀ e ∈ edges, Known source pathBack e.fromNode) :
    ∃ result, scanEdges sink residual edges pathBack next = .ok result ∧
      Scanned source sink residual pathBack next
        (fun pathBack' => ∀ e ∈ edges, 0 < residual e → e.toNode ∈ foundNodes pathBack')
        result := by
  induction edges generalizing pathBack next with
  | nil => exact ⟨_, rfl, Grown.refl hok next, hsink, fun e he => nomatch he⟩
  | cons e rest ih =>
    have hrest : ∀ d ∈ rest, Known source pathBack d.fromNode :=
      fun d hd => hknown d (mem_cons_of_mem e hd)
    rw [scanEdges, decide_eq_true (hnonneg e), checkThat_true]
    by_cases hpos : 0 < residual e
    · simp only [bind, Except.bind, if_pos hpos]
      obtain ⟨hgrown, hfound, hnew⟩ :=
        maybeExtendFrontier_spec hok (hknown e mem_cons_self) hpos next
      by_cases hto : e.toNode = sink
      · rw [if_pos hto]
        exact ⟨_, rfl, hgrown.ok, hto ▸ hfound⟩
      · rw [if_neg hto]
        have hsink' : sink ∉ foundNodes (maybeExtendFrontier residual e pathBack next).1 := by
          intro hmem
          rcases hnew sink hmem with h | h
          · exact hsink h
          · exact hto h.symm
        obtain ⟨result, hrun, hresult⟩ := ih _ hgrown.ok hsink'
          fun d hd => (hrest d hd).grown hgrown
        refine ⟨result, hrun, ?_⟩
        cases result with
        | found pathBack' => exact hresult
        | frontier pathBack' next' =>
          obtain ⟨hgrown', hsink'', hall⟩ := hresult
          refine ⟨hgrown.trans hgrown', hsink'', ?_⟩
          intro d hd hdpos
          rcases mem_cons.mp hd with rfl | hd
          · exact hgrown'.keep _ hfound
          · exact hall d hd hdpos
    · simp only [bind, Except.bind, if_neg hpos]
      obtain ⟨result, hrun, hresult⟩ := ih next hok hsink hrest
      refine ⟨result, hrun, ?_⟩
      cases result with
      | found pathBack' => exact hresult
      | frontier pathBack' next' =>
        obtain ⟨hgrown', hsink'', hall⟩ := hresult
        refine ⟨hgrown', hsink'', ?_⟩
        intro d hd hdpos
        rcases mem_cons.mp hd with rfl | hd
        · exact absurd hdpos hpos
        · exact hall d hd hdpos

/-- Scanning a frontier finds all ends of its edges, or the sink. -/
theorem scanNodes_spec (nodes : List N) (next : List N) (hok : PathsOk source residual pathBack)
    (hsink : sink ∉ foundNodes pathBack) (hknown : ∀ n ∈ nodes, Known source pathBack n) :
    ∃ result, scanNodes sink residual nodes pathBack next = .ok result ∧
      Scanned source sink residual pathBack next (fun pathBack' => ∀ e : ResidualEdge g,
        e.fromNode ∈ nodes → 0 < residual e → e.toNode ∈ foundNodes pathBack') result := by
  induction nodes generalizing pathBack next with
  | nil => exact ⟨_, rfl, Grown.refl hok next, hsink, fun e he => nomatch he⟩
  | cons node rest ih =>
    obtain ⟨result, hrun, hresult⟩ := scanEdges_spec hnonneg (successors g node) next hok hsink
      fun e he => by
        rw [mem_successors.mp he]
        exact hknown node mem_cons_self
    rw [scanNodes, hrun]
    cases result with
    | found pathBack' => exact ⟨_, rfl, hresult⟩
    | frontier pathBack' next' =>
      obtain ⟨hgrown, hsink', hall⟩ := hresult
      obtain ⟨result, hrun', hresult'⟩ := ih next' hgrown.ok hsink'
        fun n hn => (hknown n (mem_cons_of_mem node hn)).grown hgrown
      refine ⟨result, hrun', ?_⟩
      cases result with
      | found pathBack'' => exact hresult'
      | frontier pathBack'' next'' =>
        obtain ⟨hgrown', hsink'', hall'⟩ := hresult'
        refine ⟨hgrown.trans hgrown', hsink'', ?_⟩
        intro e he hpos
        rcases mem_cons.mp he with he | he
        · exact hgrown'.keep _ (hall e (mem_successors.mpr he) hpos)
        · exact hall' e he hpos

/-- The search finds the sink, or a closed set without it. -/
theorem search_spec (hends : EndsIn g) (hne : sink ≠ source) {fuel : Nat} {frontier : List N}
    (hok : PathsOk source residual pathBack) (hsink : sink ∉ foundNodes pathBack)
    (hfrontier : ∀ n ∈ frontier, Known source pathBack n)
    (hdone : ∀ e : ResidualEdge g, Known source pathBack e.fromNode → e.fromNode ∉ frontier →
      0 < residual e → e.toNode ∈ foundNodes pathBack)
    (hfuel : frontier = [] ∧ 0 < fuel ∨ g.nodes.length + 2 ≤ fuel + pathBack.length) :
    (∃ pathBack', search sink residual fuel frontier pathBack = .ok (some pathBack') ∧
        PathsOk source residual pathBack' ∧ sink ∈ foundNodes pathBack') ∨
      search sink residual fuel frontier pathBack = .ok none ∧
        ∃ R : N → Prop, R source ∧ ¬R sink ∧ Closed residual R := by
  induction fuel generalizing frontier pathBack with
  | zero =>
    have hle := length_le_of_nodup hok.nodup fun n hn => hok.mem_nodes hends hn
    rw [foundNodes, length_map] at hle
    rcases hfuel with ⟨-, h⟩ | h <;> omega
  | succ fuel ih =>
    have hle := length_le_of_nodup hok.nodup fun n hn => hok.mem_nodes hends hn
    rw [foundNodes, length_map] at hle
    rw [search]
    cases frontier with
    | nil =>
      right
      refine ⟨rfl, Known source pathBack, .inl rfl, ?_, ?_⟩
      · rintro (h | h)
        · exact hne h
        · exact hsink h
      · intro e he hpos
        exact .inr (hdone e he not_mem_nil hpos)
    | cons node rest =>
      have hfuel' : g.nodes.length + 2 ≤ fuel + 1 + pathBack.length := by
        rcases hfuel with ⟨h, -⟩ | h
        · cases h
        · exact h
      obtain ⟨result, hrun, hresult⟩ :=
        scanNodes_spec hnonneg (node :: rest) [] hok hsink hfrontier
      simp only [isEmpty_cons, Bool.false_eq_true, if_false, bind, Except.bind, hrun]
      cases result with
      | found pathBack' => exact .inl ⟨pathBack', rfl, hresult⟩
      | frontier pathBack' next' =>
        obtain ⟨hgrown, hsink', hall⟩ := hresult
        have hlength := hgrown.length_eq
        refine ih hgrown.ok hsink' ?_ ?_ ?_
        · intro n hn
          exact .inr (hgrown.next_found (fun n hn => nomatch hn) n hn)
        · intro e hknown hnotMem hpos
          rcases hknown with hsource | hfound
          · by_cases hmem : e.fromNode ∈ node :: rest
            · exact hall e hmem hpos
            · exact hgrown.keep _ (hdone e (.inl hsource) hmem hpos)
          · rcases hgrown.new _ hfound with hold | hnew
            · by_cases hmem : e.fromNode ∈ node :: rest
              · exact hall e hmem hpos
              · exact hgrown.keep _ (hdone e (.inr hold) hmem hpos)
            · exact absurd hnew hnotMem
        · cases next' with
          | nil => exact .inl ⟨rfl, by omega⟩
          | cons n next' =>
            rw [length_cons] at hlength
            simp only [length_nil] at hlength
            exact .inr (by omega)

/-- `AugmentFlow` augments the flow, or there is a closed set without the sink. -/
theorem augmentFlow_spec (hends : EndsIn g) (hne : sink ≠ source) :
    (∃ amount residual', augmentFlow source sink residual = .ok (amount, residual') ∧
        0 < amount ∧ Pushed amount source sink residual residual') ∨
      augmentFlow source sink residual = .ok (0, residual) ∧
        ∃ R : N → Prop, R source ∧ ¬R sink ∧ Closed residual R := by
  have hsearch : (∃ pathBack', search sink residual (g.nodes.length + 2) [source] [] =
        .ok (some pathBack') ∧ PathsOk source residual pathBack' ∧ sink ∈ foundNodes pathBack') ∨
      search sink residual (g.nodes.length + 2) [source] [] = .ok none ∧
        ∃ R : N → Prop, R source ∧ ¬R sink ∧ Closed residual R :=
    search_spec hnonneg hends hne trivial not_mem_nil
    (fun n hn => .inl (mem_singleton.mp hn))
    (fun e hknown hnotMem _ => by
      rcases hknown with h | h
      · exact absurd (mem_singleton.mpr h) hnotMem
      · cases h)
    (.inr (Nat.le_add_right _ _))
  rw [augmentFlow]
  rcases hsearch with ⟨pathBack, hrun, hok, hfound⟩ | ⟨hrun, hclosed⟩
  · left
    obtain ⟨⟨e, amount⟩, hentry⟩ := Option.isSome_iff_exists.mp (pathBackAt_isSome.mpr hfound)
    have hpos := (toNode_of_pathBackAt hok hentry).2
    obtain ⟨residual', hwalk, hpushed⟩ := augmentPath_spec hpos pathBack pathBack hok
      (fun _ _ h => h) (.inr ⟨e, amount, hentry, le_refl amount⟩) (Nat.lt_succ_self _)
    refine ⟨amount, residual', ?_, hpos, hpushed⟩
    simp only [hrun, bind, Except.bind, hentry, derefOption, decide_eq_true hpos, checkThat_true,
      hwalk]
    rfl
  · right
    refine ⟨?_, hclosed⟩
    simp only [hrun, bind, Except.bind]
    rfl

end

end Xls.MinCut

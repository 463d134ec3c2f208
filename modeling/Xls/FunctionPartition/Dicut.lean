import Mathlib.Algebra.Order.BigOperators.Group.Finset
import Xls.FunctionPartition
import Xls.MinCut.Cut

/-!
# Xls.FunctionPartition.Dicut

The partition is a directed cut: no edge of the function leads from the second part to the
first (`minCostFunctionPartition_spec`). The opposing edges have a weight that no cut of the
graph needs to pay, because the cut below a set of nodes that is closed under operands has a
smaller weight.
-/

namespace Xls.FunctionPartition

open List Int
open MinCut (Edge Graph cutWeight EndsIn minCutBetweenNodes minCutBetweenNodes_spec)

variable {g : NodeGraph} {info : NodeInfo g} {partitionable : List (Fin g.size)}

theorem cutWeight_append {N : Type} (A : N → Bool) (es es' : List (Edge N)) :
    cutWeight A (es ++ es') = cutWeight A es + cutWeight A es' := by
  simp [cutWeight]

/-- The cut below the nodes of a set. -/
def below (low : Fin g.size → Bool) : CutNode g → Bool
  | .source => true
  | .node n => low n
  | _ => false

/-- A bound on what the edges from a node add to the weight of a cut. -/
def nodeWeight (g : NodeGraph) (info : NodeInfo g) (n : Fin g.size) : Int :=
  info.flatBitCount n * (1024 * 1024) + (g.users n).length

/-- A bound on the weight of the cut below a set that is closed under operands. -/
def totalWeight (g : NodeGraph) (info : NodeInfo g) : Int := ∑ n : Fin g.size, nodeWeight g info n

/-- A set of nodes below which the partitionable nodes can be cut. -/
structure Separates (partitionable : List (Fin g.size)) (low : Fin g.size → Bool) : Prop where
  cuttable : ∀ p ∈ partitionable, low p = true
  users : ∀ p ∈ partitionable, ∀ u ∈ g.users p, u ∉ partitionable → low u = false
  operands : ∀ v, low v = true → ∀ u ∈ g.operands v, low u = true

/-! ### The nodes of the graph -/

/-- What holds of the graph while it is built. -/
structure Base (low : Fin g.size → Bool) (bound : Int) (b : Builder g) : Prop where
  source : .source ∈ b.nodes
  sink : .sink ∈ b.nodes
  node : ∀ n ∈ b.xlsNodesInMincutGraph, .node n ∈ b.nodes
  ends : ∀ e ∈ b.edges, e.fromNode ∈ b.nodes ∧ e.toNode ∈ b.nodes
  weight : ∀ e ∈ b.edges, 0 ≤ e.weight
  cut : cutWeight (below low) b.edges ≤ bound
  nodup : b.xlsNodesInMincutGraph.Nodup

variable {low : Fin g.size → Bool} {bound : Int} {b : Builder g}

theorem base_initial : Base low 0 (Builder.initial g) where
  source := mem_cons_self
  sink := mem_cons_of_mem _ mem_cons_self
  node _ hn := nomatch hn
  ends _ he := nomatch he
  weight _ he := nomatch he
  cut := le_refl _
  nodup := nodup_nil

variable {src tgt : CutNode g}

/-- An edge whose opposing edge the cut does not cross. -/
theorem Base.addEdge (h : Base low bound b) {weight bound' : Int} (hsrc : src ∈ b.nodes)
    (htgt : tgt ∈ b.nodes) (hweight : 0 ≤ weight)
    (hback : below low tgt = true → below low src = true)
    (hbound : bound + (if below low src = true ∧ below low tgt = false then weight else 0)
      ≤ bound') :
    Base low bound' (b.addEdge src tgt weight) where
  source := h.source
  sink := h.sink
  node := h.node
  ends e he := by
    rcases mem_append.mp he with he | he
    · exact h.ends e he
    · rcases mem_cons.mp he with rfl | he
      · exact ⟨hsrc, htgt⟩
      · rw [mem_singleton.mp he]
        exact ⟨htgt, hsrc⟩
  weight e he := by
    rcases mem_append.mp he with he | he
    · exact h.weight e he
    · rcases mem_cons.mp he with rfl | he
      · exact hweight
      · rw [mem_singleton.mp he]
        exact int64Max_nonneg
  cut := by
    have hcut := h.cut
    have hnot : ¬(below low tgt = true ∧ below low src = false) := by
      rintro ⟨ht, hs⟩
      rw [hback ht] at hs
      exact absurd hs (by decide)
    rw [Builder.addEdge, cutWeight_append]
    simp only [cutWeight, map_cons, map_nil, sum_cons, sum_nil, if_neg hnot]
      at hcut ⊢
    omega
  nodup := h.nodup

/-- An edge of maximum weight between nodes on one side of the cut. -/
theorem Base.addEdge_side (h : Base low bound b) (hsrc : src ∈ b.nodes) (htgt : tgt ∈ b.nodes)
    (hside : below low src = below low tgt) : Base low bound (b.addEdge src tgt int64Max) := by
  refine h.addEdge hsrc htgt int64Max_nonneg (fun ht => hside.trans ht) ?_
  have hnot : ¬(below low src = true ∧ below low tgt = false) := by
    rintro ⟨hs, ht⟩
    rw [hside, ht] at hs
    exact absurd hs (by decide)
  rw [if_neg hnot, add_zero]

/-- A node of the graph that does not stand for a node of the function. -/
theorem Base.addFanin (h : Base low bound b) (n : Fin g.size) :
    Base low bound { b with nodes := b.nodes ++ [.fanin n] } where
  source := mem_append_left _ h.source
  sink := mem_append_left _ h.sink
  node m hm := mem_append_left _ (h.node m hm)
  ends e he := ⟨mem_append_left _ (h.ends e he).1, mem_append_left _ (h.ends e he).2⟩
  weight := h.weight
  cut := h.cut
  nodup := h.nodup

/-- The nodes of the function that were added. -/
def Adds (b b' : Builder g) (P : Fin g.size → Prop) : Prop :=
  (∀ n ∈ b.xlsNodesInMincutGraph, n ∈ b'.xlsNodesInMincutGraph) ∧
    ∀ n ∈ b'.xlsNodesInMincutGraph, n ∈ b.xlsNodesInMincutGraph ∨ P n

theorem Adds.refl (b : Builder g) (P : Fin g.size → Prop) : Adds b b P :=
  ⟨fun _ h => h, fun _ h => .inl h⟩

theorem Adds.trans {b b' b'' : Builder g} {P : Fin g.size → Prop} (h : Adds b b' P)
    (h' : Adds b' b'' P) : Adds b b'' P := by
  refine ⟨fun n hn => h'.1 n (h.1 n hn), fun n hn => ?_⟩
  rcases h'.2 n hn with hn | hn
  · exact h.2 n hn
  · exact .inr hn

/-- Adding a node of the function that the graph does not have. -/
theorem addNode_spec (h : Base low bound b) {n : Fin g.size} (hn : n ∉ b.xlsNodesInMincutGraph) :
    ∃ b', b.addNodeToMincutGraph n = .ok b' ∧ Base low bound b' ∧ Adds b b' (· = n) ∧
      n ∈ b'.xlsNodesInMincutGraph ∧ .node n ∈ b'.nodes := by
  refine ⟨{ b with
      nodes := b.nodes ++ [.node n]
      xlsNodesInMincutGraph := b.xlsNodesInMincutGraph ++ [n] },
    by rw [Builder.addNodeToMincutGraph, decide_eq_true hn]; rfl,
    ⟨?_, ?_, ?_, ?_, h.weight, h.cut, ?_⟩, ⟨?_, ?_⟩, ?_, ?_⟩
  · exact mem_append_left _ h.source
  · exact mem_append_left _ h.sink
  · intro m hm
    rcases mem_append.mp hm with hm | hm
    · exact mem_append_left _ (h.node m hm)
    · rw [mem_singleton.mp hm]
      exact mem_append_right _ (mem_singleton.mpr rfl)
  · exact fun e he => ⟨mem_append_left _ (h.ends e he).1, mem_append_left _ (h.ends e he).2⟩
  · exact nodup_append.mpr ⟨h.nodup, nodup_cons.mpr ⟨not_mem_nil, nodup_nil⟩,
      fun a ha c hc hac => hn (by rw [← mem_singleton.mp hc, ← hac]; exact ha)⟩
  · exact fun m hm => mem_append_left _ hm
  · intro m hm
    rcases mem_append.mp hm with hm | hm
    · exact .inl hm
    · exact .inr (mem_singleton.mp hm)
  · exact mem_append_right _ (mem_singleton.mpr rfl)
  · exact mem_append_right _ (mem_singleton.mpr rfl)

/-- Adding the operands of a node adds the nodes outside the partition. -/
theorem addOperands_spec (operands : List (Fin g.size)) {b : Builder g} (h : Base low bound b)
    (hlow : ∀ o ∈ operands, low o = true) :
    ∃ b', addOperands partitionable operands b = .ok b' ∧ Base low bound b' ∧
      Adds b b' (· ∉ partitionable) := by
  induction operands generalizing b with
  | nil => exact ⟨b, rfl, h, Adds.refl b _⟩
  | cons operand rest ih =>
    have hrest : ∀ o ∈ rest, low o = true := fun o ho => hlow o (mem_cons_of_mem _ ho)
    rw [addOperands]
    by_cases hadd : operand ∉ partitionable ∧ operand ∉ b.xlsNodesInMincutGraph
    · rw [if_pos hadd]
      obtain ⟨b₁, hrun, h₁, hadds, -, hmem⟩ := addNode_spec h hadd.2
      have hside : below low (.source : CutNode g) = below low (.node operand) :=
        (hlow operand mem_cons_self).symm
      obtain ⟨b', hrun', h', hadds'⟩ := ih (h₁.addEdge_side h₁.source hmem hside) hrest
      refine ⟨b', ?_, h', Adds.trans ⟨hadds.1, fun n hn => (hadds.2 n hn).imp_right ?_⟩ hadds'⟩
      · simp only [hrun, bind, Except.bind]
        exact hrun'
      · rintro rfl
        exact hadd.1
    · rw [if_neg hadd]
      exact ih h hrest

/-- Adding the users of a node adds the nodes outside the partition. -/
theorem addUsers_spec (users : List (Fin g.size)) {b : Builder g} (h : Base low bound b)
    (hlow : ∀ u ∈ users, u ∉ partitionable → low u = false) :
    ∃ b', addUsers partitionable users b = .ok b' ∧ Base low bound b' ∧
      Adds b b' (· ∉ partitionable) := by
  induction users generalizing b with
  | nil => exact ⟨b, rfl, h, Adds.refl b _⟩
  | cons user rest ih =>
    have hrest : ∀ u ∈ rest, u ∉ partitionable → low u = false :=
      fun u hu => hlow u (mem_cons_of_mem _ hu)
    rw [addUsers]
    by_cases hadd : user ∉ partitionable ∧ user ∉ b.xlsNodesInMincutGraph
    · rw [if_pos hadd]
      obtain ⟨b₁, hrun, h₁, hadds, -, hmem⟩ := addNode_spec h hadd.2
      have hside : below low (.node user) = below low (.sink : CutNode g) :=
        hlow user mem_cons_self hadd.1
      obtain ⟨b', hrun', h', hadds'⟩ := ih (h₁.addEdge_side hmem h₁.sink hside) hrest
      refine ⟨b', ?_, h', Adds.trans ⟨hadds.1, fun n hn => (hadds.2 n hn).imp_right ?_⟩ hadds'⟩
      · simp only [hrun, bind, Except.bind]
        exact hrun'
      · rintro rfl
        exact hadd.1
    · rw [if_neg hadd]
      exact ih h hrest

/-- Each node of the partition is added once, with what it reads and what reads it. -/
theorem addPartitionable_spec (info : NodeInfo g) (hlow : Separates partitionable low)
    (rest : List (Fin g.size))
    (hrest : ∀ p ∈ rest, p ∈ partitionable) (hnodup : rest.Nodup) {b : Builder g}
    (h : Base low bound b) (hnew : ∀ p ∈ rest, p ∉ b.xlsNodesInMincutGraph) :
    ∃ b', addPartitionable info partitionable rest b = .ok b' ∧ Base low bound b' ∧
      (∀ n ∈ b.xlsNodesInMincutGraph, n ∈ b'.xlsNodesInMincutGraph) ∧
      ∀ p ∈ rest, p ∈ b'.xlsNodesInMincutGraph := by
  induction rest generalizing b with
  | nil => exact ⟨b, rfl, h, fun _ hn => hn, fun p hp => nomatch hp⟩
  | cons node rest ih =>
    obtain ⟨hnotMem, hnodup⟩ := nodup_cons.mp hnodup
    have hnode : node ∈ partitionable := hrest node mem_cons_self
    have hnodeLow : low node = true := hlow.cuttable node hnode
    obtain ⟨b₁, hrun₁, h₁, hadds₁, hmem₁, hnodes₁⟩ :=
      addNode_spec h (hnew node mem_cons_self)
    have h₂ : Base low bound (if info.isParam node then
        b₁.addEdge .source (.node node) int64Max else b₁) ∧
        (if info.isParam node then b₁.addEdge .source (.node node) int64Max
          else b₁).xlsNodesInMincutGraph = b₁.xlsNodesInMincutGraph := by
      by_cases hparam : info.isParam node = true
      · rw [if_pos hparam]
        have hside : below low (.source : CutNode g) = below low (.node node) := hnodeLow.symm
        exact ⟨h₁.addEdge_side h₁.source hnodes₁ hside, rfl⟩
      · rw [if_neg hparam]
        exact ⟨h₁, rfl⟩
    obtain ⟨b₃, hrun₃, h₃, hadds₃⟩ := addOperands_spec (g.operands node) h₂.1
      fun o ho => hlow.operands node hnodeLow o ho
    obtain ⟨b₄, hrun₄, h₄, hadds₄⟩ := addUsers_spec (g.users node) h₃
      fun u hu hnot => hlow.users node hnode u hu hnot
    have hadds := hadds₃.trans hadds₄
    rw [Adds, h₂.2] at hadds
    obtain ⟨b', hrun', h', hkeep, hall⟩ := ih (fun p hp => hrest p (mem_cons_of_mem _ hp))
      hnodup h₄ fun p hp hmem => by
        rcases hadds.2 p hmem with hmem | hmem
        · rcases hadds₁.2 p hmem with hmem | heq
          · exact hnew p (mem_cons_of_mem _ hp) hmem
          · rw [heq] at hp
            exact hnotMem hp
        · exact hmem (hrest p (mem_cons_of_mem _ hp))
    refine ⟨b', ?_, h', fun n hn => hkeep n (hadds.1 n (hadds₁.1 n hn)), ?_⟩
    · rw [addPartitionable]
      simp only [hrun₁, bind, Except.bind, hrun₃, hrun₄]
      exact hrun'
    · intro p hp
      rcases mem_cons.mp hp with rfl | hp
      · exact hkeep p (hadds.1 p hmem₁)
      · exact hall p hp

/-! ### The edges of the function -/

theorem bmod_eq_self {x : Int} (hnonneg : 0 ≤ x) (hlt : x < int64Max) : bmod x (2 ^ 64) = x := by
  unfold int64Max at hlt
  exact bmod_eq_of_le (by omega) (by omega)

/-- The weights of the edges from a node make up its width, but for the rounding. -/
theorem edgeWeight_spec (info : NodeInfo g) (n : Fin g.size) (fanOut : Nat) (hfan : 0 < fanOut)
    (hbits : 0 ≤ info.flatBitCount n)
    (hlt : info.flatBitCount n * (1024 * 1024) + fanOut < int64Max) :
    0 ≤ edgeWeight info n fanOut ∧
      fanOut * edgeWeight info n fanOut ≤ info.flatBitCount n * (1024 * 1024) + fanOut := by
  have hhalf : ((fanOut / 2 : Nat) : Int) ≤ fanOut := by omega
  have heq : edgeWeight info n fanOut =
      (info.flatBitCount n * (1024 * 1024) + (fanOut / 2 : Nat)) / fanOut := by
    have hscaled : bmod (info.flatBitCount n * (1024 * 1024)) (2 ^ 64) =
        info.flatBitCount n * (1024 * 1024) := bmod_eq_self (by omega) (by omega)
    simp only [edgeWeight, addInt64]
    rw [hscaled, bmod_eq_self (by omega) (by omega), tdiv_eq_ediv_of_nonneg (by omega)]
  rw [heq]
  refine ⟨ediv_nonneg (by omega) (by omega), ?_⟩
  have := mul_ediv_self_le (x := info.flatBitCount n * (1024 * 1024) + (fanOut / 2 : Nat))
    (k := (fanOut : Int)) (by omega)
  omega

/-- The edges for the bits that a node sends out. -/
theorem addFanOut_spec (node : Fin g.size) {weight : Int} (hweight : 0 ≤ weight)
    (successors : List (Fin g.size)) {bound : Int} {b : Builder g} (h : Base low bound b)
    (hnode : .node node ∈ b.nodes) (hfanin : .fanin node ∈ b.nodes)
    (hsuccessors : ∀ v ∈ successors, .node v ∈ b.nodes ∧ (low v = true → low node = true)) :
    Base low (bound + successors.length * weight) (addFanOut node weight successors b) ∧
      (addFanOut node weight successors b).xlsNodesInMincutGraph = b.xlsNodesInMincutGraph ∧
      (∀ e ∈ b.edges, e ∈ (addFanOut node weight successors b).edges) ∧
      ∀ v ∈ successors, ⟨.node v, .node node, int64Max⟩ ∈
        (addFanOut node weight successors b).edges := by
  induction successors generalizing b bound with
  | nil =>
    refine ⟨?_, rfl, fun e he => he, fun v hv => nomatch hv⟩
    simpa [addFanOut] using h
  | cons v rest ih =>
    obtain ⟨hv, hlow⟩ := hsuccessors v mem_cons_self
    -- The cut crosses the edge to the successor or the edge from it, not both.
    have hstep : Base low (bound + weight) ((b.addEdge (.node node) (.node v) weight).addEdge
        (.node v) (.fanin node) weight) := by
      have hfirst := h.addEdge hnode hv hweight hlow (le_refl _)
      refine hfirst.addEdge hv hfanin hweight (fun hf => absurd hf (by simp [below])) ?_
      by_cases hvlow : low v = true
      · simp [below, hvlow]
      · rw [Bool.not_eq_true] at hvlow
        simp only [below, hvlow]
        split <;> simp [hweight]
    obtain ⟨hbase, hxls, hkeep, hall⟩ := ih hstep hnode hfanin fun u hu =>
      hsuccessors u (mem_cons_of_mem _ hu)
    refine ⟨?_, hxls, fun e he => hkeep e ?_, fun u hu => ?_⟩
    · have hlength : bound + weight + rest.length * weight =
          bound + (v :: rest).length * weight := by
        rw [length_cons]
        push_cast
        ring
      rw [← hlength]
      exact hbase
    · exact mem_append_left _ (mem_append_left _ he)
    · rcases mem_cons.mp hu with rfl | hu
      · exact hkeep _ (mem_append_left _ (mem_append_right _
          (mem_cons_of_mem _ mem_cons_self)))
      · exact hall u hu

/-- A node of the function with edges to its users in the graph. -/
theorem addFunctionEdges_spec (hbits : ∀ n, 0 ≤ info.flatBitCount n)
    (hlt : ∀ n, nodeWeight g info n < int64Max)
    (hoperands : ∀ v, low v = true → ∀ u ∈ g.operands v, low u = true)
    (rest : List (Fin g.size)) {bound : Int} {b : Builder g} (h : Base low bound b)
    (hrest : ∀ n ∈ rest, n ∈ b.xlsNodesInMincutGraph) :
    Base low (bound + (rest.map (nodeWeight g info)).sum) (addFunctionEdges info rest b) ∧
      (addFunctionEdges info rest b).xlsNodesInMincutGraph = b.xlsNodesInMincutGraph ∧
      (∀ e ∈ b.edges, e ∈ (addFunctionEdges info rest b).edges) ∧
      ∀ u ∈ rest, ∀ v ∈ g.users u, v ∈ b.xlsNodesInMincutGraph →
        ⟨.node v, .node u, int64Max⟩ ∈ (addFunctionEdges info rest b).edges := by
  induction rest generalizing b bound with
  | nil =>
    refine ⟨?_, rfl, fun e he => he, fun u hu => nomatch hu⟩
    simpa [addFunctionEdges] using h
  | cons node rest ih =>
    -- One more node, with opposing edges from all its users in the graph.
    have hnext : ∀ b' : Builder g, Base low (bound + nodeWeight g info node) b' →
        addFunctionEdges info (node :: rest) b = addFunctionEdges info rest b' →
        b'.xlsNodesInMincutGraph = b.xlsNodesInMincutGraph → (∀ e ∈ b.edges, e ∈ b'.edges) →
        (∀ v ∈ (g.users node).filter fun user => user ∈ b.xlsNodesInMincutGraph,
          ⟨.node v, .node node, int64Max⟩ ∈ b'.edges) →
        Base low (bound + ((node :: rest).map (nodeWeight g info)).sum)
            (addFunctionEdges info (node :: rest) b) ∧
          (addFunctionEdges info (node :: rest) b).xlsNodesInMincutGraph =
            b.xlsNodesInMincutGraph ∧
          (∀ e ∈ b.edges, e ∈ (addFunctionEdges info (node :: rest) b).edges) ∧
          ∀ u ∈ node :: rest, ∀ v ∈ g.users u, v ∈ b.xlsNodesInMincutGraph →
            ⟨.node v, .node u, int64Max⟩ ∈ (addFunctionEdges info (node :: rest) b).edges := by
      intro b' hb' heq hxls hkeep hback
      obtain ⟨hbase, hxls', hkeep', hall⟩ := ih hb' fun n hn => by
        rw [hxls]
        exact hrest n (mem_cons_of_mem _ hn)
      rw [heq, map_cons, sum_cons, ← add_assoc]
      refine ⟨hbase, hxls'.trans hxls, fun e he => hkeep' e (hkeep e he), fun u hu v hv hmem => ?_⟩
      rcases mem_cons.mp hu with rfl | hu
      · exact hkeep' _ (hback v (mem_filter.mpr ⟨hv, decide_eq_true hmem⟩))
      · exact hall u hu v hv (by rw [hxls]; exact hmem)
    have hnode : .node node ∈ b.nodes := h.node node (hrest node mem_cons_self)
    have hsuccessors : ∀ v ∈ (g.users node).filter fun user => user ∈ b.xlsNodesInMincutGraph,
        .node v ∈ b.nodes ∧ (low v = true → low node = true) := by
      intro v hv
      obtain ⟨huser, hmem⟩ := mem_filter.mp hv
      exact ⟨h.node v (of_decide_eq_true hmem),
        fun hlow => hoperands v hlow node (NodeGraph.mem_users.mp huser)⟩
    have hlength := length_filter_le
      (fun user => decide (user ∈ b.xlsNodesInMincutGraph)) (g.users node)
    have hbitsNode := hbits node
    have hltNode := hlt node
    rw [addFunctionEdges] at hnext ⊢
    generalize (g.users node).filter (fun user => decide (user ∈ b.xlsNodesInMincutGraph)) =
      successors at hnext hsuccessors hlength ⊢
    unfold nodeWeight at hltNode hnext
    match successors, hnext, hsuccessors, hlength with
    | [], hnext, _, _ =>
      refine hnext b { h with cut := ?_ } rfl rfl (fun e he => he) fun v hv => nomatch hv
      have := h.cut
      omega
    | [v], hnext, hsuccessors, hlength =>
      obtain ⟨hv, hlow⟩ := hsuccessors v mem_cons_self
      rw [length_singleton] at hlength
      obtain ⟨hweight, hle⟩ := edgeWeight_spec info node 1 (by omega) hbitsNode (by omega)
      refine hnext (b.addEdge (.node node) (.node v) (edgeWeight info node 1)) ?_ rfl rfl
        (fun e he => mem_append_left _ he) fun u hu => ?_
      · refine h.addEdge hnode hv hweight hlow ?_
        split <;> omega
      · rw [mem_singleton.mp hu]
        exact mem_append_right _ (mem_cons_of_mem _ mem_cons_self)
    | v :: v' :: successors, hnext, hsuccessors, hlength =>
      obtain ⟨hweight, hle⟩ := edgeWeight_spec info node (v :: v' :: successors).length
        (by simp) hbitsNode (by omega)
      obtain ⟨hbase, hxls, hkeep, hback⟩ := addFanOut_spec node hweight (v :: v' :: successors)
        (h.addFanin node) (mem_append_left _ hnode)
        (mem_append_right _ (mem_singleton.mpr rfl))
        fun u hu => ⟨mem_append_left _ (hsuccessors u hu).1, (hsuccessors u hu).2⟩
      refine hnext _ { hbase with cut := le_trans hbase.cut ?_ } rfl hxls hkeep hback
      omega

/-! ### The partition -/

theorem sum_le_totalWeight (hbits : ∀ n, 0 ≤ info.flatBitCount n) {nodes : List (Fin g.size)}
    (hnodup : nodes.Nodup) : (nodes.map (nodeWeight g info)).sum ≤ totalWeight g info := by
  rw [← sum_toFinset _ hnodup]
  refine Finset.sum_le_sum_of_subset_of_nonneg (Finset.subset_univ _) fun n _ _ => ?_
  have := hbits n
  unfold nodeWeight
  omega

theorem nodeWeight_le (hbits : ∀ n, 0 ≤ info.flatBitCount n) (n : Fin g.size) :
    nodeWeight g info n ≤ totalWeight g info := by
  have := sum_le_totalWeight hbits (nodup_singleton n)
  simpa using this

/-- A cut is at least as heavy as an edge that it crosses. -/
theorem weight_le_cutWeight {N : Type} {A : N → Bool} {edges : List (Edge N)}
    (hweight : ∀ e ∈ edges, 0 ≤ e.weight) {e : Edge N} (he : e ∈ edges)
    (hfrom : A e.fromNode = true) (hto : A e.toNode = false) : e.weight ≤ cutWeight A edges := by
  have hmem := mem_map_of_mem
    (f := fun e : Edge N => if A e.fromNode = true ∧ A e.toNode = false then e.weight else 0) he
  rw [if_pos ⟨hfrom, hto⟩] at hmem
  refine single_le_sum (fun c hc => ?_) _ hmem
  obtain ⟨d, hd, rfl⟩ := mem_map.mp hc
  split
  · exact hweight d hd
  · exact le_refl 0

/-- The part of a cut consists of the nodes to be partitioned that lie in it. -/
theorem mem_partition {nodes : List (CutNode g)} {S : CutNode g → Bool} {n : Fin g.size} :
    n ∈ (nodes.filter S).filterMap (partitionableNode partitionable) ↔
      .node n ∈ nodes ∧ S (.node n) = true ∧ n ∈ partitionable := by
  rw [mem_filterMap]
  constructor
  · rintro ⟨m, hm, heq⟩
    obtain ⟨hm, hS⟩ := mem_filter.mp hm
    cases m with
    | node k =>
      rw [partitionableNode] at heq
      split at heq
      · cases heq
        exact ⟨hm, hS, ‹_›⟩
      · cases heq
    | _ => cases heq
  · rintro ⟨hm, hS, hmem⟩
    exact ⟨.node n, mem_filter.mpr ⟨hm, hS⟩, by rw [partitionableNode, if_pos hmem]⟩

/-- Where the partitionable nodes can be cut at all, they are partitioned, and no operand of a
node of the first part is in the second. -/
theorem minCostFunctionPartition_spec (hnodup : partitionable.Nodup)
    (hlow : Separates partitionable low) (hbits : ∀ n, 0 ≤ info.flatBitCount n)
    (htotal : totalWeight g info < int64Max) :
    ∃ first second, minCostFunctionPartition info partitionable = .ok (first, second) ∧
      (∀ n, n ∈ partitionable ↔ n ∈ first ∨ n ∈ second) ∧ (∀ n ∈ first, n ∉ second) ∧
      ∀ v ∈ first, ∀ u ∈ g.operands v, u ∈ partitionable → u ∈ first := by
  obtain ⟨b, hrun, hbase, -, hall⟩ := addPartitionable_spec info hlow partitionable
    (fun p hp => hp) hnodup base_initial fun p _ hp => nomatch hp
  obtain ⟨hbase', hxls, -, hback⟩ := addFunctionEdges_spec hbits
    (fun n => lt_of_le_of_lt (nodeWeight_le hbits n) htotal) hlow.operands
    b.xlsNodesInMincutGraph hbase fun n hn => hn
  have hsum : (b.xlsNodesInMincutGraph.map (nodeWeight g info)).sum ≤ totalWeight g info :=
    sum_le_totalWeight hbits hbase.nodup
  have hnodes : ∀ p ∈ partitionable, CutNode.node p ∈
      (addFunctionEdges info b.xlsNodesInMincutGraph b).nodes := by
    intro p hp
    refine hbase'.node p ?_
    rw [hxls]
    exact hall p hp
  have hne : (.sink : CutNode g) ≠ .source := by simp
  obtain ⟨cut, S, hcut, hsource, hsink, hfirst, hsecond, hmin⟩ :=
    minCutBetweenNodes_spec (g := ⟨(addFunctionEdges info b.xlsNodesInMincutGraph b).nodes,
      (addFunctionEdges info b.xlsNodesInMincutGraph b).edges⟩)
      (fun i => hbase'.ends _ (getElem_mem i.isLt)) hbase'.source hne hbase'.weight
  have hok : minCostFunctionPartition info partitionable =
      .ok (cut.sourcePartition.filterMap (partitionableNode partitionable),
        cut.sinkPartition.filterMap (partitionableNode partitionable)) := by
    rw [minCostFunctionPartition, decide_eq_true hnodup]
    simp only [checkThat_true, Result.ok_bind, hrun, hcut]
    rfl
  refine ⟨_, _, hok, ?_, ?_, ?_⟩
  · intro n
    rw [hfirst, hsecond, mem_partition, mem_partition]
    constructor
    · intro hn
      by_cases hS : S (.node n) = true
      · exact .inl ⟨hnodes n hn, hS, hn⟩
      · exact .inr ⟨hnodes n hn, by simpa using hS, hn⟩
    · rintro (⟨-, -, hn⟩ | ⟨-, -, hn⟩)
      · exact hn
      · exact hn
  · intro n hn hn'
    rw [hfirst, mem_partition] at hn
    rw [hsecond, mem_partition, hn.2.1] at hn'
    exact absurd hn'.2.1 (by decide)
  · intro v hv u hu hup
    rw [hfirst, mem_partition] at hv ⊢
    refine ⟨hnodes u hup, ?_, hup⟩
    by_contra hS
    rw [Bool.not_eq_true] at hS
    -- Otherwise the cut crosses an opposing edge.
    have hedge := hback u (hall u hup) v (NodeGraph.mem_users.mpr hu) (hall v hv.2.2)
    have hheavy : int64Max ≤ cutWeight S _ :=
      weight_le_cutWeight (e := ⟨.node v, .node u, int64Max⟩) hbase'.weight hedge hv.2.1 hS
    have hbelow := hmin (below low) rfl rfl
    have hcutBelow := hbase'.cut
    dsimp only at hbelow
    omega

end Xls.FunctionPartition

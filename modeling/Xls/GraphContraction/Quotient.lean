import Xls.GraphContraction.Agrees

/-!
# Xls.GraphContraction.Quotient

In a run whose calls the graph handles, no `CHECK` fails and every graph that is reached is
the quotient of what was added (`isQuotient_of_allMeet`). Each call keeps the invariant
`Agrees`.
-/

namespace Xls.GraphContraction

open UnionFindMap List Option Prod
open UnionFindMap (SameView Assigned Inserted United survivor)

variable {V VW EW : Type} [DecidableEq V] {vwMerge : VW → VW → VW} {ewMerge : EW → EW → EW}
  {g : GraphContraction V VW EW} {h : Added V VW EW}

/-! ### `AddVertex` -/

variable {α : Type} {entries : List (Sigma fun _ : α => EW)} {src dst : α → V}
  {m : UnionFindMap V (EdgeMap V EW)} {r s x y a : V}

/-- Entries whose keys do not satisfy the predicate can be left out. -/
theorem weigh_kerase {β : Type} [DecidableEq α] {f : β → β → β}
    {entries : List (Sigma fun _ : α => β)} {p : α → Prop} [DecidablePred p] {a : α} (ha : ¬p a) :
    weigh f (entries.kerase a) p = weigh f entries p := by
  induction entries with
  | nil => rfl
  | cons e entries ih =>
    by_cases he : a = e.1
    · rw [kerase_cons_eq he, weigh_cons, if_neg (he ▸ ha), merge_none_left]
    · rw [kerase_cons_ne he, weigh_cons, weigh_cons, ih]

theorem mem_keys_of_mem_entries {β : Type} {m : AList fun _ : α => β} {e : Sigma fun _ : α => β}
    (he : e ∈ m.entries) : e.1 ∈ m :=
  mem_map_of_mem he

variable {m' : UnionFindMap V (EdgeMap V EW)} {v t b : V} {old : EdgeMap V EW} {rep : V → Option V}
  {ops : List (Operation V VW EW)}

/-- A new vertex has no edges, and the other rows stay. -/
theorem rows_inserted (hm : m.WellFormed) (hrows : Rows ewMerge entries src dst m)
    (hends : ∀ e ∈ entries, m.rep (src e.1) ≠ none ∧ m.rep (dst e.1) ≠ none) (hv : m.rep v = none)
    (hins : Inserted m m' v ∅) : Rows ewMerge entries src dst m' := by
  have hrep : ∀ k, m.rep k ≠ none → m'.rep k = m.rep k := by
    intro k hk
    rw [hins.rep_eq, if_neg]
    rintro rfl
    exact hk hv
  have hnot : ∀ k, m.rep k ≠ some v := by
    intro k hk
    have := hm.rep_rep hk
    rw [hv] at this
    cases this
  have hbetween : ∀ s t, between ewMerge entries m'.rep src dst s t =
      between ewMerge entries m.rep src dst s t := by
    intro s t
    refine weigh_congr fun e he => ?_
    rw [hrep _ (hends e he).1, hrep _ (hends e he).2]
  intro s hs
  by_cases hsv : s = v
  · subst hsv
    refine ⟨∅, ?_, fun t => ?_⟩
    · rw [hins.value_eq, if_pos rfl]
    · rw [hbetween, AList.lookup_empty]
      refine (between_eq_none.mpr ?_).symm
      rintro e - ⟨hsrc, -⟩
      exact hnot _ hsrc
  · rw [hins.rep_eq, if_neg hsv] at hs
    obtain ⟨edges, hedges, hrow⟩ := hrows s hs
    refine ⟨edges, ?_, fun t => ?_⟩
    · rw [hins.value_eq, if_neg hsv, hedges]
    · rw [hrow, hbetween]

/-- Adding a vertex for the first time. -/
theorem addVertex_new (ha : Agrees vwMerge ewMerge g h) (hv : g.vertexWeights.rep v = none)
    (w : VW) :
    ∃ g', g.addVertex v w = .ok g' ∧ Agrees vwMerge ewMerge g' (h.record (.addVertex v w)) := by
  obtain ⟨vw, hvw, hins⟩ := insertWith_new ha.wf hv w fun _ new => new
  have hvOut : g.outEdges.rep v = none := (ha.repOut v).trans hv
  have hvIn : g.inEdges.rep v = none := (ha.repIn v).trans hv
  obtain ⟨out, hout, hinsOut⟩ := insertWith_new ha.wfOut hvOut ∅ fun _ new => new
  obtain ⟨into, hinto, hinsIn⟩ := insertWith_new ha.wfIn hvIn ∅ fun _ new => new
  have hnotMem : v ∉ h.vertices := fun hmem => (ha.known v).mp hmem hv
  have hnot : ∀ k, g.vertexWeights.rep k ≠ some v := by
    intro k hk
    have := ha.wf.rep_rep hk
    rw [hv] at this
    cases this
  have hrep : ∀ k, g.vertexWeights.rep k ≠ none → vw.rep k = g.vertexWeights.rep k := by
    intro k hk
    rw [hins.rep_eq, if_neg]
    rintro rfl
    exact hk hv
  refine ⟨⟨vw, out, into⟩, ?_, ?_⟩
  · rw [addVertex, insertNoEdges, insertNoEdges, ha.wfOut.contains_iff, ha.wfIn.contains_iff,
      hvOut, hvIn, UnionFindMap.insert, hvw, UnionFindMap.insert, UnionFindMap.insert, hout, hinto]
    rfl
  constructor
  case wf => exact hins.wf
  case wfOut => exact hinsOut.wf
  case wfIn => exact hinsIn.wf
  case repOut => exact fun k => by rw [hinsOut.rep_eq, hins.rep_eq, ha.repOut]
  case repIn => exact fun k => by rw [hinsIn.rep_eq, hins.rep_eq, ha.repIn]
  case sizeOut => exact fun k => by rw [hinsOut.size_eq, hins.size_eq, ha.sizeOut]
  case sizeIn => exact fun k => by rw [hinsIn.size_eq, hins.size_eq, ha.sizeIn]
  case known =>
      intro k
      rw [hins.rep_eq]
      change k ∈ h.vertices.insert v w ↔ _
      rw [AList.mem_insert, ha.known]
      by_cases hk : k = v <;> simp [hk]
  case sound =>
      intro p hp
      obtain ⟨r, hfst, hsnd⟩ := ha.sound p hp
      refine ⟨r, ?_, ?_⟩
      · rw [hrep _ (by rw [hfst]; exact some_ne_none r), hfst]
      · rw [hrep _ (by rw [hsnd]; exact some_ne_none r), hsnd]
  case complete =>
      intro u r hr
      rw [hins.rep_eq] at hr
      by_cases hu : u = v
      · rw [if_pos hu] at hr
        rw [hu, ← some.inj hr]
        exact .refl _
      · rw [if_neg hu] at hr
        exact ha.complete u r hr
  case weight =>
      intro u r hr
      change vw.value u = weigh vwMerge (h.vertices.insert v w).entries _
      rw [AList.entries_insert_of_notMem hnotMem, weigh_cons, hins.value_eq, hins.rep_eq v,
        if_pos rfl]
      have hentries : ∀ e ∈ h.vertices.entries, vw.rep e.1 = g.vertexWeights.rep e.1 :=
        fun e he => hrep _ ((ha.known e.1).mp (mem_keys_of_mem_entries he))
      by_cases hu : u = v
      · rw [hins.rep_eq, if_pos hu] at hr
        obtain rfl := some.inj hr
        rw [if_pos hu, if_pos rfl, weigh_eq_none.mpr, merge_none_right]
        intro e he
        rw [hentries e he]
        exact hnot _
      · rw [hins.rep_eq, if_neg hu] at hr
        have hrv : some v ≠ some r := by
          rintro heq
          exact hnot u (hr.trans heq.symm)
        rw [if_neg hu, if_neg hrv, merge_none_left, ha.weight u r hr]
        exact weigh_congr fun e he => by rw [hentries e he]
  case ends =>
      intro e he
      have hends := ha.ends e he
      rw [hrep _ hends.1, hrep _ hends.2]
      exact hends
  case out =>
      refine rows_inserted ha.wfOut ha.out (fun e he => ?_) hvOut hinsOut
      rw [ha.repOut_eq]
      exact ha.ends e he
  case into =>
      refine rows_inserted ha.wfIn ha.into (fun e he => ?_) hvIn hinsIn
      rw [ha.repIn_eq]
      exact (ha.ends e he).symm

/-- Adding a vertex again that is not identified with another one. -/
theorem addVertex_again (ha : Agrees vwMerge ewMerge g h) (hv : g.vertexWeights.rep v = some r)
    (halone : ∀ u, g.vertexWeights.rep u = g.vertexWeights.rep v → u = v) (w : VW) :
    ∃ g', g.addVertex v w = .ok g' ∧ Agrees vwMerge ewMerge g' (h.record (.addVertex v w)) := by
  obtain rfl : r = v := halone r ((ha.wf.rep_rep hv).trans hv.symm)
  obtain ⟨old, vw, -, hvw, hassigned⟩ :=
    insertWith_old ha.wf hv w fun _ new => new
  refine ⟨⟨vw, g.outEdges, g.inEdges⟩, ?_, ?_⟩
  · rw [addVertex, insertNoEdges, insertNoEdges, ha.wfOut.contains_iff, ha.wfIn.contains_iff,
      ha.repOut, ha.repIn, hv, UnionFindMap.insert, hvw]
    rfl
  have hmem : r ∈ h.vertices := (ha.known r).mpr (by rw [hv]; exact some_ne_none r)
  constructor
  case wf => exact hassigned.wf
  case wfOut => exact ha.wfOut
  case wfIn => exact ha.wfIn
  case repOut => exact fun k => by rw [hassigned.rep_eq, ha.repOut]
  case repIn => exact fun k => by rw [hassigned.rep_eq, ha.repIn]
  case sizeOut => exact fun k => by rw [hassigned.size_eq, ha.sizeOut]
  case sizeIn => exact fun k => by rw [hassigned.size_eq, ha.sizeIn]
  case known =>
      intro k
      rw [hassigned.rep_eq, ← ha.known]
      change k ∈ h.vertices.insert r w ↔ _
      rw [AList.mem_insert]
      constructor
      · rintro (rfl | hk)
        · exact hmem
        · exact hk
      · exact .inr
  case sound => exact fun p hp => by rw [hassigned.rep_eq, hassigned.rep_eq]; exact ha.sound p hp
  case complete => exact fun u s hs => ha.complete u s ((hassigned.rep_eq u).symm.trans hs)
  case weight =>
      intro u s hs
      change vw.value u = weigh vwMerge (h.vertices.insert r w).entries _
      rw [hassigned.rep_eq] at hs
      rw [AList.entries_insert, weigh_cons, hassigned.value_eq, hassigned.rep_eq r, hv]
      simp only [hassigned.rep_eq]
      by_cases hsr : s = r
      · subst hsr
        rw [if_pos hs, if_pos rfl, weigh_eq_none.mpr, merge_none_right]
        intro e he hrep
        have heq := halone e.1 (hrep.trans hv.symm)
        have hkeys : e.1 ∈ (h.vertices.entries.kerase s).keys := mem_map_of_mem he
        rw [heq] at hkeys
        exact notMem_keys_kerase s h.vertices.nodupKeys hkeys
      · have hrs : some r ≠ some s := fun heq => hsr (some.inj heq).symm
        rw [hs, if_neg (Ne.symm hrs), if_neg hrs, merge_none_left, ha.weight u s hs, weigh_kerase]
        rw [hv]
        exact hrs
  case ends => exact fun e he => by rw [hassigned.rep_eq, hassigned.rep_eq]; exact ha.ends e he
  case out => exact ha.out
  case into => exact ha.into

/-! ### `AddEdge` -/

/-- Adding a key to a row keeps the weights of the others and of the keys it has. -/
theorem lookup_union_singleton {t' : V} {w : EW} (h : t' ∈ old ∨ t' ≠ t) :
    (old ∪ AList.singleton t w).lookup t' = old.lookup t' := by
  by_cases hmem : t' ∈ old
  · exact AList.lookup_union_left hmem
  · rw [AList.lookup_union_right hmem, AList.lookup_eq_none.mpr hmem, AList.lookup_eq_none,
      ← AList.insert_empty, AList.mem_insert, not_or]
    exact ⟨h.resolve_left hmem, AList.notMem_empty t'⟩

/-- An edge to a representative that the row does not have yet. -/
theorem rows_addEdge [Std.Commutative ewMerge] [Std.Associative ewMerge] {w : EW} {e : α}
    (hrows : Rows ewMerge entries src dst m) (hs : m.rep s = some s) (ht : m.rep t = some t)
    (hsrc : src e = s) (hdst : dst e = t) (hnone : between ewMerge entries m.rep src dst s t = none)
    (hold : m.value s = some old) (hassigned : Assigned m m' s (old ∪ AList.singleton t w)) :
    Rows ewMerge (⟨e, w⟩ :: entries) src dst m' := by
  have hrep : m'.rep = m.rep := funext hassigned.rep_eq
  intro s' hs'
  rw [hrep] at hs' ⊢
  obtain ⟨edges, hedges, hrow⟩ := hrows s' hs'
  by_cases hss : s' = s
  · subst hss
    rw [hold] at hedges
    obtain rfl := some.inj hedges
    refine ⟨old ∪ AList.singleton t w, ?_, fun t' => ?_⟩
    · rw [hassigned.value_eq, if_pos hs]
    · rw [between, weigh_cons]
      change _ = merge ewMerge (if m.rep (src e) = some s' ∧ m.rep (dst e) = some t' then
        some w else none) (between ewMerge entries m.rep src dst s' t')
      rw [hsrc, hdst, hs, ht]
      by_cases htt : t' = t
      · subst htt
        have hnotMem : t' ∉ old := by
          rw [← AList.lookup_eq_none, hrow, hnone]
        rw [AList.lookup_union_right hnotMem, hnone, if_pos ⟨rfl, rfl⟩, merge_none_right]
        exact AList.lookup_insert (s := ∅)
      · have htt' : ¬(some s' = some s' ∧ some t = some t') :=
          fun heq => htt (some.inj heq.2).symm
        rw [if_neg htt', merge_none_left, ← hrow]
        exact lookup_union_singleton (.inr htt)
  · refine ⟨edges, ?_, fun t' => ?_⟩
    · rw [hassigned.value_eq, hs', if_neg fun heq => hss (some.inj heq), hedges]
    · rw [hrow, between, between, weigh_cons, if_neg, merge_none_left]
      rintro ⟨hsrc', -⟩
      rw [hsrc, hs] at hsrc'
      exact hss (some.inj hsrc').symm

/-- The rows that `AddEdge` leaves. -/
theorem addEdge_assigned (ha : Agrees vwMerge ewMerge g h) (hs : g.vertexWeights.rep s = some s)
    (ht : g.vertexWeights.rep t = some t) (w : EW) :
    ∃ out into oldOut oldIn,
      g.addEdge s t w = .ok (true, { g with outEdges := out, inEdges := into }) ∧
      g.outEdges.value s = some oldOut ∧
      Assigned g.outEdges out s (oldOut ∪ AList.singleton t w) ∧
      g.inEdges.value t = some oldIn ∧
      Assigned g.inEdges into t (oldIn ∪ AList.singleton s w) := by
  have hsOut : g.outEdges.rep s = some s := (ha.repOut s).trans hs
  have htIn : g.inEdges.rep t = some t := (ha.repIn t).trans ht
  obtain ⟨oldOut, out, holdOut, hout, hassignedOut⟩ := insertWith_old ha.wfOut hsOut
    (AList.singleton t w) (· ∪ ·)
  obtain ⟨oldIn, into, holdIn, hinto, hassignedIn⟩ := insertWith_old ha.wfIn htIn
    (AList.singleton s w) (· ∪ ·)
  have hcontains : ∀ {v : V}, g.vertexWeights.rep v = some v → g.contains v = true := by
    intro v hv
    rw [ha.contains_iff, ha.known, hv]
    exact some_ne_none v
  refine ⟨out, into, oldOut, oldIn, ?_, holdOut, hassignedOut, holdIn, hassignedIn⟩
  rw [addEdge, hcontains hs, hcontains ht, hout, hinto]
  rfl

/-- Only the rows have to be checked again when a row was assigned. -/
theorem Agrees.assigned (ha : Agrees vwMerge ewMerge g h) {out into : UnionFindMap V (EdgeMap V EW)}
    {a b : EdgeMap V EW} {edges : AList fun _ : V × V => EW} (hout : Assigned g.outEdges out s a)
    (hinto : Assigned g.inEdges into t b) (hends : ∀ e ∈ edges.entries,
      g.vertexWeights.rep e.1.1 ≠ none ∧ g.vertexWeights.rep e.1.2 ≠ none)
    (hrowsOut : Rows ewMerge edges.entries fst snd out)
    (hrowsInto : Rows ewMerge edges.entries snd fst into) :
    Agrees vwMerge ewMerge { g with outEdges := out, inEdges := into }
      { h with edges := edges } where
  wf := ha.wf
  wfOut := hout.wf
  wfIn := hinto.wf
  repOut k := by rw [hout.rep_eq, ha.repOut]
  repIn k := by rw [hinto.rep_eq, ha.repIn]
  sizeOut k := by rw [hout.size_eq, ha.sizeOut]
  sizeIn k := by rw [hinto.size_eq, ha.sizeIn]
  known := ha.known
  sound := ha.sound
  complete := ha.complete
  weight := ha.weight
  ends := hends
  out := hrowsOut
  into := hrowsInto

/-- Adding an edge between representatives that have none yet. -/
theorem addEdge_new [Std.Commutative ewMerge] [Std.Associative ewMerge]
    (ha : Agrees vwMerge ewMerge g h) (hs : g.vertexWeights.rep s = some s)
    (ht : g.vertexWeights.rep t = some t) (hnone : edgeBetween ewMerge g h s t = none) (w : EW) :
    ∃ g', g.addEdge s t w = .ok (true, g') ∧
      Agrees vwMerge ewMerge g' (h.record (.addEdge s t w)) := by
  obtain ⟨out, into, oldOut, oldIn, hrun, holdOut, hout, holdIn, hinto⟩ :=
    addEdge_assigned ha hs ht w
  have hsmem : s ∈ h.vertices := (ha.known s).mpr (by rw [hs]; exact some_ne_none s)
  have htmem : t ∈ h.vertices := (ha.known t).mpr (by rw [ht]; exact some_ne_none t)
  have hnotMem : (s, t) ∉ h.edges := by
    intro hmem
    obtain ⟨e, he, heq⟩ := mem_map.mp hmem
    refine between_eq_none.mp hnone e he ?_
    rw [heq]
    exact ⟨hs, ht⟩
  have hrecord : h.record (.addEdge s t w) = { h with edges := h.edges.insert (s, t) w } := by
    rw [Added.record, if_pos ⟨hsmem, htmem⟩]
  refine ⟨_, hrun, ?_⟩
  rw [hrecord]
  refine ha.assigned hout hinto ?_ ?_ ?_
  · intro e he
    rw [AList.entries_insert_of_notMem hnotMem] at he
    rcases mem_cons.mp he with rfl | he
    · exact ⟨by rw [hs]; exact some_ne_none s, by rw [ht]; exact some_ne_none t⟩
    · exact ha.ends e he
  · rw [AList.entries_insert_of_notMem hnotMem]
    refine rows_addEdge ha.out ((ha.repOut s).trans hs) ((ha.repOut t).trans ht) rfl rfl ?_
      holdOut hout
    rw [ha.repOut_eq]
    exact hnone
  · rw [AList.entries_insert_of_notMem hnotMem]
    refine rows_addEdge ha.into ((ha.repIn t).trans ht) ((ha.repIn s).trans hs) rfl rfl ?_
      holdIn hinto
    rw [ha.repIn_eq, between_swap]
    exact hnone

/-! ### `IdentifyVertices` -/

theorem patchAll_append (vertices vertices' : List V) (m : UnionFindMap V (EdgeMap V EW)) :
    patchAll ewMerge x y r (vertices ++ vertices') m =
      patchAll ewMerge x y r vertices m >>= patchAll ewMerge x y r vertices' := by
  induction vertices generalizing m with
  | nil => rfl
  | cons vertex vertices ih =>
    rw [cons_append, patchAll, patchAll]
    cases patchUpEdges ewMerge x y r m vertex with
    | error e => rfl
    | ok m' => exact ih m'

theorem keysOf_spec (order : HashOrder V) (hm : m.WellFormed) (hx : m.rep x = some a) :
    ∃ edges m', m.value a = some edges ∧
      keysOf order m x = .ok (order.arrange edges.keys, m') ∧ SameView m m' := by
  obtain ⟨m', hfind, hview⟩ := find_spec hm x
  obtain ⟨edges, hedges⟩ := hm.exists_value hx
  refine ⟨edges, m', (hm.value_rep hx).trans hedges, ?_, hview⟩
  rw [keysOf, hfind, hx, hedges]
  rfl

/-- The other ends of the edges of a class are the vertices with an edge to it. -/
theorem visits_arrange (order : HashOrder V) (hrep : m.rep = rep)
    (hrows : Rows ewMerge entries dst src m) (ha : rep a = some a) {edges : EdgeMap V EW}
    (hedges : m.value a = some edges) :
    Visits ewMerge entries rep src dst a (order.arrange edges.keys) := by
  subst hrep
  obtain ⟨edges', hedges', hrow⟩ := hrows a ha
  rw [hedges] at hedges'
  obtain rfl := some.inj hedges'
  refine ⟨(order.perm _).nodup_iff.mpr edges.keys_nodup, fun s => ?_⟩
  have hswap : between ewMerge entries m.rep dst src a s =
      between ewMerge entries m.rep src dst s a := weigh_congr fun _ _ => and_comm
  rw [(order.perm _).mem_iff, ← hswap, ← hrow, Ne, AList.lookup_eq_none, not_not]
  exact AList.mem_keys.symm

/-- The union and the patches of one map of edges, after both vertices were looked up in it. -/
theorem contract_map [Std.Commutative ewMerge] [Std.Associative ewMerge] (order : HashOrder V)
    {m₂ : UnionFindMap V (EdgeMap V EW)} {size : V → Option Nat} (hrep : ∀ k, m.rep k = rep k)
    (hsize : ∀ k, m.size k = size k) (hrows : Rows ewMerge entries src dst m)
    (hview : SameView m m₂) (hx : rep x = some a) (hy : rep y = some b) (hid : Identifies x y a b r)
    (hr : r = survivor size a b) (hpatch : Patchable entries rep src dst x y a b r)
    {toX toY : List V} (htoX : Visits ewMerge entries rep src dst a toX)
    (htoY : Visits ewMerge entries rep src dst b toY) :
    ∃ m₁ mid m', m₂.union x y (mergeMap order ewMerge x y r) = .ok (true, m₁) ∧
      patchAll ewMerge x y r toX m₁ = .ok mid ∧ patchAll ewMerge x y r toY mid = .ok m' ∧
      m'.WellFormed ∧ (∀ k, m'.rep k = repAfter rep a b r k) ∧
      (∀ k, m'.size k = if rep k = some a ∨ rep k = some b then
        some ((size a).getD 0 + (size b).getD 0) else size k) ∧
      Rows ewMerge entries src dst m' := by
  have hrep₂ : m₂.rep = rep := funext fun k => (hview.rep_eq k).trans (hrep k)
  have hsize₂ : m₂.size = size := funext fun k => (hview.size_eq k).trans (hsize k)
  have hrows₂ : Rows ewMerge entries src dst m₂ := by
    intro s hs
    obtain ⟨edges, hedges, hrow⟩ := hrows s ((hview.rep_eq s).symm.trans hs)
    refine ⟨edges, (hview.value_eq s).trans hedges, fun t => ?_⟩
    rw [hrow, hrep₂, funext hrep]
  subst hrep₂ hsize₂
  obtain ⟨m₁, m', hunion, hrun, hwf, hrep', hsize', hrows'⟩ :=
    contract_rows order hview.wf hrows₂ hx hy hid hr hpatch htoX htoY
  rw [patchAll_append, Result.bind_eq_ok] at hrun
  obtain ⟨mid, hmid, hrest⟩ := hrun
  exact ⟨m₁, mid, m', hunion, hmid, hrest, hwf, hrep', hsize', hrows'⟩

/-- Identifying two vertices of one class. -/
theorem identifyVertices_same (order : HashOrder V) (ha : Agrees vwMerge ewMerge g h)
    (hx : g.vertexWeights.rep x = some a) (hy : g.vertexWeights.rep y = some a) :
    ∃ g', identifyVertices order vwMerge ewMerge g x y = .ok (true, g') ∧
      Agrees vwMerge ewMerge g' { h with identified := (x, y) :: h.identified } := by
  obtain ⟨vw₁, hfind₁, hview₁⟩ := find_spec ha.wf x
  obtain ⟨vw₂, hfind₂, hview₂⟩ := find_spec hview₁.wf y
  obtain ⟨w, hw⟩ := ha.wf.exists_value hx
  obtain ⟨w', hw'⟩ := ha.wf.exists_value hy
  have hxmem : x ∈ h.vertices := (ha.known x).mpr (by rw [hx]; exact some_ne_none a)
  have hymem : y ∈ h.vertices := (ha.known y).mpr (by rw [hy]; exact some_ne_none a)
  rw [hx, hw] at hfind₁
  rw [hview₁.rep_eq, hview₁.value_eq, hy, hw'] at hfind₂
  have hrep : ∀ k, vw₂.rep k = g.vertexWeights.rep k := fun k =>
    (hview₂.rep_eq k).trans (hview₁.rep_eq k)
  refine ⟨{ g with vertexWeights := vw₂ }, ?_, ?_⟩
  · rw [identifyVertices, (ha.contains_iff x).mpr hxmem, (ha.contains_iff y).mpr hymem, hfind₁]
    simp only [Bool.and_self, Bool.not_true, Bool.false_eq_true, if_false, bind, Except.bind,
      bind_some, map_some, hfind₂, derefOption, if_true]
    rfl
  constructor
  case wf => exact hview₂.wf
  case wfOut => exact ha.wfOut
  case wfIn => exact ha.wfIn
  case repOut => exact fun k => by rw [hrep, ha.repOut]
  case repIn => exact fun k => by rw [hrep, ha.repIn]
  case sizeOut => exact fun k => by rw [hview₂.size_eq, hview₁.size_eq, ha.sizeOut]
  case sizeIn => exact fun k => by rw [hview₂.size_eq, hview₁.size_eq, ha.sizeIn]
  case known => exact fun v => by rw [hrep]; exact ha.known v
  case sound =>
      intro p hp
      rw [hrep, hrep]
      rcases mem_cons.mp hp with rfl | hp
      · exact ⟨a, hx, hy⟩
      · exact ha.sound p hp
  case complete =>
      intro u r hr
      rw [hrep] at hr
      exact (ha.complete u r hr).mono fun _ _ hmem => mem_cons_of_mem _ hmem
  case weight =>
      intro v r hr
      rw [hrep] at hr
      rw [hview₂.value_eq, hview₁.value_eq, ha.weight v r hr]
      exact weigh_congr fun e _ => by rw [hrep]
  case ends => exact fun e he => by rw [hrep, hrep]; exact ha.ends e he
  case out => exact ha.out
  case into => exact ha.into

/-- A vertex that names its class is its representative, or no edge ends in the class. -/
theorem names_entries (ha : Agrees vwMerge ewMerge g h) (hx : g.vertexWeights.rep x = some a)
    (hnames : g.Names x) :
    x = a ∨ ∀ e ∈ h.edges.entries,
      g.vertexWeights.rep e.1.1 ≠ some a ∧ g.vertexWeights.rep e.1.2 ≠ some a := by
  rcases hnames with hself | ⟨hout, hinto⟩
  · rw [repOf_eq ha.wf, hx] at hself
    exact .inl (some.inj hself).symm
  · refine .inr fun e he => ⟨fun hsrc => ?_, fun hdst => ?_⟩
    · obtain ⟨t, ht⟩ := ne_none_iff_exists'.mp (ha.ends e he).2
      have hrow := ha.lookup_outOf hx t
      rw [hout, AList.lookup_empty] at hrow
      exact between_eq_none.mp hrow.symm e he ⟨hsrc, ht⟩
    · obtain ⟨s, hs⟩ := ne_none_iff_exists'.mp (ha.ends e he).1
      have hrow := ha.lookup_intoOf hx s
      rw [hinto, AList.lookup_empty] at hrow
      exact between_eq_none.mp hrow.symm e he ⟨hs, hdst⟩

/-- The classes after an identification. -/
theorem same_of_repAfter (ha : Agrees vwMerge ewMerge g h) (hx : g.vertexWeights.rep x = some a)
    (hy : g.vertexWeights.rep y = some b) (hid : Identifies x y a b r) {u : V}
    (hs : repAfter g.vertexWeights.rep a b r u = some s) :
    ({ h with identified := (x, y) :: h.identified } : Added V VW EW).Same u s := by
  have hmono : ∀ u v, h.Same u v →
      ({ h with identified := (x, y) :: h.identified } : Added V VW EW).Same u v :=
    fun u v huv => huv.mono fun _ _ hmem => mem_cons_of_mem _ hmem
  have hab : ({ h with identified := (x, y) :: h.identified } : Added V VW EW).Same a b := by
    refine .trans _ x _ (.symm _ _ (hmono _ _ (ha.complete x a hx))) (.trans _ y _ ?_ ?_)
    · exact .rel _ _ mem_cons_self
    · exact hmono _ _ (ha.complete y b hy)
  by_cases hsr : s = r
  · subst hsr
    have hua := (repAfter_eq_survivor hid).mp hs
    have hsame : ∀ c, c = a ∨ c = b → g.vertexWeights.rep u = some c →
        ({ h with identified := (x, y) :: h.identified } : Added V VW EW).Same u s := by
      intro c hc huc
      refine .trans _ c _ (hmono _ _ (ha.complete u c huc)) ?_
      rcases hc with rfl | rfl <;> rcases hid.survivor with rfl | rfl
      · exact .refl _
      · exact hab
      · exact .symm _ _ hab
      · exact .refl _
    rcases hua with hua | hub
    · exact hsame a (.inl rfl) hua
    · exact hsame b (.inr rfl) hub
  · obtain ⟨hsa, hsb⟩ := ne_of_repAfter hsr hs
    rw [repAfter_eq_other hsr hsa hsb] at hs
    exact hmono _ _ (ha.complete u s hs)

/-- The merged vertex weights after an identification. -/
theorem weight_united [Std.Commutative vwMerge] [Std.Associative vwMerge]
    (ha : Agrees vwMerge ewMerge g h) {vw : UnionFindMap V VW}
    (haa : g.vertexWeights.rep a = some a) (hbb : g.vertexWeights.rep b = some b)
    (hid : Identifies x y a b r) (hunited : United g.vertexWeights vw a b vwMerge)
    (hs : repAfter g.vertexWeights.rep a b r v = some s) :
    vw.value v = weigh vwMerge h.vertices.entries fun u =>
      repAfter g.vertexWeights.rep a b r u = some s := by
  obtain ⟨w, w', hw, hw', hvalue⟩ := hunited.value_eq
  by_cases hsr : s = r
  · subst hsr
    have hmerged : some (vwMerge w w') = weigh vwMerge h.vertices.entries fun u =>
        g.vertexWeights.rep u = some a ∨ g.vertexWeights.rep u = some b := by
      rw [weigh_or, ← ha.weight a a haa, ← ha.weight b b hbb]
      · rcases survivor_absorbed g.vertexWeights.size a b with ⟨hsa, hab⟩ | ⟨hsb, hba⟩
        · rw [hsa] at hw
          rw [hab] at hw'
          rw [hw, hw', merge_some_some]
        · rw [hsb] at hw
          rw [hba] at hw'
          rw [hw, hw', merge_comm, merge_some_some]
      · intro e _ hea heb
        rw [hea] at heb
        exact hid.ne (some.inj heb)
    rw [hvalue, if_pos ((repAfter_eq_survivor hid).mp hs), hmerged]
    exact weigh_congr fun e _ => (repAfter_eq_survivor hid).symm
  · obtain ⟨hsa, hsb⟩ := ne_of_repAfter hsr hs
    rw [repAfter_eq_other hsr hsa hsb] at hs
    rw [hvalue, if_neg, ha.weight v s hs]
    · exact weigh_congr fun e _ => (repAfter_eq_other hsr hsa hsb).symm
    · rw [hs]
      exact not_or.mpr ⟨fun heq => hsa (some.inj heq), fun heq => hsb (some.inj heq)⟩

/-- Identifying two vertices of different classes. -/
theorem identifyVertices_new [Std.Commutative vwMerge] [Std.Associative vwMerge]
    [Std.Commutative ewMerge] [Std.Associative ewMerge] (order : HashOrder V)
    (ha : Agrees vwMerge ewMerge g h) (hx : g.vertexWeights.rep x = some a)
    (hy : g.vertexWeights.rep y = some b) (hid : Identifies x y a b r)
    (hr : r = survivor g.vertexWeights.size a b)
    (hpatch : Patchable h.edges.entries g.vertexWeights.rep fst snd x y a b r) :
    ∃ g', identifyVertices order vwMerge ewMerge g x y = .ok (true, g') ∧
      Agrees vwMerge ewMerge g' { h with identified := (x, y) :: h.identified } := by
  have haa := ha.wf.rep_rep hx
  have hbb := ha.wf.rep_rep hy
  have hxmem : x ∈ h.vertices := (ha.known x).mpr (by rw [hx]; exact some_ne_none a)
  have hymem : y ∈ h.vertices := (ha.known y).mpr (by rw [hy]; exact some_ne_none b)
  -- the vertex weights
  obtain ⟨vw₁, hfind₁, hview₁⟩ := find_spec ha.wf x
  obtain ⟨vw₂, hfind₂, hview₂⟩ := find_spec hview₁.wf y
  obtain ⟨w, hw⟩ := ha.wf.exists_value hx
  obtain ⟨w', hw'⟩ := ha.wf.exists_value hy
  rw [hx, hw] at hfind₁
  rw [hview₁.rep_eq, hview₁.value_eq, hy, hw'] at hfind₂
  have hrep₂ : vw₂.rep = g.vertexWeights.rep :=
    funext fun k => (hview₂.rep_eq k).trans (hview₁.rep_eq k)
  have hsize₂ : vw₂.size = g.vertexWeights.size :=
    funext fun k => (hview₂.size_eq k).trans (hview₁.size_eq k)
  have hvalue₂ : vw₂.value = g.vertexWeights.value :=
    funext fun k => (hview₂.value_eq k).trans (hview₁.value_eq k)
  have hx₂ : vw₂.rep x = some a := by rw [hrep₂, hx]
  have hy₂ : vw₂.rep y = some b := by rw [hrep₂, hy]
  obtain ⟨vw₃, hunion, hunited₂⟩ := union_spec hview₂.wf hx₂ hy₂ hid.ne vwMerge
  have hunited : United g.vertexWeights vw₃ a b vwMerge := by
    obtain ⟨hwf, hrep, hsize, hvalue⟩ := hunited₂
    rw [hrep₂, hsize₂] at hrep
    rw [hrep₂, hsize₂] at hsize
    rw [hrep₂, hsize₂, hvalue₂] at hvalue
    exact ⟨hwf, hrep, hsize, hvalue⟩
  have hrep₃ : ∀ k, vw₃.rep k = repAfter g.vertexWeights.rep a b r k := by
    intro k
    rw [hunited.rep_eq, ← hr, repAfter]
  have hxr : vw₃.rep x = some r := by
    rw [hrep₃, repAfter_eq_survivor hid]
    exact .inl hx
  obtain ⟨vw₄, hfind₄, hview₄⟩ := find_spec hunited.wf x
  obtain ⟨w'', hw''⟩ := hunited.wf.exists_value hxr
  rw [hxr, hw''] at hfind₄
  -- the maps of edges
  obtain ⟨outX, out₁, houtX, hkeys₁, hviewO₁⟩ :=
    keysOf_spec order ha.wfOut ((ha.repOut x).trans hx)
  obtain ⟨outY, out₂, houtY, hkeys₂, hviewO₂⟩ := keysOf_spec order hviewO₁.wf
    ((hviewO₁.rep_eq y).trans ((ha.repOut y).trans hy))
  rw [hviewO₁.value_eq] at houtY
  obtain ⟨inX, in₁, hinX, hkeys₃, hviewI₁⟩ := keysOf_spec order ha.wfIn ((ha.repIn x).trans hx)
  obtain ⟨inY, in₂, hinY, hkeys₄, hviewI₂⟩ := keysOf_spec order hviewI₁.wf
    ((hviewI₁.rep_eq y).trans ((ha.repIn y).trans hy))
  rw [hviewI₁.value_eq] at hinY
  have hviewO : SameView g.outEdges out₂ := ⟨hviewO₂.wf,
    fun k => (hviewO₂.rep_eq k).trans (hviewO₁.rep_eq k),
    fun k => (hviewO₂.size_eq k).trans (hviewO₁.size_eq k),
    fun k => (hviewO₂.value_eq k).trans (hviewO₁.value_eq k)⟩
  have hviewI : SameView g.inEdges in₂ := ⟨hviewI₂.wf,
    fun k => (hviewI₂.rep_eq k).trans (hviewI₁.rep_eq k),
    fun k => (hviewI₂.size_eq k).trans (hviewI₁.size_eq k),
    fun k => (hviewI₂.value_eq k).trans (hviewI₁.value_eq k)⟩
  obtain ⟨out₃, out₄, out₅, hunionO, hpatchO, hpatchO', hwfO, hrepO, hsizeO, hrowsO⟩ :=
    contract_map order ha.repOut ha.sizeOut ha.out hviewO hx hy hid hr hpatch
      (visits_arrange order ha.repIn_eq ha.into haa hinX)
      (visits_arrange order ha.repIn_eq ha.into hbb hinY)
  obtain ⟨in₃, in₄, in₅, hunionI, hpatchI, hpatchI', hwfI, hrepI, hsizeI, hrowsI⟩ :=
    contract_map order ha.repIn ha.sizeIn ha.into hviewI hx hy hid hr hpatch.swap
      (visits_arrange order ha.repOut_eq ha.out haa houtX)
      (visits_arrange order ha.repOut_eq ha.out hbb houtY)
  refine ⟨⟨vw₄, out₅, in₅⟩, ?_, ?_⟩
  · rw [identifyVertices, (ha.contains_iff x).mpr hxmem, (ha.contains_iff y).mpr hymem, hfind₁]
    simp only [Bool.and_self, Bool.not_true, Bool.false_eq_true, if_false, bind, Except.bind,
      bind_some, map_some, hfind₂, derefOption, hid.ne, hunion, hfind₄, hkeys₁,
      hkeys₂, hkeys₃, hkeys₄, hunionO, hunionI, hpatchO, hpatchO', hpatchI, hpatchI']
    rfl
  have hrep₄ : ∀ k, vw₄.rep k = repAfter g.vertexWeights.rep a b r k := fun k =>
    (hview₄.rep_eq k).trans (hrep₃ k)
  have hsize₄ : ∀ k, vw₄.size k = if g.vertexWeights.rep k = some a ∨
      g.vertexWeights.rep k = some b then some ((g.vertexWeights.size a).getD 0 +
        (g.vertexWeights.size b).getD 0) else g.vertexWeights.size k := fun k =>
    (hview₄.size_eq k).trans (hunited.size_eq k)
  have hknown : ∀ k, repAfter g.vertexWeights.rep a b r k ≠ none ↔
      g.vertexWeights.rep k ≠ none := by
    intro k
    rw [repAfter]
    by_cases hk : g.vertexWeights.rep k = some a ∨ g.vertexWeights.rep k = some b
    · rw [if_pos hk]
      rcases hk with hk | hk <;> simp [hk]
    · rw [if_neg hk]
  constructor
  case wf => exact hview₄.wf
  case wfOut => exact hwfO
  case wfIn => exact hwfI
  case repOut => exact fun k => by rw [hrepO, hrep₄]
  case repIn => exact fun k => by rw [hrepI, hrep₄]
  case sizeOut => exact fun k => by rw [hsizeO, hsize₄]
  case sizeIn => exact fun k => by rw [hsizeI, hsize₄]
  case known => exact fun v => by rw [hrep₄, hknown]; exact ha.known v
  case sound =>
      intro p hp
      rw [hrep₄, hrep₄]
      rcases mem_cons.mp hp with rfl | hp
      · exact ⟨r, (repAfter_eq_survivor hid).mpr (.inl hx),
          (repAfter_eq_survivor hid).mpr (.inr hy)⟩
      · obtain ⟨s, hfst, hsnd⟩ := ha.sound p hp
        have heq : repAfter g.vertexWeights.rep a b r p.1 =
            repAfter g.vertexWeights.rep a b r p.2 := by
          rw [repAfter, repAfter, hfst, hsnd]
        have hne := (hknown p.1).mpr (by rw [hfst]; exact some_ne_none s)
        obtain ⟨s', hs'⟩ := ne_none_iff_exists'.mp hne
        exact ⟨s', hs', heq ▸ hs'⟩
  case complete =>
      intro u s hs
      rw [hrep₄] at hs
      exact same_of_repAfter ha hx hy hid hs
  case weight =>
      intro v s hs
      rw [hrep₄] at hs
      rw [hview₄.value_eq, weight_united ha haa hbb hid hunited hs]
      exact weigh_congr fun e _ => by rw [hrep₄]
  case ends => exact fun e he => by rw [hrep₄, hrep₄, hknown, hknown]; exact ha.ends e he
  case out => exact hrowsO
  case into => exact hrowsI

/-! ### Runs -/

theorem AllMeet.take (order : HashOrder V) (hops : AllMeet order vwMerge ewMerge g ops) (n : Nat) :
    AllMeet order vwMerge ewMerge g (ops.take n) := by
  induction ops generalizing g n with
  | nil =>
    rw [take_nil]
    exact trivial
  | cons op ops ih =>
    cases n with
    | zero => exact trivial
    | succ n => exact ⟨hops.1, fun g' hstep => ih (hops.2 g' hstep) n⟩

section Runs

variable [Std.Commutative vwMerge] [Std.Associative vwMerge] [Std.Commutative ewMerge]
  [Std.Associative ewMerge]

/-- A call that the graph handles keeps the agreement with what was added. -/
theorem step_agrees (order : HashOrder V) (ha : Agrees vwMerge ewMerge g h)
    {op : Operation V VW EW} (hop : g.Meets op) :
    ∃ g', step order vwMerge ewMerge g op = .ok g' ∧ Agrees vwMerge ewMerge g' (h.record op) := by
  have hrep := repOf_eq ha.wf
  cases op with
  | addVertex v w =>
    cases hv : g.vertexWeights.rep v with
    | none => exact addVertex_new ha hv w
    | some r =>
      have hcontains : g.contains v = true := by
        rw [ha.contains_iff, ha.known, hv]
        exact some_ne_none r
      refine addVertex_again ha hv (fun u hu => hop hcontains u ?_) w
      rw [hrep, hrep, hu]
  | addEdge s t w =>
    by_cases hknown : s ∈ h.vertices ∧ t ∈ h.vertices
    · obtain ⟨hs, ht, hnone⟩ :=
        hop ((ha.contains_iff s).mpr hknown.1) ((ha.contains_iff t).mpr hknown.2)
      rw [hrep] at hs ht
      rw [← AList.lookup_eq_none, ha.lookup_outOf hs] at hnone
      obtain ⟨g', hadd, ha'⟩ := addEdge_new ha hs ht hnone w
      refine ⟨g', ?_, ha'⟩
      rw [step, hadd]
      rfl
    · have hcontains : (g.contains s && g.contains t) = false := by
        rw [Bool.eq_false_iff]
        intro hboth
        rw [Bool.and_eq_true, ha.contains_iff, ha.contains_iff] at hboth
        exact hknown hboth
      refine ⟨g, ?_, ?_⟩
      · rw [step, addEdge, hcontains]
        rfl
      · rw [Added.record, if_neg hknown]
        exact ha
  | identifyVertices x y =>
    by_cases hknown : x ∈ h.vertices ∧ y ∈ h.vertices
    · rw [Added.record, if_pos hknown]
      obtain ⟨a, hx⟩ := ne_none_iff_exists'.mp ((ha.known x).mp hknown.1)
      obtain ⟨b, hy⟩ := ne_none_iff_exists'.mp ((ha.known y).mp hknown.2)
      by_cases hab : a = b
      · subst hab
        obtain ⟨g', hrun, ha'⟩ := identifyVertices_same order ha hx hy
        refine ⟨g', ?_, ha'⟩
        rw [step, hrun]
        rfl
      · obtain ⟨hnamesX, hnamesY, hinside⟩ := hop a b ((hrep x).trans hx) ((hrep y).trans hy) hab
        have haa := ha.wf.rep_rep hx
        have hbb := ha.wf.rep_rep hy
        have hid : Identifies x y a b (survivor g.vertexWeights.size a b) := by
          refine ⟨hab, ?_, ?_, ?_, ?_⟩
          · rcases survivor_absorbed g.vertexWeights.size a b with hs | hs
            · exact .inl hs.1
            · exact .inr hs.1
          · rintro rfl
            exact hab (some.inj (hx.symm.trans hbb))
          · rintro rfl
            exact hab (some.inj (haa.symm.trans hy))
          · rintro rfl
            exact hab (some.inj (hx.symm.trans hy))
        have hpatch : Patchable h.edges.entries g.vertexWeights.rep fst snd x y a b
            (survivor g.vertexWeights.size a b) := by
          refine ⟨names_entries ha hx hnamesX, names_entries ha hy hnamesY, ?_⟩
          rcases hinside with hs | hs | ⟨hself, hself'⟩
          · exact .inl (.inl hs)
          · exact .inl (.inr hs)
          · rw [← AList.lookup_eq_none, ha.lookup_outOf haa] at hself
            rw [← AList.lookup_eq_none, ha.lookup_outOf hbb] at hself'
            exact .inr fun e he =>
              ⟨between_eq_none.mp hself e he, between_eq_none.mp hself' e he⟩
        obtain ⟨g', hrun, ha'⟩ := identifyVertices_new order ha hx hy hid rfl hpatch
        refine ⟨g', ?_, ha'⟩
        rw [step, hrun]
        rfl
    · have hcontains : (g.contains x && g.contains y) = false := by
        rw [Bool.eq_false_iff]
        intro hboth
        rw [Bool.and_eq_true, ha.contains_iff, ha.contains_iff] at hboth
        exact hknown hboth
      refine ⟨g, ?_, ?_⟩
      · rw [step, identifyVertices, hcontains]
        rfl
      · rw [Added.record, if_neg hknown]
        exact ha

/-- A run of calls that the graph handles keeps the agreement. -/
theorem run_agrees (order : HashOrder V) {ops : List (Operation V VW EW)}
    (ha : Agrees vwMerge ewMerge g h) (hops : AllMeet order vwMerge ewMerge g ops) :
    ∃ g', run order vwMerge ewMerge g ops = .ok g' ∧ Agrees vwMerge ewMerge g' (h.records ops) := by
  induction ops generalizing g h with
  | nil => exact ⟨g, rfl, ha⟩
  | cons op ops ih =>
    obtain ⟨g', hstep, ha'⟩ := step_agrees order ha hops.1
    obtain ⟨g'', hrun, ha''⟩ := ih ha' (hops.2 g' hstep)
    refine ⟨g'', ?_, ha''⟩
    rw [run, hstep]
    exact hrun

/-- In a run whose calls the graph handles, no call fails and every graph that is reached is
the quotient of what was added. -/
theorem isQuotient_of_allMeet (order : HashOrder V) (ops : List (Operation V VW EW))
    (hops : AllMeet order vwMerge ewMerge empty ops) (n : Nat) :
    ∃ g, run order vwMerge ewMerge empty (ops.take n) = .ok g ∧
      IsQuotient vwMerge ewMerge g (Added.nothing.records (ops.take n)) := by
  obtain ⟨g, hrun, ha⟩ := run_agrees order agrees_empty (AllMeet.take order hops n)
  exact ⟨g, hrun, ha.isQuotient⟩

end Runs

/-! ### Runs on natural numbers -/

/-- The order of the insertions. -/
def insertionOrder : HashOrder Nat := ⟨id, fun _ => Perm.refl _⟩

theorem allMeet_cons {order : HashOrder V} {op : Operation V VW EW} {g' : GraphContraction V VW EW}
    (hop : g.Meets op) (hstep : step order vwMerge ewMerge g op = .ok g')
    (hops : AllMeet order vwMerge ewMerge g' ops) :
    AllMeet order vwMerge ewMerge g (op :: ops) := by
  refine ⟨hop, fun g'' hstep' => ?_⟩
  rw [hstep] at hstep'
  rw [← Except.ok.inj hstep']
  exact hops

theorem isQuotient_of_allMeet_one_edge :
    ∃ g, run insertionOrder (· + ·) (· + ·) empty (take 4 [.addVertex 0 10, .addVertex 1 20,
        .addEdge 0 1 5, .identifyVertices 0 1]) = .ok g ∧
      IsQuotient (· + ·) (· + ·) g (Added.nothing.records (take 4 [.addVertex 0 10,
        .addVertex 1 20, .addEdge 0 1 5, .identifyVertices 0 1])) := by
  refine isQuotient_of_allMeet insertionOrder _ ?_ 4
  refine allMeet_cons (fun hcontains => absurd hcontains (by decide)) rfl ?_
  refine allMeet_cons (fun hcontains => absurd hcontains (by decide)) rfl ?_
  refine allMeet_cons (fun _ _ => ⟨rfl, rfl, by decide⟩) rfl ?_
  refine allMeet_cons ?_ rfl trivial
  intro a b ha hb _
  obtain rfl : 0 = a := some.inj ha
  obtain rfl : 1 = b := some.inj hb
  exact ⟨.inl rfl, .inl rfl, .inl rfl⟩

/-- An edge that is added twice keeps its first weight. -/
theorem not_isQuotient_edge_added_twice :
    ¬∃ g, run insertionOrder (· + ·) (· + ·) empty [.addVertex 0 10, .addVertex 1 20,
        .addEdge 0 1 1, .addEdge 0 1 2] = .ok g ∧
      IsQuotient (· + ·) (· + ·) g (Added.nothing.records [.addVertex 0 10, .addVertex 1 20,
        .addEdge 0 1 1, .addEdge 0 1 2]) := by
  rintro ⟨g, hrun, hquotient⟩
  obtain rfl := Except.ok.inj hrun
  obtain ⟨edges, g', heq, hlookup⟩ := hquotient.edgesOutOf 0 (by decide)
  cases heq
  have hweights : some 1 = some 2 := hlookup 1
  exact absurd hweights (by decide)

-- A vertex that does not name its class: the row of `2` has an edge to `0`, not to `1`.
example : run insertionOrder (· + ·) (· + ·) empty [.addVertex 0 10, .addVertex 1 20,
    .addVertex 2 30, .addEdge 2 0 1, .identifyVertices 0 1, .identifyVertices 1 2] =
    .error .check := rfl

end Xls.GraphContraction

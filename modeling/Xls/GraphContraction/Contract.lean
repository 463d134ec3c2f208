import Xls.GraphContraction

/-!
# Xls.GraphContraction.Contract

What the identification of two vertices does to the edges of one vertex. `contracted` is the
row of a vertex in which the ends `a` and `b` became one; `merge_map` and `patch_up_edges`
both compute it (`contract_rows`).
-/

namespace Xls.GraphContraction

open UnionFindMap List Option
open UnionFindMap (SameView Assigned)

variable {V EW : Type} [DecidableEq V]

/-- The weights of the edges to `a` and `b` are merged at `r`, which is one of them. -/
def contracted (f : EW → EW → EW) (a b r : V) (row : V → Option EW) (v : V) : Option EW :=
  if v = r then merge f (row a) (row b)
  else if v = a ∨ v = b then none else row v

/-- The vertices `x` and `y` are identified, whose representatives are `a` and `b`; `r` is one
of these. -/
structure Identifies (x y a b r : V) : Prop where
  ne : a ≠ b
  survivor : r = a ∨ r = b
  x_ne : x ≠ b
  y_ne : y ≠ a
  xy_ne : x ≠ y

/-- A row has no edge to the class that `x` names, unless `x` is the representative. -/
def Clear (x a : V) (row : V → Option EW) : Prop := x = a ∨ row x = none ∧ row a = none

variable {f : EW → EW → EW} {x y a b r : V} {row : V → Option EW}

/-- A row without the absorbed end is contracted already. -/
theorem contracted_of_none (hid : Identifies x y a b r)
    (h : ∀ v, v ≠ r → v = a ∨ v = b → row v = none) : contracted f a b r row = row := by
  funext v
  rw [contracted]
  by_cases hv : v = r
  · subst hv
    rw [if_pos rfl]
    rcases hid.survivor with rfl | rfl
    · rw [h b (Ne.symm hid.ne) (.inr rfl), merge_none_right]
    · rw [h a hid.ne (.inl rfl), merge_none_left]
  · rw [if_neg hv]
    by_cases hab : v = a ∨ v = b
    · rw [if_pos hab, h v hv hab]
    · rw [if_neg hab]

theorem contracted_self : contracted f a b r row r = merge f (row a) (row b) :=
  if_pos rfl

theorem contracted_absorbed {v : V} (hv : v ≠ r) (hab : v = a ∨ v = b) :
    contracted f a b r row v = none := by
  rw [contracted, if_neg hv, if_pos hab]

theorem contracted_other (hid : Identifies x y a b r) {v : V} (ha : v ≠ a) (hb : v ≠ b) :
    contracted f a b r row v = row v := by
  have hv : v ≠ r := by
    rcases hid.survivor with rfl | rfl
    · exact ha
    · exact hb
  rw [contracted, if_neg hv, if_neg (not_or.mpr ⟨ha, hb⟩)]

/-! ### Merging two rows -/

section Merge

variable {edges result : EdgeMap V EW}

/-- A row into which an entry is merged. -/
theorem lookup_mergeEntry (vertex v : V) :
    (mergeEntry f x y r edges result vertex).lookup v = merge f (result.lookup v)
      (if renamed x y r vertex = v then edges.lookup vertex else none) := by
  rw [mergeEntry]
  cases hedge : edges.lookup vertex with
  | none => simp
  | some weight =>
    by_cases hv : renamed x y r vertex = v
    · subst hv
      cases hold : result.lookup (renamed x y r vertex) with
      | none => simp
      | some old => simp
    · have hne : v ≠ renamed x y r vertex := Ne.symm hv
      cases hold : result.lookup (renamed x y r vertex) with
      | _ => simp [AList.lookup_insert_ne hne, hv]

theorem lookup_foldl_mergeEntry [Std.Associative f] (vertices : List V) (v : V) :
    (vertices.foldl (mergeEntry f x y r edges) result).lookup v =
      merge f (result.lookup v) (mergeAll f
        (fun vertex => if renamed x y r vertex = v then edges.lookup vertex else none)
        vertices) := by
  induction vertices generalizing result with
  | nil => simp
  | cons vertex vertices ih =>
    rw [foldl_cons, ih, lookup_mergeEntry, mergeAll_cons, merge_assoc]

/-- Renaming the keys of a row contracts it. -/
theorem mergeAll_renamed [Std.Commutative f] [Std.Associative f] (hid : Identifies x y a b r)
    (hx : Clear x a row) (hy : Clear y b row) {vertices : List V} (hnodup : vertices.Nodup)
    (hmem : ∀ v, v ∉ vertices → row v = none) (v : V) :
    mergeAll f (fun vertex => if renamed x y r vertex = v then row vertex else none) vertices =
      contracted f a b r row v := by
  have hite : ∀ u, (if u ∈ vertices then row u else none) = row u := by
    intro u
    by_cases hu : u ∈ vertices
    · rw [if_pos hu]
    · rw [if_neg hu, hmem u hu]
  rw [contracted]
  by_cases hv : v = r
  · subst hv
    rw [if_pos rfl, mergeAll_pair hnodup hid.ne]
    · have ha : (if renamed x y v a = v then row a else none) = row a := by
        rcases hx with rfl | ⟨-, hnone⟩
        · simp [renamed]
        · simp [hnone]
      have hb : (if renamed x y v b = v then row b else none) = row b := by
        rcases hy with rfl | ⟨-, hnone⟩
        · simp [renamed]
        · simp [hnone]
      rw [ha, hb, hite, hite]
    · intro u hua hub
      by_cases hux : u = x
      · rcases hx with rfl | ⟨hnone, -⟩
        · exact absurd hux hua
        · simp [hux, hnone]
      · by_cases huy : u = y
        · rcases hy with rfl | ⟨hnone, -⟩
          · exact absurd huy hub
          · simp [huy, hnone]
        · have hur : u ≠ v := by
            rcases hid.survivor with rfl | rfl
            · exact hua
            · exact hub
          simp [renamed, hux, huy, hur]
  · rw [if_neg hv, mergeAll_single (u := v) hnodup]
    · by_cases hxy : v = x ∨ v = y
      · have hrow : v = a ∨ v = b ∨ row v = none := by
          rcases hxy with rfl | rfl
          · rcases hx with h | h
            · exact .inl h
            · exact .inr (.inr h.1)
          · rcases hy with h | h
            · exact .inr (.inl h)
            · exact .inr (.inr h.1)
        have hleft : (if renamed x y r v = v then row v else none) = none := by
          simp [renamed, hxy, Ne.symm hv]
        rw [hleft, ite_self]
        by_cases hab : v = a ∨ v = b
        · rw [if_pos hab]
        · rw [if_neg hab]
          tauto
      · have hren : renamed x y r v = v := by simp [renamed, hxy]
        rw [if_pos hren, hite]
        by_cases hab : v = a ∨ v = b
        · rw [if_pos hab]
          rcases hab with rfl | rfl
          · rcases hx with rfl | h
            · exact absurd (.inl rfl) hxy
            · exact h.2
          · rcases hy with rfl | h
            · exact absurd (.inr rfl) hxy
            · exact h.2
        · rw [if_neg hab]
    · intro u hu
      by_cases hren : renamed x y r u = v
      · rw [renamed] at hren
        by_cases hxy : u = x ∨ u = y
        · rw [if_pos hxy] at hren
          exact absurd hren.symm hv
        · rw [if_neg hxy] at hren
          exact absurd hren hu
      · rw [if_neg hren]

/-- `merge_map` merges the contracted rows. -/
theorem lookup_mergeMap [Std.Commutative f] [Std.Associative f] (order : HashOrder V)
    (hid : Identifies x y a b r)
    {edges' : EdgeMap V EW} (hx : Clear x a edges.lookup) (hy : Clear y b edges.lookup)
    (hx' : Clear x a edges'.lookup) (hy' : Clear y b edges'.lookup) (v : V) :
    (mergeMap order f x y r edges edges').lookup v =
      merge f (contracted f a b r edges.lookup v) (contracted f a b r edges'.lookup v) := by
  have hkeys : ∀ edges : EdgeMap V EW, (order.arrange edges.keys).Nodup ∧
      ∀ v, v ∉ order.arrange edges.keys → edges.lookup v = none := by
    intro edges
    refine ⟨(order.perm _).nodup_iff.mpr edges.keys_nodup, ?_⟩
    intro v hv
    rw [(order.perm _).mem_iff] at hv
    exact AList.lookup_eq_none.mpr fun h => hv (AList.mem_keys.mp h)
  rw [mergeMap, lookup_foldl_mergeEntry, lookup_foldl_mergeEntry,
    mergeAll_renamed hid hx hy (hkeys edges).1 (hkeys edges).2,
    mergeAll_renamed hid hx' hy' (hkeys edges').1 (hkeys edges').2]
  simp

end Merge

/-! ### Patching the other rows -/

section Patch

variable {edges : EdgeMap V EW}

theorem lookup_insert_erase (weight : EW) (x r v : V) :
    ((edges.erase x).insert r weight).lookup v =
      if v = r then some weight else if v = x then none else edges.lookup v := by
  by_cases hv : v = r
  · subst hv
    rw [AList.lookup_insert, if_pos rfl]
  · rw [AList.lookup_insert_ne hv, if_neg hv]
    by_cases hx : v = x
    · rw [hx, AList.lookup_erase, if_pos rfl]
    · rw [AList.lookup_erase_ne hx, if_neg hx]

/-- Patching a row with an edge to `a` or `b` contracts it. -/
theorem patchEdges_row (hid : Identifies x y a b r) (hx : Clear x a edges.lookup)
    (hy : Clear y b edges.lookup) (hedge : edges.lookup a ≠ none ∨ edges.lookup b ≠ none) :
    ∃ edges', patchEdges f x y r edges = .ok edges' ∧
      ∀ v, edges'.lookup v = contracted f a b r edges.lookup v := by
  rw [patchEdges]
  cases hxw : edges.lookup x with
  | some xWeight =>
    have hxa : x = a := by
      rcases hx with h | h
      · exact h
      · cases hxw.symm.trans h.1
    subst hxa
    cases hyw : edges.lookup y with
    | some yWeight =>
      have hyb : y = b := by
        rcases hy with h | h
        · exact h
        · cases hyw.symm.trans h.1
      subst hyb
      refine ⟨_, rfl, fun v => ?_⟩
      rw [contracted, hxw, hyw]
      by_cases hv : v = r
      · subst hv
        rw [AList.lookup_insert, if_pos rfl, merge_some_some]
      · rw [AList.lookup_insert_ne hv, if_neg hv]
        by_cases hvy : v = y
        · rw [hvy, AList.lookup_erase, if_pos (.inr rfl)]
        · rw [AList.lookup_erase_ne hvy]
          by_cases hvx : v = x
          · rw [hvx, AList.lookup_erase, if_pos (.inl rfl)]
          · rw [AList.lookup_erase_ne hvx, if_neg (not_or.mpr ⟨hvx, hvy⟩)]
    | none =>
      have hb : edges.lookup b = none := by
        rcases hy with rfl | h
        · exact hyw
        · exact h.2
      refine ⟨_, rfl, fun v => ?_⟩
      rw [lookup_insert_erase, contracted, hxw, hb, merge_none_right]
      by_cases hvx : v = x
      · simp [hvx]
      · by_cases hvb : v = b
        · subst hvb
          simp [hvx, hb]
        · simp [hvx, hvb]
  | none =>
    have ha : edges.lookup a = none := by
      rcases hx with rfl | h
      · exact hxw
      · exact h.2
    have hb : edges.lookup b ≠ none := by
      rcases hedge with h | h
      · exact absurd ha h
      · exact h
    have hyb : y = b := by
      rcases hy with h | h
      · exact h
      · exact absurd h.2 hb
    subst hyb
    obtain ⟨weight, hyw⟩ := ne_none_iff_exists'.mp hb
    rw [hyw]
    refine ⟨_, rfl, fun v => ?_⟩
    rw [lookup_insert_erase, contracted, ha, hyw, merge_none_left]
    by_cases hvy : v = y
    · simp [hvy]
    · by_cases hva : v = a
      · subst hva
        simp [hvy, ha]
      · simp [hvy, hva]

/-- Patching a contracted row again does not change it, if the survivor is `x` or `y`. -/
theorem patchEdges_contracted (hid : Identifies x y a b r) (hrow : ∀ v, edges.lookup v =
    contracted f a b r row v) (hx : Clear x a row) (hy : Clear y b row)
    (hr : r = x ∨ r = y) (hedge : row a ≠ none ∨ row b ≠ none) :
    ∃ edges', patchEdges f x y r edges = .ok edges' ∧
      ∀ v, edges'.lookup v = contracted f a b r row v := by
  have hself : edges.lookup r ≠ none := by
    rw [hrow, contracted_self, Ne, merge_eq_none_iff]
    tauto
  obtain ⟨weight, hweight⟩ := ne_none_iff_exists'.mp hself
  have hkeep : ∀ v, ((edges.erase r).insert r weight).lookup v = contracted f a b r row v := by
    intro v
    rw [lookup_insert_erase]
    by_cases hv : v = r
    · rw [if_pos hv, hv, ← hweight, hrow]
    · rw [if_neg hv, if_neg hv, hrow]
  rw [patchEdges]
  rcases hr with rfl | rfl
  · have hy' : edges.lookup y = none := by
      rw [hrow]
      rcases hy with rfl | h
      · exact contracted_absorbed (Ne.symm hid.xy_ne) (.inr rfl)
      · by_cases hyb : y = b
        · exact contracted_absorbed (Ne.symm hid.xy_ne) (.inr hyb)
        · rw [contracted_other hid hid.y_ne hyb, h.1]
    rw [hweight, hy']
    exact ⟨_, rfl, hkeep⟩
  · have hx' : edges.lookup x = none := by
      rw [hrow]
      rcases hx with rfl | h
      · exact contracted_absorbed hid.xy_ne (.inl rfl)
      · by_cases hxa : x = a
        · exact contracted_absorbed hid.xy_ne (.inl hxa)
        · rw [contracted_other hid hxa hid.x_ne, h.1]
    rw [hx', hweight]
    exact ⟨_, rfl, hkeep⟩

/-- A class has a row, or its contraction if the survivor is `x` or `y`. -/
def HasRow (f : EW → EW → EW) (x y a b r : V) (rows : V → V → Option EW)
    (m : UnionFindMap V (EdgeMap V EW)) (s : V) : Prop :=
  ∃ edges, m.value s = some edges ∧ ((∀ v, edges.lookup v = rows s v) ∨
    ((r = x ∨ r = y) ∧ ∀ v, edges.lookup v = contracted f a b r (rows s) v))

variable {m : UnionFindMap V (EdgeMap V EW)}

/-- Patching the edges of a vertex contracts the row of its class. -/
theorem patchUpEdges_spec (hid : Identifies x y a b r) {rows : V → V → Option EW}
    (hm : m.WellFormed) {vertex s : V} (hs : m.rep vertex = some s) (hx : Clear x a (rows s))
    (hy : Clear y b (rows s)) (hedge : rows s a ≠ none ∨ rows s b ≠ none)
    (hrow : HasRow f x y a b r rows m s) :
    ∃ m' edges, patchUpEdges f x y r m vertex = .ok m' ∧ Assigned m m' s edges ∧
      ∀ v, edges.lookup v = contracted f a b r (rows s) v := by
  obtain ⟨edges, hvalue, hrow⟩ := hrow
  obtain ⟨m₁, hfind, hview⟩ := find_spec hm vertex
  have hpatch : ∃ edges', patchEdges f x y r edges = .ok edges' ∧
      ∀ v, edges'.lookup v = contracted f a b r (rows s) v := by
    rcases hrow with hrow | ⟨hr, hrow⟩
    · have heq : edges.lookup = rows s := funext hrow
      rw [← heq] at hx hy hedge ⊢
      exact patchEdges_row hid hx hy hedge
    · exact patchEdges_contracted hid hrow hx hy hr hedge
  obtain ⟨edges', hpatch, hrow'⟩ := hpatch
  obtain ⟨m', hassign, hassigned⟩ :=
    assign_spec hview.wf ((hview.rep_eq vertex).trans hs) edges'
  refine ⟨m', edges', ?_, ?_, hrow'⟩
  · rw [patchUpEdges, hfind, hs, ← hm.value_rep hs, hvalue]
    simp only [bind, Except.bind, bind_some, map_some, derefOption, hpatch]
    exact hassign
  · refine ⟨hassigned.wf, fun k => ?_, fun k => ?_, fun k => ?_⟩
    · rw [hassigned.rep_eq, hview.rep_eq]
    · rw [hassigned.size_eq, hview.size_eq]
    · rw [hassigned.value_eq, hview.rep_eq, hview.value_eq]

/-- The loops contract the rows of the classes of the vertices they visit. -/
theorem patchAll_spec (hid : Identifies x y a b r) (rows : V → V → Option EW) (vertices : List V)
    (hm : m.WellFormed)
    (hvisit : ∀ vertex ∈ vertices, ∃ s, m.rep vertex = some s ∧ Clear x a (rows s) ∧
      Clear y b (rows s) ∧ (rows s a ≠ none ∨ rows s b ≠ none) ∧ HasRow f x y a b r rows m s)
    (honce : (r = x ∨ r = y) ∨ (vertices.map m.rep).Nodup) :
    ∃ m', patchAll f x y r vertices m = .ok m' ∧ m'.WellFormed ∧
      (∀ k, m'.rep k = m.rep k) ∧ (∀ k, m'.size k = m.size k) ∧
      (∀ s, m.rep s = some s → some s ∉ vertices.map m.rep → m'.value s = m.value s) ∧
      ∀ s, some s ∈ vertices.map m.rep → ∃ edges, m'.value s = some edges ∧
        ∀ v, edges.lookup v = contracted f a b r (rows s) v := by
  induction vertices generalizing m with
  | nil =>
    refine ⟨m, rfl, hm, fun _ => rfl, fun _ => rfl, fun _ _ _ => rfl, ?_⟩
    intro s hs
    cases hs
  | cons vertex vertices ih =>
    obtain ⟨s, hs, hx, hy, hedge, hrow⟩ := hvisit vertex mem_cons_self
    obtain ⟨m₁, edges, hpatch, hassigned, hedges⟩ := patchUpEdges_spec hid hm hs hx hy hedge hrow
    have hss : m.rep s = some s := hm.rep_rep hs
    have hreps : vertices.map m₁.rep = vertices.map m.rep :=
      map_congr_left fun k _ => hassigned.rep_eq k
    have hvisit₁ : ∀ vertex ∈ vertices, ∃ s, m₁.rep vertex = some s ∧ Clear x a (rows s) ∧
        Clear y b (rows s) ∧ (rows s a ≠ none ∨ rows s b ≠ none) ∧
        HasRow f x y a b r rows m₁ s := by
      intro v hv
      obtain ⟨s', hs', hx', hy', hedge', edges', hvalue', hrow'⟩ :=
        hvisit v (mem_cons_of_mem _ hv)
      refine ⟨s', (hassigned.rep_eq v).trans hs', hx', hy', hedge', ?_⟩
      have hss' : m.rep s' = some s' := hm.rep_rep hs'
      by_cases hsame : s' = s
      · subst hsame
        have hr : r = x ∨ r = y := by
          rcases honce with hr | hnodup
          · exact hr
          · rw [map_cons, nodup_cons] at hnodup
            refine absurd (mem_map.mpr ⟨v, hv, ?_⟩) hnodup.1
            rw [hs', hs]
        refine ⟨edges, ?_, .inr ⟨hr, hedges⟩⟩
        rw [hassigned.value_eq, if_pos hss]
      · refine ⟨edges', ?_, hrow'⟩
        rw [hassigned.value_eq, hss', if_neg, hvalue']
        exact fun h => hsame (some.inj h)
    have honce₁ : (r = x ∨ r = y) ∨ (vertices.map m₁.rep).Nodup := by
      rw [hreps]
      rcases honce with hr | hnodup
      · exact .inl hr
      · rw [map_cons, nodup_cons] at hnodup
        exact .inr hnodup.2
    obtain ⟨m', hrun, hwf, hrep, hsize, hkeep, hdone⟩ := ih hassigned.wf hvisit₁ honce₁
    rw [hreps] at hkeep hdone
    have hvalue₁ : ∀ k, m.rep k ≠ some s → m₁.value k = m.value k := by
      intro k hk
      rw [hassigned.value_eq, if_neg hk]
    refine ⟨m', ?_, hwf, fun k => (hrep k).trans (hassigned.rep_eq k),
      fun k => (hsize k).trans (hassigned.size_eq k), ?_, ?_⟩
    · rw [patchAll, hpatch]
      exact hrun
    · intro k hkk hk
      rw [map_cons, mem_cons, not_or, hs, ← hkk] at hk
      rw [hkeep k ((hassigned.rep_eq k).trans hkk) (by rw [← hkk]; exact hk.2)]
      exact hvalue₁ k hk.1
    · intro k hk
      by_cases hlater : some k ∈ vertices.map m.rep
      · exact hdone k hlater
      · rw [map_cons, mem_cons] at hk
        have hks : k = s := by
          rcases hk with hk | hk
          · rw [hs] at hk
            exact some.inj hk
          · exact absurd hk hlater
        subst hks
        refine ⟨edges, ?_, hedges⟩
        rw [hkeep k ((hassigned.rep_eq k).trans hss) hlater, hassigned.value_eq, if_pos hss]

end Patch

/-! ### The map of all rows -/

section Rows

variable {α : Type} {entries : List (Sigma fun _ : α => EW)} {src dst : α → V}
  {m m' : UnionFindMap V (EdgeMap V EW)}

/-- The merged weight of the entries between two classes. -/
def between (f : EW → EW → EW) (entries : List (Sigma fun _ : α => EW)) (rep : V → Option V)
    (src dst : α → V) (s t : V) : Option EW :=
  weigh f entries fun e => rep (src e) = some s ∧ rep (dst e) = some t

/-- The row of each representative holds the merged weights of the entries. -/
def Rows (f : EW → EW → EW) (entries : List (Sigma fun _ : α => EW)) (src dst : α → V)
    (m : UnionFindMap V (EdgeMap V EW)) : Prop :=
  ∀ s, m.rep s = some s → ∃ edges, m.value s = some edges ∧
    ∀ t, edges.lookup t = between f entries m.rep src dst s t

variable {rep : V → Option V} {s k : V}

theorem between_eq_none {t : V} :
    between f entries rep src dst s t = none ↔
      ∀ e ∈ entries, ¬(rep (src e.1) = some s ∧ rep (dst e.1) = some t) :=
  weigh_eq_none

/-- The representatives after a union of the classes of `a` and `b`. -/
def repAfter (rep : V → Option V) (a b r k : V) : Option V :=
  if rep k = some a ∨ rep k = some b then some r else rep k

/-- The survivor represents what either of the two represented. -/
theorem repAfter_eq_survivor (hid : Identifies x y a b r) :
    repAfter rep a b r k = some r ↔ rep k = some a ∨ rep k = some b := by
  rw [repAfter]
  by_cases h : rep k = some a ∨ rep k = some b
  · simp [h]
  · rw [if_neg h]
    constructor
    · intro hr
      rcases hid.survivor with rfl | rfl
      · exact .inl hr
      · exact .inr hr
    · exact fun hab => absurd hab h

/-- Other representatives represent what they did. -/
theorem repAfter_eq_other {v : V} (hv : v ≠ r) (ha : v ≠ a) (hb : v ≠ b) :
    repAfter rep a b r k = some v ↔ rep k = some v := by
  rw [repAfter]
  by_cases h : rep k = some a ∨ rep k = some b
  · rw [if_pos h]
    constructor
    · intro hr
      exact absurd (some.inj hr).symm hv
    · intro hk
      rcases h with h | h
      · rw [h] at hk
        exact absurd (some.inj hk).symm ha
      · rw [h] at hk
        exact absurd (some.inj hk).symm hb
  · rw [if_neg h]

/-- The absorbed one represents nothing any more. -/
theorem repAfter_ne_absorbed {v : V} (hv : v ≠ r) (hab : v = a ∨ v = b) :
    repAfter rep a b r k ≠ some v := by
  rw [repAfter]
  by_cases h : rep k = some a ∨ rep k = some b
  · rw [if_pos h]
    exact fun hr => hv (some.inj hr).symm
  · rw [if_neg h]
    rintro hk
    rcases hab with rfl | rfl
    · exact h (.inl hk)
    · exact h (.inr hk)

section

variable [Std.Commutative f] [Std.Associative f] {rep : V → Option V}

/-- Contracting a row merges the entries by the representatives after the union. -/
theorem contracted_weigh (hid : Identifies x y a b r) (p : α → Prop) [DecidablePred p] (t : V) :
    contracted f a b r (fun v => weigh f entries fun e => p e ∧ rep (dst e) = some v) t =
      weigh f entries fun e => p e ∧ repAfter rep a b r (dst e) = some t := by
  by_cases ht : t = r
  · subst ht
    rw [contracted_self, ← weigh_or]
    · refine weigh_congr fun e _ => ?_
      rw [repAfter_eq_survivor hid, and_or_left]
    · rintro e - ⟨-, ha⟩ ⟨-, hb⟩
      rw [ha] at hb
      exact hid.ne (some.inj hb)
  · by_cases hab : t = a ∨ t = b
    · rw [contracted_absorbed ht hab]
      refine (weigh_eq_none.mpr ?_).symm
      rintro e - ⟨-, he⟩
      exact repAfter_ne_absorbed ht hab he
    · obtain ⟨ha, hb⟩ := not_or.mp hab
      rw [contracted_other hid ha hb]
      exact weigh_congr fun e _ => by rw [repAfter_eq_other ht ha hb]

theorem contracted_between (hid : Identifies x y a b r) (s t : V) :
    contracted f a b r (between f entries rep src dst s) t =
      weigh f entries fun e => rep (src e) = some s ∧ repAfter rep a b r (dst e) = some t :=
  contracted_weigh hid (fun e => rep (src e) = some s) t

/-- The merged row of the two classes. -/
theorem merge_contracted_between (hid : Identifies x y a b r) (t : V) :
    merge f (contracted f a b r (between f entries rep src dst a) t)
        (contracted f a b r (between f entries rep src dst b) t) =
      between f entries (repAfter rep a b r) src dst r t := by
  rw [contracted_between hid, contracted_between hid, ← weigh_or]
  · refine weigh_congr fun e _ => ?_
    rw [repAfter_eq_survivor hid, or_and_right]
  · rintro e - ⟨ha, -⟩ ⟨hb, -⟩
    rw [ha] at hb
    exact hid.ne (some.inj hb)

end

omit [DecidableEq V] in
theorem survivor_absorbed (size : V → Option Nat) (a b : V) :
    (UnionFindMap.survivor size a b = a ∧ absorbed size a b = b) ∨
      (UnionFindMap.survivor size a b = b ∧ absorbed size a b = a) := by
  rw [UnionFindMap.survivor, absorbed]
  by_cases h : (size a).getD 0 < (size b).getD 0
  · simp [h]
  · simp [h]

/-- The condition under which the rows can be patched: `x` and `y` name their classes, and if
the survivor is neither of them, no entry is inside a class. -/
structure Patchable (entries : List (Sigma fun _ : α => EW)) (rep : V → Option V)
    (src dst : α → V) (x y a b r : V) : Prop where
  x_names : x = a ∨ ∀ e ∈ entries, rep (src e.1) ≠ some a ∧ rep (dst e.1) ≠ some a
  y_names : y = b ∨ ∀ e ∈ entries, rep (src e.1) ≠ some b ∧ rep (dst e.1) ≠ some b
  inside : (r = x ∨ r = y) ∨ ∀ e ∈ entries,
    ¬(rep (src e.1) = some a ∧ rep (dst e.1) = some a) ∧
      ¬(rep (src e.1) = some b ∧ rep (dst e.1) = some b)

namespace Patchable

variable {rep : V → Option V}

omit [DecidableEq V] in
theorem swap (h : Patchable entries rep src dst x y a b r) :
    Patchable entries rep dst src x y a b r where
  x_names := h.x_names.imp_right fun h e he => (h e he).symm
  y_names := h.y_names.imp_right fun h e he => (h e he).symm
  inside := h.inside.imp_right fun h e he =>
    ⟨fun hab => (h e he).1 hab.symm, fun hab => (h e he).2 hab.symm⟩

/-- If the survivor is neither `x` nor `y`, no edge goes from the two classes to them. -/
theorem between_eq_none_of_survivor (hid : Identifies x y a b r)
    (h : Patchable entries rep src dst x y a b r) (hr : ¬(r = x ∨ r = y)) {s t : V}
    (hs : s = a ∨ s = b) (ht : t = a ∨ t = b) : between f entries rep src dst s t = none := by
  rw [between_eq_none]
  rintro e he ⟨hsrc, hdst⟩
  have hinside := h.inside.resolve_left hr e he
  have hnames : (∀ e ∈ entries, rep (src e.1) ≠ some a ∧ rep (dst e.1) ≠ some a) ∨
      ∀ e ∈ entries, rep (src e.1) ≠ some b ∧ rep (dst e.1) ≠ some b := by
    rcases hid.survivor with rfl | rfl
    · exact .inl (h.x_names.resolve_left fun hx => hr (.inl hx.symm))
    · exact .inr (h.y_names.resolve_left fun hy => hr (.inr hy.symm))
  rcases hs with rfl | rfl <;> rcases ht with rfl | rfl
  · exact hinside.1 ⟨hsrc, hdst⟩
  · rcases hnames with hn | hn
    · exact (hn e he).1 hsrc
    · exact (hn e he).2 hdst
  · rcases hnames with hn | hn
    · exact (hn e he).2 hdst
    · exact (hn e he).1 hsrc
  · exact hinside.2 ⟨hsrc, hdst⟩

end Patchable

/-- An entry ends at representatives. -/
theorem rep_of_between (hm : m.WellFormed) {t : V}
    (h : between f entries m.rep src dst s t ≠ none) : m.rep s = some s ∧ m.rep t = some t := by
  rw [Ne, between_eq_none] at h
  push Not at h
  obtain ⟨e, -, hsrc, hdst⟩ := h
  exact ⟨hm.rep_rep hsrc, hm.rep_rep hdst⟩

/-- No edge of the first class is left behind in the row. -/
theorem clear_left (hm : m.WellFormed) (h : Patchable entries m.rep src dst x y a b r)
    (hx : m.rep x = some a) (s : V) : Clear x a (between f entries m.rep src dst s) := by
  rcases h.x_names with hxa | hnone
  · exact .inl hxa
  · by_cases hxa : x = a
    · exact .inl hxa
    · refine .inr ⟨?_, between_eq_none.mpr fun e he hab => (hnone e he).2 hab.2⟩
      by_contra hne
      have := (rep_of_between hm hne).2
      rw [hx] at this
      exact hxa (some.inj this).symm

/-- No edge of the second class is left behind in the row. -/
theorem clear_right (hm : m.WellFormed) (h : Patchable entries m.rep src dst x y a b r)
    (hy : m.rep y = some b) (s : V) : Clear y b (between f entries m.rep src dst s) := by
  rcases h.y_names with hyb | hnone
  · exact .inl hyb
  · by_cases hyb : y = b
    · exact .inl hyb
    · refine .inr ⟨?_, between_eq_none.mpr fun e he hab => (hnone e he).2 hab.2⟩
      by_contra hne
      have := (rep_of_between hm hne).2
      rw [hy] at this
      exact hyb (some.inj this).symm

/-- A row in which the absorbed end has no edge is clear, if the survivor is `x` or `y`. -/
theorem clear_of_absorbed (hid : Identifies x y a b r) (hr : r = x ∨ r = y)
    {row : V → Option EW} (habsorbed : ∀ v, v ≠ r → v = a ∨ v = b → row v = none)
    (hx : x ≠ a → row x = none) (hy : y ≠ b → row y = none) : Clear x a row ∧ Clear y b row := by
  constructor
  · by_cases hxa : x = a
    · exact .inl hxa
    · refine .inr ⟨hx hxa, habsorbed a ?_ (.inl rfl)⟩
      rcases hr with rfl | rfl
      · exact fun h => hxa h.symm
      · exact fun h => hid.y_ne h.symm
  · by_cases hyb : y = b
    · exact .inl hyb
    · refine .inr ⟨hy hyb, habsorbed b ?_ (.inr rfl)⟩
      rcases hr with rfl | rfl
      · exact fun h => hid.x_ne h.symm
      · exact fun h => hyb h.symm

/-- The vertices whose rows are patched: those with an edge to one of the two classes. -/
structure Visits (f : EW → EW → EW) (entries : List (Sigma fun _ : α => EW))
    (rep : V → Option V) (src dst : α → V) (a : V) (vertices : List V) : Prop where
  nodup : vertices.Nodup
  mem_iff : ∀ s, s ∈ vertices ↔ between f entries rep src dst s a ≠ none

/-- The row of a class after the union, before the rows are patched. -/
def rowAfter (f : EW → EW → EW) (entries : List (Sigma fun _ : α => EW)) (rep : V → Option V)
    (src dst : α → V) (a b r s : V) : V → Option EW :=
  if s = r then between f entries (repAfter rep a b r) src dst r
  else between f entries rep src dst s

/-- A representative other than the survivor was one before the union. -/
theorem ne_of_repAfter (hsr : s ≠ r) (hs : repAfter rep a b r k = some s) : s ≠ a ∧ s ≠ b :=
  ⟨fun h => repAfter_ne_absorbed hsr (.inl h) hs, fun h => repAfter_ne_absorbed hsr (.inr h) hs⟩

/-- A row of the contracted graph is the row of the merged entries. -/
theorem contracted_rowAfter [Std.Commutative f] [Std.Associative f] (hid : Identifies x y a b r)
    (hs : repAfter rep a b r s = some s) :
    contracted f a b r (rowAfter f entries rep src dst a b r s) =
      between f entries (repAfter rep a b r) src dst s := by
  by_cases hsr : s = r
  · subst hsr
    rw [rowAfter, if_pos rfl]
    refine contracted_of_none hid fun v hv hab => ?_
    rw [between_eq_none]
    rintro e - ⟨-, he⟩
    exact repAfter_ne_absorbed hv hab he
  · obtain ⟨ha, hb⟩ := ne_of_repAfter hsr hs
    rw [rowAfter, if_neg hsr]
    funext t
    rw [contracted_between hid]
    exact weigh_congr fun e _ => by rw [repAfter_eq_other hsr ha hb]

section Visited

variable {toX toY : List V}

theorem between_of_visited (htoX : Visits f entries m.rep src dst a toX)
    (htoY : Visits f entries m.rep src dst b toY) {v : V} (hv : v ∈ toX ++ toY) :
    between f entries m.rep src dst v a ≠ none ∨ between f entries m.rep src dst v b ≠ none := by
  rcases mem_append.mp hv with hv | hv
  · exact .inl ((htoX.mem_iff v).mp hv)
  · exact .inr ((htoY.mem_iff v).mp hv)

theorem rep_of_visited (hm : m.WellFormed) (htoX : Visits f entries m.rep src dst a toX)
    (htoY : Visits f entries m.rep src dst b toY) {v : V} (hv : v ∈ toX ++ toY) :
    m.rep v = some v := by
  rcases between_of_visited htoX htoY hv with h | h
  · exact (rep_of_between hm h).1
  · exact (rep_of_between hm h).1

section

variable (hm : m.WellFormed) (hx : m.rep x = some a) (hy : m.rep y = some b)
  (hid : Identifies x y a b r) (hpatch : Patchable entries m.rep src dst x y a b r)
  (htoX : Visits f entries m.rep src dst a toX) (htoY : Visits f entries m.rep src dst b toY)
include hm hx hy hid hpatch htoX htoY

/-- The row of a visited vertex can be patched. -/
theorem visited_spec {v : V} (hv : v ∈ toX ++ toY) :
    ∃ s, repAfter m.rep a b r v = some s ∧ Clear x a (rowAfter f entries m.rep src dst a b r s) ∧
      Clear y b (rowAfter f entries m.rep src dst a b r s) ∧
      (rowAfter f entries m.rep src dst a b r s a ≠ none ∨
        rowAfter f entries m.rep src dst a b r s b ≠ none) := by
  have hedge := between_of_visited htoX htoY hv
  have hrep := rep_of_visited hm htoX htoY hv
  by_cases hvab : v = a ∨ v = b
  · -- a vertex of the two classes; its row is that of the survivor
    have hr : r = x ∨ r = y := by
      by_contra hr
      rcases hedge with h | h
      · exact h (hpatch.between_eq_none_of_survivor hid hr hvab (.inl rfl))
      · exact h (hpatch.between_eq_none_of_survivor hid hr hvab (.inr rfl))
    have hrv : m.rep v = some a ∨ m.rep v = some b := by
      rcases hvab with h | h
      · exact .inl (hrep.trans (congrArg some h))
      · exact .inr (hrep.trans (congrArg some h))
    refine ⟨r, (repAfter_eq_survivor hid).mpr hrv, ?_⟩
    rw [rowAfter, if_pos rfl]
    have habsorbed : ∀ w, w ≠ r → w = a ∨ w = b →
        between f entries (repAfter m.rep a b r) src dst r w = none := by
      intro w hw hab
      rw [between_eq_none]
      rintro e - ⟨-, he⟩
      exact repAfter_ne_absorbed hw hab he
    have hnotRep : ∀ w, w ≠ a → w ≠ b → m.rep w ≠ some w →
        between f entries (repAfter m.rep a b r) src dst r w = none := by
      intro w hwa hwb hw
      have hwr : w ≠ r := by
        rcases hid.survivor with rfl | rfl
        · exact hwa
        · exact hwb
      rw [between_eq_none]
      rintro e - ⟨-, he⟩
      rw [repAfter_eq_other hwr hwa hwb] at he
      exact hw (hm.rep_rep he)
    obtain ⟨hcx, hcy⟩ := clear_of_absorbed hid hr habsorbed
      (fun hxa => hnotRep x hxa hid.x_ne fun h => hxa (some.inj (h.symm.trans hx)))
      (fun hyb => hnotRep y hid.y_ne hyb fun h => hyb (some.inj (h.symm.trans hy)))
    refine ⟨hcx, hcy, ?_⟩
    have hself : between f entries (repAfter m.rep a b r) src dst r r ≠ none := by
      rw [Ne, between_eq_none]
      intro hnone
      rcases hedge with h | h
      · refine h (between_eq_none.mpr fun e he hab => hnone e he ⟨?_, ?_⟩)
        · rw [repAfter_eq_survivor hid, hab.1, ← hrep]
          exact hrv
        · rw [repAfter_eq_survivor hid]
          exact .inl hab.2
      · refine h (between_eq_none.mpr fun e he hab => hnone e he ⟨?_, ?_⟩)
        · rw [repAfter_eq_survivor hid, hab.1, ← hrep]
          exact hrv
        · rw [repAfter_eq_survivor hid]
          exact .inr hab.2
    rcases hid.survivor with h | h
    · refine .inl fun hnone => hself (Eq.trans ?_ hnone)
      exact congrArg (between f entries (repAfter m.rep a b r) src dst r) h
    · refine .inr fun hnone => hself (Eq.trans ?_ hnone)
      exact congrArg (between f entries (repAfter m.rep a b r) src dst r) h
  · obtain ⟨hva, hvb⟩ := not_or.mp hvab
    have hvr : v ≠ r := by
      rcases hid.survivor with rfl | rfl
      · exact hva
      · exact hvb
    refine ⟨v, (repAfter_eq_other hvr hva hvb).mpr hrep, ?_⟩
    rw [rowAfter, if_neg hvr]
    exact ⟨clear_left hm hpatch hx v, clear_right hm hpatch hy v, hedge⟩

/-- If the survivor is neither `x` nor `y`, every class is visited once. -/
theorem visited_once : (r = x ∨ r = y) ∨ ((toX ++ toY).map (repAfter m.rep a b r)).Nodup := by
  by_cases hr : r = x ∨ r = y
  · exact .inl hr
  · right
    have hmap : (toX ++ toY).map (repAfter m.rep a b r) = (toX ++ toY).map some := by
      refine map_congr_left fun v hv => ?_
      have hv' : ¬(v = a ∨ v = b) := by
        intro hab
        rcases between_of_visited htoX htoY hv with h | h
        · exact h (hpatch.between_eq_none_of_survivor hid hr hab (.inl rfl))
        · exact h (hpatch.between_eq_none_of_survivor hid hr hab (.inr rfl))
      obtain ⟨hva, hvb⟩ := not_or.mp hv'
      have hvr : v ≠ r := by
        rcases hid.survivor with rfl | rfl
        · exact hva
        · exact hvb
      exact (repAfter_eq_other hvr hva hvb).mpr (rep_of_visited hm htoX htoY hv)
    rw [hmap]
    refine List.Nodup.map (some_injective V) ?_
    rcases hid.survivor with rfl | rfl
    · have hnil : toX = [] := by
        refine eq_nil_iff_forall_not_mem.mpr fun v hv => (htoX.mem_iff v).mp hv ?_
        rcases clear_left (f := f) hm hpatch hx v with h | h
        · exact absurd (.inl h.symm) hr
        · exact h.2
      rw [hnil]
      exact htoY.nodup
    · have hnil : toY = [] := by
        refine eq_nil_iff_forall_not_mem.mpr fun v hv => (htoY.mem_iff v).mp hv ?_
        rcases clear_right (f := f) hm hpatch hy v with h | h
        · exact absurd (.inr h.symm) hr
        · exact h.2
      rw [hnil, append_nil]
      exact htoX.nodup

end

end Visited

/-- `IdentifyVertices` on one map of edges: the union and the patches give the rows for the
representatives after the union. -/
theorem contract_rows [Std.Commutative f] [Std.Associative f] (order : HashOrder V)
    (hm : m.WellFormed) (hrows : Rows f entries src dst m) (hx : m.rep x = some a)
    (hy : m.rep y = some b) (hid : Identifies x y a b r) (hr : r = UnionFindMap.survivor m.size a b)
    (hpatch : Patchable entries m.rep src dst x y a b r) {toX toY : List V}
    (htoX : Visits f entries m.rep src dst a toX) (htoY : Visits f entries m.rep src dst b toY) :
    ∃ m₁ m', m.union x y (mergeMap order f x y r) = .ok (true, m₁) ∧
      patchAll f x y r (toX ++ toY) m₁ = .ok m' ∧ m'.WellFormed ∧
      (∀ k, m'.rep k = repAfter m.rep a b r k) ∧
      (∀ k, m'.size k = if m.rep k = some a ∨ m.rep k = some b then
        some ((m.size a).getD 0 + (m.size b).getD 0) else m.size k) ∧
      Rows f entries src dst m' := by
  have haa : m.rep a = some a := hm.rep_rep hx
  have hbb : m.rep b = some b := hm.rep_rep hy
  obtain ⟨m₁, hunion, hunited⟩ :=
    union_spec hm hx hy hid.ne (mergeMap order f x y r)
  obtain ⟨sEdges, aEdges, hs, ha, hvalue⟩ := hunited.value_eq
  have hrep₁ : ∀ k, m₁.rep k = repAfter m.rep a b r k := by
    intro k
    rw [hunited.rep_eq, ← hr, repAfter]
  -- the row of the survivor after the union
  have hmerged : ∀ t, (mergeMap order f x y r sEdges aEdges).lookup t =
      between f entries (repAfter m.rep a b r) src dst r t := by
    intro t
    obtain ⟨aRow, haRow, hrowa⟩ := hrows a haa
    obtain ⟨bRow, hbRow, hrowb⟩ := hrows b hbb
    have hclear := fun s => clear_left (f := f) hm hpatch hx s
    have hclear' := fun s => clear_right (f := f) hm hpatch hy s
    have hfa : (fun t => aRow.lookup t) = between f entries m.rep src dst a := funext hrowa
    have hfb : (fun t => bRow.lookup t) = between f entries m.rep src dst b := funext hrowb
    rcases survivor_absorbed m.size a b with ⟨hsa, hab⟩ | ⟨hsb, hba⟩
    · rw [hsa, haRow] at hs
      rw [hab, hbRow] at ha
      obtain rfl := some.inj hs
      obtain rfl := some.inj ha
      rw [lookup_mergeMap order hid (by rw [hfa]; exact hclear a) (by rw [hfa]; exact hclear' a)
        (by rw [hfb]; exact hclear b) (by rw [hfb]; exact hclear' b), hfa, hfb,
        merge_contracted_between hid]
    · rw [hsb, hbRow] at hs
      rw [hba, haRow] at ha
      obtain rfl := some.inj hs
      obtain rfl := some.inj ha
      rw [lookup_mergeMap order hid (by rw [hfb]; exact hclear b) (by rw [hfb]; exact hclear' b)
        (by rw [hfa]; exact hclear a) (by rw [hfa]; exact hclear' a), hfa, hfb,
        merge_comm, merge_contracted_between hid]
  have hrr : m.rep r = some a ∨ m.rep r = some b := by
    rcases hid.survivor with rfl | rfl
    · exact .inl haa
    · exact .inr hbb
  have hrow₁ : ∀ s, m₁.rep s = some s → ∃ edges, m₁.value s = some edges ∧
      ∀ t, edges.lookup t = rowAfter f entries m.rep src dst a b r s t := by
    intro s hs'
    by_cases hsr : s = r
    · subst hsr
      refine ⟨mergeMap order f x y s sEdges aEdges, ?_, fun t => ?_⟩
      · rw [hvalue, if_pos hrr]
      · rw [hmerged, rowAfter, if_pos rfl]
    · rw [hrep₁] at hs'
      have hab := ne_of_repAfter hsr hs'
      rw [repAfter_eq_other hsr hab.1 hab.2] at hs'
      obtain ⟨edges, hedges, hlookup⟩ := hrows s hs'
      refine ⟨edges, ?_, fun t => ?_⟩
      · rw [hvalue, if_neg, hedges]
        rw [hs']
        exact not_or.mpr ⟨fun h => hab.1 (some.inj h), fun h => hab.2 (some.inj h)⟩
      · rw [hlookup, rowAfter, if_neg hsr]
  have hvisited := fun v hv => visited_spec (f := f) hm hx hy hid hpatch htoX htoY (v := v) hv
  obtain ⟨m', hrun, hwf, hrep, hsize, hkeep, hdone⟩ := patchAll_spec (f := f) hid
    (rowAfter f entries m.rep src dst a b r) (toX ++ toY) hunited.wf
    (by
      intro v hv
      obtain ⟨s, hrepv, hcx, hcy, hedge⟩ := hvisited v hv
      have hrepv₁ := (hrep₁ v).trans hrepv
      obtain ⟨edges, hedges, hlookup⟩ := hrow₁ s (hunited.wf.rep_rep hrepv₁)
      exact ⟨s, hrepv₁, hcx, hcy, hedge, edges, hedges, .inl hlookup⟩)
    (by
      have hmap : (toX ++ toY).map m₁.rep = (toX ++ toY).map (repAfter m.rep a b r) :=
        map_congr_left fun k _ => hrep₁ k
      rw [hmap]
      exact visited_once hm hx hy hid hpatch htoX htoY)
  have hrep' : ∀ k, m'.rep k = repAfter m.rep a b r k := fun k => (hrep k).trans (hrep₁ k)
  refine ⟨m₁, m', hunion, hrun, hwf, hrep', ?_, ?_⟩
  · intro k
    rw [hsize, hunited.size_eq]
  · intro s hs'
    have hs₁ : m₁.rep s = some s := (hrep s).symm.trans hs'
    rw [hrep'] at hs'
    have hfun : m'.rep = repAfter m.rep a b r := funext hrep'
    rw [hfun]
    have hcontract : contracted f a b r (rowAfter f entries m.rep src dst a b r s) =
        between f entries (repAfter m.rep a b r) src dst s := contracted_rowAfter hid hs'
    by_cases hvisit : some s ∈ (toX ++ toY).map m₁.rep
    · obtain ⟨edges, hedges, hlookup⟩ := hdone s hvisit
      exact ⟨edges, hedges, fun t => by rw [hlookup, hcontract]⟩
    · obtain ⟨edges, hedges, hlookup⟩ := hrow₁ s hs₁
      refine ⟨edges, (hkeep s hs₁ hvisit).trans hedges, fun t => ?_⟩
      rw [hlookup, ← hcontract, contracted_of_none hid]
      intro v hv hab
      by_cases hsr : s = r
      · subst hsr
        rw [rowAfter, if_pos rfl, between_eq_none]
        rintro e - ⟨-, he⟩
        exact repAfter_ne_absorbed hv hab he
      · rw [rowAfter, if_neg hsr]
        by_contra hne
        refine hvisit (mem_map.mpr ⟨s, ?_, hs₁⟩)
        rcases hab with rfl | rfl
        · exact mem_append_left _ ((htoX.mem_iff s).mpr hne)
        · exact mem_append_right _ ((htoY.mem_iff s).mpr hne)

end Rows

end Xls.GraphContraction

import Xls.UnionFindMap

/-!
# Xls.UnionFindMap.Views

What the operations of a union-find map do to what the map shows: none of them fails on a
well-formed map, and each leaves a well-formed map with the stated representatives, sizes and
values (`union_spec`).
-/

namespace Xls.UnionFindMap

open ParentForest List Option

variable {K V : Type} [DecidableEq K] {m m' : UnionFindMap K V} {key r : K} {i : Nat}

/-- Maps that show the same. -/
structure SameView (m m' : UnionFindMap K V) : Prop where
  wf : WellFormed m'
  rep_eq : ∀ k, m'.rep k = m.rep k
  size_eq : ∀ k, m'.size k = m.size k
  value_eq : ∀ k, m'.value k = m.value k

/-- The class of `r` was given a value. -/
structure Assigned (m m' : UnionFindMap K V) (r : K) (v : V) : Prop where
  wf : WellFormed m'
  rep_eq : ∀ k, m'.rep k = m.rep k
  size_eq : ∀ k, m'.size k = m.size k
  value_eq : ∀ k, m'.value k = if m.rep k = some r then some v else m.value k

/-- A key was inserted. -/
structure Inserted (m m' : UnionFindMap K V) (key : K) (v : V) : Prop where
  wf : WellFormed m'
  rep_eq : ∀ k, m'.rep k = if k = key then some key else m.rep k
  size_eq : ∀ k, m'.size k = if k = key then some 1 else m.size k
  value_eq : ∀ k, m'.value k = if k = key then some v else m.value k

/-- The representative that survives a union: the first one, unless its class is smaller. -/
def survivor (size : K → Option Nat) (x y : K) : K :=
  if (size x).getD 0 < (size y).getD 0 then y else x

/-- The representative that a union puts below the survivor. -/
def absorbed (size : K → Option Nat) (x y : K) : K :=
  if (size x).getD 0 < (size y).getD 0 then x else y

/-- The classes of `x` and `y` were united. -/
structure United (m m' : UnionFindMap K V) (x y : K) (merge : V → V → V) : Prop where
  wf : WellFormed m'
  rep_eq : ∀ k, m'.rep k =
    if m.rep k = some x ∨ m.rep k = some y then some (survivor m.size x y) else m.rep k
  size_eq : ∀ k, m'.size k =
    if m.rep k = some x ∨ m.rep k = some y then some ((m.size x).getD 0 + (m.size y).getD 0)
    else m.size k
  value_eq : ∃ v w, m.value (survivor m.size x y) = some v ∧
    m.value (absorbed m.size x y) = some w ∧ ∀ k, m'.value k =
      if m.rep k = some x ∨ m.rep k = some y then some (merge v w) else m.value k

/-! ### Halved paths -/

variable {nodes : List Node} {values : List V} {x y : K}

section

variable (hm : WellFormed m) (h : SameRoots m.nodes nodes)
include hm h

/-- Halved paths do not change the entries at the roots. -/
theorem atRoot_of_sameRoots {α : Type} (xs : List α) (k : K) :
    ({ m with nodes := nodes, values := values } : UnionFindMap K V).atRoot xs k =
      m.atRoot xs k := by
  rw [atRoot, atRoot]
  change (m.getIndex k).bind (fun i => xs[rootIndex nodes i]?) = _
  cases hk : m.getIndex k with
  | none => rfl
  | some i => simp only [bind_some, h.rootIndex_eq hm.forest (hm.index_lt hk)]

theorem wellFormed_of_sameRoots (hvalues : values.length = m.nodes.length) :
    WellFormed { m with nodes := nodes, values := values } where
  keys_length := hm.keys_length.trans h.length_eq.symm
  values_length := hvalues.trans h.length_eq.symm
  index_iff := hm.index_iff
  forest := h.forest

theorem sameView_of_sameRoots : SameView m { m with nodes := nodes } where
  wf := wellFormed_of_sameRoots hm h hm.values_length
  rep_eq := atRoot_of_sameRoots hm h m.keys
  size_eq k := by
    rw [size, size]
    change atRoot _ (sizes nodes) k = _
    rw [h.sizes_eq]
    exact atRoot_of_sameRoots hm h _ k
  value_eq := atRoot_of_sameRoots hm h m.values

/-- Setting the value at the root of a key. -/
theorem assigned_of_sameRoots (hi : m.getIndex key = some i) (hr : m.rep key = some r) (v : V) :
    Assigned m { m with nodes := nodes, values := m.values.set (rootIndex m.nodes i) v } r v where
  wf := wellFormed_of_sameRoots hm h (by rw [length_set, hm.values_length])
  rep_eq := atRoot_of_sameRoots hm h m.keys
  size_eq k := by
    rw [size, size]
    change atRoot _ (sizes nodes) k = _
    rw [h.sizes_eq]
    exact atRoot_of_sameRoots hm h _ k
  value_eq k := by
    rw [value, value]
    refine (atRoot_of_sameRoots hm h _ k).trans ?_
    rw [hm.atRoot_set hm.values_length hi, hr]

end

/-! ### Operations -/

/-- Looking a key up gives its representative and its value. -/
theorem find_spec (hm : WellFormed m) (key : K) :
    ∃ m', m.find key = .ok ((m.rep key).bind fun r => (m.value key).map fun v => (r, v), m') ∧
      SameView m m' := by
  cases hi : m.getIndex key with
  | none =>
    refine ⟨m, ?_, hm, fun _ => rfl, fun _ => rfl, fun _ => rfl⟩
    rw [find, hi, rep, atRoot, hi]
    rfl
  | some i =>
    obtain ⟨nodes, hfind, hsame⟩ := findRoot_spec hm.forest (hm.index_lt hi)
    obtain ⟨r, hr⟩ := hm.atRoot_isSome hm.keys_length hi
    obtain ⟨v, hv⟩ := hm.atRoot_isSome hm.values_length hi
    refine ⟨_, ?_, sameView_of_sameRoots hm hsame⟩
    rw [find, hi, rep, value, atRoot, atRoot, hi]
    simp only [hfind, hr, hv, derefOption, bind, Except.bind, bind_some, map_some]
    rfl

theorem assign_spec (hm : WellFormed m) (hr : m.rep key = some r) (v : V) :
    ∃ m', m.assign key v = .ok m' ∧ Assigned m m' r v := by
  obtain ⟨i, hi, -⟩ := hm.getIndex_of_rep hr
  obtain ⟨nodes, hfind, hsame⟩ := findRoot_spec hm.forest (hm.index_lt hi)
  refine ⟨_, ?_, assigned_of_sameRoots hm hsame hi hr v⟩
  rw [assign, hi]
  simp only [hfind, derefOption, bind, Except.bind]
  rfl

/-- Inserting a key again merges the values of its class. -/
theorem insertWith_old (hm : WellFormed m) (hr : m.rep key = some r) (v : V) (merge : V → V → V) :
    ∃ old m', m.value key = some old ∧ m.insertWith key v merge = .ok m' ∧
      Assigned m m' r (merge old v) := by
  obtain ⟨i, hi, -⟩ := hm.getIndex_of_rep hr
  obtain ⟨nodes, hfind, hsame⟩ := findRoot_spec hm.forest (hm.index_lt hi)
  obtain ⟨old, hold⟩ := hm.atRoot_isSome hm.values_length hi
  refine ⟨old, _, ?_, ?_, assigned_of_sameRoots hm hsame hi hr (merge old v)⟩
  · rw [value, atRoot, hi]
    exact hold
  · rw [insertWith, hi]
    simp only [hfind, hold, derefOption, bind, Except.bind]
    rfl

/-- Appending a root changes no parent. -/
theorem parent_append (nodes : List Node) (size : Nat) :
    parent (nodes ++ [⟨nodes.length, size⟩]) = parent nodes := by
  funext i
  rw [parent, parent]
  rcases lt_trichotomy i nodes.length with hi | rfl | hi
  · rw [getElem?_append_left hi]
  · simp
  · rw [getElem?_eq_none (by simp; omega), getElem?_eq_none hi.le]

/-- A new node is a root of its own. -/
theorem forest_append (hf : Forest nodes) (size : Nat) :
    Forest (nodes ++ [⟨nodes.length, size⟩]) := by
  have hself : parent nodes nodes.length = nodes.length := by simp [parent]
  constructor
  · intro i hi
    rw [parent_append]
    rw [length_append, length_singleton] at hi ⊢
    rcases Nat.lt_succ_iff_lt_or_eq.mp hi with hi | rfl
    · exact Nat.lt_succ_of_lt (hf.closed i hi)
    · rw [hself]
      exact Nat.lt_succ_self _
  · intro i hi
    rw [parent_append]
    rw [length_append, length_singleton] at hi
    rcases Nat.lt_succ_iff_lt_or_eq.mp hi with hi | rfl
    · exact hf.rooted i hi
    · exact ⟨_, RootOf.of_isRoot hself⟩

/-- The new key shows the appended entries; the others show what they showed. -/
theorem atRoot_append {α : Type} {xs : List α} {v : V} (hm : WellFormed m)
    (hxs : xs.length = m.nodes.length) (hkey : m.getIndex key = none) (x : α) (k : K) :
    ({ keyToIndex := m.keyToIndex.insert key m.nodes.length, keys := m.keys ++ [key],
       values := m.values ++ [v], nodes := m.nodes ++ [⟨m.nodes.length, 1⟩] } :
      UnionFindMap K V).atRoot (xs ++ [x]) k = if k = key then some x else m.atRoot xs k := by
  have hforest := forest_append hm.forest 1
  rw [atRoot, getIndex]
  by_cases hk : k = key
  · subst hk
    rw [AList.lookup_insert, if_pos rfl, bind_some]
    have hroot : rootIndex (m.nodes ++ [⟨m.nodes.length, 1⟩]) m.nodes.length = m.nodes.length := by
      refine hforest.rootIndex_eq (by simp) (RootOf.of_isRoot ?_)
      rw [parent_append]
      simp [parent]
    change (xs ++ [x])[rootIndex (m.nodes ++ [⟨m.nodes.length, 1⟩]) m.nodes.length]? = some x
    rw [hroot, ← hxs]
    simp
  · rw [AList.lookup_insert_ne hk, if_neg hk, atRoot, getIndex]
    change (m.getIndex k).bind _ = (m.getIndex k).bind _
    cases hi : m.getIndex k with
    | none => rfl
    | some i =>
      have hlt := hm.index_lt hi
      have hroot : rootIndex (m.nodes ++ [⟨m.nodes.length, 1⟩]) i = rootIndex m.nodes i := by
        refine hforest.rootIndex_eq ?_ ?_
        · rw [length_append]
          exact Nat.lt_add_right _ hlt
        · rw [parent_append]
          exact hm.forest.rootOf_rootIndex hlt
      rw [bind_some, bind_some, hroot, getElem?_append_left]
      rw [hxs]
      exact hm.forest.rootIndex_lt hlt

/-- Inserting a key for the first time makes it a class of its own. -/
theorem insertWith_new (hm : WellFormed m) (hkey : m.rep key = none) (v : V) (merge : V → V → V) :
    ∃ m', m.insertWith key v merge = .ok m' ∧ Inserted m m' key v := by
  have hindex : m.getIndex key = none := by
    cases hi : m.getIndex key with
    | none => rfl
    | some i =>
      obtain ⟨r, hr⟩ := hm.exists_rep hi
      rw [hkey] at hr
      cases hr
  refine ⟨_, by rw [insertWith, hindex]; rfl, ?_, ?_, ?_, ?_⟩
  · refine ⟨?_, ?_, ?_, forest_append hm.forest 1⟩
    · simp [hm.keys_length]
    · simp [hm.values_length]
    · intro k i
      rw [getIndex]
      by_cases hk : k = key
      · subst hk
        rw [AList.lookup_insert]
        constructor
        · intro h
          rw [← some.inj h, ← hm.keys_length]
          simp
        · intro h
          rcases lt_trichotomy i m.keys.length with hi | hi | hi
          · rw [getElem?_append_left hi, ← hm.index_iff, hindex] at h
            cases h
          · rw [hi, hm.keys_length]
          · rw [getElem?_eq_none (by simp; omega)] at h
            cases h
      · rw [AList.lookup_insert_ne hk]
        change m.getIndex k = some i ↔ _
        rw [hm.index_iff]
        rcases lt_trichotomy i m.keys.length with hi | hi | hi
        · rw [getElem?_append_left hi]
        · rw [hi]
          simp [Ne.symm hk]
        · rw [getElem?_eq_none hi.le, getElem?_eq_none (by simp; omega)]
  · exact atRoot_append hm hm.keys_length hindex key
  · intro k
    rw [size, sizes, map_append]
    exact atRoot_append hm (by simp) hindex 1 k
  · exact atRoot_append hm hm.values_length hindex v

/-! ### Unions -/

/-- The nodes after the root `b` was put below the root `a`. -/
def linkNodes (nodes : List Node) (a b : Nat) (aNode bNode : Node) (size : Nat) : List Node :=
  (nodes.set b { bNode with parent := a }).set a { aNode with size := size }

/-- The map after the root `b` was put below the root `a`. -/
def linked (m : UnionFindMap K V) (a b : Nat) (aNode bNode : Node) (size : Nat)
    (values : List V) : UnionFindMap K V :=
  { m with values := values, nodes := linkNodes m.nodes a b aNode bNode size }

section Link

variable {nodes : List Node} {a b : Nat} {aNode bNode : Node}

/-- Linking a root changes its parent only. -/
theorem parent_linkNodes (ha : nodes[a]? = some aNode) (hb : nodes[b]? = some bNode)
    (hroot : parent nodes a = a) (hne : a ≠ b) (size : Nat) :
    parent (linkNodes nodes a b aNode bNode size) = reparent (parent nodes) b a := by
  have halt := (List.getElem?_eq_some_iff.mp ha).1
  have hblt := (List.getElem?_eq_some_iff.mp hb).1
  have haparent : aNode.parent = a := by
    rw [← parent_of_lt ha]
    exact hroot
  rw [linkNodes, parent_set _ (by rw [length_set]; exact halt), parent_set _ hblt]
  funext i
  by_cases hi : i = a
  · subst hi
    rw [reparent_self, reparent_of_ne hne, hroot]
    exact haparent
  · rw [reparent_of_ne hi]

theorem length_linkNodes (size : Nat) :
    (linkNodes nodes a b aNode bNode size).length = nodes.length := by
  simp [linkNodes]

theorem sizes_linkNodes (hb : nodes[b]? = some bNode) (size : Nat) :
    sizes (linkNodes nodes a b aNode bNode size) = (sizes nodes).set a size := by
  obtain ⟨hblt, hget⟩ := List.getElem?_eq_some_iff.mp hb
  have hmap : b < (nodes.map Node.size).length := by
    rw [length_map]
    exact hblt
  have hsize : bNode.size = (nodes.map Node.size)[b] := by
    rw [getElem_map, hget]
  rw [linkNodes, sizes, map_set, map_set, sizes]
  simp only [hsize, set_getElem_self]

/-- Linking two roots keeps the forest and moves the elements below one to the other. -/
theorem forest_linkNodes (hf : Forest nodes) (ha : nodes[a]? = some aNode)
    (hb : nodes[b]? = some bNode) (hroot : parent nodes a = a) (hroot' : parent nodes b = b)
    (hne : a ≠ b) (size : Nat) :
    Forest (linkNodes nodes a b aNode bNode size) ∧ ∀ i < nodes.length,
      rootIndex (linkNodes nodes a b aNode bNode size) i =
        if rootIndex nodes i = b then a else rootIndex nodes i := by
  have hparent := parent_linkNodes ha hb hroot hne size
  have halt := (List.getElem?_eq_some_iff.mp ha).1
  have hlink : ∀ i < nodes.length, RootOf (parent (linkNodes nodes a b aNode bNode size)) i
      (if rootIndex nodes i = b then a else rootIndex nodes i) := by
    intro i hi
    rw [hparent]
    exact (hf.rootOf_rootIndex hi).link hroot hroot' hne
  have hforest : Forest (linkNodes nodes a b aNode bNode size) := by
    refine ⟨?_, ?_⟩
    · intro i hi
      rw [length_linkNodes] at hi ⊢
      rw [hparent]
      by_cases hib : i = b
      · rw [hib, reparent_self]
        exact halt
      · rw [reparent_of_ne hib]
        exact hf.closed i hi
    · intro i hi
      rw [length_linkNodes] at hi
      exact ⟨_, hlink i hi⟩
  refine ⟨hforest, ?_⟩
  intro i hi
  exact hforest.rootIndex_eq (by rw [length_linkNodes]; exact hi) (hlink i hi)

end Link

/-- The map after the class of `b` was put below the class of `a`. -/
theorem view_link {a b : K} {j : Nat} {aNode bNode : Node} (values : List V) (hm : WellFormed m)
    (hi : m.getIndex x = some i) (hj : m.getIndex y = some j) (ha : m.rep x = some a)
    (hb : m.rep y = some b) (hne : a ≠ b) (haNode : m.nodes[rootIndex m.nodes i]? = some aNode)
    (hbNode : m.nodes[rootIndex m.nodes j]? = some bNode) (hvalues : values.length = m.nodes.length)
    (size : Nat) :
    WellFormed (m.linked (rootIndex m.nodes i) (rootIndex m.nodes j) aNode bNode size values) ∧
      ∀ {α : Type} (xs : List α) (k : K),
        (m.linked (rootIndex m.nodes i) (rootIndex m.nodes j) aNode bNode size values).atRoot xs k =
          if m.rep k = some b then m.atRoot xs a else m.atRoot xs k := by
  have hroots : rootIndex m.nodes i ≠ rootIndex m.nodes j := by
    intro heq
    have hrep := (hm.rep_eq_iff hi hj).mpr heq
    rw [ha, hb] at hrep
    exact hne (some.inj hrep)
  obtain ⟨hforest, hroot⟩ := forest_linkNodes hm.forest haNode hbNode
    (hm.forest.rootOf_rootIndex (hm.index_lt hi)).isRoot
    (hm.forest.rootOf_rootIndex (hm.index_lt hj)).isRoot hroots size
  refine ⟨⟨?_, ?_, hm.index_iff, hforest⟩, ?_⟩
  · rw [linked, length_linkNodes]
    exact hm.keys_length
  · rw [linked, length_linkNodes]
    exact hvalues
  · intro α xs k
    have hxa : m.atRoot xs a = xs[rootIndex m.nodes i]? := by
      rw [hm.atRoot_rep xs ha, atRoot, hi, bind_some]
    change (m.getIndex k).bind (fun l => xs[rootIndex (linkNodes m.nodes _ _ _ _ _) l]?) = _
    cases hk : m.getIndex k with
    | none =>
      have hnone : m.rep k = none := by simp [rep, atRoot, hk]
      simp [hnone, atRoot, hk]
    | some l =>
      have hiff := hm.rep_eq_iff hk hj
      rw [hb] at hiff
      rw [bind_some, hroot l (hm.index_lt hk)]
      simp only [hiff]
      by_cases hl : rootIndex m.nodes l = rootIndex m.nodes j
      · rw [if_pos hl, if_pos hl, hxa]
      · rw [if_neg hl, if_neg hl, atRoot, hk, bind_some]

/-- What a map shows after the class of `b` was put below the class of `a`. -/
theorem united_link {a b : K} {j : Nat} {aNode bNode : Node} (hm : WellFormed m)
    (hi : m.getIndex x = some i) (hj : m.getIndex y = some j) (ha : m.rep x = some a)
    (hb : m.rep y = some b) (hne : a ≠ b) (haNode : m.nodes[rootIndex m.nodes i]? = some aNode)
    (hbNode : m.nodes[rootIndex m.nodes j]? = some bNode) (size : Nat) (v : V)
    {m' : UnionFindMap K V}
    (hm' : m' = m.linked (rootIndex m.nodes i) (rootIndex m.nodes j) aNode bNode size
      ((m.values.set (rootIndex m.nodes i) v).set (rootIndex m.nodes j) v)) :
    WellFormed m' ∧
      (∀ k, m'.rep k = if m.rep k = some a ∨ m.rep k = some b then some a else m.rep k) ∧
      (∀ k, m'.size k = if m.rep k = some a ∨ m.rep k = some b then some size else m.size k) ∧
      ∀ k, m'.value k = if m.rep k = some a ∨ m.rep k = some b then some v else m.value k := by
  subst hm'
  obtain ⟨hwf, hview⟩ := view_link
    ((m.values.set (rootIndex m.nodes i) v).set (rootIndex m.nodes j) v) hm hi hj ha hb hne haNode
    hbNode (by rw [length_set, length_set, hm.values_length]) size
  have hraa : m.rep a = some a := hm.rep_rep ha
  refine ⟨hwf, ?_, ?_, ?_⟩
  · intro k
    refine (hview m.keys k).trans ?_
    change (if _ then m.rep a else m.rep k) = _
    rw [hraa]
    by_cases hkb : m.rep k = some b
    · simp [hkb]
    · by_cases hka : m.rep k = some a
      · simp [hka]
      · simp [hka, hkb]
  · intro k
    have hlength : (sizes m.nodes).length = m.nodes.length := by simp [sizes]
    rw [UnionFindMap.size]
    refine (hview _ k).trans ?_
    change (if _ then m.atRoot (sizes (linkNodes _ _ _ _ _ _)) a
      else m.atRoot (sizes (linkNodes _ _ _ _ _ _)) k) = _
    rw [sizes_linkNodes hbNode, hm.atRoot_set hlength hi, hm.atRoot_set hlength hi, hraa, ha]
    by_cases hkb : m.rep k = some b
    · simp [hkb]
    · by_cases hka : m.rep k = some a
      · simp [hka]
      · simp [hka, hkb, UnionFindMap.size]
  · intro k
    refine (hview _ k).trans ?_
    have hlength : (m.values.set (rootIndex m.nodes i) v).length = m.nodes.length := by
      rw [length_set, hm.values_length]
    have hset := fun k => (hm.atRoot_set hlength hj v k).trans
      (by rw [hm.atRoot_set hm.values_length hi, ha, hb])
    simp only [linked, hset, hraa]
    by_cases hkb : m.rep k = some b
    · simp [hkb]
    · by_cases hka : m.rep k = some a
      · simp [hka]
      · simp [hka, hkb, value]

/-- A union of two classes. -/
theorem union_spec {a b : K} (hm : WellFormed m) (ha : m.rep x = some a) (hb : m.rep y = some b)
    (hne : a ≠ b) (merge : V → V → V) :
    ∃ m', m.union x y merge = .ok (true, m') ∧ United m m' a b merge := by
  obtain ⟨i, hi, -⟩ := hm.getIndex_of_rep ha
  obtain ⟨j, hj, -⟩ := hm.getIndex_of_rep hb
  obtain ⟨nodes, hfind, hsame⟩ := findRoot_spec hm.forest (hm.index_lt hi)
  have hjlt : j < nodes.length := by
    rw [hsame.length_eq]
    exact hm.index_lt hj
  obtain ⟨nodes', hfind', hsame'⟩ := findRoot_spec hsame.forest hjlt
  have hboth := hsame.trans hsame'
  -- the two searches halve paths; the rest happens in a map that shows the same
  have hview := sameView_of_sameRoots hm hboth
  have hi' : ({ m with nodes := nodes' } : UnionFindMap K V).getIndex x = some i := hi
  have hj' : ({ m with nodes := nodes' } : UnionFindMap K V).getIndex y = some j := hj
  have ha' := (hview.rep_eq x).trans ha
  have hb' := (hview.rep_eq y).trans hb
  have hiroot : rootIndex m.nodes i = rootIndex nodes' i :=
    (hboth.rootIndex_eq hm.forest (hm.index_lt hi)).symm
  have hjroot : rootIndex nodes j = rootIndex nodes' j :=
    (hsame'.rootIndex_eq hsame.forest hjlt).symm
  have hroots : rootIndex nodes' i ≠ rootIndex nodes' j := by
    intro heq
    have hrep := (hview.wf.rep_eq_iff hi' hj').mpr heq
    rw [ha', hb'] at hrep
    exact hne (some.inj hrep)
  obtain ⟨aNode, haNode⟩ := hview.wf.atRoot_isSome rfl hi'
  obtain ⟨bNode, hbNode⟩ := hview.wf.atRoot_isSome rfl hj'
  obtain ⟨v, hv⟩ := hview.wf.atRoot_isSome hview.wf.values_length hi'
  obtain ⟨w, hw⟩ := hview.wf.atRoot_isSome hview.wf.values_length hj'
  simp only at haNode hbNode hv hw
  have hasize : m.size a = some aNode.size := by
    rw [hm.size_rep ha, ← hview.size_eq x, size, atRoot, hi', bind_some]
    simp [sizes, haNode]
  have hbsize : m.size b = some bNode.size := by
    rw [hm.size_rep hb, ← hview.size_eq y, size, atRoot, hj', bind_some]
    simp [sizes, hbNode]
  have havalue : m.value a = some v := by
    rw [hm.value_rep ha, ← hview.value_eq x, value, atRoot, hi', bind_some]
    exact hv
  have hbvalue : m.value b = some w := by
    rw [hm.value_rep hb, ← hview.value_eq y, value, atRoot, hj', bind_some]
    exact hw
  by_cases hlt : aNode.size < bNode.size
  · obtain ⟨hwf, hrep, hsize, hvalue⟩ := united_link hview.wf hj' hi' hb' ha' (Ne.symm hne) hbNode
      haNode (aNode.size + bNode.size) (merge w v) rfl
    simp only [hview.rep_eq, hview.size_eq, hview.value_eq,
      or_comm (a := m.rep _ = some b)] at hrep hsize hvalue
    refine ⟨_, ?_, hwf, ?_, ?_, w, v, ?_, ?_, hvalue⟩
    · rw [union, hi, hj]
      simp only [hfind, hfind', bind, Except.bind, hiroot, hjroot, ne_eq, hroots,
        not_false_eq_true, if_true, haNode, hbNode, derefOption, hlt, hv, hw]
      rfl
    · rw [survivor, hasize, hbsize]
      simpa only [getD_some, hlt, if_true] using hrep
    · rw [hasize, hbsize]
      exact hsize
    · rw [survivor, hasize, hbsize]
      simpa only [getD_some, hlt, if_true] using hbvalue
    · rw [absorbed, hasize, hbsize]
      simpa only [getD_some, hlt, if_true] using havalue
  · obtain ⟨hwf, hrep, hsize, hvalue⟩ := united_link hview.wf hi' hj' ha' hb' hne haNode hbNode
      (aNode.size + bNode.size) (merge v w) rfl
    simp only [hview.rep_eq, hview.size_eq, hview.value_eq] at hrep hsize hvalue
    refine ⟨_, ?_, hwf, ?_, ?_, v, w, ?_, ?_, hvalue⟩
    · rw [union, hi, hj]
      simp only [hfind, hfind', bind, Except.bind, hiroot, hjroot, ne_eq, hroots,
        not_false_eq_true, if_true, haNode, hbNode, derefOption, hlt, if_false, hv, hw]
      rfl
    · rw [survivor, hasize, hbsize]
      simpa only [getD_some, hlt, if_false] using hrep
    · rw [hasize, hbsize]
      exact hsize
    · rw [survivor, hasize, hbsize]
      simpa only [getD_some, hlt, if_false] using havalue
    · rw [absorbed, hasize, hbsize]
      simpa only [getD_some, hlt, if_false] using hbvalue

end Xls.UnionFindMap

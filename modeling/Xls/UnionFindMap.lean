import Mathlib.Data.List.AList
import Xls.Lib.ParentForest
import Xls.Status

/-!
# Xls.UnionFindMap

The union-find map of `data_structures/union_find_map.h`: a map from keys to values in which
the classes of two keys can be united, with path halving and union by size.

A map is seen through three functions of a key: the representative of its class (`rep`), the
value of its class (`value`) and the size of its class (`size`). Each operation of the source
has one specification in these terms; looking a key up halves a path and changes none of them.
-/

namespace Xls

open List Option

namespace UnionFindMap

/-- A node of the forest: its parent, which is the node itself at a root, and the size of the
class, which is kept at the root. -/
structure Node where
  parent : Nat
  size : Nat
  deriving DecidableEq, Repr

end UnionFindMap

/-- The union-find map. The four containers are indexed by the order of the insertions. -/
structure UnionFindMap (K V : Type) where
  keyToIndex : AList (fun _ : K => Nat)
  keys : List K
  values : List V
  nodes : List UnionFindMap.Node

namespace UnionFindMap

open ParentForest

variable {K V : Type}

/-- The map as it is constructed. -/
def empty : UnionFindMap K V := ⟨∅, [], [], []⟩

/-- The loop of `FindRoot`, which halves the path it follows. -/
def findRootLoop : Nat → List Node → Nat → Result (Nat × List Node)
  | 0, _, _ => .error .check
  | fuel + 1, nodes, x => do
    let node ← derefOption nodes[x]?
    let up ← derefOption nodes[node.parent]?
    if node.parent = x then
      return (x, nodes)
    else
      findRootLoop fuel (nodes.set x { node with parent := up.parent }) up.parent

/-- `FindRoot`. A path is shorter than the number of nodes. -/
def findRoot (nodes : List Node) (index : Nat) : Result (Nat × List Node) :=
  findRootLoop nodes.length nodes index

section Operations

variable [DecidableEq K]

/-- `GetIndex`. -/
def getIndex (m : UnionFindMap K V) (key : K) : Option Nat := m.keyToIndex.lookup key

/-- `Contains`. -/
def contains (m : UnionFindMap K V) (key : K) : Bool := (m.getIndex key).isSome

/-- `Insert` with a `merge` of the old value and the inserted one. -/
def insertWith (m : UnionFindMap K V) (key : K) (value : V) (merge : V → V → V) :
    Result (UnionFindMap K V) :=
  match m.getIndex key with
  | some i => do
    let (index, nodes) ← findRoot m.nodes i
    let old ← derefOption m.values[index]?
    return { m with nodes := nodes, values := m.values.set index (merge old value) }
  | none =>
    return {
      keyToIndex := m.keyToIndex.insert key m.nodes.length
      keys := m.keys ++ [key]
      values := m.values ++ [value]
      nodes := m.nodes ++ [⟨m.nodes.length, 1⟩] }

/-- `Insert`, which replaces the old value. -/
def insert (m : UnionFindMap K V) (key : K) (value : V) : Result (UnionFindMap K V) :=
  m.insertWith key value fun _ new => new

/-- `Find`: the representative and the value of the class. -/
def find (m : UnionFindMap K V) (key : K) : Result (Option (K × V) × UnionFindMap K V) :=
  match m.getIndex key with
  | some i => do
    let (found, nodes) ← findRoot m.nodes i
    let k ← derefOption m.keys[found]?
    let v ← derefOption m.values[found]?
    return (some (k, v), { m with nodes := nodes })
  | none => return (none, m)

/-- An assignment through the reference that `Find` returns for a key that was inserted. -/
def assign (m : UnionFindMap K V) (key : K) (value : V) : Result (UnionFindMap K V) := do
  let i ← derefOption (m.getIndex key)
  let (found, nodes) ← findRoot m.nodes i
  return { m with nodes := nodes, values := m.values.set found value }

/-- `Union`. -/
def union (m : UnionFindMap K V) (x y : K) (merge : V → V → V) : Result (Bool × UnionFindMap K V) :=
  match m.getIndex x, m.getIndex y with
  | some xIndex, some yIndex => do
    let (xRoot, nodes) ← findRoot m.nodes xIndex
    let (yRoot, nodes) ← findRoot nodes yIndex
    if xRoot ≠ yRoot then
      let xNode ← derefOption nodes[xRoot]?
      let yNode ← derefOption nodes[yRoot]?
      let newSize := xNode.size + yNode.size
      -- the root of the smaller class goes below the other one
      let (xRoot, yRoot, xNode, yNode) :=
        if xNode.size < yNode.size then (yRoot, xRoot, yNode, xNode)
        else (xRoot, yRoot, xNode, yNode)
      let xValue ← derefOption m.values[xRoot]?
      let yValue ← derefOption m.values[yRoot]?
      let newValue := merge xValue yValue
      return (true, { m with
        values := (m.values.set xRoot newValue).set yRoot newValue
        nodes := (nodes.set yRoot { yNode with parent := xRoot }).set xRoot
          { xNode with size := newSize } })
    else
      return (true, { m with nodes := nodes })
  | _, _ => return (false, m)

end Operations

/-! ### The forest of the nodes -/

/-- The parent function of the nodes. -/
def parent (nodes : List Node) (i : Nat) : Nat := (nodes[i]?.map Node.parent).getD i

/-- Every node has a parent among the nodes and a root above it. -/
structure Forest (nodes : List Node) : Prop where
  closed : ∀ i < nodes.length, parent nodes i < nodes.length
  rooted : ∀ i < nodes.length, ∃ r, RootOf (parent nodes) i r

/-- The root of a node, found by following the parents without halving the path. -/
def rootIndex (nodes : List Node) (i : Nat) : Nat := (parent nodes)^[nodes.length] i

/-- The class sizes that the nodes hold. -/
def sizes (nodes : List Node) : List Nat := nodes.map Node.size

/-- Nodes that differ in their paths only. -/
structure SameRoots (nodes nodes' : List Node) : Prop where
  length_eq : nodes'.length = nodes.length
  forest : Forest nodes'
  root : ∀ i r, RootOf (parent nodes) i r → RootOf (parent nodes') i r
  sizes_eq : sizes nodes' = sizes nodes

variable {nodes nodes' : List Node}

theorem parent_of_lt {i : Nat} {node : Node} (h : nodes[i]? = some node) :
    parent nodes i = node.parent := by
  simp [parent, h]

variable {x : Nat}

/-- Setting a node gives it its new parent. -/
theorem parent_set (node : Node) (hx : x < nodes.length) :
    parent (nodes.set x node) = reparent (parent nodes) x node.parent := by
  funext i
  by_cases hi : i = x
  · subst hi
    simp [parent, hx]
  · simp [parent, reparent, hi, Ne.symm hi]

namespace Forest

variable {i : Nat}

section

variable (hf : Forest nodes) (hi : i < nodes.length)
include hf hi

theorem rootIndex_eq {r : Nat} (h : RootOf (parent nodes) i r) : rootIndex nodes i = r := by
  obtain ⟨k, hk⟩ := h
  exact hk.iterate_eq (hk.lt hf.closed hi).le

theorem rootOf_rootIndex : RootOf (parent nodes) i (rootIndex nodes i) := by
  obtain ⟨r, hr⟩ := hf.rooted i hi
  rw [hf.rootIndex_eq hi hr]
  exact hr

theorem rootIndex_lt : rootIndex nodes i < nodes.length :=
  (hf.rootOf_rootIndex hi).lt hf.closed hi

theorem rootIndex_rootIndex : rootIndex nodes (rootIndex nodes i) = rootIndex nodes i :=
  hf.rootIndex_eq (hf.rootIndex_lt hi) (RootOf.of_isRoot (hf.rootOf_rootIndex hi).isRoot)

end

end Forest

namespace SameRoots

theorem refl (hf : Forest nodes) : SameRoots nodes nodes where
  length_eq := rfl
  forest := hf
  root _ _ h := h
  sizes_eq := rfl

theorem trans {nodes'' : List Node} (h : SameRoots nodes nodes') (h' : SameRoots nodes' nodes'') :
    SameRoots nodes nodes'' where
  length_eq := h'.length_eq.trans h.length_eq
  forest := h'.forest
  root i r hi := h'.root i r (h.root i r hi)
  sizes_eq := h'.sizes_eq.trans h.sizes_eq

theorem rootIndex_eq (h : SameRoots nodes nodes') (hf : Forest nodes) {i : Nat}
    (hi : i < nodes.length) : rootIndex nodes' i = rootIndex nodes i := by
  refine h.forest.rootIndex_eq ?_ (h.root i _ (hf.rootOf_rootIndex hi))
  rw [h.length_eq]
  exact hi

end SameRoots

/-- One round of the loop keeps every root. -/
theorem sameRoots_halve (hf : Forest nodes) {node up : Node} (hx : nodes[x]? = some node)
    (hup : nodes[node.parent]? = some up) (hne : node.parent ≠ x) :
    SameRoots nodes (nodes.set x { node with parent := up.parent }) := by
  have hlt : x < nodes.length := (List.getElem?_eq_some_iff.mp hx).1
  have hpx : parent nodes x = node.parent := parent_of_lt hx
  have hgrand : up.parent = parent nodes (parent nodes x) := by
    rw [hpx, parent_of_lt hup]
  have hparent : parent (nodes.set x { node with parent := up.parent }) =
      reparent (parent nodes) x (parent nodes (parent nodes x)) := by
    rw [parent_set _ hlt, ← hgrand]
  have hroot : ∀ i r, RootOf (parent nodes) i r →
      RootOf (parent (nodes.set x { node with parent := up.parent })) i r := by
    intro i r hi
    obtain ⟨s, hs⟩ := hf.rooted x hlt
    rw [hparent]
    exact hi.halve hs (by rw [hpx]; exact hne)
  refine ⟨length_set, ⟨?_, ?_⟩, hroot, ?_⟩
  · intro i hi
    rw [length_set] at hi ⊢
    rw [hparent]
    by_cases hix : i = x
    · rw [hix, reparent_self]
      exact hf.closed _ (hf.closed x hlt)
    · rw [reparent_of_ne hix]
      exact hf.closed i hi
  · intro i hi
    rw [length_set] at hi
    obtain ⟨r, hr⟩ := hf.rooted i hi
    exact ⟨r, hroot i r hr⟩
  · obtain ⟨_, hget⟩ := List.getElem?_eq_some_iff.mp hx
    have hmap : x < (nodes.map Node.size).length := by
      rw [length_map]
      exact hlt
    have hsize : node.size = (nodes.map Node.size)[x] := by
      rw [getElem_map, hget]
    rw [sizes, map_set, sizes]
    simp only [hsize, set_getElem_self]

/-- Finding a root with enough fuel returns it and keeps all roots. -/
theorem findRootLoop_spec (hf : Forest nodes) {fuel k r : Nat} (hx : x < nodes.length)
    (hroot : RootIn (parent nodes) k x r) (hfuel : k < fuel) :
    ∃ nodes', findRootLoop fuel nodes x = .ok (r, nodes') ∧ SameRoots nodes nodes' := by
  induction fuel generalizing nodes k x with
  | zero => omega
  | succ fuel ih =>
    have hnode : nodes[x]? = some nodes[x] := getElem?_eq_getElem hx
    have hpx : parent nodes x = nodes[x].parent := parent_of_lt hnode
    have hplt : nodes[x].parent < nodes.length := by
      rw [← hpx]
      exact hf.closed x hx
    have hup : nodes[nodes[x].parent]? = some nodes[nodes[x].parent] :=
      getElem?_eq_getElem hplt
    have hgrand : nodes[nodes[x].parent].parent = parent nodes (parent nodes x) := by
      rw [hpx, parent_of_lt hup]
    by_cases hp : nodes[x].parent = x
    · have hzero : RootIn (parent nodes) 0 x x := ⟨rfl, hpx.trans hp⟩
      obtain ⟨-, rfl⟩ := hroot.unique hzero
      refine ⟨nodes, ?_, SameRoots.refl hf⟩
      simp only [findRootLoop, hnode, hup, derefOption, bind, Except.bind, if_pos hp]
      rfl
    · have hsame := sameRoots_halve hf hnode hup hp
      obtain ⟨k', hk', hroot'⟩ := hroot.halve (by rw [hpx]; exact hp)
      have hparent := parent_set { nodes[x] with parent := nodes[nodes[x].parent].parent } hx
      simp only at hparent
      rw [← hgrand, ← hparent] at hroot'
      have hgrandlt : nodes[nodes[x].parent].parent <
          (nodes.set x { nodes[x] with parent := nodes[nodes[x].parent].parent }).length := by
        rw [length_set, hgrand]
        exact hf.closed _ (hf.closed x hx)
      obtain ⟨nodes', hrun, hsame'⟩ := ih hsame.forest hgrandlt hroot' (by omega)
      refine ⟨nodes', ?_, hsame.trans hsame'⟩
      simp only [findRootLoop, hnode, hup, derefOption, bind, Except.bind, if_neg hp]
      exact hrun

/-- `FindRoot` ends at the root and keeps every root. -/
theorem findRoot_spec (hf : Forest nodes) {i : Nat} (hi : i < nodes.length) :
    ∃ nodes', findRoot nodes i = .ok (rootIndex nodes i, nodes') ∧ SameRoots nodes nodes' := by
  obtain ⟨k, hk⟩ := hf.rootOf_rootIndex hi
  exact findRootLoop_spec hf hi hk (hk.lt hf.closed hi)

/-! ### What a map shows -/

section View

variable [DecidableEq K]

/-- The entry of a list at the root of a key. -/
def atRoot {α : Type} (m : UnionFindMap K V) (xs : List α) (key : K) : Option α :=
  (m.getIndex key).bind fun i => xs[rootIndex m.nodes i]?

/-- The representative of the class of a key. -/
def rep (m : UnionFindMap K V) (key : K) : Option K := m.atRoot m.keys key

/-- The value of the class of a key. -/
def value (m : UnionFindMap K V) (key : K) : Option V := m.atRoot m.values key

/-- The size of the class of a key. -/
def size (m : UnionFindMap K V) (key : K) : Option Nat := m.atRoot (sizes m.nodes) key

/-- The containers have one entry for each key, and the nodes are a forest. -/
structure WellFormed (m : UnionFindMap K V) : Prop where
  keys_length : m.keys.length = m.nodes.length
  values_length : m.values.length = m.nodes.length
  index_iff : ∀ key i, m.getIndex key = some i ↔ m.keys[i]? = some key
  forest : Forest m.nodes

variable {m : UnionFindMap K V} {key key' r : K} {i j : Nat}

theorem wellFormed_empty : WellFormed (empty : UnionFindMap K V) where
  keys_length := rfl
  values_length := rfl
  index_iff key i := by simp [getIndex, empty]
  forest := ⟨fun i hi => absurd hi (by simp [empty]), fun i hi => absurd hi (by simp [empty])⟩

namespace WellFormed

theorem index_lt (hm : WellFormed m) (hi : m.getIndex key = some i) : i < m.nodes.length := by
  have := (List.getElem?_eq_some_iff.mp ((hm.index_iff key i).mp hi)).1
  rw [hm.keys_length] at this
  exact this

theorem getIndex_of_rep (_hm : WellFormed m) (h : m.rep key = some r) :
    ∃ i, m.getIndex key = some i ∧ m.keys[rootIndex m.nodes i]? = some r := by
  rw [rep, atRoot, bind_eq_some_iff] at h
  exact h

variable {α : Type}

section

variable (hm : WellFormed m)
include hm

/-- A list with one entry for each node has one at the root of every key. -/
theorem atRoot_isSome {xs : List α} (hxs : xs.length = m.nodes.length)
    (hi : m.getIndex key = some i) : ∃ x, xs[rootIndex m.nodes i]? = some x := by
  have hlt := hm.forest.rootIndex_lt (hm.index_lt hi)
  rw [← hxs] at hlt
  exact ⟨_, getElem?_eq_getElem hlt⟩

theorem exists_rep (hi : m.getIndex key = some i) : ∃ r, m.rep key = some r := by
  obtain ⟨r, hr⟩ := hm.atRoot_isSome hm.keys_length hi
  refine ⟨r, ?_⟩
  rw [rep, atRoot, hi]
  exact hr

theorem contains_iff : m.contains key = (m.rep key).isSome := by
  rw [contains]
  cases hi : m.getIndex key with
  | none => simp [rep, atRoot, hi]
  | some i =>
    obtain ⟨r, hr⟩ := hm.exists_rep hi
    simp [hr]

/-- The representative sits at the root. -/
theorem getIndex_rep (hi : m.getIndex key = some i) (h : m.rep key = some r) :
    m.getIndex r = some (rootIndex m.nodes i) := by
  obtain ⟨i', hi', hr⟩ := hm.getIndex_of_rep h
  rw [hi] at hi'
  rw [hm.index_iff, some.inj hi']
  exact hr

/-- A representative shows what the keys of its class show. -/
theorem atRoot_rep (xs : List α) (h : m.rep key = some r) : m.atRoot xs r = m.atRoot xs key := by
  obtain ⟨i, hi, -⟩ := hm.getIndex_of_rep h
  rw [atRoot, atRoot, hm.getIndex_rep hi h, hi]
  simp only [bind_some, hm.forest.rootIndex_rootIndex (hm.index_lt hi)]

section

variable (h : m.rep key = some r)
include h

theorem rep_rep : m.rep r = some r :=
  (hm.atRoot_rep m.keys h).trans h

theorem value_rep : m.value r = m.value key :=
  hm.atRoot_rep m.values h

theorem size_rep : m.size r = m.size key :=
  hm.atRoot_rep (sizes m.nodes) h

theorem exists_value : ∃ v, m.value key = some v := by
  obtain ⟨i, hi, -⟩ := hm.getIndex_of_rep h
  obtain ⟨v, hv⟩ := hm.atRoot_isSome hm.values_length hi
  refine ⟨v, ?_⟩
  rw [value, atRoot, hi]
  exact hv

end

/-- Two keys have one representative if they have one root. -/
theorem rep_eq_iff (hi : m.getIndex key = some i) (hj : m.getIndex key' = some j) :
    m.rep key = m.rep key' ↔ rootIndex m.nodes i = rootIndex m.nodes j := by
  constructor
  · intro h
    obtain ⟨r, hr⟩ := hm.exists_rep hi
    have hri := hm.getIndex_rep hi hr
    have hrj := hm.getIndex_rep hj (h ▸ hr)
    rw [hri] at hrj
    exact some.inj hrj
  · intro h
    rw [rep, rep, atRoot, atRoot, hi, hj, bind_some, bind_some, h]

/-- Changing the entry at the root of a key changes it for the keys of its class. -/
theorem atRoot_set {xs : List α} (hxs : xs.length = m.nodes.length) (hi : m.getIndex key = some i)
    (x : α) (k : K) :
    m.atRoot (xs.set (rootIndex m.nodes i) x) k =
      if m.rep k = m.rep key then some x else m.atRoot xs k := by
  have hlt := hm.forest.rootIndex_lt (hm.index_lt hi)
  rw [← hxs] at hlt
  cases hk : m.getIndex k with
  | none =>
    obtain ⟨r, hr⟩ := hm.exists_rep hi
    have hnone : m.rep k = none := by simp [rep, atRoot, hk]
    rw [hnone, hr]
    simp [atRoot, hk]
  | some j =>
    simp only [hm.rep_eq_iff hk hi]
    rw [atRoot, atRoot, hk, bind_some, bind_some, getElem?_set]
    by_cases hroot : rootIndex m.nodes j = rootIndex m.nodes i
    · simp [hroot, hlt]
    · simp [hroot, Ne.symm hroot]

end

end WellFormed

end View

end UnionFindMap

end Xls

import Xls.TableSwitch

/-!
# Xls.TableSwitch.Sound

The table that `LinksToTable` returns holds, at every value of the index, the value of the
chain (`arrayIndex_linksToTable`), whatever the keys are. A chain in a verified graph only has
keys of the width of its index, so the pass returns, and every node keeps its value
(`returns_runOnFunctionBaseInternal`).
-/

namespace Xls

open Interpreter List Bool
open Graph (World)
open Graph.World

namespace TableSwitch

open OneBitMux (Select asSelect)

/-! ### The value of a chain -/

/-- The value of a chain of links at a value of the index; `last` is the value above the last
link. -/
def chainValue (index : Nat) (last : Value) : List Link → Value
  | [] => last
  | link :: links => if index = link.key then link.value else chainValue index last links

/-- The value of the first link with a key. -/
def firstValue (links : List Link) (key : Nat) : Option Value :=
  (links.find? fun link => link.key == key).map Link.value

/-- The chain is worth the first link for the index, or the last value. -/
theorem chainValue_eq (index : Nat) (last : Value) (links : List Link) :
    chainValue index last links = (firstValue links index).getD last := by
  induction links with
  | nil => rfl
  | cons link links ih =>
    rw [chainValue, firstValue, find?_cons]
    by_cases h : index = link.key
    · simp [h]
    · have hne : (link.key == index) = false := by
        rw [beq_eq_false_iff_ne]
        exact Ne.symm h
      rw [if_neg h, hne, ih]
      rfl

variable {key : Nat} {map : List (Nat × Value)} {links : List Link}

theorem firstValue_isSome :
    (firstValue links key).isSome = true ↔ ∃ link ∈ links, link.key = key := by
  rw [firstValue, Option.isSome_map, find?_isSome]
  simp

/-! ### Maps -/

/-- The keys of a map. -/
def keysOf (map : List (Nat × Value)) : List Nat := map.map Prod.fst

/-- A key is in the map if it has a value. -/
theorem lookup_isSome : (map.lookup key).isSome = true ↔ key ∈ keysOf map := by
  induction map with
  | nil => simp [keysOf]
  | cons entry map ih =>
    rw [lookup_cons, keysOf, map_cons, mem_cons]
    by_cases h : key = entry.1
    · simp [h]
    · have hne : (key == entry.1) = false := beq_eq_false_iff_ne.2 h
      rw [hne]
      simp [h, ih, keysOf]

theorem lookup_snoc {value : Value} (k : Nat) :
    (map ++ [(key, value)]).lookup k =
      (map.lookup k).or (if k = key then some value else none) := by
  rw [lookup_append]
  congr 1
  rw [lookup_cons]
  by_cases h : k = key
  · simp [h]
  · rw [if_neg h, beq_eq_false_iff_ne.2 h]
    rfl

theorem nodup_snoc {value : Value} (h : (keysOf map).Nodup)
    (hkey : (map.lookup key).isSome = false) : (keysOf (map ++ [(key, value)])).Nodup := by
  have hnot : key ∉ keysOf map := by
    intro hmem
    rw [lookup_isSome.2 hmem] at hkey
    cases hkey
  rw [keysOf, map_append, map_cons, map_nil]
  exact nodup_append.2 ⟨h, nodup_singleton _, fun a ha b hb heq => by
    rw [heq, mem_singleton.1 hb] at ha
    exact hnot ha⟩

/-- What the map of keys says of the links. -/
structure Gathers (links : List Link) (m : KeyMap) : Prop where
  nodup : (keysOf m.map).Nodup
  lookup : ∀ key, m.map.lookup key = firstValue links key
  minKey : ∀ link ∈ links, m.minKey ≤ link.key
  maxKey : ∀ link ∈ links, link.key ≤ m.maxKey
  least : ∀ bound, (∀ link ∈ links, link.key ≤ bound) → m.maxKey ≤ bound

/-- One link more; a dead link changes nothing. -/
theorem Gathers.add {m : KeyMap} (h : Gathers links m) (link : Link) :
    Gathers (links ++ [link]) (m.add link) := by
  have hfirst : ∀ key, firstValue (links ++ [link]) key =
      (firstValue links key).or (if key = link.key then some link.value else none) := by
    intro key
    rw [firstValue, find?_append, Option.map_or, firstValue]
    congr 1
    by_cases hkey : key = link.key
    · simp [hkey]
    · rw [if_neg hkey, find?_cons, beq_eq_false_iff_ne.2 (Ne.symm hkey)]
      rfl
  unfold KeyMap.add
  split
  · rename_i hdead
    -- an earlier link has the key: the new one changes neither the map nor the bounds
    have hmem : ∃ l ∈ links, l.key = link.key := by rwa [h.lookup, firstValue_isSome] at hdead
    obtain ⟨l, hl, hkey⟩ := hmem
    constructor
    · exact h.nodup
    · intro key
      rw [hfirst, h.lookup]
      by_cases hk : key = link.key
      · rw [h.lookup] at hdead
        obtain ⟨v, hv⟩ := Option.isSome_iff_exists.1 hdead
        rw [hk, hv]
        rfl
      · rw [if_neg hk, Option.or_none]
    · intro l' hl'
      rcases mem_append.1 hl' with hl' | hl'
      · exact h.minKey l' hl'
      · rw [mem_singleton.1 hl', ← hkey]
        exact h.minKey l hl
    · intro l' hl'
      rcases mem_append.1 hl' with hl' | hl'
      · exact h.maxKey l' hl'
      · rw [mem_singleton.1 hl', ← hkey]
        exact h.maxKey l hl
    · intro bound hbound
      exact h.least bound fun l' hl' => hbound l' (mem_append_left _ hl')
  · rename_i hnew
    rw [not_eq_true] at hnew
    constructor
    · exact nodup_snoc h.nodup hnew
    · intro key
      rw [lookup_snoc, hfirst, h.lookup]
    · intro l hl
      rcases mem_append.1 hl with hl | hl
      · exact (min_le_left _ _).trans (h.minKey l hl)
      · rw [mem_singleton.1 hl]
        exact min_le_right _ _
    · intro l hl
      rcases mem_append.1 hl with hl | hl
      · exact (h.maxKey l hl).trans (le_max_left _ _)
      · rw [mem_singleton.1 hl]
        exact le_max_right _ _
    · intro bound hbound
      apply max_le
      · exact h.least bound fun l' hl' => hbound l' (mem_append_left _ hl')
      · exact hbound link (mem_append_right _ mem_cons_self)

/-- The keys are gathered with the value of the first link for each. -/
theorem gathers_gatherKeys (links : List Link) : Gathers links (gatherKeys links) := by
  induction links using reverseRecOn with
  | nil =>
    constructor
    · exact nodup_nil
    · intro key
      rfl
    · intro link hlink
      cases hlink
    · intro link hlink
      cases hlink
    · intro bound _
      exact Nat.zero_le _
  | append_singleton links link ih =>
    rw [gatherKeys, foldl_append]
    exact ih.add link

/-- Every hole below the bound is filled, and nothing else changes. -/
theorem fillHoles_spec (h : (keysOf map).Nodup) (value : Value) (n : Nat) :
    (keysOf (fillHoles value map n)).Nodup ∧ ∀ key, (fillHoles value map n).lookup key =
      (map.lookup key).or (if key < n then some value else none) := by
  induction n with
  | zero =>
    refine ⟨h, fun key => ?_⟩
    simp [fillHoles]
  | succ n ih =>
    obtain ⟨hnodup, hlookup⟩ := ih
    have hstep : fillHoles value map (n + 1) =
        (if ((fillHoles value map n).lookup n).isSome then fillHoles value map n
          else fillHoles value map n ++ [(n, value)]) := by
      rw [fillHoles, range_succ, foldl_append]
      rfl
    rw [hstep]
    split
    · rename_i hsome
      refine ⟨hnodup, fun key => ?_⟩
      rw [hlookup]
      rw [hlookup, if_neg (Nat.lt_irrefl n), Option.or_none] at hsome
      by_cases hkey : key = n
      · obtain ⟨v, hv⟩ := Option.isSome_iff_exists.1 hsome
        rw [hkey, hv]
        rfl
      · have hiff : key < n ↔ key < n + 1 := by omega
        simp only [hiff]
    · rename_i hnone
      rw [not_eq_true] at hnone
      refine ⟨nodup_snoc hnodup hnone, fun key => ?_⟩
      rw [lookup_snoc, hlookup, Option.or_assoc]
      congr 1
      by_cases hkey : key = n
      · simp [hkey]
      · have hiff : key < n ↔ key < n + 1 := by omega
        simp only [hiff, if_neg hkey, Option.or_none]

/-! ### From the map to the array -/

/-- The stores succeed exactly for keys in range, and leave each value at its key. -/
theorem storeValues_spec {size : Nat} {values : List Value} {map : List (Nat × Value)}
    (hsize : values.length = size) (hnodup : (keysOf map).Nodup)
    (hkeys : ∀ key ∈ keysOf map, key < size) :
    ∃ out, storeValues size values map = .ok out ∧ out.length = size ∧
      ∀ key, key < size → out[key]? = (map.lookup key).or values[key]? := by
  induction map generalizing values with
  | nil => exact ⟨values, rfl, hsize, fun key _ => rfl⟩
  | cons entry map ih =>
    obtain ⟨key, value⟩ := entry
    obtain ⟨hnot, hrest⟩ := nodup_cons.1 hnodup
    have hkey : key < size := hkeys key mem_cons_self
    obtain ⟨out, hout, hlength, hget⟩ := @ih (values.set key value)
      (by rw [length_set, hsize]) hrest fun k hk => hkeys k (mem_cons_of_mem _ hk)
    refine ⟨out, ?_, hlength, fun k hk => ?_⟩
    · rw [storeValues, if_pos hkey]
      exact hout
    · rw [hget k hk, lookup_cons, getElem?_set]
      by_cases h : k = key
      · have hnone : map.lookup k = none := by
          rw [← Option.not_isSome_iff_eq_none, lookup_isSome, h]
          exact hnot
        rw [hnone, if_pos h.symm, if_pos (by omega), h, beq_self_eq_true]
        rfl
      · rw [if_neg (Ne.symm h), beq_eq_false_iff_ne.2 h]

/-- Values are only stored below the size. -/
theorem storeValues_keys {size : Nat} {values out : List Value}
    (h : storeValues size values map = .ok out) : ∀ key ∈ keysOf map, key < size := by
  induction map generalizing values with
  | nil =>
    intro key hkey
    cases hkey
  | cons entry map ih =>
    rw [storeValues] at h
    split at h
    · rename_i hkey
      exact forall_mem_cons.2 ⟨hkey, ih h⟩
    · cases h

/-- Distinct keys below their number are all the numbers below it. -/
theorem mem_keysOf_of_lt (hnodup : (keysOf map).Nodup)
    (hkeys : ∀ key ∈ keysOf map, key < map.length) (h : key < map.length) : key ∈ keysOf map := by
  have hsub : keysOf map ⊆ range map.length := fun k hk => mem_range.2 (hkeys k hk)
  have hperm := (subperm_of_subset hnodup hsub).perm_of_length_le (by simp [keysOf])
  exact hperm.mem_iff.2 (mem_range.2 h)

/-- The array holds the values of a map whose keys are the numbers below its size. -/
structure Tabulates (map : List (Nat × Value)) (elements : List Value) : Prop where
  length : elements.length = map.length
  get : ∀ key, key < map.length → ∃ value, map.lookup key = some value ∧
    elements[key]? = some value

/-- A map with all keys below its size becomes an array. -/
theorem mapToArrayValue_ok (hnodup : (keysOf map).Nodup) (hne : map ≠ [])
    (hkeys : ∀ key ∈ keysOf map, key < map.length) :
    ∃ elements, mapToArrayValue map = .ok (.node elements) ∧ Tabulates map elements := by
  obtain ⟨out, hout, hlength, hget⟩ := @storeValues_spec map.length
    (replicate map.length Value.token) map length_replicate hnodup hkeys
  refine ⟨out, ?_, hlength, fun key hkey => ?_⟩
  · rw [mapToArrayValue, hout]
    cases out with
    | nil => exact absurd (length_eq_zero_iff.1 hlength.symm) hne
    | cons v vs => rfl
  · have hmem := mem_keysOf_of_lt hnodup hkeys hkey
    obtain ⟨value, hvalue⟩ := Option.isSome_iff_exists.1 (lookup_isSome.2 hmem)
    refine ⟨value, hvalue, ?_⟩
    rw [hget key hkey, hvalue]
    rfl

/-- An array that is made tabulates the map. -/
theorem mapToArrayValue_spec {table : Value} (hnodup : (keysOf map).Nodup)
    (h : mapToArrayValue map = .ok table) :
    ∃ elements, table = .node elements ∧ map ≠ [] ∧ Tabulates map elements := by
  have hcopy := h
  rw [mapToArrayValue] at hcopy
  obtain ⟨out, hout, harray⟩ := Result.bind_eq_ok.1 hcopy
  have hne : map ≠ [] := by
    intro hnil
    subst hnil
    cases hout
    cases harray
  obtain ⟨elements, helements, htabulates⟩ :=
    mapToArrayValue_ok hnodup hne (storeValues_keys hout)
  rw [h] at helements
  cases helements
  exact ⟨elements, rfl, hne, htabulates⟩

/-- A lookup in the array reads the value of the key, an index past the end that of the last
key. -/
theorem arrayIndex_of_tabulates {elements : List Value} (hne : map ≠ [])
    (h : Tabulates map elements) (x : Bits) :
    ∃ value, map.lookup (min x.val (map.length - 1)) = some value ∧
      arrayIndex (.node elements) [x] = .ok value := by
  have hpos := length_pos_iff.2 hne
  obtain ⟨value, hvalue, hget⟩ := h.get (min x.val (map.length - 1)) (by omega)
  refine ⟨value, hvalue, ?_⟩
  show (arrayElement _ _ >>= fun v => .ok v) = _
  rw [arrayElement, Bits.bounded]
  show (derefOption elements[min x.val (elements.length - 1)]? >>= fun v => .ok v) = _
  rw [h.length, hget]
  rfl

/-! ### The table -/

section Table

variable {g : Graph} {links : List Link} {last : Value} {m : KeyMap}

theorem Gathers.exists_link (h : Gathers links m) {key : Nat} (hkey : key ∈ keysOf m.map) :
    ∃ link ∈ links, link.key = key := by
  rw [← lookup_isSome, h.lookup] at hkey
  exact firstValue_isSome.1 hkey

theorem Gathers.mem_keysOf (h : Gathers links m) {link : Link} (hlink : link ∈ links) :
    link.key ∈ keysOf m.map := by
  rw [← lookup_isSome, h.lookup, firstValue_isSome]
  exact ⟨link, hlink, rfl⟩

/-- What the map holds at a key is what the chain is worth there. -/
theorem Gathers.chainValue_of_lookup (h : Gathers links m) {key : Nat} {value : Value}
    (hlookup : m.map.lookup key = some value) : chainValue key last links = value := by
  rw [chainValue_eq, ← h.lookup, hlookup]
  rfl

theorem Gathers.chainValue_of_none (h : Gathers links m) {key : Nat}
    (hkey : key ∉ keysOf m.map) : chainValue key last links = last := by
  have hnone : m.map.lookup key = none := by rwa [← Option.not_isSome_iff_eq_none, lookup_isSome]
  rw [chainValue_eq, ← h.lookup, hnone]
  rfl

variable {table : Value} {x : Bits}

/-- The selects cover the index space, so the value above the chain is dead. -/
theorem arrayIndex_full (h : Gathers links m) (hsize : 2 ^ x.width = m.map.length)
    (htable : mapToArrayValue m.map = .ok table) :
    arrayIndex table [x] = .ok (chainValue x.val last links) := by
  obtain ⟨elements, rfl, hne, htabulates⟩ := mapToArrayValue_spec h.nodup htable
  obtain ⟨value, hlookup, hget⟩ := arrayIndex_of_tabulates hne htabulates x
  have hlt := x.isLt
  rw [Nat.min_eq_left (by omega)] at hlookup
  rw [hget, h.chainValue_of_lookup hlookup]

/-- Holes hold the value above the chain. -/
theorem arrayIndex_filled (h : Gathers links m)
    (hsize : (fillHoles last m.map (2 ^ x.width)).length = 2 ^ x.width)
    (htable : mapToArrayValue (fillHoles last m.map (2 ^ x.width)) = .ok table) :
    arrayIndex table [x] = .ok (chainValue x.val last links) := by
  obtain ⟨hnodup, hfilled⟩ := fillHoles_spec h.nodup last (2 ^ x.width)
  obtain ⟨elements, rfl, hne, htabulates⟩ := mapToArrayValue_spec hnodup htable
  obtain ⟨value, hlookup, hget⟩ := arrayIndex_of_tabulates hne htabulates x
  have hlt := x.isLt
  rw [Nat.min_eq_left (by omega), hfilled, if_pos hlt, h.lookup] at hlookup
  rw [hget, chainValue_eq]
  congr 1
  cases hfirst : firstValue links x.val with
  | _ =>
    rw [hfirst] at hlookup
    exact (Option.some.inj hlookup).symm

section

variable (h : Gathers links m) (hkeys : ∀ link ∈ links, link.key < 2 ^ 64)
  (hdense : m.map.length = (m.maxKey + 1) % 2 ^ 64)
include h hkeys hdense

/-- The keys of a dense map are below its size, also where the bound wraps around. -/
theorem Gathers.lt_of_dense : ∀ key ∈ keysOf m.map, key < m.map.length := by
  intro key hkey
  have hpos : 0 < m.map.length := by
    have hlen := length_pos_of_mem hkey
    rwa [keysOf, length_map] at hlen
  have hmax : m.maxKey ≤ 2 ^ 64 - 1 := h.least _ fun link hlink => by
    have := hkeys link hlink
    omega
  obtain ⟨link, hlink, rfl⟩ := h.exists_link hkey
  have hle := h.maxKey link hlink
  omega

/-- The value above the chain stands behind a dense table, where an index past the end is
clamped to. -/
theorem arrayIndex_dense
    (htable : mapToArrayValue (m.map ++ [((m.maxKey + 1) % 2 ^ 64, last)]) = .ok table) (x : Bits) :
    arrayIndex table [x] = .ok (chainValue x.val last links) := by
  have hlt := h.lt_of_dense hkeys hdense
  rw [← hdense] at htable
  have hend : m.map.length ∉ keysOf m.map := fun hmem => lt_irrefl _ (hlt _ hmem)
  have hfree : (m.map.lookup m.map.length).isSome = false := by
    rw [← not_eq_true, lookup_isSome]
    exact hend
  obtain ⟨elements, rfl, hne, htabulates⟩ :=
    mapToArrayValue_spec (nodup_snoc h.nodup hfree) htable
  obtain ⟨value, hlookup, hget⟩ := arrayIndex_of_tabulates hne htabulates x
  rw [length_append, length_singleton, Nat.add_sub_cancel, lookup_snoc] at hlookup
  rw [hget]
  congr 1
  by_cases hx : x.val < m.map.length
  · rw [Nat.min_eq_left (by omega), if_neg (by omega), Option.or_none] at hlookup
    exact (h.chainValue_of_lookup hlookup).symm
  · have hout : x.val ∉ keysOf m.map := fun hmem => hx (hlt _ hmem)
    rw [← not_eq_true, Option.not_isSome_iff_eq_none] at hfree
    rw [Nat.min_eq_right (by omega), if_pos rfl, hfree] at hlookup
    rw [h.chainValue_of_none hout]
    exact (Option.some.inj hlookup).symm

end

@[simp] theorem flatBitCount_bits (k : Nat) : (IrType.bits k).flatBitCount = k := by
  simp [IrType.flatBitCount, IrType.shape, LeafTree.leaves]

theorem retCheckEq_eq_ok {a b : Nat} {text : String} {u : Unit} :
    retCheckEq a b text = .ok u ↔ a = b := by
  unfold retCheckEq
  split <;> simp_all

/-- Indexing the table is evaluating the chain. -/
theorem arrayIndex_tableFromKeys (h : Gathers links m) {elseLiteral : Option Value}
    (hkeys : ∀ link ∈ links, link.key < 2 ^ 64)
    (hlast : ∀ value, elseLiteral = some value → value = last)
    (htable : tableFromKeys (indexSpaceSize x.width) m elseLiteral = .ok (some table)) :
    arrayIndex table [x] = .ok (chainValue x.val last links) := by
  -- a space that has a size has the size of the index
  have hspace : ∀ size, indexSpaceSize x.width = some size → size = 2 ^ x.width := by
    intro size hsize
    unfold indexSpaceSize at hsize
    split at hsize
    · exact (Option.some.inj hsize).symm
    · cases hsize
  generalize indexSpaceSize x.width = space at hspace htable
  unfold tableFromKeys at htable
  split at htable
  · rename_i hfull
    obtain ⟨_, -, htable⟩ := Result.bind_eq_ok.1 htable
    obtain ⟨_, -, htable⟩ := Result.bind_eq_ok.1 htable
    obtain ⟨array, harray, htable⟩ := Result.bind_eq_ok.1 htable
    cases htable
    exact arrayIndex_full h (hspace _ hfull).symm harray
  · split at htable
    · cases htable
    · rename_i elseValue
      obtain rfl := hlast elseValue rfl
      split at htable
      · rename_i hholes
        cases space with
        | none => cases hholes
        | some size =>
          obtain rfl := hspace size rfl
          obtain ⟨_, hsize, htable⟩ := Result.bind_eq_ok.1 htable
          obtain ⟨array, harray, htable⟩ := Result.bind_eq_ok.1 htable
          cases htable
          exact arrayIndex_filled h (retCheckEq_eq_ok.1 hsize) harray
      · split at htable
        · rename_i hdense
          obtain ⟨_, -, htable⟩ := Result.bind_eq_ok.1 htable
          obtain ⟨array, harray, htable⟩ := Result.bind_eq_ok.1 htable
          cases htable
          exact arrayIndex_dense h hkeys hdense harray x
        · cases htable

/-- Wherever `LinksToTable` returns a table, the lookup is worth what the chain is. -/
theorem arrayIndex_of_linksToTable
    (hindex : ∀ link ∈ links, g.nodes[link.index]?.map Node.type = some (.bits x.width))
    (hkeys : ∀ link ∈ links, link.key < 2 ^ 64)
    (hlast : ∀ link value, links.getLast? = some link → literalValue g link.next = some value →
      value = last) (h : linksToTable g links = .ok (some table)) :
    arrayIndex table [x] = .ok (chainValue x.val last links) := by
  unfold linksToTable at h
  split at h
  · rename_i front back hfront hback
    obtain ⟨index, hnode, h⟩ := Result.bind_eq_ok.1 h
    rw [derefOption_eq_ok] at hnode
    have htype := hindex front (mem_of_mem_head? hfront)
    rw [hnode] at htype
    rw [Option.some.inj htype, flatBitCount_bits] at h
    exact arrayIndex_tableFromKeys (gathers_gatherKeys links) hkeys
      (fun value hvalue => hlast back value hback hvalue) h
  · cases h

end Table

/-! ### Tables of chains whose keys fit the index -/

section Returns

variable {links : List Link} {m : KeyMap} {k : Nat}
  {P : Value → Prop} {map : List (Nat × Value)} {elseValue : Value}

/-- The map has a value for each link, and no other. -/
theorem Gathers.forall_lookup (h : Gathers links m) (hlinks : ∀ link ∈ links, P link.value)
    {key : Nat} {value : Value} (hlookup : m.map.lookup key = some value) : P value := by
  rw [h.lookup, firstValue, Option.map_eq_some_iff] at hlookup
  obtain ⟨link, hfind, rfl⟩ := hlookup
  exact hlinks link (mem_of_find?_eq_some hfind)

variable {elements : List Value} {size : Nat}

theorem Tabulates.forall_mem (h : Tabulates map elements)
    (hmap : ∀ key value, map.lookup key = some value → P value) : ∀ e ∈ elements, P e := by
  intro e he
  obtain ⟨i, hi, rfl⟩ := getElem_of_mem he
  obtain ⟨value, hlookup, hget⟩ := h.get i (by rwa [← h.length])
  rw [getElem?_eq_getElem hi] at hget
  cases hget
  exact hmap i _ hlookup

theorem Gathers.map_ne_nil (h : Gathers links m) (hne : links ≠ []) : m.map ≠ [] := by
  obtain ⟨link, rest, rfl⟩ := exists_cons_of_ne_nil hne
  have hmem : link.key ∈ keysOf m.map := h.mem_keysOf mem_cons_self
  intro hnil
  rw [hnil] at hmem
  cases hmem

/-- Keys that fill a range start at zero. -/
theorem Gathers.minKey_eq (h : Gathers links m) (hne : links ≠ [])
    (hkeys : ∀ key ∈ keysOf m.map, key < m.map.length) : m.minKey = 0 := by
  have hpos := length_pos_iff.2 (h.map_ne_nil hne)
  obtain ⟨link, hlink, hkey⟩ := h.exists_link (mem_keysOf_of_lt h.nodup hkeys hpos)
  have hle := h.minKey link hlink
  omega

/-- A table that `LinksToTable` may return: its elements satisfy what the values of the chain
satisfy. -/
def TableOf (P : Value → Prop) (result : Option Value) : Prop :=
  ∀ table, result = some table → ∃ elements, table = .node elements ∧ elements ≠ [] ∧
    ∀ e ∈ elements, P e

theorem Tabulates.tableOf (h : Tabulates map elements) (hne : map ≠ [])
    (hmap : ∀ key value, map.lookup key = some value → P value) :
    TableOf P (some (.node elements)) := by
  intro table htable
  cases htable
  refine ⟨elements, rfl, ?_, h.forall_mem hmap⟩
  intro hnil
  have hlength := h.length
  rw [hnil] at hlength
  exact hne (length_eq_zero_iff.1 hlength.symm)

/-- The filled map has exactly the numbers below the size as its keys. -/
theorem keysOf_fillHoles (hnodup : (keysOf map).Nodup) (hfit : ∀ key ∈ keysOf map, key < size)
    (elseValue : Value) :
    (∀ key, key ∈ keysOf (fillHoles elseValue map size) ↔ key < size) ∧
      (fillHoles elseValue map size).length = size := by
  obtain ⟨hfilledNodup, hfilled⟩ := fillHoles_spec hnodup elseValue size
  have hmem : ∀ key, key ∈ keysOf (fillHoles elseValue map size) ↔ key < size := by
    intro key
    rw [← lookup_isSome, hfilled]
    by_cases hkey : key < size
    · simp [hkey]
    · have hnot : map.lookup key = none := by
        rw [← Option.not_isSome_iff_eq_none, lookup_isSome]
        exact fun hin => hkey (hfit key hin)
      simp [hkey, hnot]
  have hperm : (keysOf (fillHoles elseValue map size)).Perm (range size) := by
    rw [perm_ext_iff_of_nodup hfilledNodup nodup_range]
    intro key
    rw [hmem, mem_range]
  have hlength := hperm.length_eq
  rw [keysOf, length_map, length_range] at hlength
  exact ⟨hmem, hlength⟩

/-- Keys below their number reach up to it. -/
theorem Gathers.maxKey_eq (h : Gathers links m) (hne : links ≠ [])
    (hkeys : ∀ key ∈ keysOf m.map, key < m.map.length) : m.maxKey = m.map.length - 1 := by
  have hpos := length_pos_iff.2 (h.map_ne_nil hne)
  obtain ⟨link, hlink, hkey⟩ := h.exists_link (mem_keysOf_of_lt h.nodup hkeys
    (show m.map.length - 1 < m.map.length by omega))
  have hge := h.maxKey link hlink
  have hle : m.maxKey ≤ m.map.length - 1 := h.least _ fun l hl => by
    have hlt := hkeys l.key (h.mem_keysOf hl)
    omega
  omega

/-- A map whose keys are below its size makes a table. -/
theorem mapToArrayValue_tableOf (hnodup : (keysOf map).Nodup) (hne : map ≠ [])
    (hfit : ∀ key ∈ keysOf map, key < map.length)
    (hmap : ∀ key value, map.lookup key = some value → P value) :
    ∃ table, mapToArrayValue map = .ok table ∧ TableOf P (some table) := by
  obtain ⟨elements, harray, htabulates⟩ := mapToArrayValue_ok hnodup hne hfit
  exact ⟨.node elements, harray, htabulates.tableOf hne hmap⟩

/-- A lookup gives the value of a link or the value above the chain. -/
theorem Gathers.forall_or (h : Gathers links m) (hlinks : ∀ link ∈ links, P link.value)
    (helse : P elseValue) {p : Prop} [Decidable p] {key : Nat} {value : Value}
    (hlookup : (m.map.lookup key).or (if p then some elseValue else none) = some value) :
    P value := by
  rw [Option.or_eq_some_iff] at hlookup
  rcases hlookup with hlookup | ⟨-, hlookup⟩
  · exact h.forall_lookup hlinks hlookup
  · split at hlookup
    · cases hlookup
      exact helse
    · cases hlookup

/-- Holes are filled with the value of the default. -/
theorem Gathers.fillHoles_tableOf (h : Gathers links m) (hpos : 0 < size)
    (hfit : ∀ key ∈ keysOf m.map, key < size) (hlinks : ∀ link ∈ links, P link.value)
    (helse : P elseValue) :
    ∃ table, mapToArrayValue (fillHoles elseValue m.map size) = .ok table ∧
      TableOf P (some table) := by
  obtain ⟨hnodup, hfilled⟩ := fillHoles_spec h.nodup elseValue size
  obtain ⟨hmem, hsize⟩ := keysOf_fillHoles h.nodup hfit elseValue
  refine mapToArrayValue_tableOf hnodup ?_ ?_ ?_
  · rw [← length_pos_iff, hsize]
    exact hpos
  · intro key hkey
    rwa [hsize, ← hmem]
  · intro key value hlookup
    rw [hfilled] at hlookup
    exact h.forall_or hlinks helse hlookup

/-- One more entry for all greater indices, which array indexing clamps to. -/
theorem Gathers.snoc_tableOf (h : Gathers links m) (hfit : ∀ key ∈ keysOf m.map, key < m.map.length)
    (hlinks : ∀ link ∈ links, P link.value) (helse : P elseValue) :
    ∃ table, mapToArrayValue (m.map ++ [(m.map.length, elseValue)]) = .ok table ∧
      TableOf P (some table) := by
  have hfree : (m.map.lookup m.map.length).isSome = false := by
    rw [← not_eq_true, lookup_isSome]
    exact fun hin => lt_irrefl _ (hfit _ hin)
  refine mapToArrayValue_tableOf (nodup_snoc h.nodup hfree) (by simp) ?_ ?_
  · intro key hkey
    rw [keysOf, map_append, mem_append] at hkey
    rw [length_append, length_singleton]
    rcases hkey with hkey | hkey
    · have := hfit key hkey
      omega
    · rw [map_cons, map_nil, mem_singleton] at hkey
      omega
  · intro key value hlookup
    rw [lookup_snoc] at hlookup
    exact h.forall_or hlinks helse hlookup

theorem eq_of_indexSpaceSize (h : indexSpaceSize k = some size) : size = 2 ^ k := by
  unfold indexSpaceSize at h
  split at h
  · exact (Option.some.inj h).symm
  · cases h

/-- Where the keys fit the width of the index, no check fails. -/
theorem tableFromKeys_ok (h : Gathers links m) (hne : links ≠ [])
    (hkeys : ∀ link ∈ links, link.key < 2 ^ k) (hword : ∀ link ∈ links, link.key < 2 ^ 64)
    {elseLiteral : Option Value} (hlinks : ∀ link ∈ links, P link.value)
    (helse : ∀ value, elseLiteral = some value → P value) :
    ∃ result, tableFromKeys (indexSpaceSize k) m elseLiteral = .ok result ∧ TableOf P result := by
  have hfit : ∀ key ∈ keysOf m.map, key < 2 ^ k := by
    intro key hkey
    obtain ⟨link, hlink, rfl⟩ := h.exists_link hkey
    exact hkeys link hlink
  have hnone : TableOf P none := fun table htable => nomatch htable
  unfold tableFromKeys
  split
  · rename_i hfull
    have hsize := eq_of_indexSpaceSize hfull
    rw [← hsize] at hfit
    obtain ⟨table, harray, htable⟩ := mapToArrayValue_tableOf h.nodup (h.map_ne_nil hne) hfit
      fun key value hlookup => h.forall_lookup hlinks hlookup
    have hminCheck : retCheckEq m.minKey 0 "min_key == 0" = .ok () :=
      if_pos (h.minKey_eq hne hfit)
    have hmaxCheck : retCheckEq m.maxKey (m.map.length - 1)
        "max_key == index_space_size.value() - 1" = .ok () := if_pos (h.maxKey_eq hne hfit)
    refine ⟨some table, ?_, htable⟩
    rw [hminCheck, Result.ok_bind, hmaxCheck, Result.ok_bind, harray]
    rfl
  · split
    · exact ⟨none, rfl, hnone⟩
    · rename_i elseValue
      split
      · -- fewer holes than keys: every index has an entry
        rename_i hholes
        cases hspace : indexSpaceSize k with
        | none =>
          rw [hspace] at hholes
          cases hholes
        | some size =>
          obtain rfl := eq_of_indexSpaceSize hspace
          obtain ⟨-, hsize⟩ := keysOf_fillHoles h.nodup hfit elseValue
          obtain ⟨table, harray, htable⟩ :=
            h.fillHoles_tableOf (Nat.two_pow_pos k) hfit hlinks (helse elseValue rfl)
          refine ⟨some table, ?_, htable⟩
          have hcheck : retCheckEq (fillHoles elseValue m.map (2 ^ k)).length (2 ^ k)
              "map.size() == index_space_size.value()" = .ok () := if_pos hsize
          dsimp only [Option.getD_some]
          rw [hcheck, Result.ok_bind, harray]
          rfl
      · split
        · -- the keys are dense: the value above the chain goes behind them
          rename_i hdense
          have hlt := h.lt_of_dense hword hdense
          rw [← hdense]
          obtain ⟨table, harray, htable⟩ := h.snoc_tableOf hlt hlinks (helse elseValue rfl)
          refine ⟨some table, ?_, htable⟩
          have hcheck : retCheckEq m.minKey 0 "min_key == 0" = .ok () :=
            if_pos (h.minKey_eq hne hlt)
          rw [hcheck, Result.ok_bind, harray]
          rfl
        · exact ⟨none, rfl, hnone⟩

end Returns

end TableSwitch

end Xls

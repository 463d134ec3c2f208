import Xls.LeafTypeTree

/-!
# Xls.LeafTypeTree.Iterator

The iterator over the indices of the leaves of a type. It increments the last number of the
index and descends again from the root, past members without leaves. `leaves` lists the
leaves with their indices; the iterator walks along this list, and the place in the list is
the offset of the leaf. `consistentIndexing_iff` is the property of the whole iteration.
-/

namespace Xls.LeafTypeTree

open Result List Except Nat

/-! ### The iterator -/

mutual

/-- `FirstLeafIndex`. -/
def firstLeafIndex : IrType → List Nat → Result (Option IrType × List Nat)
  | .bits w, index => .ok (some (.bits w), index)
  | .token, index => .ok (some .token, index)
  | .array size element, index =>
    if (IrType.array size element).leafCount = 0 then .ok (none, index)
    else do
      let (leafType, index) ← firstLeafIndex element (index ++ [0])
      checkThat leafType.isSome
      return (leafType, index)
  | .tuple members, index =>
    if (IrType.tuple members).leafCount = 0 then .ok (none, index)
    else firstMemberIndex members 0 index

/-- The loop over the members of a tuple. -/
def firstMemberIndex : List IrType → Nat → List Nat → Result (Option IrType × List Nat)
  | [], _, _ => .error .check
  | member :: members, i, index =>
    if 0 < member.leafCount then do
      let (leafType, index) ← firstLeafIndex member (index ++ [i])
      checkThat leafType.isSome
      return (leafType, index)
    else firstMemberIndex members (i + 1) index

end

/-- The loop of `AdvanceHelper` through the indices of a type, with what it does for a child. -/
def advanceLoop (size : Nat) (child : Nat → List Nat → Result (Option IrType × List Nat))
    (depth : Nat) : Nat → List Nat → Result (Option IrType × List Nat)
  | 0, _ => .error .check
  | fuel + 1, index => do
    let i ← derefOption index[depth]?
    if i < size then do
      let (leafType, index) ← child i index
      match leafType with
      | some leafType => return (some leafType, index)
      | none => advanceLoop size child depth fuel (index.modify depth (· + 1))
    else return (none, index.dropLast)

mutual

/-- `AdvanceHelper`. -/
def advanceHelper : IrType → Nat → List Nat → Result (Option IrType × List Nat)
  | .bits w, depth, index =>
    if depth = index.length then .ok (some (.bits w), index) else .error .check
  | .token, depth, index =>
    if depth = index.length then .ok (some .token, index) else .error .check
  | .array size element, depth, index =>
    advanceLoop size (fun _ => advanceHelper element (depth + 1)) depth (size + 1)
      (if depth = index.length then index ++ [0] else index)
  | .tuple members, depth, index =>
    advanceLoop members.length (fun i => advanceMember members i (depth + 1)) depth
      (members.length + 1) (if depth = index.length then index ++ [0] else index)

/-- The call for the type of a member of a tuple. -/
def advanceMember : List IrType → Nat → Nat → List Nat → Result (Option IrType × List Nat)
  | [], _, _, _ => .error .check
  | member :: _, 0, depth, index => advanceHelper member depth index
  | _ :: members, i + 1, depth, index => advanceMember members i depth index

end

/-- `LeafTypeTreeIterator`. -/
structure Iterator where
  rootType : IrType
  typeIndex : List Nat
  indexPrefixSize : Nat
  linearIndex : Nat
  leafType : Option IrType

namespace Iterator

/-- The constructor. -/
def new (t : IrType) (indexPrefix : List Nat) : Result Iterator := do
  let (leafType, typeIndex) ← firstLeafIndex t indexPrefix
  return ⟨t, typeIndex, indexPrefix.length, 0, leafType⟩

/-- `AtEnd`. -/
def atEnd (it : Iterator) : Bool := it.leafType.isNone

/-- `Advance`. -/
def advance (it : Iterator) : Result (Bool × Iterator) := do
  checkThat it.leafType.isSome
  if it.typeIndex.length = it.indexPrefixSize then
    return (false, { it with leafType := none })
  else do
    let typeIndex := it.typeIndex.modify (it.typeIndex.length - 1) (· + 1)
    let (leafType, typeIndex) ← advanceHelper it.rootType it.indexPrefixSize typeIndex
    let it := { it with
      typeIndex := typeIndex, linearIndex := it.linearIndex + 1, leafType := leafType }
    return (!leafType.isSome, it)

end Iterator

/-- What an iterator reports at a leaf. -/
structure Position where
  typeIndex : List Nat
  linearIndex : Nat
  leafType : IrType
  deriving DecidableEq

/-- What the iterator reports while it is advanced to the end. -/
def positions : Nat → Iterator → Result (List Position)
  | 0, _ => .error .check
  | fuel + 1, it =>
    match it.leafType with
    | none => .ok []
    | some leafType => do
      let (_, next) ← it.advance
      let rest ← positions fuel next
      return ⟨it.typeIndex, it.linearIndex, leafType⟩ :: rest

mutual

/-- `GetLeafTypes`. -/
def getLeafTypes : IrType → List IrType
  | .bits w => [.bits w]
  | .token => [.token]
  | .array size element => (replicate size (getLeafTypes element)).flatten
  | .tuple members => getMemberLeafTypes members

/-- The loop over the members of a tuple. -/
def getMemberLeafTypes : List IrType → List IrType
  | [] => []
  | member :: members => getLeafTypes member ++ getMemberLeafTypes members

end

/-! ### The leaves of a type -/

/-- The leaves of a member, with their indices in the whole type. -/
def under (i : Nat) (leaves : List (List Nat × IrType)) : List (List Nat × IrType) :=
  leaves.map fun leaf => (i :: leaf.1, leaf.2)

mutual

/-- The leaves of a type with their indices. -/
def leaves : IrType → List (List Nat × IrType)
  | .bits w => [([], .bits w)]
  | .token => [([], .token)]
  | .array size element => (range' 0 size).flatMap fun i => under i (leaves element)
  | .tuple members => memberLeaves members 0

/-- The leaves of the members from a number on. -/
def memberLeaves : List IrType → Nat → List (List Nat × IrType)
  | [], _ => []
  | member :: members, i => under i (leaves member) ++ memberLeaves members (i + 1)

end

/-- A type with members: how many, and their types. -/
inductive Aggregate : IrType → Nat → (Nat → IrType) → Prop
  | array (size : Nat) (element : IrType) : Aggregate (.array size element) size fun _ => element
  | tuple (members : List IrType) :
      Aggregate (.tuple members) members.length fun i => members.getD i .token

/-- Induction over the members of types. -/
theorem aggregate_induction {motive : IrType → Prop} (leaf : ∀ t, isLeafType t = true → motive t)
    (aggregate : ∀ t size member, Aggregate t size member → (∀ i < size, motive (member i)) →
      motive t) (t : IrType) : motive t :=
  @IrType.rec motive (fun members => ∀ t ∈ members, motive t)
    (fun w => leaf (.bits w) rfl) (leaf .token rfl)
    (fun members ih => aggregate _ _ _ (.tuple members) fun i hi => by
      rw [getD_eq_getElem _ _ hi]
      exact ih _ (getElem_mem hi))
    (fun size element ih => aggregate _ _ _ (.array size element) fun _ _ => ih)
    (fun _ h => absurd h not_mem_nil)
    (fun _ _ ih ihs _ h => by
      rcases mem_cons.mp h with rfl | h
      · exact ih
      · exact ihs _ h) t

/-- The leaves of the members with some numbers. -/
def leavesFrom (member : Nat → IrType) (i n : Nat) : List (List Nat × IrType) :=
  (range' i n).flatMap fun k => under k (leaves (member k))

theorem leavesFrom_succ (member : Nat → IrType) (i n : Nat) :
    leavesFrom member i (n + 1) = under i (leaves (member i)) ++ leavesFrom member (i + 1) n := by
  rw [leavesFrom, range'_succ, flatMap_cons]
  rfl

/-- The leaves of the members follow each other. -/
theorem memberLeaves_eq (members : List IrType) (i : Nat) (member : Nat → IrType)
    (h : ∀ k < members.length, member (i + k) = members.getD k .token) :
    memberLeaves members i = leavesFrom member i members.length := by
  induction members generalizing i with
  | nil => rfl
  | cons first members ih =>
    rw [memberLeaves, length_cons, leavesFrom_succ, ih (i + 1)]
    · rw [show member i = first from h 0 (by simp)]
    · intro k hk
      have := h (k + 1) (by simpa using hk)
      rw [Nat.add_right_comm, Nat.add_assoc, this]
      rfl

variable {t : IrType} {size : Nat} {member : Nat → IrType}

theorem Aggregate.leaves_eq (h : Aggregate t size member) :
    leaves t = leavesFrom member 0 size := by
  cases h with
  | array size element => rw [leaves]; rfl
  | tuple members =>
    rw [leaves, memberLeaves_eq members 0 _ fun k _ => by rw [Nat.zero_add]]

/-- The leaves before a member. -/
def leavesBefore (member : Nat → IrType) (i : Nat) : Nat :=
  ((range i).map fun k => (member k).leafCount).sum

theorem leavesBefore_succ (member : Nat → IrType) (i : Nat) :
    leavesBefore member (i + 1) = leavesBefore member i + (member i).leafCount := by
  simp [leavesBefore, range_succ]

theorem leavesBefore_succ_left (member : Nat → IrType) (i : Nat) :
    leavesBefore member (i + 1) =
      (member 0).leafCount + leavesBefore (fun k => member (k + 1)) i := by
  simp [leavesBefore, range_succ_eq_map, Function.comp_def]

/-- A tuple or array has as many leaves as its members together. -/
theorem Aggregate.leafCount_eq (h : Aggregate t size member) :
    t.leafCount = leavesBefore member size := by
  cases h with
  | array size element => simp [IrType.leafCount, leavesBefore]
  | tuple members =>
    rw [IrType.leafCount]
    induction members with
    | nil => rfl
    | cons first members ih =>
      rw [IrType.leafCounts, ih, length_cons, leavesBefore_succ_left]
      rfl

theorem getMemberAndOffset_eq (members : List IrType) (i : Nat) (index : List Nat)
    (offset : Nat) : getMemberAndOffset members i index offset = if i < members.length then
      getSubtypeAndOffsetHelper (members.getD i .token) index
        (offset + leavesBefore (fun k => members.getD k .token) i) else .error .check := by
  induction members generalizing i offset with
  | nil => rw [getMemberAndOffset]; rfl
  | cons first members ih =>
    cases i with
    | zero => simp [getMemberAndOffset, leavesBefore]
    | succ i =>
      rw [getMemberAndOffset, ih, leavesBefore_succ_left]
      simp [Nat.add_assoc]

theorem Aggregate.getSubtypeAndOffsetHelper_eq (h : Aggregate t size member) (i : Nat)
    (index : List Nat) (offset : Nat) :
    getSubtypeAndOffsetHelper t (i :: index) offset = if i < size then
      getSubtypeAndOffsetHelper (member i) index (offset + leavesBefore member i)
        else .error .check := by
  cases h with
  | array size element =>
    rw [getSubtypeAndOffsetHelper]
    by_cases hi : i < size
    · simp [hi, leavesBefore]
    · simp [hi]
  | tuple members => rw [getSubtypeAndOffsetHelper, getMemberAndOffset_eq]

theorem length_leavesFrom (member : Nat → IrType) (n : Nat)
    (h : ∀ k < n, (leaves (member k)).length = (member k).leafCount) :
    (leavesFrom member 0 n).length = leavesBefore member n := by
  induction n with
  | zero => rfl
  | succ n ih =>
    rw [leavesBefore_succ, ← ih fun k hk => h k (lt_succ_of_lt hk), leavesFrom,
      range'_1_concat, flatMap_append, length_append]
    simp [leavesFrom, under, h n (lt_succ_self n)]

theorem leaves_of_isLeafType (h : isLeafType t = true) : leaves t = [([], t)] := by
  cases t with
  | bits w => rw [leaves]
  | token => rw [leaves]
  | _ => cases h

theorem leafCount_of_isLeafType (h : isLeafType t = true) : t.leafCount = 1 := by
  cases t with
  | bits w => rw [IrType.leafCount]
  | token => rw [IrType.leafCount]
  | array size element => cases h
  | tuple members => cases h

theorem length_leaves (t : IrType) : (leaves t).length = t.leafCount := by
  induction t using aggregate_induction with
  | leaf t h => rw [leaves_of_isLeafType h, leafCount_of_isLeafType h]; rfl
  | aggregate t size member h ih =>
    rw [h.leaves_eq, h.leafCount_eq, length_leavesFrom member size ih]

variable {index indexPrefix : List Nat} {leafType : IrType}
  {before after : List (List Nat × IrType)} {it : Iterator}

/-- Where a leaf stands among the leaves of a member. -/
theorem leavesFrom_eq_append {i n : Nat}
    (h : leavesFrom member i n = before ++ (index, leafType) :: after) :
    ∃ k index' before' after', i ≤ k ∧ k < i + n ∧ index = k :: index' ∧
      leaves (member k) = before' ++ (index', leafType) :: after' ∧
      before = leavesFrom member i (k - i) ++ under k before' ∧
      after = under k after' ++ leavesFrom member (k + 1) (i + n - (k + 1)) := by
  induction n generalizing i before with
  | zero => simp [leavesFrom] at h
  | succ n ih =>
    rw [leavesFrom_succ] at h
    -- The leaf is one of a later member, or one of the first member.
    have hsplit : (∃ middle, before = under i (leaves (member i)) ++ middle ∧
        leavesFrom member (i + 1) n = middle ++ (index, leafType) :: after) ∨
        ∃ middle, under i (leaves (member i)) = before ++ (index, leafType) :: middle ∧
          after = middle ++ leavesFrom member (i + 1) n := by
      rcases append_eq_append_iff.mp h with
        ⟨middle, hbefore, hrest⟩ | ⟨middle, hunder, hrest⟩
      · exact .inl ⟨middle, hbefore, hrest⟩
      · cases middle with
        | nil => exact .inl ⟨[], by rw [hunder, append_nil, append_nil], hrest.symm⟩
        | cons leaf middle =>
          obtain ⟨rfl, rfl⟩ := cons.inj hrest
          exact .inr ⟨middle, hunder, rfl⟩
    rcases hsplit with ⟨middle, rfl, hrest⟩ | ⟨middle, hunder, rfl⟩
    · obtain ⟨k, index', before', after', hik, hkn, hindex, hleaves, rfl, rfl⟩ := ih hrest
      refine ⟨k, index', before', after', by omega, by omega, hindex, hleaves, ?_, ?_⟩
      · rw [show k - i = (k - (i + 1)) + 1 by omega, leavesFrom_succ, append_assoc]
      · rw [show i + 1 + n = i + (n + 1) by omega]
    · obtain ⟨before', rest', hleaves, rfl, hrest'⟩ := map_eq_append_iff.mp hunder
      obtain ⟨leaf, after', rfl, hleaf, rfl⟩ := map_eq_cons_iff.mp hrest'
      cases hleaf
      refine ⟨i, leaf.1, before', after', le_refl i, by omega, rfl, hleaves, ?_, ?_⟩
      · rw [Nat.sub_self]
        rfl
      · rw [show i + (n + 1) - (i + 1) = n by omega]
        rfl

/-- The index of a leaf leads to it, and its place is its offset. -/
theorem getSubtypeAndOffset_of_leaf (t : IrType)
    (h : leaves t = before ++ (index, leafType) :: after) (offset : Nat) :
    getSubtypeAndOffsetHelper t index offset = .ok (leafType, offset + before.length) ∧
      isLeafType leafType = true := by
  induction t using aggregate_induction generalizing index before after offset with
  | leaf t hleaf =>
    rw [leaves_of_isLeafType hleaf] at h
    cases before with
    | nil =>
      cases h
      exact ⟨by simp [getSubtypeAndOffsetHelper], hleaf⟩
    | cons _ before => simp at h
  | aggregate t size member hagg ih =>
    rw [hagg.leaves_eq] at h
    obtain ⟨k, index', before', after', -, hk, rfl, hleaves, rfl, -⟩ := leavesFrom_eq_append h
    rw [Nat.zero_add] at hk
    obtain ⟨hoffset, hleaf⟩ := ih k hk hleaves (offset + leavesBefore member k)
    refine ⟨?_, hleaf⟩
    rw [hagg.getSubtypeAndOffsetHelper_eq, if_pos hk, hoffset, Nat.sub_zero, length_append,
      length_leavesFrom member k fun i _ => length_leaves (member i), under, length_map,
      Nat.add_assoc]

/-- Every index of a leaf is listed. -/
theorem mem_leaves_of_offset (t : IrType) {offset offset' : Nat}
    (h : getSubtypeAndOffsetHelper t index offset = .ok (leafType, offset'))
    (hleaf : isLeafType leafType = true) : (index, leafType) ∈ leaves t := by
  induction t using aggregate_induction generalizing index offset with
  | leaf t hroot =>
    rw [leaves_of_isLeafType hroot]
    cases index with
    | nil =>
      simp only [getSubtypeAndOffsetHelper, ok.injEq, Prod.mk.injEq] at h
      rw [h.1]
      exact mem_singleton.mpr rfl
    | cons i index =>
      cases t with
      | bits w => cases h
      | token => cases h
      | _ => cases hroot
  | aggregate t size member hagg ih =>
    cases index with
    | nil => cases hagg <;> cases h <;> cases hleaf
    | cons i index =>
      rw [hagg.getSubtypeAndOffsetHelper_eq] at h
      split at h
      · rename_i hi
        rw [hagg.leaves_eq, leavesFrom, mem_flatMap]
        exact ⟨i, mem_range'_1.mpr ⟨Nat.zero_le i, by omega⟩, mem_map.mpr ⟨_, ih i hi h, rfl⟩⟩
      · cases h

/-- The leaves are in lexicographic order. -/
theorem leaves_sorted (t : IrType) : (leaves t).Pairwise fun a b => List.Lex (· < ·) a.1 b.1 := by
  induction t using aggregate_induction with
  | leaf t h => rw [leaves_of_isLeafType h]; exact pairwise_singleton _ _
  | aggregate t size member h ih =>
    rw [h.leaves_eq, leavesFrom, pairwise_flatMap]
    refine ⟨fun i hi => ?_, ?_⟩
    · rw [under, pairwise_map]
      exact (ih i (by simpa using hi)).imp .cons
    · refine (pairwise_lt_range').imp fun hij => ?_
      intro a ha b hb
      obtain ⟨_, -, rfl⟩ := mem_map.mp ha
      obtain ⟨_, -, rfl⟩ := mem_map.mp hb
      exact .rel hij

/-- The leaf types of the members follow each other. -/
theorem getMemberLeafTypes_eq (members : List IrType) (i : Nat) (member : Nat → IrType)
    (h : ∀ k < members.length, member (i + k) = members.getD k .token) :
    getMemberLeafTypes members =
      (range' i members.length).flatMap fun k => getLeafTypes (member k) := by
  induction members generalizing i with
  | nil => rfl
  | cons first members ih =>
    rw [getMemberLeafTypes, length_cons, range'_succ, flatMap_cons, ih (i + 1)]
    · rw [show member i = first from h 0 (by simp)]
    · intro k hk
      have := h (k + 1) (by simpa using hk)
      rw [Nat.add_right_comm, Nat.add_assoc, this]
      rfl

theorem Aggregate.getLeafTypes_eq (h : Aggregate t size member) :
    getLeafTypes t = (range' 0 size).flatMap fun i => getLeafTypes (member i) := by
  cases h with
  | array size element =>
    rw [getLeafTypes, flatMap_def]
    simp
  | tuple members =>
    rw [getLeafTypes]
    exact getMemberLeafTypes_eq members 0 _ fun k _ => by rw [Nat.zero_add]

theorem map_leaves (t : IrType) : (leaves t).map Prod.snd = getLeafTypes t := by
  induction t using aggregate_induction with
  | leaf t h => rw [leaves_of_isLeafType h]; cases t <;> first | rfl | cases h
  | aggregate t size member h ih =>
    rw [h.leaves_eq, h.getLeafTypes_eq, leavesFrom, map_flatMap]
    refine flatMap_congr fun i hi => ?_
    rw [← ih i (by simpa using hi), under, map_map]
    rfl

/-! ### The first leaf and the next leaf -/

/-- The first of some leaves, whose indices go on from an index. -/
def firstOf (index : List Nat) : List (List Nat × IrType) → Option IrType × List Nat
  | [] => (none, index)
  | leaf :: _ => (some leaf.2, index ++ leaf.1)

theorem firstOf_under_append (index : List Nat) (i : Nat) (first rest : List (List Nat × IrType)) :
    firstOf index (under i first ++ rest) =
      if first = [] then firstOf index rest else firstOf (index ++ [i]) first := by
  cases first with
  | nil => rfl
  | cons leaf first => simp [under, firstOf]

theorem leaves_eq_nil : leaves t = [] ↔ t.leafCount = 0 := by
  rw [← length_leaves, length_eq_zero_iff]

/-- A leaf that is found passes the check. -/
theorem checked_firstOf {t : IrType} (ht : t.leafCount ≠ 0) (index : List Nat) :
    (do
      let (leafType, index) ← (.ok (firstOf index (leaves t)) : Result (Option IrType × List Nat))
      checkThat leafType.isSome
      return (leafType, index)) = .ok (firstOf index (leaves t)) := by
  cases hleaves : leaves t with
  | nil => exact absurd (leaves_eq_nil.mp hleaves) ht
  | cons leaf rest => rfl

/-- The first leaf of the members from a place on. -/
theorem firstMemberIndex_eq (members : List IrType) (i : Nat) (index : List Nat)
    (ih : ∀ t ∈ members, ∀ index, firstLeafIndex t index = .ok (firstOf index (leaves t)))
    (hcount : IrType.leafCounts members ≠ 0) :
    firstMemberIndex members i index = .ok (firstOf index (memberLeaves members i)) := by
  induction members generalizing i with
  | nil => exact absurd rfl hcount
  | cons first members ihm =>
    rw [forall_mem_cons] at ih
    rw [firstMemberIndex, memberLeaves, firstOf_under_append]
    by_cases hfirst : 0 < first.leafCount
    · rw [if_pos hfirst, if_neg fun h => hfirst.ne' (leaves_eq_nil.mp h), ih.1]
      exact checked_firstOf hfirst.ne' _
    · rw [IrType.leafCounts] at hcount
      rw [if_neg hfirst, if_pos (leaves_eq_nil.mpr (by omega)), ihm (i + 1) ih.2 (by omega)]

/-- The first leaf at or after an index. -/
theorem firstLeafIndex_eq (t : IrType) (index : List Nat) :
    firstLeafIndex t index = .ok (firstOf index (leaves t)) := by
  induction t using aggregate_induction generalizing index with
  | leaf t h =>
    rw [leaves_of_isLeafType h]
    cases t with
    | array size element => cases h
    | tuple members => cases h
    | _ => simp [firstLeafIndex, firstOf]
  | aggregate t size member h ih =>
    by_cases hcount : t.leafCount = 0
    · rw [leaves_eq_nil.mpr hcount]
      cases h with
      | _ => rw [firstLeafIndex, if_pos hcount]; rfl
    · cases h with
      | array size element =>
        have hpos : size ≠ 0 ∧ element.leafCount ≠ 0 := by
          rwa [IrType.leafCount, Nat.mul_eq_zero, not_or] at hcount
        obtain ⟨n, rfl⟩ := exists_eq_succ_of_ne_zero hpos.1
        rw [firstLeafIndex, if_neg hcount, ih 0 (succ_pos n), checked_firstOf hpos.2,
          (Aggregate.array _ _).leaves_eq, leavesFrom_succ, firstOf_under_append,
          if_neg fun h => hpos.2 (leaves_eq_nil.mp h)]
      | tuple members =>
        rw [firstLeafIndex, if_neg hcount, leaves]
        refine firstMemberIndex_eq members 0 index (fun t ht index => ?_) ?_
        · obtain ⟨i, hi, rfl⟩ := mem_iff_getElem.mp ht
          have := ih i hi index
          simp only at this
          rwa [getD_eq_getElem _ _ hi] at this
        · rwa [IrType.leafCount] at hcount

theorem modify_concat (index : List Nat) (i : Nat) :
    (index ++ [i]).modify index.length (· + 1) = index ++ [i + 1] := by
  induction index with
  | nil => rfl
  | cons j index ih => simpa using ih

/-- From a member on, the loop finds the first leaf of the members that are left. -/
theorem advanceLoop_scan {child : Nat → List Nat → Result (Option IrType × List Nat)}
    (hchild : ∀ i < size, child i (index ++ [i]) = .ok (firstOf (index ++ [i]) (leaves (member i))))
    {fuel i : Nat} (hi : i ≤ size) (hfuel : size < fuel + i) :
    advanceLoop size child index.length fuel (index ++ [i]) =
      .ok (firstOf index (leavesFrom member i (size - i))) := by
  induction fuel generalizing i with
  | zero => omega
  | succ fuel ih =>
    have hget : (index ++ [i])[index.length]? = some i := by simp
    rw [advanceLoop, hget]
    simp only [derefOption, ok_bind]
    by_cases hlt : i < size
    · rw [if_pos hlt, hchild i hlt, show size - i = size - (i + 1) + 1 by omega, leavesFrom_succ,
        firstOf_under_append]
      simp only [ok_bind]
      cases hleaves : leaves (member i) with
      | nil =>
        simp only [firstOf, if_pos, modify_concat]
        exact ih (by omega) (by omega)
      | cons leaf rest => rfl
    · rw [if_neg hlt, show size - i = 0 by omega, dropLast_concat]
      rfl

theorem advanceMember_eq (members : List IrType) (i depth : Nat) (index : List Nat)
    (hi : i < members.length) :
    advanceMember members i depth index = advanceHelper (members.getD i .token) depth index := by
  induction members generalizing i with
  | nil => simp at hi
  | cons first members ih =>
    cases i with
    | zero => rw [advanceMember]; rfl
    | succ i => rw [advanceMember, ih i (by simpa using hi)]; rfl

theorem Aggregate.advanceHelper_eq (h : Aggregate t size member) (depth : Nat) :
    ∃ child, (∀ i < size, ∀ index, child i index = advanceHelper (member i) (depth + 1) index) ∧
      ∀ index, advanceHelper t depth index = advanceLoop size child depth (size + 1)
        (if depth = index.length then index ++ [0] else index) := by
  cases h with
  | array size element => exact ⟨_, fun _ _ _ => rfl, fun index => by rw [advanceHelper]⟩
  | tuple members =>
    exact ⟨_, fun i hi index => advanceMember_eq members i _ index hi,
      fun index => by rw [advanceHelper]⟩

/-- The index with its last number incremented. -/
def incrementLast (index : List Nat) : List Nat := index.modify (index.length - 1) (· + 1)

theorem incrementLast_cons {i : Nat} (h : index ≠ []) :
    incrementLast (i :: index) = i :: incrementLast index := by
  obtain ⟨j, index, rfl⟩ := exists_cons_of_ne_nil h
  simp [incrementLast]

/-- From the index of a type, the first leaf is found, and from the index after that of a leaf
the next one. -/
theorem advanceHelper_spec (t : IrType) (index : List Nat) :
    advanceHelper t index.length index = .ok (firstOf index (leaves t)) ∧
    ∀ before leaf after, leaves t = before ++ leaf :: after → leaf.1 ≠ [] →
      advanceHelper t index.length (index ++ incrementLast leaf.1) = .ok (firstOf index after) := by
  induction t using aggregate_induction generalizing index with
  | leaf t h =>
    rw [leaves_of_isLeafType h]
    refine ⟨?_, fun before leaf after hleaves hne => ?_⟩
    · cases t with
      | array size element => cases h
      | tuple members => cases h
      | _ => simp [advanceHelper, firstOf]
    · cases before with
      | nil => cases hleaves; exact absurd rfl hne
      | cons _ before => simp at hleaves
  | aggregate t size member h ih =>
    obtain ⟨child, hchild, hadvance⟩ := h.advanceHelper_eq index.length
    have hlength : ∀ i, (index ++ [i]).length = index.length + 1 := by simp
    have hfirst : ∀ i < size, child i (index ++ [i]) =
        .ok (firstOf (index ++ [i]) (leaves (member i))) := by
      intro i hi
      rw [hchild i hi, ← hlength i]
      exact (ih i hi (index ++ [i])).1
    refine ⟨?_, fun before leaf after hleaves hne => ?_⟩
    · rw [hadvance, if_pos rfl, advanceLoop_scan hfirst (Nat.zero_le size) (by omega),
        h.leaves_eq, Nat.sub_zero]
    · obtain ⟨leafIndex, leafType⟩ := leaf
      rw [h.leaves_eq] at hleaves
      obtain ⟨i, index', before', after', -, hi, rfl, hmember, -, rfl⟩ :=
        leavesFrom_eq_append hleaves
      rw [Nat.zero_add] at hi
      rw [firstOf_under_append, Nat.zero_add]
      have hscan : ∀ fuel, size < fuel + (i + 1) →
          advanceLoop size child index.length fuel (index ++ [i + 1]) =
            .ok (firstOf index (leavesFrom member (i + 1) (size - (i + 1)))) :=
        fun fuel hfuel => advanceLoop_scan hfirst hi hfuel
      cases index' with
      | nil =>
        -- The leaf is the whole member.
        obtain ⟨hroot, hleaf⟩ := getSubtypeAndOffset_of_leaf (member i) hmember 0
        simp only [getSubtypeAndOffsetHelper, ok.injEq, Prod.mk.injEq] at hroot
        obtain ⟨hroot, -⟩ := hroot
        rw [← hroot] at hleaf
        have hone : after' = [] := by
          rw [leaves_of_isLeafType hleaf] at hmember
          cases before' with
          | nil => cases hmember; rfl
          | cons _ before' => simp at hmember
        rw [hadvance, if_neg (by simp [incrementLast]), if_pos hone]
        exact hscan (size + 1) (by omega)
      | cons j index' =>
        rw [incrementLast_cons (cons_ne_nil j index'), hadvance, if_neg (by simp), advanceLoop]
        have hget : (index ++ i :: incrementLast (j :: index'))[index.length]? = some i := by simp
        have happend : index ++ i :: incrementLast (j :: index') =
            index ++ [i] ++ incrementLast (j :: index') := by simp
        have hnext : child i (index ++ i :: incrementLast (j :: index')) =
            .ok (firstOf (index ++ [i]) after') := by
          rw [hchild i hi, ← hlength i, happend]
          exact (ih i hi (index ++ [i])).2 before' _ after' hmember (cons_ne_nil j index')
        simp only [hget, derefOption, ok_bind, if_pos hi, hnext]
        cases after' with
        | nil =>
          simp only [firstOf, modify_concat, if_pos]
          exact hscan size (by omega)
        | cons next after' => rfl

/-! ### Walking along the leaves -/

/-- The iterator is at a leaf of the type, or at the end. -/
inductive At (t : IrType) (indexPrefix : List Nat) : Nat → Iterator → Prop
  | leaf {before after : List (List Nat × IrType)} {index : List Nat} {leafType : IrType}
      (h : leaves t = before ++ (index, leafType) :: after) :
      At t indexPrefix before.length
        ⟨t, indexPrefix ++ index, indexPrefix.length, before.length, some leafType⟩
  | done {k : Nat} (hk : k = (leaves t).length) (typeIndex : List Nat) (linearIndex : Nat) :
      At t indexPrefix k ⟨t, typeIndex, indexPrefix.length, linearIndex, none⟩

theorem at_firstOf (indexPrefix : List Nat) (h : leaves t = before ++ after) :
    At t indexPrefix before.length
      ⟨t, (firstOf indexPrefix after).2, indexPrefix.length, before.length,
        (firstOf indexPrefix after).1⟩ := by
  cases after with
  | nil => exact .done (by rw [h, append_nil]) _ _
  | cons leaf after => exact .leaf h

theorem new_spec (t : IrType) (indexPrefix : List Nat) :
    ∃ it, Iterator.new t indexPrefix = .ok it ∧ At t indexPrefix 0 it := by
  refine ⟨_, by rw [Iterator.new, firstLeafIndex_eq]; rfl, ?_⟩
  have hall : leaves t = [] ++ leaves t := rfl
  exact at_firstOf indexPrefix hall

theorem incrementLast_append (indexPrefix : List Nat) (h : index ≠ []) :
    incrementLast (indexPrefix ++ index) = indexPrefix ++ incrementLast index := by
  induction indexPrefix with
  | nil => rfl
  | cons i indexPrefix ih =>
    rw [cons_append, incrementLast_cons (by simp [h]), ih, cons_append]

/-- Advancing leads to the next leaf. It returns whether this is the end, but false for a type
that is a leaf itself. -/
theorem advance_spec {k : Nat} (h : At t indexPrefix k it) (hit : it.leafType ≠ none) :
    ∃ next, it.advance = .ok (!isLeafType t && next.atEnd, next) ∧
      At t indexPrefix (k + 1) next := by
  cases h with
  | done => exact absurd rfl hit
  | @leaf before after index leafType h =>
    by_cases hroot : isLeafType t = true
    · rw [leaves_of_isLeafType hroot] at h
      obtain ⟨rfl, hleaf⟩ : before = [] ∧
          [(([] : List Nat), t)] = (index, leafType) :: after := by
        cases before with
        | nil => exact ⟨rfl, h⟩
        | cons _ before => simp at h
      cases hleaf
      have hone : 1 = (leaves t).length := by
        rw [leaves_of_isLeafType hroot]
        rfl
      refine ⟨⟨t, indexPrefix ++ [], indexPrefix.length, 0, none⟩, ?_, .done hone _ _⟩
      rw [hroot]
      simp [Iterator.advance]
    · have hne : index ≠ [] := by
        rintro rfl
        obtain ⟨hsubtype, hleaf⟩ := getSubtypeAndOffset_of_leaf t h 0
        simp only [getSubtypeAndOffsetHelper, ok.injEq, Prod.mk.injEq] at hsubtype
        exact hroot (hsubtype.1 ▸ hleaf)
      have hnext := (advanceHelper_spec t indexPrefix).2 before _ after h hne
      have hlist : leaves t = (before ++ [(index, leafType)]) ++ after := by
        rw [h, append_assoc]
        rfl
      have hat := at_firstOf indexPrefix hlist
      rw [length_append, length_singleton] at hat
      refine ⟨_, ?_, hat⟩
      have hlength : ¬(indexPrefix ++ index).length = indexPrefix.length := by simpa using hne
      rw [← incrementLast_append indexPrefix hne] at hnext
      simp only [incrementLast] at hnext
      simp only [Iterator.advance, Option.isSome_some, checkThat_true, ok_bind,
        if_neg hlength, hnext, hroot]
      simp [Iterator.atEnd, pure, Except.pure]

/-- An iterator that is advanced any number of times stands at a leaf or at the end. -/
theorem exists_at_of_reaches {start : Iterator} (hat : At t indexPrefix 0 start)
    (hreach : Relation.ReflTransGen (fun a b => ∃ r, Iterator.advance a = .ok (r, b)) start it) :
    ∃ k, At t indexPrefix k it := by
  induction hreach with
  | refl => exact ⟨0, hat⟩
  | @tail b c _ hstep ih =>
    obtain ⟨k, hk⟩ := ih
    obtain ⟨atEnd, hstep⟩ := hstep
    have hb : b.leafType ≠ none := by
      intro hnone
      rw [Iterator.advance, hnone] at hstep
      cases hstep
    obtain ⟨next, hadvance, hnext⟩ := advance_spec hk hb
    obtain ⟨-, rfl⟩ := Prod.mk.inj (ok.inj (hadvance.symm.trans hstep))
    exact ⟨k + 1, hnext⟩

/-- The iterator visits the leaves that are left. -/
theorem positions_spec {k fuel : Nat} (h : At t indexPrefix k it)
    (hfuel : (leaves t).length < k + fuel) :
    positions fuel it = .ok ((((leaves t).drop k).zipIdx k).map fun leaf =>
      ⟨indexPrefix ++ leaf.1.1, leaf.2, leaf.1.2⟩) := by
  induction fuel generalizing k it with
  | zero =>
    cases h with
    | leaf h => rw [h] at hfuel; simp at hfuel
    | done hk => omega
  | succ fuel ih =>
    cases h with
    | done hk => rw [positions, hk, drop_length]; rfl
    | @leaf before after index leafType hleaves =>
      obtain ⟨next, hadvance, hnext⟩ := advance_spec (At.leaf hleaves) (by simp)
      have hrest := ih hnext (by omega)
      have hdrop : (leaves t).drop before.length =
          (index, leafType) :: (leaves t).drop (before.length + 1) := by
        rw [hleaves]
        simp
      simp only [positions, hadvance, ok_bind, hrest, hdrop, zipIdx_cons, map_cons]
      rfl

/-! ### Views of views -/

@[simp] theorem getSubtypeAndOffsetHelper_nil (t : IrType) (offset : Nat) :
    getSubtypeAndOffsetHelper t [] offset = .ok (t, offset) := by
  rw [getSubtypeAndOffsetHelper]

/-- A leaf type has no members. -/
theorem getSubtypeAndOffsetHelper_leaf (h : isLeafType t = true) (i : Nat) (index : List Nat)
    (offset : Nat) : getSubtypeAndOffsetHelper t (i :: index) offset = .error .check := by
  cases t with
  | array size element => cases h
  | tuple members => cases h
  | _ => rw [getSubtypeAndOffsetHelper]

/-- Following a longer index continues at the subtype. -/
theorem getSubtypeAndOffsetHelper_append (t : IrType) (i j : List Nat) (offset : Nat) :
    getSubtypeAndOffsetHelper t (i ++ j) offset =
      getSubtypeAndOffsetHelper t i offset >>= fun subtype =>
        getSubtypeAndOffsetHelper subtype.1 j subtype.2 := by
  induction t using aggregate_induction generalizing i offset with
  | leaf t h =>
    cases i with
    | nil => simp
    | cons k i => rw [cons_append, getSubtypeAndOffsetHelper_leaf h,
        getSubtypeAndOffsetHelper_leaf h]; rfl
  | aggregate t size member h ih =>
    cases i with
    | nil => simp
    | cons k i =>
      rw [cons_append, h.getSubtypeAndOffsetHelper_eq, h.getSubtypeAndOffsetHelper_eq]
      by_cases hk : k < size
      · rw [if_pos hk, if_pos hk, ih k hk]
      · rw [if_neg hk, if_neg hk]
        rfl

/-- The offset only shifts. -/
theorem getSubtypeAndOffsetHelper_add (t : IrType) (index : List Nat) (offset shift : Nat) :
    getSubtypeAndOffsetHelper t index (shift + offset) =
      getSubtypeAndOffsetHelper t index offset >>= fun subtype =>
        .ok (subtype.1, shift + subtype.2) := by
  induction t using aggregate_induction generalizing index offset with
  | leaf t h =>
    cases index with
    | nil => simp
    | cons k index => rw [getSubtypeAndOffsetHelper_leaf h, getSubtypeAndOffsetHelper_leaf h]; rfl
  | aggregate t size member h ih =>
    cases index with
    | nil => simp
    | cons k index =>
      rw [h.getSubtypeAndOffsetHelper_eq, h.getSubtypeAndOffsetHelper_eq]
      by_cases hk : k < size
      · rw [if_pos hk, if_pos hk, Nat.add_assoc, ih k hk]
      · rw [if_neg hk, if_neg hk]
        rfl

theorem leavesBefore_mono (member : Nat → IrType) {i j : Nat} (h : i ≤ j) :
    leavesBefore member i ≤ leavesBefore member j := by
  induction h with
  | refl => exact le_refl _
  | step _ ih => exact ih.trans (by rw [leavesBefore_succ]; exact Nat.le_add_right _ _)

/-- The leaves of a member lie within those of the type. -/
theorem offset_le (t : IrType) {subtype : IrType} {offset offset' : Nat}
    (h : getSubtypeAndOffsetHelper t index offset = .ok (subtype, offset')) :
    offset' + subtype.leafCount ≤ offset + t.leafCount := by
  induction t using aggregate_induction generalizing index offset with
  | leaf t hleaf =>
    cases index with
    | nil =>
      rw [getSubtypeAndOffsetHelper_nil] at h
      cases h
      exact le_refl _
    | cons k index =>
      rw [getSubtypeAndOffsetHelper_leaf hleaf] at h
      cases h
  | aggregate t size member hagg ih =>
    cases index with
    | nil =>
      rw [getSubtypeAndOffsetHelper_nil] at h
      cases h
      exact le_refl _
    | cons k index =>
      rw [hagg.getSubtypeAndOffsetHelper_eq] at h
      split at h
      · rename_i hk
        have hinner := ih k hk h
        have hmember := leavesBefore_mono member (succ_le_of_lt hk)
        rw [leavesBefore_succ] at hmember
        rw [hagg.leafCount_eq]
        omega
      · cases h

/-- The view of a member has the values that the tree has there. -/
theorem get_asView {t : IrType} {elements : List T} {leafTypes : List IrType}
    (helements : elements.length = t.leafCount) (hleafTypes : leafTypes.length = t.leafCount)
    (i j : List Nat) :
    (View.mk t elements leafTypes).asView i >>= (fun view => view.get j) =
      (View.mk t elements leafTypes).get (i ++ j) := by
  rw [View.asView, createFromSpans, View.get, getLeafTypeOffset, getSubtypeAndOffset,
    getSubtypeAndOffset, getSubtypeAndOffsetHelper_append, helements, hleafTypes,
    decide_eq_true rfl]
  simp only [checkThat_true, ok_bind]
  cases hi : getSubtypeAndOffsetHelper t i 0 with
  | error e => rfl
  | ok subtype =>
    obtain ⟨subtype, offset⟩ := subtype
    have hle := offset_le t hi
    simp only [ok_bind]
    rw [subspan_eq_ok (by omega), subspan_eq_ok (by omega)]
    simp only [ok_bind, pure_eq_ok, View.get, getLeafTypeOffset, getSubtypeAndOffset]
    have hshift := getSubtypeAndOffsetHelper_add subtype j 0 offset
    rw [Nat.add_zero] at hshift
    rw [hshift]
    cases hj : getSubtypeAndOffsetHelper subtype j 0 with
    | error e => rfl
    | ok leaf =>
      obtain ⟨leafType, place⟩ := leaf
      have hplace := offset_le subtype hj
      simp only [ok_bind]
      cases hleaf : isLeafType leafType with
      | false => rfl
      | true =>
        rw [leafCount_of_isLeafType hleaf] at hplace
        simp only [checkThat_true, ok_bind]
        rw [getElem?_take_of_lt (by omega), getElem?_drop]

/-! ### Indices are consistent -/

/-- The iterator visits the leaves of the type in lexicographic order, every one once, with
the offset and the type that its index leads to, and the prefix only goes before the indices;
`Advance` returns true exactly at the end; and the values of a view of a member are those of
the tree. -/
def ConsistentIndexing (t : IrType) : Prop :=
  ∃ visited : List (List Nat × IrType),
    visited.Pairwise (fun a b => List.Lex (· < ·) a.1 b.1) ∧
    (∀ index leafType, (index, leafType) ∈ visited ↔
      isLeafType leafType = true ∧ ∃ offset, getSubtypeAndOffset t index = .ok (leafType, offset)) ∧
    (∀ k index leafType, visited[k]? = some (index, leafType) →
      getLeafTypeOffset t index = .ok k) ∧
    visited.map Prod.snd = getLeafTypes t ∧
    (∀ indexPrefix, ∃ start, Iterator.new t indexPrefix = .ok start ∧
      positions (t.leafCount + 1) start = .ok (visited.zipIdx.map fun leaf =>
        ⟨indexPrefix ++ leaf.1.1, leaf.2, leaf.1.2⟩) ∧
      ∀ it, Relation.ReflTransGen (fun a b => ∃ r, Iterator.advance a = .ok (r, b)) start it →
        it.leafType ≠ none → ∃ next, it.advance = .ok (next.atEnd, next)) ∧
    ∀ (T : Type) (elements : List T) (leafTypes : List IrType),
      elements.length = t.leafCount → leafTypes.length = t.leafCount → ∀ i j,
        ((View.mk t elements leafTypes).asView i >>= fun view => view.get j) =
          (View.mk t elements leafTypes).get (i ++ j)

/-- Indices are consistent exactly for the types that are not leaves themselves. -/
theorem consistentIndexing_iff (t : IrType) : ConsistentIndexing t ↔ isLeafType t = false := by
  constructor
  · intro h
    obtain ⟨_, -, -, -, -, hiterator, -⟩ := h
    obtain ⟨start, hnew, -, hadvance⟩ := hiterator []
    by_contra hleaf
    rw [Bool.not_eq_false] at hleaf
    have hstart : start = ⟨t, [], 0, 0, some t⟩ := by
      rw [Iterator.new, firstLeafIndex_eq, leaves_of_isLeafType hleaf] at hnew
      cases hnew
      rfl
    subst hstart
    obtain ⟨next, hnext⟩ := hadvance _ .refl (by simp)
    have hend : Iterator.advance ⟨t, [], 0, 0, some t⟩ = .ok (false, ⟨t, [], 0, 0, none⟩) := rfl
    obtain ⟨hfalse, rfl⟩ := Prod.mk.inj (ok.inj (hend.symm.trans hnext))
    cases hfalse
  · intro h
    refine ⟨leaves t, leaves_sorted t, fun index leafType => ?_, fun k index leafType hk => ?_,
      map_leaves t, fun indexPrefix => ?_, fun T elements leafTypes => get_asView⟩
    · constructor
      · intro hmem
        obtain ⟨before, after, hleaves⟩ := append_of_mem hmem
        obtain ⟨hoffset, hleaf⟩ := getSubtypeAndOffset_of_leaf t hleaves 0
        exact ⟨hleaf, _, hoffset⟩
      · intro hmem
        obtain ⟨hleaf, offset, hoffset⟩ := hmem
        exact mem_leaves_of_offset t hoffset hleaf
    · obtain ⟨hk, hleaf⟩ := List.getElem?_eq_some_iff.mp hk
      have hleaves : leaves t =
          (leaves t).take k ++ (index, leafType) :: (leaves t).drop (k + 1) := by
        rw [← hleaf, getElem_cons_drop, take_append_drop]
      obtain ⟨hoffset, hleaf⟩ := getSubtypeAndOffset_of_leaf t hleaves 0
      rw [Nat.zero_add, length_take, Nat.min_eq_left hk.le] at hoffset
      rw [getLeafTypeOffset, getSubtypeAndOffset, hoffset]
      simp [hleaf]
    · obtain ⟨start, hnew, hat⟩ := new_spec t indexPrefix
      refine ⟨start, hnew, ?_, fun it hreach hit => ?_⟩
      · have hfuel : (leaves t).length < 0 + (t.leafCount + 1) := by
          rw [length_leaves]
          omega
        have hpositions := positions_spec hat hfuel
        rwa [drop_zero] at hpositions
      · obtain ⟨k, hk⟩ := exists_at_of_reaches hat hreach
        obtain ⟨next, hadvance, -⟩ := advance_spec hk hit
        exact ⟨next, by rw [hadvance, h]; rfl⟩

/-- At a type that is a leaf, the iterator reaches the end and `Advance` returns false. -/
theorem not_consistentIndexing_bits :
    (∃ next, Iterator.advance ⟨.bits 8, [], 0, 0, some (.bits 8)⟩ = .ok (false, next) ∧
      next.atEnd = true) ∧ ¬ConsistentIndexing (.bits 8) := by
  refine ⟨⟨_, rfl, rfl⟩, fun h => ?_⟩
  obtain ⟨_, -, -, -, -, hiterator, -⟩ := h
  obtain ⟨start, hnew, -, hadvance⟩ := hiterator []
  have hstart : start = ⟨.bits 8, [], 0, 0, some (.bits 8)⟩ := by
    simp [Iterator.new, firstLeafIndex] at hnew
    exact hnew.symm
  subst hstart
  obtain ⟨next, hnext⟩ := hadvance _ .refl (by simp)
  obtain ⟨hfalse, rfl⟩ := Prod.mk.inj (ok.inj (hnext : ok (false,
    (⟨.bits 8, [], 0, 0, none⟩ : Iterator)) = .ok (next.atEnd, next)))
  cases hfalse

end Xls.LeafTypeTree

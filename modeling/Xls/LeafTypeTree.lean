import Mathlib.Data.List.Lex
import Xls.TypeLayout

/-!
# Xls.LeafTypeTree

Trees of values with one value for each leaf of a type (`data_structures/leaf_type_tree.h`).
The values are kept in one flat sequence; an index leads to a member of the type and to the
place of its values in the sequence. `ForEachSubArray` goes over the outer dimensions of an
array and moves an index and a place in the sequence side by side; `coversExactly_iff` says
for which arrays each sub-array gets one call.

Places and counts are natural numbers: the `int64_t` of the source, for types whose own leaf
count and those of whose parts are below `2 ^ 63`.
-/

namespace Xls.LeafTypeTree

open List Result Nat

/-- `IsLeafType`. -/
def isLeafType : IrType → Bool
  | .bits _ => true
  | .token => true
  | _ => false

mutual

/-- `GetSubtypeAndOffsetHelper`. -/
def getSubtypeAndOffsetHelper : IrType → List Nat → Nat → Result (IrType × Nat)
  | t, [], offset => .ok (t, offset)
  | .array size element, i :: index, offset => do
    checkThat (decide (i < size))
    getSubtypeAndOffsetHelper element index (offset + i * element.leafCount)
  | .tuple members, i :: index, offset => getMemberAndOffset members i index offset
  | .bits _, _ :: _, _ => .error .check
  | .token, _ :: _, _ => .error .check

/-- The branch for tuples: the leaves of the members before the indexed one are counted. -/
def getMemberAndOffset : List IrType → Nat → List Nat → Nat → Result (IrType × Nat)
  | [], _, _, _ => .error .check
  | member :: _, 0, index, offset => getSubtypeAndOffsetHelper member index offset
  | member :: members, i + 1, index, offset =>
    getMemberAndOffset members i index (offset + member.leafCount)

end

/-- `GetSubtypeAndOffset`. -/
def getSubtypeAndOffset (t : IrType) (index : List Nat) : Result (IrType × Nat) :=
  getSubtypeAndOffsetHelper t index 0

/-- `GetLeafTypeOffset`. -/
def getLeafTypeOffset (t : IrType) (index : List Nat) : Result Nat := do
  let (subtype, offset) ← getSubtypeAndOffset t index
  checkThat (isLeafType subtype)
  return offset

/-! ### Views -/

/-- `absl::Span::subspan`: the length is cut at the end of the span, and a place after the end
is an error. -/
def subspan {α : Type} (elements : List α) (pos len : Nat) : Result (List α) := do
  checkThat (decide (pos ≤ elements.length))
  return (elements.drop pos).take len

/-- `LeafTypeTreeView`. -/
structure View (T : Type) where
  type : IrType
  elements : List T
  leafTypes : List IrType

variable {T : Type}

/-- `CreateFromSpans`. -/
def createFromSpans (t : IrType) (elements : List T) (leafTypes : List IrType)
    (index : List Nat) : Result (View T) := do
  checkThat (decide (elements.length = leafTypes.length))
  let (subtype, linearOffset) ← getSubtypeAndOffset t index
  let elements ← subspan elements linearOffset subtype.leafCount
  let leafTypes ← subspan leafTypes linearOffset subtype.leafCount
  return ⟨subtype, elements, leafTypes⟩

/-- `Get`. -/
def View.get (view : View T) (index : List Nat) : Result T := do
  let offset ← getLeafTypeOffset view.type index
  derefOption view.elements[offset]?

/-- `AsView`. -/
def View.asView (view : View T) (index : List Nat) : Result (View T) :=
  createFromSpans view.type view.elements view.leafTypes index

/-! ### Sub-arrays -/

/-- The loop of `IncrementArrayIndex`, from the last dimension on: whether the whole index
overflowed, and the new index. -/
def incrementLoop : List Nat → List Nat → Bool × List Nat
  | bound :: bounds, i :: index =>
    match incrementLoop bounds index with
    | (false, index) => (false, i :: index)
    | (true, index) => if i + 1 < bound then (false, (i + 1) :: index) else (true, 0 :: index)
  | _, index => (true, index)

/-- `IncrementArrayIndex`. -/
def incrementArrayIndex (bounds arrayIndex : List Nat) : Result (Bool × List Nat) := do
  checkThat (decide (bounds.length = arrayIndex.length))
  return incrementLoop bounds arrayIndex

/-- `SubArraySize`. -/
structure SubArraySize where
  type : IrType
  bounds : List Nat
  elementCount : Nat

/-- The loop of `GetSubArraySize`. -/
def subArrayLoop : Nat → IrType → List Nat → Option (IrType × List Nat)
  | 0, subtype, bounds => some (subtype, bounds)
  | indexDepth + 1, .array size element, bounds =>
    subArrayLoop indexDepth element (bounds ++ [size])
  | _ + 1, _, _ => none

/-- `GetSubArraySize`. -/
def getSubArraySize (t : IrType) (indexDepth : Nat) : Result SubArraySize :=
  match subArrayLoop indexDepth t [] with
  | some (subtype, bounds) => .ok ⟨subtype, bounds, subtype.leafCount⟩
  | none => .error (.status
    s!"Type has fewer than {indexDepth} array dimensions: {t.toString}")

/-- What `f` does with a view and its index to the state of the caller. -/
abbrev Callback (T σ : Type) := View T → List Nat → σ → Result σ

/-- The loop of `ForEachSubArrayHelper`. -/
def forEachLoop {σ : Type} (size : SubArraySize) (elements : List T) (leafTypes : List IrType)
    (f : Callback T σ) : Nat → Nat → List Nat → σ → Result σ
  | 0, _, _, _ => .error .check
  | fuel + 1, linearIndex, arrayIndex, s => do
    let view := ⟨size.type, ← subspan elements linearIndex size.elementCount,
      ← subspan leafTypes linearIndex size.elementCount⟩
    let s ← f view arrayIndex s
    let (overflow, arrayIndex) ← incrementArrayIndex size.bounds arrayIndex
    if overflow then return s
    else forEachLoop size elements leafTypes f fuel (linearIndex + size.elementCount) arrayIndex s

/-- `ForEachSubArrayHelper`. An index takes at most as many values as the bounds allow, and at
least one. -/
def forEachSubArray {σ : Type} (t : IrType) (elements : List T) (leafTypes : List IrType)
    (indexDepth : Nat) (f : Callback T σ) (s : σ) : Result σ := do
  let size ← getSubArraySize t indexDepth
  forEachLoop size elements leafTypes f (size.bounds.map (max 1)).prod 0
    (replicate indexDepth 0) s

/-! ### The indices of an array -/

/-- The indices within the bounds, in lexicographic order. -/
def indices : List Nat → List (List Nat)
  | [] => [[]]
  | bound :: bounds => (range bound).flatMap fun i => (indices bounds).map (i :: ·)

variable {bounds index : List Nat} {subtype : IrType}

/-- The indices of an array are the lists below its bounds. -/
theorem mem_indices : index ∈ indices bounds ↔ Forall₂ (· < ·) index bounds := by
  induction bounds generalizing index with
  | nil => simp [indices]
  | cons bound bounds ih =>
    simp only [indices, mem_flatMap, mem_range, mem_map]
    constructor
    · intro h
      obtain ⟨i, hi, rest, hrest, rfl⟩ := h
      exact .cons hi (ih.mp hrest)
    · intro h
      cases h with
      | cons hi hrest => exact ⟨_, hi, _, ih.mpr hrest, rfl⟩

/-- Lists with smaller heads before lists with larger ones. -/
theorem pairwise_lex_flatMap {β : Type} (first : Nat → β → List Nat) {l : Nat → List β} (n : Nat)
    (hinner : ∀ i < n, (l i).Pairwise fun a b => List.Lex (· < ·) (first i a) (first i b)) :
    ((range n).flatMap fun i => (l i).map fun b => i :: first i b).Pairwise (List.Lex (· < ·)) := by
  rw [pairwise_flatMap]
  refine ⟨fun i hi => ?_, ?_⟩
  · rw [pairwise_map]
    exact (hinner i (mem_range.mp hi)).imp .cons
  · refine pairwise_lt_range.imp fun hij => ?_
    intro a ha b hb
    obtain ⟨-, -, rfl⟩ := mem_map.mp ha
    obtain ⟨-, -, rfl⟩ := mem_map.mp hb
    exact .rel hij

theorem indices_sorted (bounds : List Nat) : (indices bounds).Pairwise (List.Lex (· < ·)) := by
  induction bounds with
  | nil => simp [indices]
  | cons bound bounds ih =>
    exact pairwise_lex_flatMap (fun _ index => index) bound fun _ _ => ih

/-- The place of an index among the indices. -/
def rank : List Nat → List Nat → Nat
  | _ :: bounds, i :: index => i * bounds.prod + rank bounds index
  | _, _ => 0

theorem range_mul (n m : Nat) :
    range (n * m) = (range n).flatMap fun i => (range m).map (i * m + ·) := by
  induction n with
  | zero => simp
  | succ n ih =>
    rw [succ_mul, range_add, ih, range_succ, flatMap_append, flatMap_singleton]

theorem map_rank_indices (bounds : List Nat) :
    (indices bounds).map (rank bounds) = range bounds.prod := by
  induction bounds with
  | nil => rfl
  | cons bound bounds ih =>
    rw [prod_cons, range_mul, indices, map_flatMap]
    refine flatMap_congr fun i _ => ?_
    rw [← ih, map_map, map_map]
    rfl

theorem length_indices (bounds : List Nat) : (indices bounds).length = bounds.prod := by
  rw [← length_map (rank bounds), map_rank_indices, length_range]

/-- The rank is the place among the indices. -/
theorem getElem?_rank (h : Forall₂ (· < ·) index bounds) :
    (indices bounds)[rank bounds index]? = some index := by
  obtain ⟨k, hk, hindex⟩ := mem_iff_getElem.mp (mem_indices.mpr h)
  have hrank : rank bounds index = k := by
    have := congrArg (fun l : List Nat => l[k]?) (map_rank_indices bounds)
    rw [length_indices] at hk
    simpa [hindex, getElem?_eq_getElem (l := indices bounds) (by rwa [length_indices]),
      getElem?_range hk] using this
  rw [hrank, getElem?_eq_getElem hk, hindex]

theorem rank_zero (bounds : List Nat) (n : Nat) : rank bounds (replicate n 0) = 0 := by
  induction bounds generalizing n with
  | nil => cases n <;> rfl
  | cons bound bounds ih =>
    cases n with
    | zero => rfl
    | succ n => rw [replicate_succ, rank, ih, Nat.zero_mul]

theorem forall₂_zero (h : ∀ bound ∈ bounds, bound ≠ 0) :
    Forall₂ (· < ·) (replicate bounds.length 0) bounds := by
  induction bounds with
  | nil => exact .nil
  | cons bound bounds ih =>
    rw [forall_mem_cons] at h
    exact .cons (Nat.pos_of_ne_zero h.1) (ih h.2)

theorem ne_zero_of_forall₂ (h : Forall₂ (· < ·) index bounds) : ∀ bound ∈ bounds, bound ≠ 0 := by
  induction h with
  | nil => simp
  | cons hi _ ih =>
    rw [forall_mem_cons]
    exact ⟨Nat.ne_zero_of_lt hi, ih⟩

/-- Incrementing an index leads to the next one, or from the last one back to the first. -/
theorem incrementLoop_spec (h : Forall₂ (· < ·) index bounds) :
    match incrementLoop bounds index with
    | (false, next) => Forall₂ (· < ·) next bounds ∧ rank bounds next = rank bounds index + 1
    | (true, next) => next = replicate bounds.length 0 ∧
        rank bounds index + 1 = bounds.prod := by
  induction h with
  | nil => exact ⟨rfl, rfl⟩
  | @cons i bound index bounds hi h ih =>
    rw [incrementLoop]
    rcases hinner : incrementLoop bounds index with ⟨overflow, next⟩
    rw [hinner] at ih
    cases overflow with
    | false =>
      obtain ⟨hvalid, hrank⟩ := ih
      exact ⟨.cons hi hvalid, by simp only [rank, hrank]; omega⟩
    | true =>
      obtain ⟨rfl, hrank⟩ := ih
      by_cases hlast : i + 1 < bound
      · simp only [if_pos hlast]
        refine ⟨.cons hlast (forall₂_zero (ne_zero_of_forall₂ h)), ?_⟩
        rw [rank, rank, rank_zero, succ_mul]
        omega
      · simp only [if_neg hlast]
        refine ⟨rfl, ?_⟩
        have hbound : bound = i + 1 := by omega
        rw [rank, prod_cons, hbound, succ_mul]
        omega

/-! ### The views of the sub-arrays -/

/-- The array type with these outer dimensions. -/
def arrayOf : List Nat → IrType → IrType
  | [], subtype => subtype
  | bound :: bounds, subtype => .array bound (arrayOf bounds subtype)

theorem leafCount_arrayOf (bounds : List Nat) (subtype : IrType) :
    (arrayOf bounds subtype).leafCount = bounds.prod * subtype.leafCount := by
  induction bounds with
  | nil => simp [arrayOf]
  | cons bound bounds ih => rw [arrayOf, IrType.leafCount, ih, prod_cons, Nat.mul_assoc]

theorem subArrayLoop_arrayOf (bounds : List Nat) (subtype : IrType) (outer : List Nat) :
    subArrayLoop bounds.length (arrayOf bounds subtype) outer =
      some (subtype, outer ++ bounds) := by
  induction bounds generalizing outer with
  | nil => simp [subArrayLoop, arrayOf]
  | cons bound bounds ih =>
    rw [length_cons, arrayOf, subArrayLoop, ih, append_assoc]
    rfl

/-- The types that `GetSubArraySize` accepts are those with as many outer dimensions. -/
theorem exists_arrayOf {t : IrType} {indexDepth : Nat} {size : SubArraySize}
    (h : getSubArraySize t indexDepth = .ok size) :
    t = arrayOf size.bounds size.type ∧ size.bounds.length = indexDepth := by
  have hloop : ∀ (indexDepth : Nat) (t subtype : IrType) (outer bounds : List Nat),
      subArrayLoop indexDepth t outer = some (subtype, bounds) →
      ∃ inner, bounds = outer ++ inner ∧ inner.length = indexDepth ∧ t = arrayOf inner subtype := by
    intro indexDepth
    induction indexDepth with
    | zero =>
      intro t subtype outer bounds h
      cases h
      exact ⟨[], (append_nil _).symm, rfl, rfl⟩
    | succ indexDepth ih =>
      intro t subtype outer bounds h
      cases t with
      | array n element =>
        obtain ⟨inner, rfl, hlength, rfl⟩ := ih element subtype (outer ++ [n]) bounds h
        exact ⟨n :: inner, by simp, by simp [hlength], rfl⟩
      | _ => cases h
  unfold getSubArraySize at h
  split at h
  · rename_i found bounds hfound
    cases h
    obtain ⟨inner, rfl, hlength, rfl⟩ := hloop _ _ _ _ _ hfound
    exact ⟨rfl, hlength⟩
  · cases h

theorem getSubtypeAndOffsetHelper_arrayOf (subtype : IrType) (h : Forall₂ (· < ·) index bounds)
    (offset : Nat) :
    getSubtypeAndOffsetHelper (arrayOf bounds subtype) index offset =
      .ok (subtype, offset + rank bounds index * subtype.leafCount) := by
  induction h generalizing offset with
  | nil => simp [arrayOf, getSubtypeAndOffsetHelper, rank]
  | @cons i bound index bounds hi h ih =>
    rw [arrayOf, getSubtypeAndOffsetHelper, decide_eq_true hi, checkThat_true, ok_bind, ih,
      leafCount_arrayOf, rank, Nat.add_mul, Nat.mul_assoc, Nat.add_assoc]

theorem rank_lt (h : Forall₂ (· < ·) index bounds) : rank bounds index < bounds.prod := by
  rw [← length_indices]
  exact (List.getElem?_eq_some_iff.mp (getElem?_rank h)).1

/-- The view of a sub-array. -/
def subArrayView (subtype : IrType) (bounds : List Nat) (elements : List T)
    (leafTypes : List IrType) (index : List Nat) : View T :=
  ⟨subtype, (elements.drop (rank bounds index * subtype.leafCount)).take subtype.leafCount,
    (leafTypes.drop (rank bounds index * subtype.leafCount)).take subtype.leafCount⟩

theorem subspan_eq_ok {α : Type} {elements : List α} {pos len : Nat} (h : pos ≤ elements.length) :
    subspan elements pos len = .ok ((elements.drop pos).take len) := by
  rw [subspan, decide_eq_true h]
  rfl

/-- The values of a sub-array lie within those of the array. -/
theorem rank_mul_le (h : Forall₂ (· < ·) index bounds) (n : Nat) :
    rank bounds index * n + n ≤ bounds.prod * n := by
  have := Nat.mul_le_mul_right n (rank_lt h)
  rwa [succ_mul] at this

variable {elements : List T} {leafTypes : List IrType}

theorem createFromSpans_arrayOf (h : Forall₂ (· < ·) index bounds)
    (helements : elements.length = (arrayOf bounds subtype).leafCount)
    (hleafTypes : leafTypes.length = (arrayOf bounds subtype).leafCount) :
    createFromSpans (arrayOf bounds subtype) elements leafTypes index =
      .ok (subArrayView subtype bounds elements leafTypes index) := by
  have hle := rank_mul_le h subtype.leafCount
  rw [leafCount_arrayOf] at helements hleafTypes
  rw [createFromSpans, getSubtypeAndOffset, getSubtypeAndOffsetHelper_arrayOf subtype h,
    helements, hleafTypes, decide_eq_true rfl]
  simp only [checkThat_true, ok_bind, Nat.zero_add]
  rw [subspan_eq_ok (by omega), subspan_eq_ok (by omega)]
  rfl

/-! ### The loop -/

/-- From an index on, the loop calls the function for this index and those after it. -/
theorem forEachLoop_spec {σ : Type} (f : Callback T σ)
    (helements : elements.length = (arrayOf bounds subtype).leafCount)
    (hleafTypes : leafTypes.length = (arrayOf bounds subtype).leafCount) {fuel : Nat}
    (h : Forall₂ (· < ·) index bounds) (hfuel : bounds.prod = rank bounds index + fuel) (s : σ) :
    forEachLoop ⟨subtype, bounds, subtype.leafCount⟩ elements leafTypes f fuel
        (rank bounds index * subtype.leafCount) index s =
      ((indices bounds).drop (rank bounds index)).foldlM
        (fun s index => f (subArrayView subtype bounds elements leafTypes index) index s) s := by
  induction fuel generalizing index s with
  | zero =>
    have := rank_lt h
    omega
  | succ fuel ih =>
    have hle := rank_mul_le h subtype.leafCount
    have hdrop : (indices bounds).drop (rank bounds index) =
        index :: (indices bounds).drop (rank bounds index + 1) := by
      obtain ⟨hlt, hindex⟩ := List.getElem?_eq_some_iff.mp (getElem?_rank h)
      rw [drop_eq_getElem_cons hlt, hindex]
    have hspan := leafCount_arrayOf bounds subtype
    rw [forEachLoop, subspan_eq_ok (by omega), subspan_eq_ok (by omega), hdrop, foldlM_cons]
    simp only [ok_bind]
    refine congrArg (f _ index s >>= ·) (funext fun s' => ?_)
    have hnext := incrementLoop_spec h
    rw [incrementArrayIndex, decide_eq_true h.length_eq.symm]
    rcases hloop : incrementLoop bounds index with ⟨overflow, next⟩
    rw [hloop] at hnext
    cases overflow with
    | false =>
      obtain ⟨hvalid, hrank⟩ := hnext
      have := ih hvalid (by omega) s'
      rw [hrank, succ_mul] at this
      exact this
    | true =>
      have hend : (indices bounds).drop (rank bounds index + 1) = [] :=
        drop_eq_nil_of_le (by rw [length_indices, hnext.2])
      rw [hend]
      rfl

/-- The function is called once for every index of the outer dimensions, in lexicographic
order, with the view of its sub-array. -/
def CoversExactly (bounds : List Nat) (subtype : IrType) : Prop :=
  ∃ calls : List (List Nat), calls.Pairwise (List.Lex (· < ·)) ∧
    (∀ index, index ∈ calls ↔ Forall₂ (· < ·) index bounds) ∧
    ∀ (T : Type) (elements : List T) (leafTypes : List IrType),
      elements.length = (arrayOf bounds subtype).leafCount →
      leafTypes.length = (arrayOf bounds subtype).leafCount →
      ∃ viewAt : List Nat → View T,
        (∀ index ∈ calls,
          createFromSpans (arrayOf bounds subtype) elements leafTypes index = .ok (viewAt index) ∧
          (viewAt index).type = subtype ∧ (viewAt index).elements.length = subtype.leafCount) ∧
        ∀ (σ : Type) (f : Callback T σ) (s : σ),
          forEachSubArray (arrayOf bounds subtype) elements leafTypes bounds.length f s =
            calls.foldlM (fun s index => f (viewAt index) index s) s

/-- `ForEachSubArray` covers the array exactly if no dimension has size zero. -/
theorem coversExactly_iff (bounds : List Nat) (subtype : IrType) :
    CoversExactly bounds subtype ↔ ∀ bound ∈ bounds, bound ≠ 0 := by
  have hsize : getSubArraySize (arrayOf bounds subtype) bounds.length =
      .ok ⟨subtype, bounds, subtype.leafCount⟩ := by
    rw [getSubArraySize, subArrayLoop_arrayOf, nil_append]
  constructor
  · intro h bound hbound hzero
    obtain ⟨calls, -, hcalls, h⟩ := h
    obtain ⟨viewAt, -, hrun⟩ := h Unit _ (replicate _ .token)
      (length_replicate (a := ())) length_replicate
    -- No index is within the bounds, but the function is called before they are looked at.
    have hnone : calls = [] := by
      refine eq_nil_iff_forall_not_mem.mpr fun index hindex => ?_
      exact ne_zero_of_forall₂ ((hcalls index).mp hindex) bound hbound hzero
    have hpos : 0 < (bounds.map (max 1)).prod := by
      refine prod_pos fun n hn => ?_
      obtain ⟨m, -, rfl⟩ := mem_map.mp hn
      omega
    obtain ⟨fuel, hfuel⟩ := Nat.exists_eq_add_of_lt hpos
    have hcall := hrun Unit (fun _ _ _ => .error .check) ()
    rw [hnone, forEachSubArray, hsize, ok_bind, hfuel, Nat.zero_add, forEachLoop,
      subspan_eq_ok (Nat.zero_le _), subspan_eq_ok (Nat.zero_le _)] at hcall
    cases hcall
  · intro h
    refine ⟨indices bounds, indices_sorted bounds, fun index => mem_indices, ?_⟩
    intro T elements leafTypes helements hleafTypes
    refine ⟨subArrayView subtype bounds elements leafTypes, fun index hindex => ?_, fun σ f s => ?_⟩
    · rw [mem_indices] at hindex
      refine ⟨createFromSpans_arrayOf hindex helements hleafTypes, rfl, ?_⟩
      have := rank_mul_le hindex subtype.leafCount
      rw [leafCount_arrayOf] at helements
      simp only [subArrayView, length_take, length_drop]
      omega
    · have hfuel : (bounds.map (max 1)).prod = bounds.prod := by
        refine congrArg prod ((map_congr_left fun n hn => ?_).trans (map_id bounds))
        exact Nat.max_eq_right (Nat.pos_of_ne_zero (h n hn))
      rw [forEachSubArray, hsize, ok_bind, hfuel]
      have := forEachLoop_spec f helements hleafTypes (forall₂_zero h)
        (by rw [rank_zero, Nat.zero_add]) s
      rwa [rank_zero, Nat.zero_mul, drop_zero] at this

/-- Where the elements have no leaves, an inner dimension of size zero is walked through once
for every outer index. -/
example : forEachSubArray (.array 2 (.array 0 (.tuple []))) ([] : List Unit) [] 2
    (fun _ index called => .ok (called ++ [index])) [] = .ok [[0, 0], [1, 0]] := rfl

/-- An array of size zero: the function is called for the index zero. -/
theorem not_coversExactly_empty :
    forEachSubArray (.array 0 (.bits 8)) ([] : List Unit) [] 1
        (fun _ index called => .ok (called ++ [index])) [] = .ok [[0]] ∧
      ¬CoversExactly [0] (.bits 8) := by
  refine ⟨rfl, fun h => ?_⟩
  obtain ⟨calls, -, hcalls, h⟩ := h
  obtain ⟨viewAt, -, hrun⟩ := h Unit [] [] rfl rfl
  have hcall := hrun (List (List Nat)) (fun _ index called => .ok (called ++ [index])) []
  have hnone : calls = [] := by
    refine eq_nil_iff_forall_not_mem.mpr fun index hindex => ?_
    exact ne_zero_of_forall₂ ((hcalls index).mp hindex) 0 mem_cons_self rfl
  rw [hnone] at hcall
  cases hcall

end Xls.LeafTypeTree

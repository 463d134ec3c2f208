import Xls.Flattening
import Xls.Flattening.Positions

/-!
# Xls.Flattening.RoundTrip

Flattening and unflattening are inverses. `Codes` says that a value of a type and a vector
of bits stand for each other in both directions; elements that do make a tuple, or in the
opposite order an array, that does, so both directions follow by induction on the type.
-/

namespace Xls.Flattening

open Result Bits List Except

/-! ### Widths -/

theorem shapeList_eq (ts : List IrType) : IrType.shapeList ts = ts.map IrType.shape := by
  induction ts with
  | nil => rfl
  | cons t ts ih => rw [IrType.shapeList, ih, map_cons]

theorem sum_leaves_node (ss : List (LeafTree Nat)) :
    (LeafTree.node ss).leaves.sum = (ss.map fun s => s.leaves.sum).sum := by
  rw [LeafTree.leaves, LeafTree.leavesList_eq_flatMap]
  induction ss with
  | nil => rfl
  | cons s ss ih => rw [flatMap_cons, sum_append, ih, map_cons, sum_cons]

@[simp] theorem flatBitCount_tuple (ts : List IrType) :
    (IrType.tuple ts).flatBitCount = (ts.map IrType.flatBitCount).sum := by
  unfold IrType.flatBitCount
  rw [IrType.shape, sum_leaves_node, shapeList_eq, map_map]
  rfl

@[simp] theorem flatBitCount_array (n : Nat) (t : IrType) :
    (IrType.array n t).flatBitCount = n * t.flatBitCount := by
  unfold IrType.flatBitCount
  rw [IrType.shape, sum_leaves_node, map_replicate, sum_replicate, smul_eq_mul]

/-! ### Types -/

mutual

theorem sameTypeAs_of_hasType : ∀ {t : IrType} {v u : KindedValue}, HasType t v → HasType t u →
    KindedValue.sameTypeAs v u = .ok true
  | .bits w, .bits b, .bits c, hb, hc => by
    show ok (b.width == c.width) = _
    rw [show b.width = w from hb, show c.width = w from hc, beq_self_eq_true]
  | .token, .token, .token, _, _ => rfl
  | .tuple ts, .tuple vs, .tuple us, hv, hu => by
    obtain ⟨hlength, hsame⟩ := sameTypes_of_haveTypes hv hu
    rw [KindedValue.sameTypeAs, hlength, beq_self_eq_true, if_pos rfl]
    exact hsame
  | .array n t, .array v vs, .array u us, hv, hu => by
    rw [KindedValue.sameTypeAs, show vs.length = us.length by have := hv.1; have := hu.1; omega,
      beq_self_eq_true, if_pos rfl]
    exact sameTypeAs_of_hasType hv.2.1 hu.2.1

theorem sameTypes_of_haveTypes : ∀ {ts : List IrType} {vs us : List KindedValue}, HaveTypes ts vs →
    HaveTypes ts us → vs.length = us.length ∧ KindedValue.sameTypes vs us = .ok true
  | [], [], [], _, _ => ⟨rfl, rfl⟩
  | t :: ts, v :: vs, u :: us, hv, hu => by
    obtain ⟨hlength, hsame⟩ := sameTypes_of_haveTypes hv.2 hu.2
    refine ⟨congrArg (· + 1) hlength, ?_⟩
    rw [KindedValue.sameTypes, sameTypeAs_of_hasType hv.1 hu.1]
    exact hsame

end

variable {t : IrType} {v : KindedValue} {vs : List KindedValue} {b : Bits} {xs : List Bits}

/-- Values of one type make an array. -/
theorem makeArray_of_hasType (hv : HasType t v) (hvs : ∀ u ∈ vs, HasType t u) :
    makeArray (v :: vs) = .ok (.array v vs) := by
  have hall : allSameType v vs = .ok () := by
    induction vs with
    | nil => rfl
    | cons u us ih =>
      rw [forall_mem_cons] at hvs
      rw [allSameType, sameTypeAs_of_hasType hv hvs.1]
      exact ih hvs.2
  rw [makeArray, hall]
  rfl

/-! ### Values and their bits -/

/-- The value of the type and the vector stand for each other. -/
structure Codes (t : IrType) (v : KindedValue) (b : Bits) : Prop where
  hasType : HasType t v
  width : b.width = t.flatBitCount
  flatten : flattenValueToBits v = .ok b
  unflatten : unflattenBitsToValue t b = .ok v

/-- Values and vectors that stand for each other, one for each type. -/
inductive CodesAll : List IrType → List KindedValue → List Bits → Prop
  | nil : CodesAll [] [] []
  | cons {t : IrType} {v : KindedValue} {x : Bits} {ts : List IrType} {vs : List KindedValue}
      {xs : List Bits} (h : Codes t v x) (hrest : CodesAll ts vs xs) :
      CodesAll (t :: ts) (v :: vs) (x :: xs)

theorem exists_leaves (h : flattenValueToBits v = .ok b) :
    ∃ leaves, gatherValueLeaves v = .ok leaves ∧ Bits.concat leaves = b := by
  obtain ⟨leaves, hleaves, hb⟩ := bind_eq_ok.1 h
  exact ⟨leaves, hleaves, ok.inj hb⟩

section CodesAll

variable {ts : List IrType} {vs : List KindedValue} {xs : List Bits}

theorem CodesAll.widths (h : CodesAll ts vs xs) :
    xs.map Bits.width = ts.map IrType.flatBitCount := by
  induction h with
  | nil => rfl
  | cons h _ ih => rw [map_cons, map_cons, h.width, ih]

theorem CodesAll.haveTypes (h : CodesAll ts vs xs) : HaveTypes ts vs := by
  induction h with
  | nil => trivial
  | cons h _ ih => exact ⟨h.hasType, ih⟩

/-- Gathering the leaves first to last. -/
theorem CodesAll.gatherForward (h : CodesAll ts vs xs) :
    ∃ leaves, gatherForward vs = .ok leaves ∧ Bits.concat leaves = Bits.concat xs := by
  induction h with
  | nil => exact ⟨[], rfl, rfl⟩
  | cons h _ ih =>
    obtain ⟨leaves, hleaves, hx⟩ := exists_leaves h.flatten
    obtain ⟨rest, hrest, hxs⟩ := ih
    refine ⟨leaves ++ rest, ?_, ?_⟩
    · rw [Flattening.gatherForward, hleaves, ok_bind, hrest]
      rfl
    · rw [Bits.concat_append, hx, hxs]
      rfl

/-- Gathering the leaves last to first, as arrays are laid out. -/
theorem CodesAll.gatherBackward (h : CodesAll ts vs xs) :
    ∃ leaves, gatherBackward vs = .ok leaves ∧ Bits.concat leaves = Bits.concat xs.reverse := by
  induction h with
  | nil => exact ⟨[], rfl, rfl⟩
  | cons h _ ih =>
    obtain ⟨leaves, hleaves, hx⟩ := exists_leaves h.flatten
    obtain ⟨rest, hrest, hxs⟩ := ih
    refine ⟨rest ++ leaves, ?_, ?_⟩
    · rw [Flattening.gatherBackward, hrest, ok_bind, hleaves]
      rfl
    · rw [Bits.concat_append, hx, hxs, reverse_cons, Bits.concat_append, concat_singleton]

/-- The element of a tuple at an index starts after the later elements. -/
theorem getFlatBitIndexOfElement_tuple {pre : List IrType} {t : IrType} (ts : List IrType) :
    getFlatBitIndexOfElement (.tuple (pre ++ t :: ts)) pre.length =
      .ok (ts.map IrType.flatBitCount).sum := by
  rw [getFlatBitIndexOfElement, decide_eq_true (by simp), checkThat_true, ok_bind,
    drop_append, drop_eq_nil_of_le (by omega), Nat.add_sub_cancel_left]
  rfl

/-- The elements after a prefix of a tuple are read from their slices. -/
theorem CodesAll.unflattenElements (h : CodesAll ts vs xs) (pre : List IrType) {b : Bits}
    (hxs : b.slicesOf (ts.map IrType.flatBitCount) = xs) :
    unflattenElements (.tuple (pre ++ ts)) b pre.length ts = .ok vs := by
  induction h generalizing pre with
  | nil => rfl
  | @cons t v x ts vs xs h _ ih =>
    obtain ⟨hx, hrest⟩ := List.cons.inj hxs
    have hih := ih (pre ++ [t]) hrest
    rw [List.append_assoc, singleton_append, length_append, length_singleton] at hih
    rw [Flattening.unflattenElements, getFlatBitIndexOfElement_tuple, ok_bind, hx,
      h.unflatten, ok_bind, hih]
    rfl

/-- Elements that stand for their parts make a tuple that stands for the concatenation. -/
theorem CodesAll.tuple (h : CodesAll ts vs xs) :
    Codes (.tuple ts) (.tuple vs) (Bits.concat xs) := by
  have hwidth : (Bits.concat xs).width = (IrType.tuple ts).flatBitCount := by
    rw [concat_width, h.widths, flatBitCount_tuple]
  obtain ⟨leaves, hleaves, hconcat⟩ := h.gatherForward
  refine ⟨h.haveTypes, hwidth, ?_, ?_⟩
  · rw [flattenValueToBits, gatherValueLeaves, hleaves, ok_bind, hconcat]
    rfl
  · have helements := h.unflattenElements [] (b := Bits.concat xs)
      (by rw [← h.widths, slicesOf_concat])
    rw [nil_append, length_nil] at helements
    rw [unflattenBitsToValue, checkFlatBitCount, if_pos hwidth, ok_bind, helements]
    rfl

end CodesAll

/-! ### Arrays -/

/-- An action on a list succeeds if it does on every element. -/
theorem forEach_eq_ok {α β : Type} {f : α → Result β} {as : List α} {bs : List β} :
    forEach f as = .ok bs ↔ Forall₂ (fun a b => f a = .ok b) as bs := by
  induction as generalizing bs with
  | nil =>
    rw [forall₂_nil_left_iff]
    exact ⟨fun h => (Except.ok.inj h).symm, fun h => congrArg _ h.symm⟩
  | cons a as ih =>
    rw [forEach, forall₂_cons_left_iff, Result.bind_eq_ok]
    refine exists_congr fun b => ?_
    rw [Result.bind_eq_ok]
    constructor
    · rintro ⟨hb, rest, hrest, h⟩
      cases h
      exact ⟨rest, hb, ih.mp hrest, rfl⟩
    · rintro ⟨rest, hb, hrest, rfl⟩
      exact ⟨hb, rest, ih.mpr hrest, rfl⟩

variable {n i : Nat} {ts : List IrType}

/-- A repeated type: as many values, each of that type. -/
theorem CodesAll.forall_of_replicate (h : CodesAll (replicate n t) vs xs) :
    vs.length = n ∧ Forall₂ (Codes t) vs xs := by
  induction n generalizing vs xs with
  | zero =>
    cases h
    exact ⟨rfl, .nil⟩
  | succ n ih =>
    cases h with
    | cons h hrest =>
      obtain ⟨hlength, hall⟩ := ih hrest
      exact ⟨congrArg (· + 1) hlength, .cons h hall⟩

/-- Elements that stand for their parts make an array that stands for the concatenation in
the opposite order. -/
theorem CodesAll.array (h : CodesAll (replicate n t) (v :: vs) xs) :
    Codes (.array n t) (.array v vs) (Bits.concat xs.reverse) := by
  obtain ⟨hn, hall⟩ := h.forall_of_replicate
  have htyped : ∀ u ∈ v :: vs, HasType t u := by
    intro u hu
    obtain ⟨i, hi, rfl⟩ := getElem_of_mem hu
    exact (Forall₂.get hall hi (by rwa [← hall.length_eq])).hasType
  rw [forall_mem_cons] at htyped
  have hwidths : xs.map Bits.width = replicate n t.flatBitCount := by
    rw [h.widths, map_replicate]
  have hwidth : (Bits.concat xs.reverse).width = (IrType.array n t).flatBitCount := by
    rw [concat_width, map_reverse, sum_reverse, hwidths, sum_replicate,
      smul_eq_mul, flatBitCount_array]
  obtain ⟨leaves, hleaves, hconcat⟩ := h.gatherBackward
  refine ⟨⟨hn, htyped.1, htyped.2⟩, hwidth, ?_, ?_⟩
  · rw [flattenValueToBits, gatherValueLeaves, ← hconcat]
    obtain ⟨last, hlast, hrest⟩ := bind_eq_ok.1 hleaves
    obtain ⟨first, hfirst, hrest⟩ := bind_eq_ok.1 hrest
    cases hrest
    rw [hlast, ok_bind, hfirst]
    rfl
  · have helements : forEach (fun i => do
        let start ← getFlatBitIndexOfElement (.array n t) i
        unflattenBitsToValue t ((Bits.concat xs.reverse).slice start t.flatBitCount))
          (range n) = .ok (v :: vs) := by
      refine forEach_eq_ok.mpr (forall₂_iff_get.mpr ⟨by rw [length_range]; exact hn.symm, ?_⟩)
      intro i hi hi'
      rw [length_range] at hi
      have hix : i < xs.length := by rw [← hall.length_eq]; exact hi'
      have hx := slice_concat_reverse hwidths (getElem?_eq_getElem hix)
      have hcodes := Forall₂.get hall hi' hix
      change Codes t _ xs[i] at hcodes
      rw [← hx] at hcodes
      simp only [get_eq_getElem, getElem_range] at hcodes ⊢
      rw [getFlatBitIndexOfElement, decide_eq_true hi, checkThat_true, ok_bind, pure_eq_ok, ok_bind]
      exact hcodes.unflatten
    rw [unflattenBitsToValue, checkFlatBitCount, if_pos hwidth, ok_bind, helements, ok_bind]
    exact makeArray_of_hasType htyped.1 htyped.2

/-- Elements that each stand for a part. -/
theorem exists_codesAll_of_forall (h : ∀ v ∈ vs, ∃ x, Codes t v x) :
    ∃ xs, CodesAll (replicate vs.length t) vs xs := by
  induction vs with
  | nil => exact ⟨[], .nil⟩
  | cons v vs ih =>
    rw [forall_mem_cons] at h
    obtain ⟨x, hx⟩ := h.1
    obtain ⟨xs, hxs⟩ := ih h.2
    exact ⟨x :: xs, .cons hx hxs⟩

/-! ### Both directions -/

/-- Bits are their own code. -/
theorem codes_bits {w : Nat} (h : b.width = w) : Codes (.bits w) (.bits b) b where
  hasType := h
  width := by rw [h]; simp [IrType.flatBitCount, IrType.shape, LeafTree.leaves]
  flatten := by
    show ok (Bits.concat [b]) = _
    rw [concat_singleton]
  unflatten := by
    rw [unflattenBitsToValue, checkFlatBitCount, if_pos]
    · rfl
    · rw [h]
      simp [IrType.flatBitCount, IrType.shape, LeafTree.leaves]

mutual

/-- Every value of the type has bits that stand for it. -/
theorem exists_codes_of_value : ∀ {t : IrType} {v : KindedValue}, Flattenable t → HasType t v →
    ∃ b, Codes t v b
  | .bits _, .bits b, _, hv => ⟨b, codes_bits hv⟩
  | .tuple ts, .tuple vs, ht, hv => by
    obtain ⟨xs, hxs⟩ := exists_codesAll_of_values ht hv
    exact ⟨_, hxs.tuple⟩
  | .array n t, .array v vs, ht, hv => by
    have htyped : ∀ u ∈ v :: vs, HasType t u := forall_mem_cons.mpr hv.2
    obtain ⟨xs, hxs⟩ := exists_codesAll_of_forall fun u hu =>
      exists_codes_of_value ht.2 (htyped u hu)
    rw [length_cons, hv.1] at hxs
    exact ⟨_, hxs.array⟩

theorem exists_codesAll_of_values : ∀ {ts : List IrType} {vs : List KindedValue},
    AllFlattenable ts → HaveTypes ts vs → ∃ xs, CodesAll ts vs xs
  | [], [], _, _ => ⟨[], .nil⟩
  | t :: ts, v :: vs, ht, hv => by
    obtain ⟨x, hx⟩ := exists_codes_of_value ht.1 hv.1
    obtain ⟨xs, hxs⟩ := exists_codesAll_of_values ht.2 hv.2
    exact ⟨x :: xs, .cons hx hxs⟩

end

mutual

/-- Every vector of the width of the type has a value that it stands for. -/
theorem exists_codes_of_bits : ∀ {t : IrType} {b : Bits}, Flattenable t →
    b.width = t.flatBitCount → ∃ v, Codes t v b
  | .bits w, b, _, hb => by
    refine ⟨.bits b, codes_bits ?_⟩
    rw [hb]
    simp [IrType.flatBitCount, IrType.shape, LeafTree.leaves]
  | .tuple ts, b, ht, hb => by
    rw [flatBitCount_tuple] at hb
    obtain ⟨vs, hvs⟩ := exists_codesAll_of_bits ht (slicesOf_widths b _)
    have hcodes := hvs.tuple
    rw [concat_slicesOf, ← hb, slice_self] at hcodes
    exact ⟨_, hcodes⟩
  | .array n t, b, ht, hb => by
    have hall : ∀ xs : List Bits, (∀ x ∈ xs, x.width = t.flatBitCount) →
        ∃ vs, CodesAll (replicate xs.length t) vs xs := by
      intro xs hxs
      induction xs with
      | nil => exact ⟨[], .nil⟩
      | cons x xs ih =>
        rw [forall_mem_cons] at hxs
        obtain ⟨v, hv⟩ := exists_codes_of_bits ht.2 hxs.1
        obtain ⟨vs, hvs⟩ := ih hxs.2
        exact ⟨v :: vs, .cons hv hvs⟩
    rw [flatBitCount_array] at hb
    obtain ⟨vs, hvs⟩ := hall ((range n).map fun i =>
      b.slice (i * t.flatBitCount) t.flatBitCount) (by simp)
    rw [length_map, length_range] at hvs
    have hlength := hvs.forall_of_replicate.1
    cases vs with
    | nil =>
      rw [← hlength] at ht
      exact absurd ht.1 (lt_irrefl 0)
    | cons v vs =>
      have hcodes := hvs.array
      rw [← slicesOf_replicate, concat_slicesOf, sum_replicate, smul_eq_mul,
        ← hb, slice_self] at hcodes
      exact ⟨_, hcodes⟩

theorem exists_codesAll_of_bits : ∀ {ts : List IrType} {xs : List Bits}, AllFlattenable ts →
    xs.map Bits.width = ts.map IrType.flatBitCount → ∃ vs, CodesAll ts vs xs
  | [], [], _, _ => ⟨[], .nil⟩
  | t :: ts, x :: xs, ht, hxs => by
    obtain ⟨hx, hrest⟩ := List.cons.inj hxs
    obtain ⟨v, hv⟩ := exists_codes_of_bits ht.1 hx
    obtain ⟨vs, hvs⟩ := exists_codesAll_of_bits ht.2 hrest
    exact ⟨v :: vs, .cons hv hvs⟩

end

/-! ### Elements -/

/-- The parts of the elements of a tuple. -/
theorem Codes.tupleElements (ht : AllFlattenable ts) (h : Codes (.tuple ts) (.tuple vs) b) :
    ∃ xs, CodesAll ts vs xs ∧ b = Bits.concat xs := by
  obtain ⟨xs, hxs⟩ := exists_codesAll_of_values ht h.hasType
  exact ⟨xs, hxs, ok.inj (h.flatten.symm.trans hxs.tuple.flatten)⟩

/-- The parts of the elements of an array. -/
theorem Codes.arrayElements (ht : Flattenable t) (h : Codes (.array n t) (.array v vs) b) :
    ∃ xs, CodesAll (replicate n t) (v :: vs) xs ∧ b = Bits.concat xs.reverse := by
  have htyped : ∀ u ∈ v :: vs, HasType t u := forall_mem_cons.mpr h.hasType.2
  obtain ⟨xs, hxs⟩ := exists_codesAll_of_forall fun u hu => exists_codes_of_value ht (htyped u hu)
  rw [length_cons, h.hasType.1] at hxs
  exact ⟨xs, hxs, ok.inj (h.flatten.symm.trans hxs.array.flatten)⟩

theorem CodesAll.getElem? (h : CodesAll ts vs xs) (hv : vs[i]? = some v) :
    ∃ t x, ts[i]? = some t ∧ xs[i]? = some x ∧ Codes t v x := by
  induction h generalizing i with
  | nil => simp at hv
  | @cons t u x ts vs xs h _ ih =>
    cases i with
    | zero =>
      cases hv
      exact ⟨t, x, rfl, rfl, h⟩
    | succ i => exact ih hv

/-- A part and what follows it lie within the total width. -/
theorem sum_drop_add_le {ws : List Nat} {w : Nat} (h : ws[i]? = some w) :
    (ws.drop (i + 1)).sum + w ≤ ws.sum := by
  induction ws generalizing i with
  | nil => simp at h
  | cons v ws ih =>
    cases i with
    | zero =>
      cases h
      rw [drop_succ_cons, drop_zero, sum_cons, Nat.add_comm]
    | succ i =>
      have := ih h
      rw [drop_succ_cons, sum_cons]
      omega

/-- The bits at the index of an element are the bits of the element. -/
theorem Codes.element (ht : Flattenable t) (h : Codes t v b) {u : KindedValue}
    (hu : (elements v)[i]? = some u) :
    ∃ te start, elementType t i = some te ∧ getFlatBitIndexOfElement t i = .ok start ∧
      start + te.flatBitCount ≤ b.width ∧ Codes te u (b.slice start te.flatBitCount) := by
  cases t with
  | bits w =>
    cases v with
    | bits c => simp [elements] at hu
    | _ => exact absurd h.hasType id
  | token => exact absurd ht id
  | tuple ts =>
    cases v with
    | tuple vs =>
      obtain ⟨xs, hxs, rfl⟩ := h.tupleElements ht
      obtain ⟨te, x, hte, hx, hcodes⟩ := hxs.getElem? hu
      have hlt := (List.getElem?_eq_some_iff.1 hte).1
      have hwidths := hxs.widths
      have hwi : (ts.map IrType.flatBitCount)[i]? = some te.flatBitCount := by
        rw [getElem?_map, hte]
        rfl
      have hslice := Bits.getElem?_slicesOf (Bits.concat xs) hwi
      rw [← hwidths, slicesOf_concat, hx, hwidths, ← map_drop] at hslice
      refine ⟨te, ((ts.drop (i + 1)).map IrType.flatBitCount).sum, hte, ?_, ?_, ?_⟩
      · rw [getFlatBitIndexOfElement, decide_eq_true hlt]
        rfl
      · rw [concat_width, hwidths, map_drop]
        exact sum_drop_add_le hwi
      · rw [← Option.some.inj hslice]
        exact hcodes
    | _ => exact absurd h.hasType id
  | array n te =>
    cases v with
    | array v vs =>
      obtain ⟨xs, hxs, rfl⟩ := h.arrayElements ht.2
      obtain ⟨te', x, hte, hx, hcodes⟩ := hxs.getElem? hu
      obtain ⟨hi, hte⟩ := List.getElem?_eq_some_iff.1 hte
      rw [getElem_replicate] at hte
      subst hte
      rw [length_replicate] at hi
      have hwidths : xs.map Bits.width = replicate n te.flatBitCount := by
        rw [hxs.widths, map_replicate]
      refine ⟨te, i * te.flatBitCount, rfl, ?_, ?_, ?_⟩
      · rw [getFlatBitIndexOfElement, decide_eq_true hi]
        rfl
      · rw [h.width, flatBitCount_array, ← Nat.succ_mul]
        exact Nat.mul_le_mul_right _ hi
      · rw [slice_concat_reverse hwidths hx]
        exact hcodes
    | _ => exact absurd h.hasType id

end Xls.Flattening
